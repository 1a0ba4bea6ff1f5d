import ConcurrencyCourse.Steal.Queue
import Mathlib.Data.List.Basic
import Mathlib.Data.List.TakeDrop

/-!
# `WorkStealingQueue`: every item is handed out once, in order

A consumer copies slots before it owns them and validates only with the CAS on `head_`. The
CAS compares with the `currentHead` loaded first, and `head_` only grows, so a CAS that
succeeds proves that `head_` was `currentHead` at every moment in between. Hence every
assertion about a consumer's locals has the form "*if* `head_` is still `currentHead`, then …"
(`OwnOk`, `ThiefOk`), and another thread's step can only make the premise false.

The producer reads `head_` once, in `IsFull`. A stale value is a smaller one, so the queue is at
most as full as the producer thinks.
-/

namespace Steal

open Transition

variable {ι α : Type} {c : Capacity}

/-- Calls of the owner. -/
def Begins : Act ι α → Prop
  | .push _ | .pop => True
  | _ => False

/-- The queue holds `Capacity` items. -/
def Full (c : Capacity) (s : State ι α) : Prop := s.q.tail = s.q.head + c.val

def Empty (s : State ι α) : Prop := s.q.head = s.q.tail

/-- What the owner's locals say; `full` and `empty` stand for "at some moment of this call". -/
def OwnOk (c : Capacity) (full empty : Prop) (q : Queue α) (pushed : List α) : Owner α → Prop
  | .idle | .pushFull _ | .popHead | .pushDone true | .popDone (some _) => True
  | .pushFullT _ t => t = q.tail
  | .pushFullH _ h => h ≤ q.head ∧ q.tail ≤ h + c.val ∧ (q.tail = h + c.val → full)
  | .pushTail _ => q.tail < q.head + c.val
  | .pushSlot _ t => t = q.tail ∧ q.tail < q.head + c.val
  | .pushPublish x t => t = q.tail ∧ q.tail < q.head + c.val ∧ q.buffer (c.toIndex t) = some x
  | .pushDone false => full
  | .popLoop h => h ≤ q.head
  | .popEmptyT h t => h ≤ q.head ∧ t = q.tail
  | .popEmptyH h h' => h ≤ h' ∧ h' ≤ q.head ∧ (h' = q.tail → empty)
  | .popItem h => h ≤ q.head ∧ (q.head = h → h < q.tail)
  | .popCas h x => h ≤ q.head ∧ (q.head = h → h < q.tail ∧ x = pushed[h]?)
  | .popDone none => empty

/-- What the locals of a thread in `Grab` say. -/
def ThiefOk (q : Queue α) (pushed : List α) : Thief α → Prop
  | .idle | .grabHead _ | .grabDone _ => True
  | .grabLoop _ h => h ≤ q.head
  | .countT _ h t => h ≤ q.head ∧ h ≤ t ∧ t ≤ q.tail
  | .countH _ h h' => h ≤ h' ∧ h' ≤ q.head
  | .grabCopy n h k out => h ≤ q.head ∧ out.length ≤ k ∧ k ≤ n ∧
      (q.head = h → h + k ≤ q.tail ∧ out = ((pushed.drop h).take out.length).map some)

/-- The invariant, over the state and its history. -/
structure Inv (c : Capacity) (h : History (State ι α) (Act ι α)) (s : State ι α) : Prop where
  le : s.q.head ≤ s.q.tail
  cap : s.q.tail ≤ s.q.head + c.val
  len : s.pushed.length = s.q.tail
  /-- The slots of the unconsumed items hold them. -/
  slots : ∀ p, s.q.head ≤ p → p < s.q.tail → s.q.buffer (c.toIndex p) = s.pushed[p]?
  taken : s.taken = (s.pushed.take s.q.head).map some
  own : OwnOk c (During Begins (Full c) h s) (During Begins Empty h s) s.q s.pushed s.own
  thief : ∀ i, ThiefOk s.q s.pushed (s.thief i)

/-! ## Indices -/

/-- Two positions less than `kRealCapacity` apart use different slots. -/
theorem Capacity.toIndex_ne {p t : Nat} (h : p < t) (h' : t ≤ p + c.val) :
    c.toIndex p ≠ c.toIndex t := by
  intro he
  unfold Capacity.toIndex at he
  have hd : (t - p) % (c.val + 1) = 0 := Nat.sub_mod_eq_zero_of_mod_eq he.symm
  have := Nat.le_of_dvd (by omega) (Nat.dvd_of_mod_eq_zero hd)
  omega

/-- Appending one item to the prefix that was handed out. -/
theorem take_map_some {l : List α} (n k : Nat) :
    (l.take n).map some ++ ((l.drop n).take k).map some = (l.take (n + k)).map some := by
  rw [← List.map_append, ← List.take_add]

theorem take_succ_map_some {l : List α} {n k : Nat} {x : Option α} (h : n + k < l.length)
    (hx : x = l[n + k]?) :
    ((l.drop n).take k).map some ++ [x] = ((l.drop n).take (k + 1)).map some := by
  rw [List.take_add_one, List.map_append, List.getElem?_drop, hx, List.getElem?_eq_getElem h]
  rfl

/-! ## Steps of other threads -/

/-- What any step does to the queue, seen by a thread that does not take it. -/
structure Grows (q : Queue α) (p : List α) (q' : Queue α) (p' : List α) : Prop where
  head : q.head ≤ q'.head
  tail : q.tail ≤ q'.tail
  pushed : p <+: p'

theorem Grows.refl (q : Queue α) (p : List α) : Grows q p q p :=
  ⟨Nat.le_refl _, Nat.le_refl _, List.prefix_rfl⟩

theorem ThiefOk.grows {q q' : Queue α} {p p' : List α} {l : Thief α} (h : ThiefOk q p l)
    (hlen : p.length = q.tail) (g : Grows q p q' p') : ThiefOk q' p' l := by
  obtain ⟨hh, ht, r, rfl⟩ := g
  cases l with
  | idle | grabHead _ | grabDone _ => trivial
  | grabLoop n ch => exact Nat.le_trans h hh
  | countT n ch t => exact ⟨Nat.le_trans h.1 hh, h.2.1, Nat.le_trans h.2.2 ht⟩
  | countH n ch h' => exact ⟨h.1, Nat.le_trans h.2 hh⟩
  | grabCopy n ch k out =>
    obtain ⟨h1, h2, h3, h4⟩ := h
    refine ⟨Nat.le_trans h1 hh, h2, h3, fun he => ?_⟩
    obtain ⟨h5, h6⟩ := h4 (by omega)
    refine ⟨by omega, ?_⟩
    rw [List.drop_append_of_le_length (by omega), List.take_append_of_le_length (by simp; omega)]
    exact h6

/-- A step of a thief leaves `tail_`, the slots and the pushed items alone. -/
theorem OwnOk.thief {full empty full' empty' : Prop} {q : Queue α} {n : Nat} {p : List α}
    {o : Owner α} (h : OwnOk c full empty q p o) (hn : q.head ≤ n) (hf : full → full')
    (he : empty → empty') : OwnOk c full' empty' { q with head := n } p o := by
  cases o with
  | idle | pushFull _ | popHead => trivial
  | pushFullT x t => exact h
  | pushFullH x hd => exact ⟨by have := h.1; simp only; omega, h.2.1, fun e => hf (h.2.2 e)⟩
  | pushTail x => simp only [OwnOk] at h ⊢; omega
  | pushSlot x t => exact ⟨h.1, by have := h.2; simp only; omega⟩
  | pushPublish x t => exact ⟨h.1, by have := h.2.1; simp only; omega, h.2.2⟩
  | pushDone b => cases b with
    | true => trivial
    | false => exact hf h
  | popLoop ch => simp only [OwnOk] at h ⊢; omega
  | popEmptyT ch t => exact ⟨by have := h.1; simp only; omega, h.2⟩
  | popEmptyH ch hd => exact ⟨h.1, by have := h.2.1; simp only; omega, fun e => he (h.2.2 e)⟩
  | popItem ch => exact ⟨by have := h.1; simp only; omega, fun e => h.2 (by have := h.1; simp only at e; omega)⟩
  | popCas ch x => exact ⟨by have := h.1; simp only; omega, fun e => h.2 (by have := h.1; simp only at e; omega)⟩
  | popDone r => cases r with
    | some _ => trivial
    | none => exact he h

variable {h : History (State ι α) (Act ι α)} {s s' : State ι α} {a : Act ι α}

/-- A step of the owner that touches no member of the queue. -/
theorem Inv.setOwn (hi : Inv c h s) {o : Owner α}
    (ho : OwnOk c (During Begins (Full c) ((a, s) :: h) { s with own := o })
      (During Begins Empty ((a, s) :: h) { s with own := o }) s.q s.pushed o) :
    Inv c ((a, s) :: h) { s with own := o } :=
  ⟨hi.le, hi.cap, hi.len, hi.slots, hi.taken, ho, hi.thief⟩

/-- A step of a thief that touches no member of the queue. -/
theorem Inv.setThief [DecidableEq ι] (hi : Inv c h s) (ha : ¬ Begins a) {i : ι} {l : Thief α}
    (hl : ThiefOk s.q s.pushed l) :
    Inv c ((a, s) :: h) { s with thief := Function.update s.thief i l } := by
  refine ⟨hi.le, hi.cap, hi.len, hi.slots, hi.taken, ?_, fun j => ?_⟩
  · exact hi.own.thief (Nat.le_refl _) (.later · ha) (.later · ha)
  · by_cases hj : j = i
    · subst hj; simpa using hl
    · simpa [hj] using hi.thief j

theorem not_begins_own (tf : Bool) : ¬ Begins (.own tf : Act ι α) := id
theorem not_begins_thief (i : ι) (tf : Bool) : ¬ Begins (.thief i tf : Act ι α) := id

/-! ## The owner's steps -/

theorem inv_own (hi : Inv c h s) {tf : Bool} (hs : ownStep c s tf = some s') :
    Inv c ((.own tf, s) :: h) s' := by
  have hb : ¬ Begins (.own tf : Act ι α) := not_begins_own tf
  have hfit := c.fits
  have ho := hi.own
  have hle := hi.le
  have hcap := hi.cap
  unfold ownStep at hs
  cases hl : s.own with
  | idle => simp [hl] at hs
  | pushFull x =>
    simp only [hl, Option.some.injEq] at hs; subst hs
    refine hi.setOwn ?_
    cases tf with
    | true => rfl
    | false => exact ⟨Nat.le_refl _, hcap, fun e => .now e⟩
  | pushFullT x t =>
    simp only [hl, Option.some.injEq] at hs; subst hs
    rw [hl] at ho
    refine hi.setOwn ?_
    simp only [OwnOk] at ho
    subst ho
    rw [subSize_of_le hle (by omega)]
    split
    · exact .now (by simp only [Full]; omega)
    · simp only [OwnOk]; omega
  | pushFullH x hd =>
    simp only [hl, Option.some.injEq] at hs; subst hs
    rw [hl] at ho
    refine hi.setOwn ?_
    obtain ⟨h1, h2, h3⟩ := ho
    rw [subSize_of_le (by omega) (by omega)]
    split
    · exact .later (h3 (by omega)) hb
    · simp only [OwnOk]; omega
  | pushTail x =>
    simp only [hl, Option.some.injEq] at hs; subst hs
    rw [hl] at ho
    exact hi.setOwn ⟨rfl, ho⟩
  | pushSlot x t =>
    simp only [hl, Option.some.injEq] at hs; subst hs
    rw [hl] at ho
    obtain ⟨rfl, h2⟩ := ho
    refine ⟨hle, hcap, hi.len, fun p hp hp' => ?_, hi.taken, ⟨rfl, h2, by simp⟩, hi.thief⟩
    -- the slot of an unconsumed item is not the one being written
    simp only at hp hp' ⊢
    rw [Function.update_of_ne (Capacity.toIndex_ne hp' (by omega))]
    exact hi.slots p hp hp'
  | pushPublish x t =>
    simp only [hl, Option.some.injEq] at hs; subst hs
    rw [hl] at ho
    obtain ⟨rfl, h2, h3⟩ := ho
    refine ⟨by simp only; omega, by simp only; omega, by simp [hi.len], fun p hp hp' => ?_, ?_,
      trivial, fun i => ?_⟩
    · simp only at hp hp' ⊢
      by_cases he : p = s.q.tail
      · subst he; rw [h3, ← hi.len]; simp
      · rw [hi.slots p hp (by omega), List.getElem?_append_left (by rw [hi.len]; omega)]
    · simp only [hi.taken]
      rw [List.take_append_of_le_length (by rw [hi.len]; omega)]
    · exact (hi.thief i).grows hi.len ⟨Nat.le_refl _, by simp only; omega, List.prefix_append _ _⟩
  | pushDone b =>
    simp only [hl, Option.some.injEq] at hs; subst hs
    exact hi.setOwn trivial
  | popHead =>
    simp only [hl, Option.some.injEq] at hs; subst hs
    exact hi.setOwn (Nat.le_refl _)
  | popLoop ch =>
    simp only [hl, Option.some.injEq] at hs; subst hs
    rw [hl] at ho
    refine hi.setOwn ?_
    cases tf with
    | true => exact ⟨ho, rfl⟩
    | false => exact ⟨ho, Nat.le_refl _, fun e => .now e⟩
  | popEmptyT ch t =>
    simp only [hl, Option.some.injEq] at hs; subst hs
    rw [hl] at ho
    refine hi.setOwn ?_
    obtain ⟨h1, rfl⟩ := ho
    split
    · rename_i he; exact .now he
    · exact ⟨h1, fun e => by omega⟩
  | popEmptyH ch hd =>
    simp only [hl, Option.some.injEq] at hs; subst hs
    rw [hl] at ho
    refine hi.setOwn ?_
    obtain ⟨h1, h2, h3⟩ := ho
    split
    · rename_i he; exact .later (h3 he) hb
    · exact ⟨by omega, fun e => by omega⟩
  | popItem ch =>
    simp only [hl, Option.some.injEq] at hs; subst hs
    rw [hl] at ho
    refine hi.setOwn ⟨ho.1, fun e => ⟨ho.2 e, ?_⟩⟩
    exact hi.slots ch (by omega) (ho.2 e)
  | popCas ch x =>
    simp only [hl] at hs
    rw [hl] at ho
    split at hs
    · rename_i he
      simp only [Option.some.injEq] at hs; subst hs
      obtain ⟨h1, rfl⟩ := ho.2 he
      refine ⟨by simp only; omega, by simp only; omega, hi.len, fun p hp hp' => ?_, ?_, ?_,
        fun i => ?_⟩
      · exact hi.slots p (by simp only at hp; omega) hp'
      · simp only
        rw [hi.taken, List.take_add_one, List.map_append, he,
          List.getElem?_eq_getElem (by rw [hi.len]; exact h1)]
        rfl
      · rw [List.getElem?_eq_getElem (by rw [hi.len]; exact h1)]; trivial
      · exact (hi.thief i).grows hi.len ⟨by simp only; omega, Nat.le_refl _, List.prefix_rfl⟩
    · simp only [Option.some.injEq] at hs; subst hs
      exact hi.setOwn (Nat.le_refl _)
  | popDone r =>
    simp only [hl, Option.some.injEq] at hs; subst hs
    exact hi.setOwn trivial

/-! ## The steps of `Grab` -/

/-- `CountElements` underflows only if `head_` has moved since `currentHead` was loaded. -/
theorem counted_ok {q : Queue α} {p : List α} {n ch cnt : Nat} (h : ch ≤ q.head)
    (hc : q.head = ch → ch + cnt ≤ q.tail) : ThiefOk q p (counted n ch cnt) := by
  unfold counted
  split
  · trivial
  · refine ⟨h, Nat.zero_le _, by split <;> omega, fun he => ⟨?_, rfl⟩⟩
    have := hc he
    split <;> omega

theorem inv_thief [DecidableEq ι] (hi : Inv c h s) {i : ι} {tf : Bool} (hs : thiefStep c s i tf = some s') :
    Inv c ((.thief i tf, s) :: h) s' := by
  have hb : ¬ Begins (.thief i tf : Act ι α) := not_begins_thief i tf
  have hfit := c.fits
  have hl' := hi.thief i
  have hle := hi.le
  have hcap := hi.cap
  unfold thiefStep at hs
  cases hl : s.thief i with
  | idle => simp [hl] at hs
  | grabHead n =>
    simp only [hl, Option.some.injEq] at hs; subst hs
    exact hi.setThief hb (Nat.le_refl _)
  | grabLoop n ch =>
    simp only [hl, Option.some.injEq] at hs; subst hs
    rw [hl] at hl'
    refine hi.setThief hb ?_
    cases tf with
    | true => exact ⟨hl', Nat.le_trans hl' hle, Nat.le_refl _⟩
    | false => exact ⟨hl', Nat.le_refl _⟩
  | countT n ch t =>
    simp only [hl, Option.some.injEq] at hs; subst hs
    rw [hl] at hl'
    obtain ⟨h1, h2, h3⟩ := hl'
    refine hi.setThief hb (counted_ok h1 fun he => ?_)
    rw [he, subSize_of_le h2 (by omega)]; omega
  | countH n ch hd =>
    simp only [hl, Option.some.injEq] at hs; subst hs
    rw [hl] at hl'
    obtain ⟨h1, h2⟩ := hl'
    refine hi.setThief hb (counted_ok (by omega) fun he => ?_)
    rw [subSize_of_le (by omega) (by omega)]; omega
  | grabCopy n ch k out =>
    simp only [hl] at hs
    rw [hl] at hl'
    obtain ⟨h1, h2, h3, h4⟩ := hl'
    split at hs
    · -- one more slot is copied
      rename_i hlt
      simp only [Option.some.injEq] at hs; subst hs
      refine hi.setThief hb ⟨h1, by simp; omega, h3, fun he => ?_⟩
      obtain ⟨h5, h6⟩ := h4 he
      refine ⟨h5, ?_⟩
      rw [List.length_append, List.length_singleton, ← take_succ_map_some
        (by rw [hi.len]; omega) (hi.slots (ch + out.length) (by omega) (by omega)), ← h6]
    · split at hs
      · -- the CAS succeeds: `head_` has been `currentHead` all along
        rename_i hlt he
        simp only [Option.some.injEq] at hs; subst hs
        obtain ⟨h5, h6⟩ := h4 he
        have hk : out.length = k := by omega
        rw [hk] at h6
        refine ⟨by simp only; omega, by simp only; omega, hi.len, fun p hp hp' => ?_, ?_, ?_,
          fun j => ?_⟩
        · exact hi.slots p (by simp only at hp; omega) hp'
        · simp only
          rw [hi.taken, he, h6, take_map_some]
        · exact hi.own.thief (by omega) (.later · hb) (.later · hb)
        · by_cases hj : j = i
          · subst hj; simp [ThiefOk]
          · simp only [Function.update_of_ne hj]
            exact (hi.thief j).grows hi.len ⟨by simp only; omega, Nat.le_refl _, List.prefix_rfl⟩
      · simp only [Option.some.injEq] at hs; subst hs
        exact hi.setThief hb (Nat.le_refl _)
  | grabDone out =>
    simp only [hl, Option.some.injEq] at hs; subst hs
    exact hi.setThief hb trivial

/-! ## Every run -/

theorem inv_init : Inv c [] (init : State ι α) where
  le := Nat.le_refl _
  cap := Nat.zero_le _
  len := rfl
  slots := fun _ _ h => absurd h (Nat.not_lt_zero _)
  taken := rfl
  own := trivial
  thief := fun _ => trivial

variable [DecidableEq ι]

theorem inv_step (hi : Inv c h s) (hs : step c s a = some s') : Inv c ((a, s) :: h) s' := by
  cases a with
  | push x =>
    simp only [step] at hs
    split at hs
    · simp only [Option.some.injEq] at hs; subst hs; exact hi.setOwn trivial
    · cases hs
  | pop =>
    simp only [step] at hs
    split at hs
    · simp only [Option.some.injEq] at hs; subst hs; exact hi.setOwn trivial
    · cases hs
  | own tf => exact inv_own hi hs
  | grab i n =>
    simp only [step] at hs
    split at hs
    · simp only [Option.some.injEq] at hs; subst hs; exact hi.setThief id trivial
    · cases hs
  | thief i tf => exact inv_thief hi hs

theorem inv_of_run (r : Run (system ι α c) anyStep h s) : Inv c h s :=
  r.invariant (fun _ hs => hs ▸ inv_init) fun _ _ _ _ hi _ hs => inv_step hi hs

end Steal
