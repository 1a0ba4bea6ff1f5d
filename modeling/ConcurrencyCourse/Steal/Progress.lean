import ConcurrencyCourse.Lib.Progress
import ConcurrencyCourse.Lib.Threads
import ConcurrencyCourse.Steal.Queue

/-!
# `WorkStealingQueue` is lock-free (lockfree/steal/work_stealing_queue.hpp)

`TryPop` and `Grab` retry when somebody has moved `head_` since they read it. While nobody's call gets its result,
`head_` and `tail_` stay: who has read the current `head_` wins the CAS, and who has not reads it before the next try.
A `Grab` may take any number of steps for a try, as many as its buffer has slots.
-/

namespace Steal

open Transition Threads Function

variable {ι α : Type}

/-- The result of the owner's call is known. -/
def Owner.done : Owner α → Bool
  | .pushDone _ | .popDone _ => true
  | _ => false

def Thief.done : Thief α → Bool
  | .grabDone _ => true
  | _ => false

/-- No call, or its result is known. -/
def Thief.rests : Thief α → Bool
  | .idle | .grabDone _ => true
  | _ => false

section steps

variable [DecidableEq ι]

/-- A call gets its result. -/
def completes (c : Capacity) (s : State ι α) : Act ι α → Prop
  | .own tailFirst => ∃ s', ownStep c s tailFirst = some s' ∧ s'.own.done = true
  | .thief i tailFirst => ∃ s', thiefStep c s i tailFirst = some s' ∧ (s'.thief i).done = true
  | _ => False

end steps

/-! ### What is left to do -/

/-- `again` more steps for who has read another `head_`. -/
def retry (q : Queue α) (h again : Nat) : Nat := if q.head = h then 0 else again

def ownRank (q : Queue α) : Owner α → Nat
  | .pushDone _ | .popDone _ => 12
  | .idle => 11
  | .pushFull _ => 5
  | .pushFullT _ _ | .pushFullH _ _ => 4
  | .pushTail _ => 3
  | .pushSlot _ _ => 2
  | .pushPublish _ _ => 1
  | .popHead => 5
  | .popLoop h => 4 + retry q h 5
  | .popEmptyT h _ | .popEmptyH h _ => 3 + retry q h 5
  | .popItem h => 2 + retry q h 5
  | .popCas h _ => 1 + retry q h 5

def thiefRank (q : Queue α) : Thief α → Nat
  | .grabDone _ => 1
  | .idle => 0
  | .grabHead n => n + 5
  | .grabLoop n h => n + 4 + retry q h (n + 5)
  | .countT n h _ | .countH n h _ => n + 3 + retry q h (n + 5)
  | .grabCopy n h k out => k - out.length + 1 + retry q h (n + 5)

/-- The owner is `none`. -/
def rank (s : State ι α) : Option ι → Nat
  | none => ownRank s.q s.own
  | some i => thiefRank s.q (s.thief i)

section ranks

variable {q q' : Queue α}

theorem retry_head (q : Queue α) (again : Nat) : retry q q.head again = 0 := if_pos rfl

theorem retry_of_ne {h again : Nat} (hne : q.head ≠ h) : retry q h again = again := if_neg hne

theorem thiefRank_head (h : q'.head = q.head) (l : Thief α) : thiefRank q' l = thiefRank q l := by
  cases l <;> simp only [thiefRank, retry, h]

end ranks

/-! ### A step that completes nothing -/

section quiet

variable {c : Capacity} {s s' : State ι α}

theorem ownStep_quiet {tf : Bool} (hs : ownStep c s tf = some s') (hq : s'.own.done = false) :
    s'.q.head = s.q.head ∧ s'.thief = s.thief ∧ ownRank s'.q s'.own < ownRank s.q s.own := by
  unfold ownStep at hs
  cases ho : s.own with
  | idle =>
    rw [ho] at hs
    cases hs
  | pushFull x =>
    rw [ho] at hs
    obtain rfl := Option.some.inj hs
    refine ⟨rfl, rfl, ?_⟩
    change ownRank s.q (if tf then _ else _) < _
    split <;> exact Nat.lt_succ_self 4
  | pushFullT x t =>
    rw [ho] at hs
    obtain rfl := Option.some.inj hs
    replace hq : Owner.done (if subSize t s.q.head = c.val then .pushDone false else .pushTail x) = false := hq
    refine ⟨rfl, rfl, ?_⟩
    change ownRank s.q (if subSize t s.q.head = c.val then _ else _) < _
    split at hq
    · cases hq
    · next hfull =>
      rw [if_neg hfull]
      exact Nat.lt_succ_self 3
  | pushFullH x h =>
    rw [ho] at hs
    obtain rfl := Option.some.inj hs
    replace hq : Owner.done (if subSize s.q.tail h = c.val then .pushDone false else .pushTail x) = false := hq
    refine ⟨rfl, rfl, ?_⟩
    change ownRank s.q (if subSize s.q.tail h = c.val then _ else _) < _
    split at hq
    · cases hq
    · next hfull =>
      rw [if_neg hfull]
      exact Nat.lt_succ_self 3
  | pushTail x =>
    rw [ho] at hs
    obtain rfl := Option.some.inj hs
    exact ⟨rfl, rfl, Nat.lt_succ_self 2⟩
  | pushSlot x t =>
    rw [ho] at hs
    obtain rfl := Option.some.inj hs
    exact ⟨rfl, rfl, Nat.lt_succ_self 1⟩
  | pushPublish x t =>
    rw [ho] at hs
    obtain rfl := Option.some.inj hs
    cases hq
  | pushDone ok =>
    rw [ho] at hs
    obtain rfl := Option.some.inj hs
    exact ⟨rfl, rfl, Nat.lt_succ_self 11⟩
  | popHead =>
    rw [ho] at hs
    obtain rfl := Option.some.inj hs
    refine ⟨rfl, rfl, ?_⟩
    change 4 + retry s.q s.q.head 5 < 5
    rw [retry_head]
    omega
  | popLoop h =>
    rw [ho] at hs
    obtain rfl := Option.some.inj hs
    refine ⟨rfl, rfl, ?_⟩
    change ownRank s.q (if tf then _ else _) < 4 + retry s.q h 5
    split <;> exact Nat.add_lt_add_right (Nat.lt_succ_self 3) _
  | popEmptyT h t =>
    rw [ho] at hs
    obtain rfl := Option.some.inj hs
    replace hq : Owner.done (if s.q.head = t then .popDone none else .popItem h : Owner α) = false := hq
    refine ⟨rfl, rfl, ?_⟩
    change ownRank s.q (if s.q.head = t then _ else _) < 3 + retry s.q h 5
    split at hq
    · cases hq
    · next hempty =>
      rw [if_neg hempty]
      exact Nat.add_lt_add_right (Nat.lt_succ_self 2) _
  | popEmptyH h h' =>
    rw [ho] at hs
    obtain rfl := Option.some.inj hs
    replace hq : Owner.done (if h' = s.q.tail then .popDone none else .popItem h : Owner α) = false := hq
    refine ⟨rfl, rfl, ?_⟩
    change ownRank s.q (if h' = s.q.tail then _ else _) < 3 + retry s.q h 5
    split at hq
    · cases hq
    · next hempty =>
      rw [if_neg hempty]
      exact Nat.add_lt_add_right (Nat.lt_succ_self 2) _
  | popItem h =>
    rw [ho] at hs
    obtain rfl := Option.some.inj hs
    exact ⟨rfl, rfl, Nat.add_lt_add_right (Nat.lt_succ_self 1) _⟩
  | popCas h x =>
    rw [ho] at hs
    simp only at hs
    split at hs
    · obtain rfl := Option.some.inj hs
      cases hq
    · next hne =>
      obtain rfl := Option.some.inj hs
      refine ⟨rfl, rfl, ?_⟩
      change 4 + retry s.q s.q.head 5 < 1 + retry s.q h 5
      rw [retry_head, retry_of_ne hne]
      omega
  | popDone r =>
    rw [ho] at hs
    obtain rfl := Option.some.inj hs
    exact ⟨rfl, rfl, Nat.lt_succ_self 11⟩

/-- `CountElements` has returned a number other than 0. -/
theorem counted_rank {q : Queue α} {n h count : Nat} (hq : (counted n h count : Thief α).done = false) :
    (counted n h count : Thief α).rests = false ∧
      thiefRank q (counted n h count : Thief α) < n + 3 + retry q h (n + 5) := by
  unfold counted at hq ⊢
  split at hq
  · cases hq
  · next hne =>
    rw [if_neg hne]
    refine ⟨rfl, ?_⟩
    simp only [thiefRank, List.length_nil]
    split <;> omega

variable [DecidableEq ι]

/-- A quiet step of a `Grab`; or its thread takes note of the result. -/
theorem thiefStep_quiet {i : ι} {tf : Bool} (hs : thiefStep c s i tf = some s') (hq : (s'.thief i).done = false) :
    s'.q = s.q ∧ s'.own = s.own ∧ ∃ l, s'.thief = update s.thief i l ∧ l.rests = (s.thief i).rests ∧
      thiefRank s.q l < thiefRank s.q (s.thief i) := by
  unfold thiefStep at hs
  cases hl : s.thief i with
  | idle =>
    rw [hl] at hs
    cases hs
  | grabHead n =>
    rw [hl] at hs
    obtain rfl := Option.some.inj hs
    refine ⟨rfl, rfl, _, rfl, rfl, ?_⟩
    change n + 4 + retry s.q s.q.head (n + 5) < n + 5
    rw [retry_head]
    omega
  | grabLoop n h =>
    rw [hl] at hs
    obtain rfl := Option.some.inj hs
    refine ⟨rfl, rfl, _, rfl, ?_, ?_⟩
    · split <;> rfl
    · change thiefRank s.q (if tf then _ else _) < n + 4 + retry s.q h (n + 5)
      split <;> exact Nat.add_lt_add_right (Nat.lt_succ_self (n + 3)) _
  | countT n h t =>
    rw [hl] at hs
    obtain rfl := Option.some.inj hs
    have hnext : (update s.thief i (counted n h (subSize t s.q.head)) i).done = false := hq
    rw [update_self] at hnext
    obtain ⟨hrests, hrank⟩ := counted_rank (q := s.q) hnext
    exact ⟨rfl, rfl, _, rfl, hrests, hrank⟩
  | countH n h h' =>
    rw [hl] at hs
    obtain rfl := Option.some.inj hs
    have hnext : (update s.thief i (counted n h (subSize s.q.tail h')) i).done = false := hq
    rw [update_self] at hnext
    obtain ⟨hrests, hrank⟩ := counted_rank (q := s.q) hnext
    exact ⟨rfl, rfl, _, rfl, hrests, hrank⟩
  | grabCopy n h k out =>
    rw [hl] at hs
    simp only at hs
    split at hs
    · next hlt =>
      obtain rfl := Option.some.inj hs
      refine ⟨rfl, rfl, _, rfl, rfl, ?_⟩
      simp only [thiefRank, List.length_append, List.length_singleton]
      omega
    · split at hs
      · obtain rfl := Option.some.inj hs
        have hdone : (update s.thief i (.grabDone out) i).done = false := hq
        rw [update_self] at hdone
        cases hdone
      · next hne =>
        obtain rfl := Option.some.inj hs
        refine ⟨rfl, rfl, _, rfl, rfl, ?_⟩
        change n + 4 + retry s.q s.q.head (n + 5) < k - out.length + 1 + retry s.q h (n + 5)
        rw [retry_head, retry_of_ne hne]
        omega
  | grabDone out =>
    rw [hl] at hs
    obtain rfl := Option.some.inj hs
    exact ⟨rfl, rfl, _, rfl, rfl, Nat.lt_succ_self 0⟩

end quiet

section progress

variable [DecidableEq ι] [Fintype ι] {c : Capacity}

omit [DecidableEq ι] in
/-- A `Grab` that begins may have any number of slots to fill. -/
def resting (s : State ι α) : Nat := count (fun l => l.rests = true) s.thief

theorem quiet_step {s s' : State ι α} {a : Act ι α} (hc : ¬ completes c s a) (hs : step c s a = some s') :
    resting s' < resting s ∨ resting s' = resting s ∧
      ∃ i, rank s' i < rank s i ∧ ∀ j, j ≠ i → rank s' j ≤ rank s j := by
  cases a with
  | push x =>
    simp only [step] at hs
    split at hs
    · next ho =>
      obtain rfl := Option.some.inj hs
      refine .inr ⟨rfl, none, ?_, fun j hj => ?_⟩
      · change 5 < ownRank s.q s.own
        rw [ho]
        exact Nat.lt_add_left 5 (Nat.lt_succ_self 5)
      · cases j with
        | none => exact absurd rfl hj
        | some i => exact Nat.le_refl _
    · cases hs
  | pop =>
    simp only [step] at hs
    split at hs
    · next ho =>
      obtain rfl := Option.some.inj hs
      refine .inr ⟨rfl, none, ?_, fun j hj => ?_⟩
      · change 5 < ownRank s.q s.own
        rw [ho]
        exact Nat.lt_add_left 5 (Nat.lt_succ_self 5)
      · cases j with
        | none => exact absurd rfl hj
        | some i => exact Nat.le_refl _
    · cases hs
  | grab i n =>
    simp only [step] at hs
    split at hs
    · next hl =>
      obtain rfl := Option.some.inj hs
      refine .inl ?_
      have hcount : count (fun l => l.rests = true) (update s.thief i (.grabHead n)) + 1 =
          count (fun l => l.rests = true) s.thief := count_update_leave (by rw [hl]; rfl) (by rintro ⟨⟩)
      exact Nat.lt_of_succ_le hcount.le
    · cases hs
  | own tf =>
    have hs : ownStep c s tf = some s' := hs
    obtain ⟨hhead, hthief, hrank⟩ := ownStep_quiet hs (Bool.eq_false_of_not_eq_true fun h => hc ⟨s', hs, h⟩)
    refine .inr ⟨by rw [resting, hthief, resting], none, hrank, fun j hj => ?_⟩
    cases j with
    | none => exact absurd rfl hj
    | some i =>
      change thiefRank s'.q (s'.thief i) ≤ thiefRank s.q (s.thief i)
      rw [hthief, thiefRank_head hhead]
  | thief i tf =>
    have hs : thiefStep c s i tf = some s' := hs
    obtain ⟨hq, hown, l, hthief, hrests, hrank⟩ :=
      thiefStep_quiet hs (Bool.eq_false_of_not_eq_true fun h => hc ⟨s', hs, h⟩)
    refine .inr ⟨by rw [resting, hthief, count_update_same (by rw [hrests]), resting], some i, ?_, fun j hj => ?_⟩
    · change thiefRank s'.q (s'.thief i) < _
      rwa [hq, hthief, update_self]
    · cases j with
      | none =>
        change ownRank s'.q s'.own ≤ ownRank s.q s.own
        rw [hq, hown]
      | some j =>
        change thiefRank s'.q (s'.thief j) ≤ thiefRank s.q (s.thief j)
        rw [hq, hthief, update_of_ne fun h => hj (congrArg some h)]

def potential (c : Capacity) :
    Potential (system ι α c) (fun s a => ¬ completes c s a ∧ ¬ False) (Option ι) where
  shared := resting
  rank := rank
  step _ _ _ _ hq hs := quiet_step hq.1 hs

variable (ι α) in
/-- Whatever the owner and the thieves do, as long as they take steps their calls get results. -/
theorem calls_lock_free (c : Capacity) : LockFree (system ι α c) (completes c) fun _ _ => False :=
  (potential (ι := ι) (α := α) c).lockFree

end progress

/-! ### Rounds of `TryPush`, `TryPop` and `Grab` -/

/-- The queue is empty, and nobody is in a call. -/
structure AtRest (s : State (Fin 1) Nat) : Prop where
  tail : s.q.tail = s.q.head
  own : s.own = .idle
  thief : ∀ i, s.thief i = .idle

/-- The owner pushes 7 and 8. A thief has copied the slot of 7 when the owner pops 7; its CAS fails, and it takes 8. -/
def pushPopAndGrab : List (Act (Fin 1) Nat) :=
  .push 7 :: List.replicate 6 (.own true) ++ .push 8 :: List.replicate 6 (.own true) ++
    .grab 0 1 :: List.replicate 4 (.thief 0 true) ++ .pop :: List.replicate 6 (.own true) ++
    List.replicate 6 (.thief 0 true)

theorem AtRest.round {s : State (Fin 1) Nat} (h : AtRest s) :
    Leads (system (Fin 1) Nat ⟨3, by decide⟩) noCheck s AtRest := by
  obtain ⟨⟨head, tail, buffer⟩, own, thief, pushed, taken⟩ := s
  obtain ⟨htail, hown, hthief⟩ := h
  dsimp only at htail hown hthief
  subst htail hown
  obtain rfl : thief = fun _ => .idle := funext hthief
  have hnone : ∀ n, subSize n n = 0 := fun n => (subSize_of_le le_rfl (by omega)).trans (Nat.sub_self n)
  have hone : ∀ n, subSize (n + 1) n = 1 := fun n => (subSize_of_le (Nat.le_succ n) (by omega)).trans (by omega)
  have htwo : ∀ n, subSize (n + 1 + 1) n = 2 := fun n => (subSize_of_le (by omega) (by omega)).trans (by omega)
  have hfull : ∀ n : Nat, n ≠ n + 1 + 1 := fun n => by omega
  refine ⟨pushPopAndGrab, ?_⟩
  simp [pushPopAndGrab, exec_cons, exec_nil, noCheck, system, step, ownStep, thiefStep, counted, hnone, hone, htwo,
    hfull, List.replicate]
  refine ⟨rfl, rfl, fun i => ?_⟩
  obtain rfl : i = 0 := Subsingleton.elim ..
  rfl

/-- The owner and a thief in each other's way, forever. -/
theorem pushes_pops_and_grabs_forever : ∃ r : Infinite (system (Fin 1) Nat ⟨3, by decide⟩),
    r.state 0 = init ∧ ∀ n, ∃ m, n ≤ m ∧ completes ⟨3, by decide⟩ (r.state m) (r.act m) := by
  obtain ⟨r, h0, -⟩ := Infinite.of_rounds (fun _ => AtRest.round) (.init rfl) (⟨rfl, rfl, fun _ => rfl⟩ : AtRest init)
  exact ⟨r, h0, calls_lock_free (Fin 1) Nat ⟨3, by decide⟩ r ⟨0, fun _ _ => id⟩⟩

end Steal
