import ConcurrencyCourse.MSQueue.Queue
import Mathlib.Data.List.Nodup
import Mathlib.Data.List.Infix
import Mathlib.Algebra.Group.Nat.Defs

/-!
# The lock-free queue: the chain of nodes

`QInv` ties the queue to its histories: `head_` is node number `taken` of `chain`, the `next`
fields follow `chain`, `tail_` is some node of it, and the nodes behind `head_` hold the values
that were not taken yet. `tail_` may lag behind, and it may even move backwards: nothing else
is known about it.

`PutOk` and `TakeOk` say what a thread knows about the queue from its program counter. A step
of a `Put` does one of three things (`PutEffect`); what it leaves alone is `Grows` and `TakeKeeps`,
which keep `PutOk` and `TakeOk` of the other threads.
-/

namespace MSQueue

open Function

variable {T : Type}

structure QInv (q : Queue T) : Prop where
  nodup : q.chain.Nodup
  lt : ∀ n ∈ q.chain, n < q.allocs
  head : q.head = q.chain[q.taken]?
  taken_lt : q.taken < q.chain.length
  next : ∀ i n, q.chain[i]? = some n → (q.nodes n).next = q.chain[i + 1]?
  tail : ∃ t ∈ q.chain, q.tail = some t
  len : q.chain.length = q.values.length + 1
  vals : ∀ i n, q.taken ≤ i → q.chain[i + 1]? = some n → (q.nodes n).value = q.values[i]?
  size : (q.size.toNat + q.removed) % 2 ^ 64 = q.added % 2 ^ 64

/-- A node that is not linked yet. -/
structure Private (q : Queue T) (n : Nat) : Prop where
  lt : n < q.allocs
  notMem : n ∉ q.chain
  next : (q.nodes n).next = none
  value : (q.nodes n).value.isSome

/-- What a `Put` knows about the queue. -/
def PutOk (q : Queue T) : PutPc → Prop
  | .loadTail n => Private q n
  | .readNext n t | .link n t => Private q n ∧ t ∈ q.chain
  | .readNext2 n t => Private q n ∧ t ∈ q.chain ∧ (q.nodes t).next ≠ none
  | .help n t next => Private q n ∧ t ∈ q.chain ∧ (q.nodes t).next = next ∧ next ≠ none
  | .swing n => n ∈ q.chain
  | .bump | .done => True

/-- What the only `Take` in progress knows about the queue. -/
def TakeOk (q : Queue T) : TakePc T → Prop
  | .loadHead | .done none => True
  | .readNext h => q.head = some h
  | .readNext2 h => q.head = some h ∧ (q.nodes h).next ≠ none
  | .casHead h next => q.head = some h ∧ next = (q.nodes h).next ∧ next ≠ none
  | .readNext3 h => ∃ j, q.taken = j + 1 ∧ q.chain[j]? = some h ∧
      ∀ n, q.chain[j + 1]? = some n → (q.nodes n).value = q.values[j]?
  | .moveValue h nh => ∃ j, q.taken = j + 1 ∧ q.chain[j]? = some h ∧ q.chain[j + 1]? = some nh ∧
      (q.nodes nh).value = q.values[j]?
  | .retire h item => ∃ j, q.taken = j + 1 ∧ q.chain[j]? = some h ∧ q.values[j]? = some item
  | .subSize item | .done (some item) => ∃ j, q.taken = j + 1 ∧ q.values[j]? = some item

/-! ## The chain -/

section chain

variable {q : Queue T}

theorem QInv.mem_of_next (hi : QInv q) {t m : Nat} (ht : t ∈ q.chain)
    (hm : (q.nodes t).next = some m) : m ∈ q.chain := by
  obtain ⟨i, hi'⟩ := List.mem_iff_getElem?.1 ht
  rw [hi.next i t hi'] at hm
  exact List.mem_of_getElem? hm

theorem QInv.index_eq (hi : QInv q) {i j n : Nat} (h1 : q.chain[i]? = some n)
    (h2 : q.chain[j]? = some n) : i = j := by
  obtain ⟨hl, -⟩ := List.getElem?_eq_some_iff.1 h1
  exact (List.getElem?_inj hl hi.nodup).1 (h1.trans h2.symm)

/-- The node without a successor is the last one. -/
theorem QInv.last (hi : QInv q) {t i : Nat} (ht : q.chain[i]? = some t)
    (hn : (q.nodes t).next = none) : i + 1 = q.chain.length := by
  rw [hi.next i t ht, List.getElem?_eq_none_iff] at hn
  obtain ⟨h, -⟩ := List.getElem?_eq_some_iff.1 ht
  omega

/-- The node behind `head_` is there as long as a value is. -/
theorem QInv.next_head (hi : QInv q) {h : Nat} (hh : q.head = some h) :
    (q.nodes h).next = none ↔ q.values.length ≤ q.taken := by
  rw [hi.head] at hh
  rw [hi.next _ _ hh, List.getElem?_eq_none_iff, hi.len]
  omega

theorem QInv.taken_le (hi : QInv q) : q.taken ≤ q.values.length := by
  have h1 := hi.taken_lt
  have h2 := hi.len
  omega

theorem QInv.empty : QInv (Queue.empty : Queue T) where
  nodup := by simp [Queue.empty]
  lt n hn := by simp [Queue.empty] at hn ⊢; exact hn
  head := rfl
  taken_lt := by simp [Queue.empty]
  next i n h := by simp [Queue.empty]
  tail := ⟨0, by simp [Queue.empty], rfl⟩
  len := rfl
  vals i n _ h := by simp [Queue.empty] at h
  size := rfl

theorem QInv.setTail (hi : QInv q) {t : Nat} (ht : t ∈ q.chain) : QInv (q.setTail (some t)) :=
  { hi with tail := ⟨t, ht, rfl⟩ }

theorem QInv.addSize (hi : QInv q) : QInv q.addSize := by
  have hsize := hi.size
  refine { hi with size := ?_ }
  simp only [Queue.addSize, UInt64.toNat_add, UInt64.toNat_one]
  omega

theorem QInv.subSize (hi : QInv q) : QInv q.subSize := by
  have hsize := hi.size
  refine { hi with size := ?_ }
  simp only [Queue.subSize, UInt64.toNat_sub, UInt64.toNat_one]
  omega

theorem newNodeAt_of_mem {a : Nat} (ha : a ∉ q.chain) (item : T) {n : Nat} (hn : n ∈ q.chain) :
    (q.newNodeAt a item).nodes n = q.nodes n :=
  update_of_ne (ne_of_mem_of_not_mem hn ha) ..

/-- Writes to nodes outside the chain. -/
theorem QInv.newNodeAt (hi : QInv q) {a : Nat} (ha : a ∉ q.chain) (item : T) :
    QInv (q.newNodeAt a item) :=
  { hi with
    next := fun i n h => by
      rw [newNodeAt_of_mem ha item (List.mem_of_getElem? h)]; exact hi.next i n h
    vals := fun i n h1 h2 => by
      rw [newNodeAt_of_mem ha item (List.mem_of_getElem? h2)]; exact hi.vals i n h1 h2 }

theorem QInv.allocs_notMem (hi : QInv q) : q.allocs ∉ q.chain := fun h =>
  Nat.lt_irrefl _ (hi.lt _ h)

theorem QInv.newNode (hi : QInv q) (item : T) : QInv (q.newNode item) :=
  { hi.newNodeAt hi.allocs_notMem item with lt := fun n hn => Nat.lt_succ_of_lt (hi.lt n hn) }

theorem QInv.advance (hi : QInv q) {h : Nat} (hh : q.head = some h)
    (hn : (q.nodes h).next ≠ none) : QInv (q.advance (q.nodes h).next) := by
  rw [hi.head] at hh
  have hnext := hi.next _ _ hh
  rw [hnext, ne_eq, List.getElem?_eq_none_iff, not_le] at hn
  exact { hi with head := hnext, taken_lt := hn, vals := fun i n h1 h2 => hi.vals i n (by
    simp only [Queue.advance] at h1; omega) h2 }

theorem QInv.moveOut (hi : QInv q) {n : Nat} (hn : q.chain[q.taken]? = some n) :
    QInv (q.moveOut n) where
  nodup := hi.nodup
  lt := hi.lt
  head := hi.head
  taken_lt := hi.taken_lt
  next i m h := by
    refine Eq.trans ?_ (hi.next i m h)
    by_cases hm : m = n
    · subst hm; simp [Queue.moveOut]
    · simp [Queue.moveOut, hm]
  tail := hi.tail
  len := hi.len
  vals i m h1 h2 := by
    have h1 : q.taken ≤ i := h1
    have h2 : q.chain[i + 1]? = some m := h2
    have hm : m ≠ n := by
      rintro rfl
      have := hi.index_eq h2 hn
      omega
    simp only [Queue.moveOut, update_of_ne hm]
    exact hi.vals i m h1 h2
  size := hi.size

theorem QInv.retire (hi : QInv q) (n : Nat) : QInv (q.retire n) := by
  simp only [Queue.retire, Queue.collectGarbage]
  split <;> exact { hi with }

theorem QInv.link (hi : QInv q) {t n : Nat} (ht : t ∈ q.chain) (hn : (q.nodes t).next = none)
    (hp : Private q n) : QInv (q.link t n) := by
  obtain ⟨v, hv⟩ := Option.isSome_iff_exists.1 hp.value
  have htn : n ≠ t := by rintro rfl; exact hp.notMem ht
  have hval : ∀ m, ((q.link t n).nodes m).value = (q.nodes m).value := by
    intro m
    by_cases hm : m = t
    · subst hm; simp [Queue.link]
    · simp [Queue.link, hm]
  have hlen := hi.len
  have htk := hi.taken_lt
  have hvals : (q.link t n).values = q.values ++ [v] := by simp [Queue.link, hv]
  have hchain : (q.link t n).chain = q.chain ++ [n] := rfl
  refine ⟨?_, fun m hm => ?_, ?_, ?_, fun i m h => ?_, ?_, ?_, fun i m h1 h2 => ?_, hi.size⟩
  · rw [hchain]
    exact List.nodup_append.2 ⟨hi.nodup, List.nodup_singleton n, fun a ha b hb => by
      rw [List.mem_singleton] at hb
      rintro rfl
      exact hp.notMem (hb ▸ ha)⟩
  · rw [hchain, List.mem_append, List.mem_singleton] at hm
    rcases hm with hm | rfl
    · exact hi.lt m hm
    · exact hp.lt
  · rw [hchain]
    exact hi.head.trans (List.getElem?_append_left htk).symm
  · rw [hchain, List.length_append]
    exact Nat.lt_add_right _ htk
  · rw [hchain] at h ⊢
    by_cases hil : i < q.chain.length
    · rw [List.getElem?_append_left hil] at h
      by_cases hm : m = t
      · subst hm
        have hlast := hi.last h hn
        rw [hlast, List.getElem?_append_right (le_refl _)]
        simp [Queue.link]
      · have hnext := hi.next i m h
        have hil' : i + 1 < q.chain.length := by
          obtain ⟨j, hj⟩ := List.mem_iff_getElem?.1 ht
          have hlast := hi.last hj hn
          have hij : i ≠ j := by
            rintro rfl
            rw [h, Option.some.injEq] at hj
            exact hm hj
          omega
        rw [List.getElem?_append_left hil']
        simp only [Queue.link, update_of_ne hm]
        exact hnext
    · have hil' : i = q.chain.length := by
        obtain ⟨h', -⟩ := List.getElem?_eq_some_iff.1 h
        simp only [List.length_append, List.length_singleton] at h'
        omega
      subst hil'
      rw [List.getElem?_append_right (le_refl _), Nat.sub_self, List.getElem?_cons_zero,
        Option.some.injEq] at h
      subst h
      simp only [Queue.link, update_of_ne htn, hp.next]
      exact (List.getElem?_eq_none (by simp)).symm
  · obtain ⟨t', ht', e⟩ := hi.tail
    exact ⟨t', List.mem_append_left _ ht', e⟩
  · rw [hvals, hchain]; simp [hlen]
  · rw [hchain] at h2
    rw [hval, hvals]
    by_cases hil : i + 1 < q.chain.length
    · rw [List.getElem?_append_left hil] at h2
      rw [List.getElem?_append_left (by omega)]
      exact hi.vals i m h1 h2
    · have hil' : i + 1 = q.chain.length := by
        obtain ⟨h', -⟩ := List.getElem?_eq_some_iff.1 h2
        simp only [List.length_append, List.length_singleton] at h'
        omega
      rw [hil', List.getElem?_append_right (le_refl _), Nat.sub_self, List.getElem?_cons_zero,
        Option.some.injEq] at h2
      subst h2
      rw [hv, show i = q.values.length by omega, List.getElem?_append_right (le_refl _)]
      simp

end chain

/-! ## What a step of a `Put` does -/

/-- A step of a `Put` moves `tail_` to some node of the chain (often the one it is on), links the
thread's node behind the last one, or counts it. -/
inductive PutEffect (q : Queue T) : PutPc → Queue T → PutPc → Prop where
  | move {pc pc' : PutPc} {t : Nat} (mem : t ∈ q.chain) (priv : pc'.priv = pc.priv)
      (phase : pc'.phase = pc.phase) : PutEffect q pc (q.setTail (some t)) pc'
  | link {n t : Nat} (mem : t ∈ q.chain) (last : (q.nodes t).next = none)
      (new : Private q n) : PutEffect q (.link n t) (q.link t n) (.swing n)
  | bump : PutEffect q .bump q.addSize .done

section put

variable {q q' : Queue T} {pc pc' : PutPc}

theorem Queue.setTail_self {p : Ptr} (h : q.tail = p) : q.setTail p = q := by
  subst h; rfl

/-- A step that leaves the queue alone. -/
theorem PutEffect.stay (hi : QInv q) (priv : pc'.priv = pc.priv) (phase : pc'.phase = pc.phase) :
    PutEffect q pc q pc' := by
  obtain ⟨t, ht, e⟩ := hi.tail
  have h : PutEffect q pc (q.setTail (some t)) pc' := .move ht priv phase
  rwa [Queue.setTail_self e] at h

theorem putStep_effect (hi : QInv q) (hp : PutOk q pc) {sp : Bool} {o : Ptr}
    (h : putStep q sp o pc = some (q', pc')) : PutEffect q pc q' pc' := by
  obtain ⟨t₀, ht₀, htail⟩ := hi.tail
  cases pc with
  | loadTail n =>
    simp only [putStep, htail, Option.map_some, Option.some.injEq, Prod.mk.injEq] at h
    obtain ⟨rfl, rfl⟩ := h
    exact .stay hi rfl rfl
  | readNext n t =>
    simp only [putStep, Option.some.injEq, Prod.mk.injEq] at h
    obtain ⟨rfl, rfl⟩ := h
    split <;> exact .stay hi rfl rfl
  | readNext2 n t =>
    simp only [putStep, Option.some.injEq, Prod.mk.injEq] at h
    obtain ⟨rfl, rfl⟩ := h
    exact .stay hi rfl rfl
  | help n t next =>
    obtain ⟨-, h2, h3, h4⟩ := hp
    obtain ⟨m, rfl⟩ := Option.ne_none_iff_exists'.1 h4
    simp only [putStep] at h
    split at h
    · simp only [Option.some.injEq, Prod.mk.injEq] at h
      obtain ⟨rfl, rfl⟩ := h
      exact .move (hi.mem_of_next h2 h3) rfl rfl
    · simp only [htail, Option.map_some, Option.some.injEq, Prod.mk.injEq] at h
      obtain ⟨rfl, rfl⟩ := h
      exact .stay hi rfl rfl
  | link n t =>
    simp only [putStep] at h
    split at h <;> simp only [Option.some.injEq, Prod.mk.injEq] at h <;> obtain ⟨rfl, rfl⟩ := h
    · rename_i hc
      exact .link hp.2 hc.2 hp.1
    · exact .stay hi rfl rfl
  | swing n =>
    simp only [putStep, Option.some.injEq, Prod.mk.injEq] at h
    obtain ⟨rfl, rfl⟩ := h
    split
    · exact .move hp rfl rfl
    · exact .stay hi rfl rfl
  | bump =>
    simp only [putStep, Option.some.injEq, Prod.mk.injEq] at h
    obtain ⟨rfl, rfl⟩ := h
    exact .bump
  | done => cases h

theorem PutEffect.inv (hi : QInv q) (h : PutEffect q pc q' pc') : QInv q' := by
  cases h with
  | move mem _ _ => exact hi.setTail mem
  | link mem last new => exact hi.link mem last new
  | bump => exact hi.addSize

/-! ## What the other threads' steps leave alone -/

/-- Every step keeps the chain and its links. -/
structure Grows (q q' : Queue T) : Prop where
  chain : q.chain <+: q'.chain
  allocs : q.allocs ≤ q'.allocs
  next : ∀ m ∈ q.chain, ∀ k, (q.nodes m).next = some k → (q'.nodes m).next = some k

/-- Everything but a step of a `Take` also keeps what the `Take` relies on. -/
structure TakeKeeps (q q' : Queue T) : Prop extends Grows q q' where
  head : q'.head = q.head
  taken : q'.taken = q.taken
  values : q.values <+: q'.values
  value : ∀ m ∈ q.chain, (q'.nodes m).value = (q.nodes m).value
  freed : q'.freed = q.freed
  garbage : q'.garbage = q.garbage
  removed : q'.removed = q.removed
  added : q.added ≤ q'.added

/-- A private node that is not linked by the step stays private. -/
def PrivateKept (q q' : Queue T) (n : Nat) : Prop := n ∉ q'.chain ∧ q'.nodes n = q.nodes n

theorem Private.mono {n : Nat} (h : Private q n) (hg : Grows q q') (hk : PrivateKept q q' n) :
    Private q' n :=
  ⟨lt_of_lt_of_le h.lt hg.allocs, hk.1, by rw [hk.2]; exact h.next, by rw [hk.2]; exact h.value⟩

theorem PutOk.private (h : PutOk q pc) {n : Nat} (hn : pc.priv = some n) : Private q n := by
  cases pc <;> simp only [PutPc.priv, Option.some.injEq, reduceCtorEq] at hn <;> subst hn
  case loadTail => exact h
  all_goals exact h.1

theorem Grows.mem {n : Nat} (hg : Grows q q') (h : n ∈ q.chain) : n ∈ q'.chain := hg.chain.subset h

theorem PutOk.mono (h : PutOk q pc) (hg : Grows q q')
    (hk : ∀ n, pc.priv = some n → PrivateKept q q' n) : PutOk q' pc := by
  cases pc with
  | loadTail n => exact Private.mono h hg (hk n rfl)
  | readNext n t => exact ⟨h.1.mono hg (hk n rfl), hg.mem h.2⟩
  | readNext2 n t =>
    obtain ⟨h1, h2, h3⟩ := h
    obtain ⟨m, hm⟩ := Option.ne_none_iff_exists'.1 h3
    exact ⟨h1.mono hg (hk n rfl), hg.mem h2, by rw [hg.next t h2 m hm]; simp⟩
  | help n t next =>
    obtain ⟨h1, h2, h3, h4⟩ := h
    obtain ⟨m, rfl⟩ := Option.ne_none_iff_exists'.1 h4
    exact ⟨h1.mono hg (hk n rfl), hg.mem h2, hg.next t h2 m h3, h4⟩
  | link n t => exact ⟨h.1.mono hg (hk n rfl), hg.mem h.2⟩
  | swing n => exact hg.mem (n := n) h
  | bump => trivial
  | done => trivial

theorem PutEffect.takeKeeps (h : PutEffect q pc q' pc') : TakeKeeps q q' := by
  cases h with
  | move => exact ⟨⟨List.prefix_refl _, le_refl _, fun _ _ _ h => h⟩, rfl, rfl,
      List.prefix_refl _, fun _ _ => rfl, rfl, rfl, rfl, le_refl _⟩
  | bump => exact ⟨⟨List.prefix_refl _, le_refl _, fun _ _ _ h => h⟩, rfl, rfl,
      List.prefix_refl _, fun _ _ => rfl, rfl, rfl, rfl, Nat.le_succ _⟩
  | @link n t mem last new =>
    refine ⟨⟨List.prefix_append _ _, le_refl _, fun m _ k hm => ?_⟩, rfl, rfl,
      List.prefix_append _ _, fun m _ => ?_, rfl, rfl, rfl, le_refl _⟩
    · by_cases hmt : m = t
      · subst hmt; rw [last] at hm; cases hm
      · simpa [Queue.link, hmt] using hm
    · by_cases hmt : m = t
      · subst hmt; simp [Queue.link]
      · simp [Queue.link, hmt]

theorem PutEffect.priv_eq (h : PutEffect q pc q' pc') {n : Nat} (hn : pc'.priv = some n) :
    pc.priv = some n := by
  cases h with
  | move _ priv _ => rwa [priv] at hn
  | link => cases hn
  | bump => cases hn

/-- A private node of another thread. -/
theorem PutEffect.privateKept (h : PutEffect q pc q' pc') {n : Nat} (hn : Private q n)
    (hne : pc.priv ≠ some n) : PrivateKept q q' n := by
  cases h with
  | move => exact ⟨hn.notMem, rfl⟩
  | bump => exact ⟨hn.notMem, rfl⟩
  | @link m t mem last new =>
    have hmn : n ≠ m := fun e => hne (e ▸ rfl)
    have hnt : n ≠ t := by rintro rfl; exact hn.notMem mem
    exact ⟨by simp [Queue.link, hn.notMem, hmn], by simp [Queue.link, hnt]⟩

/-- The thread's own step. -/
theorem putStep_ok (hi : QInv q) (hp : PutOk q pc) {sp : Bool} {o : Ptr}
    (h : putStep q sp o pc = some (q', pc')) : PutOk q' pc' := by
  obtain ⟨t₀, ht₀, htail⟩ := hi.tail
  cases pc with
  | loadTail n =>
    simp only [putStep, htail, Option.map_some, Option.some.injEq, Prod.mk.injEq] at h
    obtain ⟨rfl, rfl⟩ := h
    exact ⟨hp, ht₀⟩
  | readNext n t =>
    simp only [putStep, Option.some.injEq, Prod.mk.injEq] at h
    obtain ⟨rfl, rfl⟩ := h
    split
    · rename_i hn
      exact ⟨hp.1, hp.2, hn⟩
    · exact hp
  | readNext2 n t =>
    simp only [putStep, Option.some.injEq, Prod.mk.injEq] at h
    obtain ⟨rfl, rfl⟩ := h
    obtain ⟨h1, h2, h3⟩ := hp
    exact ⟨h1, h2, rfl, h3⟩
  | help n t next =>
    have h1 := hp.1
    simp only [putStep] at h
    split at h
    · simp only [Option.some.injEq, Prod.mk.injEq] at h
      obtain ⟨rfl, rfl⟩ := h
      exact ⟨h1.lt, h1.notMem, h1.next, h1.value⟩
    · simp only [htail, Option.map_some, Option.some.injEq, Prod.mk.injEq] at h
      obtain ⟨rfl, rfl⟩ := h
      exact ⟨h1, ht₀⟩
  | link n t =>
    simp only [putStep] at h
    split at h <;> simp only [Option.some.injEq, Prod.mk.injEq] at h <;> obtain ⟨rfl, rfl⟩ := h
    · simp [PutOk, Queue.link]
    · exact hp.1
  | swing n =>
    simp only [putStep, Option.some.injEq, Prod.mk.injEq] at h
    obtain ⟨-, rfl⟩ := h
    trivial
  | bump =>
    simp only [putStep, Option.some.injEq, Prod.mk.injEq] at h
    obtain ⟨-, rfl⟩ := h
    trivial
  | done => cases h

end put

/-! ## What a step of a `Take` does -/

/-- `1` from the CAS of `head_` until the node was retired. -/
def TakePc.unretired : TakePc T → Nat
  | .readNext3 _ | .moveValue _ _ | .retire _ _ => 1
  | _ => 0

/-- `1` from the CAS of `head_` until it was subtracted from `size_`. -/
def TakePc.unsized : TakePc T → Nat
  | .subSize _ => 1
  | pc => pc.unretired

/-- The `Take` is over. -/
def TakePc.isDone : TakePc T → Bool
  | .done _ => true
  | _ => false

/-- A step of the only `Take` leaves the queue alone, or is one of the four writes. It returns
`nullopt` only if all values are taken. -/
inductive TakeEffect (q : Queue T) : TakePc T → Queue T → TakePc T → Prop where
  | stay {pc pc' : TakePc T} (retired : pc'.unretired = pc.unretired)
      (sized : pc'.unsized = pc.unsized)
      (done : pc'.isDone = true → pc' = .done none ∧ q.values.length ≤ q.taken) :
      TakeEffect q pc q pc'
  | advance {h : Nat} (head : q.head = some h) (next : (q.nodes h).next ≠ none) :
      TakeEffect q (.casHead h (q.nodes h).next) (q.advance (q.nodes h).next) (.readNext3 h)
  | moveOut {h nh : Nat} {item : T} (mem : q.chain[q.taken]? = some nh) :
      TakeEffect q (.moveValue h nh) (q.moveOut nh) (.retire h item)
  | retire {h : Nat} {item : T} : TakeEffect q (.retire h item) (q.retire h) (.subSize item)
  | subSize {item : T} : TakeEffect q (.subSize item) q.subSize (.done (some item))

section take

variable {q q' : Queue T} {pc pc' : TakePc T}

theorem takeStep_effect (hi : QInv q) (ht : TakeOk q pc) {sp : Bool}
    (h : takeStep q sp pc = some (q', pc')) : TakeEffect q pc q' pc' ∧ TakeOk q' pc' := by
  cases pc with
  | loadHead =>
    obtain ⟨h₀, hh⟩ : ∃ h₀, q.head = some h₀ :=
      ⟨_, hi.head.trans (List.getElem?_eq_getElem hi.taken_lt)⟩
    simp only [takeStep, hh, Option.map_some, Option.some.injEq, Prod.mk.injEq] at h
    obtain ⟨rfl, rfl⟩ := h
    exact ⟨.stay rfl rfl fun h => (by cases h), hh⟩
  | readNext h₀ =>
    simp only [takeStep, Option.some.injEq, Prod.mk.injEq] at h
    obtain ⟨rfl, rfl⟩ := h
    split
    · rename_i hn
      exact ⟨.stay rfl rfl fun _ => ⟨rfl, (hi.next_head ht).1 hn⟩, trivial⟩
    · rename_i hn
      exact ⟨.stay rfl rfl fun h => (by cases h), ht, hn⟩
  | readNext2 h₀ =>
    simp only [takeStep, Option.some.injEq, Prod.mk.injEq] at h
    obtain ⟨rfl, rfl⟩ := h
    exact ⟨.stay rfl rfl fun h => (by cases h), ht.1, rfl, ht.2⟩
  | casHead h₀ next =>
    obtain ⟨h1, rfl, h3⟩ := ht
    simp only [takeStep] at h
    split at h <;> simp only [Option.some.injEq, Prod.mk.injEq] at h <;> obtain ⟨rfl, rfl⟩ := h
    · refine ⟨.advance h1 h3, q.taken, rfl, hi.head ▸ h1, fun n hn => ?_⟩
      exact hi.vals q.taken n (le_refl _) hn
    · exact ⟨.stay rfl rfl fun h => (by cases h), trivial⟩
  | readNext3 h₀ =>
    obtain ⟨j, h1, h2, h3⟩ := ht
    have hlt : j + 1 < q.chain.length := h1 ▸ hi.taken_lt
    have hn : (q.nodes h₀).next = some q.chain[j + 1] :=
      (hi.next j h₀ h2).trans (List.getElem?_eq_getElem hlt)
    simp only [takeStep, hn, Option.map_some, Option.some.injEq, Prod.mk.injEq] at h
    obtain ⟨rfl, rfl⟩ := h
    have hn' : q.chain[j + 1]? = some q.chain[j + 1] := List.getElem?_eq_getElem hlt
    exact ⟨.stay rfl rfl fun h => (by cases h), j, h1, h2, hn', h3 _ hn'⟩
  | moveValue h₀ nh =>
    obtain ⟨j, h1, h2, h3, h4⟩ := ht
    simp only [takeStep] at h
    obtain ⟨item, hv, h⟩ := Option.map_eq_some_iff.1 h
    obtain ⟨rfl, rfl⟩ := Prod.mk.inj h
    exact ⟨.moveOut (h1 ▸ h3), j, h1, h2, h4 ▸ hv⟩
  | retire h₀ item =>
    obtain ⟨j, h1, h2, h3⟩ := ht
    simp only [takeStep, Option.some.injEq, Prod.mk.injEq] at h
    obtain ⟨rfl, rfl⟩ := h
    refine ⟨.retire, j, ?_, ?_⟩ <;>
      (simp only [Queue.retire, Queue.collectGarbage]; split) <;> assumption
  | subSize item =>
    simp only [takeStep, Option.some.injEq, Prod.mk.injEq] at h
    obtain ⟨rfl, rfl⟩ := h
    exact ⟨.subSize, ht⟩
  | done r => cases h

theorem TakeEffect.inv (hi : QInv q) (h : TakeEffect q pc q' pc') : QInv q' := by
  cases h with
  | stay => exact hi
  | advance head next => exact hi.advance head next
  | moveOut mem => exact hi.moveOut mem
  | retire => exact hi.retire _
  | subSize => exact hi.subSize

@[simp] theorem retire_chain (q : Queue T) (n : Nat) : (q.retire n).chain = q.chain := by
  simp only [Queue.retire, Queue.collectGarbage]; split <;> rfl

@[simp] theorem retire_nodes (q : Queue T) (n : Nat) : (q.retire n).nodes = q.nodes := by
  simp only [Queue.retire, Queue.collectGarbage]; split <;> rfl

@[simp] theorem retire_allocs (q : Queue T) (n : Nat) : (q.retire n).allocs = q.allocs := by
  simp only [Queue.retire, Queue.collectGarbage]; split <;> rfl

/-- Nor does it touch the histories. -/
theorem retire_histories (q : Queue T) (n : Nat) : (q.retire n).values = q.values ∧
    (q.retire n).taken = q.taken ∧ (q.retire n).added = q.added ∧ (q.retire n).removed = q.removed := by
  simp only [Queue.retire, Queue.collectGarbage]; split <;> exact ⟨rfl, rfl, rfl, rfl⟩

theorem TakeEffect.chain_eq (h : TakeEffect q pc q' pc') : q'.chain = q.chain := by
  cases h <;> first | rfl | exact retire_chain ..

theorem TakeEffect.grows (h : TakeEffect q pc q' pc') : Grows q q' := by
  refine ⟨h.chain_eq ▸ List.prefix_refl _, ?_, fun m _ k hm => ?_⟩
  · cases h <;> first | exact le_refl _ | simp
  · cases h with
    | stay | advance | subSize => exact hm
    | @moveOut _ nh =>
      by_cases hmn : m = nh
      · subst hmn; simpa [Queue.moveOut] using hm
      · simpa [Queue.moveOut, hmn] using hm
    | retire => simpa using hm

theorem TakeEffect.privateKept (h : TakeEffect q pc q' pc') {n : Nat} (hn : Private q n) :
    PrivateKept q q' n := by
  refine ⟨h.chain_eq ▸ hn.notMem, ?_⟩
  cases h with
  | stay | advance | subSize => rfl
  | moveOut mem =>
    have hne := ne_of_mem_of_not_mem (List.mem_of_getElem? mem) hn.notMem
    simp [Queue.moveOut, hne.symm]
  | retire => simp

theorem TakeOk.mono (hi : QInv q) (h : TakeOk q pc) (hk : TakeKeeps q q') : TakeOk q' pc := by
  have hget : ∀ {l l' : List Nat} {i n : Nat}, l <+: l' → l[i]? = some n → l'[i]? = some n :=
    fun ⟨t, e⟩ h => by
      obtain ⟨hl, -⟩ := List.getElem?_eq_some_iff.1 h
      rw [← e, List.getElem?_append_left hl, h]
  have hval : ∀ {j : Nat}, q.taken = j + 1 → q'.values[j]? = q.values[j]? := by
    intro j hj
    have h1 := hi.taken_lt
    have h2 := hi.len
    obtain ⟨l, hl⟩ := hk.values
    rw [← hl, List.getElem?_append_left (by omega)]
  have hmem : ∀ {i n : Nat}, q.chain[i]? = some n → n ∈ q.chain := List.mem_of_getElem?
  cases pc with
  | loadHead => trivial
  | readNext h₀ => exact hk.head.trans h
  | readNext2 h₀ =>
    obtain ⟨h1, h2⟩ := h
    obtain ⟨m, hm⟩ := Option.ne_none_iff_exists'.1 h2
    have hc := hmem (hi.head ▸ h1)
    exact ⟨hk.head.trans h1, by rw [hk.next h₀ hc m hm]; simp⟩
  | casHead h₀ next =>
    obtain ⟨h1, rfl, h2⟩ := h
    obtain ⟨m, hm⟩ := Option.ne_none_iff_exists'.1 h2
    have hc := hmem (hi.head ▸ h1)
    exact ⟨hk.head.trans h1, by rw [hk.next h₀ hc m hm, hm], h2⟩
  | readNext3 h₀ =>
    obtain ⟨j, h1, h2, h3⟩ := h
    have hlt : j + 1 < q.chain.length := h1 ▸ hi.taken_lt
    refine ⟨j, hk.taken.trans h1, hget hk.chain h2, fun n hn => ?_⟩
    have hn' : q.chain[j + 1]? = some n := by
      obtain ⟨l, hl⟩ := hk.chain
      rwa [← hl, List.getElem?_append_left hlt] at hn
    rw [hk.value n (hmem hn'), hval h1, h3 n hn']
  | moveValue h₀ nh =>
    obtain ⟨j, h1, h2, h3, h4⟩ := h
    exact ⟨j, hk.taken.trans h1, hget hk.chain h2, hget hk.chain h3, by
      rw [hk.value nh (hmem h3), hval h1, h4]⟩
  | retire h₀ item =>
    obtain ⟨j, h1, h2, h3⟩ := h
    exact ⟨j, hk.taken.trans h1, hget hk.chain h2, by rw [hval h1, h3]⟩
  | subSize item =>
    obtain ⟨j, h1, h3⟩ := h
    exact ⟨j, hk.taken.trans h1, by rw [hval h1, h3]⟩
  | done r =>
    cases r with
    | none => trivial
    | some item =>
      obtain ⟨j, h1, h3⟩ := h
      exact ⟨j, hk.taken.trans h1, by rw [hval h1, h3]⟩

theorem takeKeeps_newNodeAt {a : Nat} (ha : a ∉ q.chain) (item : T) :
    TakeKeeps q (q.newNodeAt a item) :=
  ⟨⟨List.prefix_refl _, le_refl _, fun _ hm k h => by rw [newNodeAt_of_mem ha item hm]; exact h⟩,
    rfl, rfl, List.prefix_refl _, fun m hm => by rw [newNodeAt_of_mem ha item hm], rfl, rfl, rfl,
    le_refl _⟩

theorem takeKeeps_newNode (hi : QInv q) (item : T) : TakeKeeps q (q.newNode item) :=
  { takeKeeps_newNodeAt hi.allocs_notMem item with allocs := Nat.le_succ _ }

theorem privateKept_newNodeAt {a n : Nat} (hn : Private q n) (hne : n ≠ a) (item : T) :
    PrivateKept q (q.newNodeAt a item) n :=
  ⟨hn.notMem, update_of_ne hne ..⟩

theorem privateKept_newNode {n : Nat} (hn : Private q n) (item : T) :
    PrivateKept q (q.newNode item) n :=
  privateKept_newNodeAt hn (Nat.ne_of_lt hn.lt) item

/-- The new node is private. -/
theorem private_newNodeAt {a : Nat} (hlt : a < q.allocs) (ha : a ∉ q.chain) (item : T) :
    Private (q.newNodeAt a item) a :=
  ⟨hlt, ha, by simp [Queue.newNodeAt], by simp [Queue.newNodeAt]⟩

theorem private_newNode (hi : QInv q) (item : T) : Private (q.newNode item) q.allocs :=
  ⟨Nat.lt_succ_self _, hi.allocs_notMem, by simp [Queue.newNode], by simp [Queue.newNode]⟩

end take

/-! ## No step dereferences a null pointer -/

section enabled

theorem putStep_isSome {q : Queue T} {pc : PutPc} (hi : QInv q) (hpc : pc ≠ .done) :
    (putStep q false none pc).isSome = true := by
  obtain ⟨t, -, ht⟩ := hi.tail
  cases pc with
  | loadTail m => rw [putStep, ht]; rfl
  | readNext m t => rfl
  | readNext2 m t => rfl
  | help m t next =>
    simp only [putStep]
    split
    · rfl
    · rw [ht]; rfl
  | link m t =>
    simp only [putStep]
    split <;> rfl
  | swing m => rfl
  | bump => rfl
  | done => exact absurd rfl hpc

theorem takeStep_isSome {q : Queue T} {pc : TakePc T} (hi : QInv q) (hok : TakeOk q pc)
    (hpc : pc.isDone = false) : (takeStep q false pc).isSome = true := by
  have hlt := hi.taken_lt
  have hlen := hi.len
  cases pc with
  | loadHead =>
    rw [takeStep, hi.head, List.getElem?_eq_getElem hlt]
    rfl
  | readNext k => rfl
  | readNext2 k => rfl
  | casHead k next =>
    simp only [takeStep]
    split <;> rfl
  | readNext3 k =>
    obtain ⟨j, h1, h2, -⟩ := hok
    rw [takeStep, hi.next j k h2, List.getElem?_eq_getElem (by omega)]
    rfl
  | moveValue k nh =>
    obtain ⟨j, h1, -, -, h4⟩ := hok
    rw [takeStep, h4, List.getElem?_eq_getElem (by omega)]
    rfl
  | retire k v => rfl
  | subSize v => rfl
  | done r => cases hpc

theorem takeEffect_values {q q' : Queue T} {pc pc' : TakePc T} (he : TakeEffect q pc q' pc') :
    q'.values = q.values := by
  cases he with
  | stay | advance | moveOut | subSize => rfl
  | retire => exact (retire_histories _ _).1

end enabled

end MSQueue
