import ConcurrencyCourse.Lib.Tally
import ConcurrencyCourse.LockFree.Fifo

/-!
# `LockFreeQueue`: `IsEmpty` and `Count` (lock_free_queue.hpp 98-104)

Both are one load of `size_`. `Push` adds to it after it has linked the node, `TryPop` subtracts after it has moved
`head_`: nothing stops a `TryPop` from subtracting a value that its `Push` has not added yet. Then `size_`, a
`size_t`, goes below zero, or says `0` while there are values in the queue.

* `Sized`: the queue of `Queue.lean`, the calls of `IsEmpty` and `Count`, and histories on which no step depends. The
  `p`-th value linked has the number `p`.
* `CountsInFirst` is the condition under which the size is one: a value is subtracted after it was added.
* `Usable` is the contract; `usable_as_size` proves it for every run with `CountsInFirst`.
-/

namespace LockFreeQueue

open MSQueue Transition Function Threads

/-- A call of `IsEmpty` or `Count`. -/
inductive Call where
  | none
  | isEmpty
  | wasEmpty (b : Bool)
  | count
  | counted (n : UInt64)
  deriving DecidableEq

structure Sized (ι T : Type) where
  queue : State ι T
  call : ι → Call
  /-- The value that the thread's `Push` has linked and not added to `size_`. -/
  counting : ι → Option Nat
  /-- The value that the thread's `TryPop` has taken and not subtracted from `size_`. -/
  uncounting : ι → Option Nat
  ins : List Nat
  outs : List Nat
  /-- How many `Push`es were called, and how many `TryPop`s have returned a value. -/
  started : Nat
  returned : Nat

/-- What a step does that matters for the size. -/
inductive Kind where
  | start
  | link
  | add
  | take
  | sub
  | other
  deriving DecidableEq

variable {ι T : Type} [DecidableEq ι]

/-- A `Push` returns with its `fetch_add`, a `TryPop` with its `fetch_sub`. -/
def kind (s : State ι T) : Act ι T → Kind
  | .push _ _ => .start
  | .step i spurious _ => match s.pc i with
    | .push _ (.link _ t) => if spurious = false ∧ (s.q.nodes t).next = none then .link else .other
    | .push _ .bump => .add
    | .pop (.casHead h _) => if spurious = false ∧ s.q.head = some h then .take else .other
    | .pop (.subSize _) => .sub
    | _ => .other
  | _ => .other

/-- The histories after a step of thread `i`. -/
def Sized.tell (s : Sized ι T) (i : ι) : Kind → Sized ι T
  | .start => { s with started := s.started + 1 }
  | .link => { s with counting := update s.counting i (some s.queue.q.values.length) }
  | .add => { s with ins := (s.counting i).toList ++ s.ins, counting := update s.counting i none }
  | .take => { s with uncounting := update s.uncounting i (some s.queue.q.taken) }
  | .sub =>
    { s with outs := (s.uncounting i).toList ++ s.outs, uncounting := update s.uncounting i none,
             returned := s.returned + 1 }
  | .other => s

inductive SizedAct (ι T : Type) where
  /-- A step of a `Push` or a `TryPop`. -/
  | queue (a : Act ι T)
  | isEmpty (i : ι)
  | count (i : ι)
  /-- `size_.load()`. -/
  | load (i : ι)
  | leave (i : ι)

def Sized.setQueue (s : Sized ι T) (q : State ι T) : Sized ι T := { s with queue := q }

def Sized.setCall (s : Sized ι T) (i : ι) (c : Call) : Sized ι T := { s with call := update s.call i c }

def Sized.step (s : Sized ι T) : SizedAct ι T → Option (Sized ι T)
  | .queue a =>
    if s.call a.thread = .none then
      (LockFreeQueue.step s.queue a).map (s.tell a.thread (kind s.queue a)).setQueue
    else none
  | .isEmpty i => match s.call i, s.queue.pc i with
    | .none, .idle => some (s.setCall i .isEmpty)
    | _, _ => none
  | .count i => match s.call i, s.queue.pc i with
    | .none, .idle => some (s.setCall i .count)
    | _, _ => none
  | .load i => match s.call i with
    | .isEmpty => some (s.setCall i (.wasEmpty s.queue.q.isEmpty))
    | .count => some (s.setCall i (.counted s.queue.q.size))
    | _ => none
  | .leave i => match s.call i with
    | .wasEmpty _ | .counted _ => some (s.setCall i .none)
    | _ => none

def Sized.init : Sized ι T :=
  { queue := LockFreeQueue.init, call := fun _ => .none, counting := fun _ => none, uncounting := fun _ => none,
    ins := [], outs := [], started := 0, returned := 0 }

def sizedSystem (ι T : Type) [DecidableEq ι] : System (Sized ι T) (SizedAct ι T) :=
  ⟨fun s => s = .init, Sized.step⟩

/-! ### What the size is to say -/

/-- No value whose `Push` has returned is in the queue. -/
def Sized.nothingReturned (s : Sized ι T) : Prop := ∀ p ∈ s.ins, ¬ (s.queue.q.taken ≤ p ∧ p < s.queue.q.values.length)

/-- Thread `i` calls `IsEmpty` or `Count`. -/
def SizedAct.calls (i : ι) : SizedAct ι T → Prop
  | .isEmpty j | .count j => j = i
  | _ => False

/-- The step is a `fetch_sub` of `size_`. -/
def Sized.subtracts (s : Sized ι T) : SizedAct ι T → Prop
  | .queue a => kind s.queue a = .sub
  | _ => False

structure Usable (h : History (Sized ι T) (SizedAct ι T)) (s : Sized ι T) : Prop where
  /-- `size_` has never gone below zero. -/
  noWrap : ∀ a s₀, (a, s₀) ∈ h → s₀.subtracts a → s₀.queue.q.size ≠ 0
  count : ∀ i n, s.call i = .counted n → During (SizedAct.calls i)
    (fun s₀ => s₀.queue.q.size = n ∧ n.toNat + s₀.returned ≤ s₀.started) h s
  isEmpty : ∀ i, s.call i = .wasEmpty true → During (SizedAct.calls i) Sized.nothingReturned h s

/-- A `TryPop` subtracts a value only after its `Push` has added it; and there are fewer nodes than addresses. -/
def CountsInFirst (s : Sized ι T) : SizedAct ι T → Prop
  | .queue a => (kind s.queue a = .sub → ∀ p, s.uncounting a.thread = some p → p ∈ s.ins) ∧
      (kind s.queue a = .start → s.queue.q.allocs + 1 < 2 ^ 64)
  | _ => True

/-! ### One step of the queue -/

/-- A `Push` between its CAS and its `fetch_add`. -/
def Pc.counting : Pc T → Bool
  | .push _ (.swing _) | .push _ .bump => true
  | _ => false

/-- A `TryPop` between its CAS and its `fetch_sub`. -/
def Pc.uncounting : Pc T → Bool
  | .pop (.readNext3 _) | .pop (.moveValue _ _) | .pop (.subSize _) => true
  | _ => false

/-- What a step does to the queue and to the thread, by its kind. -/
structure Counts (k : Kind) (q q' : Queue T) (pc pc' : Pc T) : Prop where
  allocs : q'.allocs = q.allocs + if k = .start then 1 else 0
  chain : if k = .link then ∃ n, q'.chain = q.chain ++ [n] else q'.chain = q.chain
  taken : q'.taken = q.taken + if k = .take then 1 else 0
  added : q'.added = q.added + if k = .add then 1 else 0
  removed : q'.removed = q.removed + if k = .sub then 1 else 0
  counting : pc'.counting = if k = .link then true else if k = .add then false else pc.counting
  uncounting : pc'.uncounting = if k = .take then true else if k = .sub then false else pc.uncounting
  adds : k = .add → pc.counting = true
  subs : k = .sub → pc.uncounting = true

section counts

variable {s s' : State ι T} {q q' : Queue T} {i : ι}

/-- Nothing of the kind. -/
theorem Counts.other {pc pc' : Pc T} (ha : q'.allocs = q.allocs) (hc : q'.chain = q.chain) (ht : q'.taken = q.taken)
    (hadd : q'.added = q.added) (hrem : q'.removed = q.removed) (h1 : pc'.counting = pc.counting)
    (h2 : pc'.uncounting = pc.uncounting) : Counts .other q q' pc pc' :=
  ⟨ha, hc, ht, hadd, hrem, h1, h2, nofun, nofun⟩

omit [DecidableEq ι] in
theorem counts_put {item : T} {pc pc' : PutPc} {sp : Bool} {o : Ptr} (hpc : s.pc i = .push item pc)
    (h : putStep s.q sp o pc = some (q', pc')) :
    Counts (kind s (.step i sp o)) s.q q' (.push item pc) (.push item pc') := by
  simp only [kind, hpc]
  cases pc with
  | loadTail n =>
    obtain ⟨t, -, h⟩ := Option.map_eq_some_iff.1 h
    obtain ⟨rfl, rfl⟩ := Prod.mk.inj h
    exact .other rfl rfl rfl rfl rfl rfl rfl
  | readNext n t =>
    obtain ⟨rfl, rfl⟩ := Prod.mk.inj (Option.some.inj h)
    refine .other rfl rfl rfl rfl rfl ?_ ?_ <;> split <;> rfl
  | readNext2 n t =>
    obtain ⟨rfl, rfl⟩ := Prod.mk.inj (Option.some.inj h)
    exact .other rfl rfl rfl rfl rfl rfl rfl
  | help n t next =>
    simp only [putStep] at h
    split at h
    · obtain ⟨rfl, rfl⟩ := Prod.mk.inj (Option.some.inj h)
      exact .other rfl rfl rfl rfl rfl rfl rfl
    · obtain ⟨t', -, h⟩ := Option.map_eq_some_iff.1 h
      obtain ⟨rfl, rfl⟩ := Prod.mk.inj h
      exact .other rfl rfl rfl rfl rfl rfl rfl
  | link n t =>
    simp only [putStep] at h
    split at h
    · next hc =>
      obtain ⟨rfl, rfl⟩ := Prod.mk.inj (Option.some.inj h)
      simp only [if_pos hc]
      exact ⟨rfl, ⟨n, rfl⟩, rfl, rfl, rfl, rfl, rfl, (by rintro ⟨⟩), (by rintro ⟨⟩)⟩
    · next hc =>
      obtain ⟨rfl, rfl⟩ := Prod.mk.inj (Option.some.inj h)
      simp only [if_neg hc]
      exact .other rfl rfl rfl rfl rfl rfl rfl
  | swing n =>
    obtain ⟨rfl, rfl⟩ := Prod.mk.inj (Option.some.inj h)
    refine .other ?_ ?_ ?_ ?_ ?_ rfl rfl <;> split <;> rfl
  | bump =>
    obtain ⟨rfl, rfl⟩ := Prod.mk.inj (Option.some.inj h)
    exact ⟨rfl, rfl, rfl, rfl, rfl, rfl, rfl, fun _ => rfl, (by rintro ⟨⟩)⟩
  | done => cases h

omit [DecidableEq ι] in
theorem counts_pop {pc pc' : PopPc T} {sp : Bool} {o : Ptr} (hpc : s.pc i = .pop pc)
    (h : popStep s.q sp pc = some (q', pc')) :
    Counts (kind s (.step i sp o)) s.q q' (.pop pc) (.pop pc') := by
  simp only [kind, hpc]
  cases pc with
  | loadHead =>
    obtain ⟨t, -, h⟩ := Option.map_eq_some_iff.1 h
    obtain ⟨rfl, rfl⟩ := Prod.mk.inj h
    exact .other rfl rfl rfl rfl rfl rfl rfl
  | readNext n =>
    obtain ⟨rfl, rfl⟩ := Prod.mk.inj (Option.some.inj h)
    refine .other rfl rfl rfl rfl rfl ?_ ?_ <;> split <;> rfl
  | readNext2 n =>
    obtain ⟨rfl, rfl⟩ := Prod.mk.inj (Option.some.inj h)
    exact .other rfl rfl rfl rfl rfl rfl rfl
  | casHead n next =>
    simp only [popStep] at h
    split at h
    · next hc =>
      obtain ⟨rfl, rfl⟩ := Prod.mk.inj (Option.some.inj h)
      simp only [if_pos hc]
      exact ⟨rfl, rfl, rfl, rfl, rfl, rfl, rfl, (by rintro ⟨⟩), (by rintro ⟨⟩)⟩
    · next hc =>
      obtain ⟨rfl, rfl⟩ := Prod.mk.inj (Option.some.inj h)
      simp only [if_neg hc]
      exact .other rfl rfl rfl rfl rfl rfl rfl
  | readNext3 n =>
    obtain ⟨t, -, h⟩ := Option.map_eq_some_iff.1 h
    obtain ⟨rfl, rfl⟩ := Prod.mk.inj h
    exact .other rfl rfl rfl rfl rfl rfl rfl
  | moveValue n nh =>
    obtain ⟨item, -, h⟩ := Option.map_eq_some_iff.1 h
    obtain ⟨rfl, rfl⟩ := Prod.mk.inj h
    exact .other rfl rfl rfl rfl rfl rfl rfl
  | subSize item =>
    obtain ⟨rfl, rfl⟩ := Prod.mk.inj (Option.some.inj h)
    exact ⟨rfl, rfl, rfl, rfl, rfl, rfl, rfl, (by rintro ⟨⟩), fun _ => rfl⟩
  | empty => cases h
  | popped item => cases h

/-- A step of a `Push` or a `TryPop`, and the other threads stay where they are. -/
theorem counts_step {a : Act ι T} (h : step s a = some s') :
    Counts (kind s a) s.q s'.q (s.pc a.thread) (s'.pc a.thread) ∧ ∀ j, j ≠ a.thread → s'.pc j = s.pc j := by
  have hset : ∀ (q' : Queue T) {i : ι} {pc' : Pc T}, Counts (kind s a) s.q q' (s.pc i) pc' →
      Counts (kind s a) s.q ((s.setQ q').setPc i pc').q (s.pc i) (((s.setQ q').setPc i pc').pc i) ∧
        ∀ j, j ≠ i → ((s.setQ q').setPc i pc').pc j = s.pc j := fun q' _ _ hc =>
    ⟨by rwa [show ((s.setQ _).setPc _ _).pc _ = _ from update_self ..], fun j hj => update_of_ne hj ..⟩
  cases a with
  | push i item =>
    simp only [step] at h
    split at h
    · next hpc =>
      obtain rfl := Option.some.inj h
      refine hset _ ?_
      rw [hpc]
      exact ⟨rfl, rfl, rfl, rfl, rfl, rfl, rfl, (by rintro ⟨⟩), (by rintro ⟨⟩)⟩
    · cases h
  | tryPop i =>
    simp only [step] at h
    split at h
    · next hpc =>
      obtain rfl := Option.some.inj h
      refine hset s.q ?_
      rw [hpc]
      exact .other rfl rfl rfl rfl rfl rfl rfl
    · cases h
  | step i sp o =>
    simp only [step] at h
    split at h
    · cases h
    · next item pc hpc =>
      obtain ⟨⟨q', pc'⟩, hx, rfl⟩ := Option.map_eq_some_iff.1 h
      exact hset q' (hpc ▸ counts_put hpc hx)
    · next pc hpc =>
      obtain ⟨⟨q', pc'⟩, hx, rfl⟩ := Option.map_eq_some_iff.1 h
      exact hset q' (hpc ▸ counts_pop hpc hx)
  | finish i =>
    have hidle : ∀ pc, s.pc i = pc → pc.counting = false → pc.uncounting = false →
        Counts .other s.q s.q (s.pc i) .idle := by
      rintro _ rfl h1 h2
      exact .other rfl rfl rfl rfl rfl h1.symm h2.symm
    simp only [step] at h
    split at h
    · next hpc => obtain rfl := Option.some.inj h; exact hset s.q (hidle _ hpc rfl rfl)
    · next hpc => obtain rfl := Option.some.inj h; exact hset s.q (hidle _ hpc rfl rfl)
    · next hpc => obtain rfl := Option.some.inj h; exact hset s.q (hidle _ hpc rfl rfl)
    · cases h

end counts

/-! ### What holds in every state -/

structure Sizes (s : Sized ι T) : Prop where
  queue : ∃ h, Inv h s.queue
  counting : ∀ i, (s.counting i).isSome = (s.queue.pc i).counting
  uncounting : ∀ i, (s.uncounting i).isSome = (s.queue.pc i).uncounting
  ins : Tally s.counting s.ins s.queue.q.values.length
  outs : Tally s.uncounting s.outs s.queue.q.taken
  added : s.queue.q.added = s.ins.length
  removed : s.queue.q.removed = s.outs.length
  returned : s.returned = s.outs.length
  started : s.queue.q.allocs = s.started + 1
  fewer : s.queue.q.allocs < 2 ^ 64
  subset : s.outs ⊆ s.ins

section sizes

variable {s : Sized ι T} {q' : State ι T} {i : ι}

theorem sizes_init : Sizes (Sized.init : Sized ι T) where
  queue := ⟨[], inv_init⟩
  counting _ := rfl
  uncounting _ := rfl
  ins := .empty
  outs := .empty
  added := rfl
  removed := rfl
  returned := rfl
  started := rfl
  fewer := Nat.one_lt_two_pow (by decide)
  subset := nofun

/-- Every value has a node of its own, and so has the sentinel. -/
theorem values_lt_allocs {h : History (State ι T) (Act ι T)} {s : State ι T} (hi : Inv h s) :
    s.q.values.length < s.q.allocs := by
  have hsub : s.q.chain ⊆ List.range s.q.allocs := fun n hn => List.mem_range.2 (hi.inv.lt n hn)
  have hle : s.q.chain.length ≤ s.q.allocs := by simpa using (hi.inv.nodup.subperm hsub).length_le
  have hlen := hi.inv.len
  omega

/-- `size_` is the number of values that were added and not subtracted. -/
theorem Sizes.size_eq (hi : Sizes s) : s.queue.q.size.toNat + s.outs.length = s.ins.length := by
  obtain ⟨h, hq⟩ := hi.queue
  have hsize := hq.inv.size
  have hvalues := values_lt_allocs hq
  have hins := hi.ins.length_le
  have houts : s.outs.length ≤ s.ins.length := (hi.outs.nodup.subperm hi.subset).length_le
  have hfewer := hi.fewer
  have hword := s.queue.q.size.toNat_lt
  rw [hi.added, hi.removed] at hsize
  omega

/-- The thread that moves has what its new place says. -/
theorem isSome_update {l : ι → Option Nat} {pc pc' : ι → Pc T} {f : Pc T → Bool} {x : Option Nat}
    (h : ∀ j, (l j).isSome = f (pc j)) (hne : ∀ j, j ≠ i → pc' j = pc j) (hx : x.isSome = f (pc' i)) :
    ∀ j, (update l i x j).isSome = f (pc' j) := by
  intro j
  rcases eq_or_ne j i with rfl | hji
  · rw [update_self, hx]
  · rw [update_of_ne hji, hne j hji, h j]

omit [DecidableEq ι] in
theorem isSome_same {l : ι → Option Nat} {pc pc' : ι → Pc T} {f : Pc T → Bool}
    (h : ∀ j, (l j).isSome = f (pc j)) (hne : ∀ j, j ≠ i → pc' j = pc j) (hi : f (pc' i) = f (pc i)) :
    ∀ j, (l j).isSome = f (pc' j) := by
  intro j
  by_cases hji : j = i
  · rw [hji, hi, h i]
  · rw [hne j hji, h j]

theorem Sizes.step_queue (hi : Sizes s) {a : Act ι T} (hok : CountsInFirst s (.queue a))
    (hs : LockFreeQueue.step s.queue a = some q') :
    Sizes ((s.tell a.thread (kind s.queue a)).setQueue q') := by
  obtain ⟨hc, hne⟩ := counts_step hs
  obtain ⟨h, hq⟩ := hi.queue
  have hq' := inv_step hq hs
  have hlen := hq.inv.len
  have hlen' := hq'.inv.len
  obtain ⟨hsub, hfew⟩ := hok
  cases hk : kind s.queue a <;> rw [hk] at hc <;>
    obtain ⟨hallocs, hchain, htaken, hadded, hremoved, hcount, huncount, hadds, hsubs⟩ := hc <;>
    simp only [reduceCtorEq, if_true, if_false, Nat.add_zero] at hallocs hchain htaken hadded hremoved hcount huncount
  case start =>
    have hvalues : q'.q.values.length = s.queue.q.values.length := by rw [hchain] at hlen'; omega
    refine ⟨⟨_, hq'⟩, isSome_same hi.counting hne hcount, isSome_same hi.uncounting hne huncount, ?_, ?_,
      hadded.trans hi.added, hremoved.trans hi.removed, hi.returned, ?_, ?_, hi.subset⟩
    · exact hvalues.symm ▸ hi.ins
    · exact htaken.symm ▸ hi.outs
    · exact hallocs.trans (congrArg (· + 1) hi.started)
    · exact hallocs.symm ▸ hfew hk
  case link =>
    obtain ⟨n, hchain⟩ := hchain
    have hvalues : q'.q.values.length = s.queue.q.values.length + 1 := by
      rw [hchain, List.length_append, List.length_singleton] at hlen'
      omega
    refine ⟨⟨_, hq'⟩, isSome_update hi.counting hne hcount.symm, isSome_same hi.uncounting hne huncount, ?_, ?_,
      hadded.trans hi.added, hremoved.trans hi.removed, hi.returned, hallocs.trans hi.started, ?_, hi.subset⟩
    · exact hvalues.symm ▸ hi.ins.take
    · exact htaken.symm ▸ hi.outs
    · exact hallocs.symm ▸ hi.fewer
  case add =>
    have hvalues : q'.q.values.length = s.queue.q.values.length := by rw [hchain] at hlen'; omega
    obtain ⟨p, hp⟩ := Option.isSome_iff_exists.1 ((hi.counting a.thread).trans (hadds rfl))
    refine ⟨⟨_, hq'⟩, isSome_update hi.counting hne hcount.symm, isSome_same hi.uncounting hne huncount, ?_, ?_,
      ?_, hremoved.trans hi.removed, hi.returned, hallocs.trans hi.started, ?_, ?_⟩
    · simp only [Sized.tell, Sized.setQueue, hp, hvalues]
      exact hi.ins.hand hp
    · exact htaken.symm ▸ hi.outs
    · simp only [Sized.tell, Sized.setQueue, hp]
      exact hadded.trans (congrArg (· + 1) hi.added)
    · exact hallocs.symm ▸ hi.fewer
    · simp only [Sized.tell, Sized.setQueue, hp]
      exact fun x hx => List.mem_cons_of_mem _ (hi.subset hx)
  case take =>
    have hvalues : q'.q.values.length = s.queue.q.values.length := by rw [hchain] at hlen'; omega
    refine ⟨⟨_, hq'⟩, isSome_same hi.counting hne hcount, isSome_update hi.uncounting hne huncount.symm, ?_, ?_,
      hadded.trans hi.added, hremoved.trans hi.removed, hi.returned, hallocs.trans hi.started, ?_, hi.subset⟩
    · exact hvalues.symm ▸ hi.ins
    · exact htaken.symm ▸ hi.outs.take
    · exact hallocs.symm ▸ hi.fewer
  case sub =>
    have hvalues : q'.q.values.length = s.queue.q.values.length := by rw [hchain] at hlen'; omega
    obtain ⟨p, hp⟩ := Option.isSome_iff_exists.1 ((hi.uncounting a.thread).trans (hsubs rfl))
    have hmem : p ∈ s.ins := hsub hk p hp
    refine ⟨⟨_, hq'⟩, isSome_same hi.counting hne hcount, isSome_update hi.uncounting hne huncount.symm, ?_, ?_,
      hadded.trans hi.added, ?_, ?_, hallocs.trans hi.started, ?_, ?_⟩
    · exact hvalues.symm ▸ hi.ins
    · simp only [Sized.tell, Sized.setQueue, hp, htaken]
      exact hi.outs.hand hp
    · simp only [Sized.tell, Sized.setQueue, hp]
      exact hremoved.trans (congrArg (· + 1) hi.removed)
    · simp only [Sized.tell, Sized.setQueue, hp]
      exact congrArg (· + 1) hi.returned
    · exact hallocs.symm ▸ hi.fewer
    · simp only [Sized.tell, Sized.setQueue, hp]
      exact List.cons_subset.2 ⟨hmem, hi.subset⟩
  case other =>
    have hvalues : q'.q.values.length = s.queue.q.values.length := by rw [hchain] at hlen'; omega
    exact ⟨⟨_, hq'⟩, isSome_same hi.counting hne hcount, isSome_same hi.uncounting hne huncount, hvalues.symm ▸ hi.ins,
      htaken.symm ▸ hi.outs, hadded.trans hi.added, hremoved.trans hi.removed, hi.returned, hallocs.trans hi.started,
      hallocs.symm ▸ hi.fewer, hi.subset⟩

/-- The value that a `fetch_sub` subtracts was added and is not subtracted yet. -/
theorem Sizes.size_ne_zero (hi : Sizes s) {a : Act ι T} (hok : CountsInFirst s (.queue a))
    (hs : LockFreeQueue.step s.queue a = some q') (hk : kind s.queue a = .sub) : s.queue.q.size ≠ 0 := by
  obtain ⟨p, hp⟩ := Option.isSome_iff_exists.1 ((hi.uncounting a.thread).trans ((counts_step hs).1.subs hk))
  have hin : p ∈ s.ins := hok.1 hk p hp
  have hout : p ∉ s.outs := (hi.outs.held _ p hp).2
  intro h0
  have hsize := hi.size_eq
  rw [h0] at hsize
  have hle : s.ins.length ≤ s.outs.length := by
    change 0 + s.outs.length = s.ins.length at hsize
    omega
  exact hout (hi.outs.subset_of_length hi.subset hle hin)

theorem Sizes.size_le (hi : Sizes s) : s.queue.q.size.toNat + s.returned ≤ s.started := by
  obtain ⟨h, hq⟩ := hi.queue
  have hvalues := values_lt_allocs hq
  have hins := hi.ins.length_le
  have hsize := hi.size_eq
  have hstarted := hi.started
  rw [hi.returned]
  omega

/-- With `size_ = 0`, whatever was added was subtracted, and so it was taken. -/
theorem Sizes.nothingReturned (hi : Sizes s) (h0 : s.queue.q.size = 0) : s.nothingReturned := by
  rintro p hp ⟨hle, -⟩
  have hsize := hi.size_eq
  rw [h0] at hsize
  have hlen : s.ins.length ≤ s.outs.length := by
    change 0 + s.outs.length = s.ins.length at hsize
    omega
  exact Nat.not_lt_of_le hle (hi.outs.lt p (hi.outs.subset_of_length hi.subset hlen hp))

/-- Only the queue and its histories matter. -/
theorem Sizes.setCall (hi : Sizes s) (c : Call) : Sizes (s.setCall i c) :=
  ⟨hi.queue, hi.counting, hi.uncounting, hi.ins, hi.outs, hi.added, hi.removed, hi.returned, hi.started, hi.fewer,
    hi.subset⟩

end sizes

/-! ### Every run -/

section run

variable {h : History (Sized ι T) (SizedAct ι T)} {s s' : Sized ι T} {i : ι}

omit [DecidableEq ι] in
theorem usable_init : Usable [] (Sized.init : Sized ι T) := ⟨nofun, nofun, nofun⟩

omit [DecidableEq ι] in
theorem not_subtracts {a : SizedAct ι T} (ha : ∀ b, a ≠ .queue b) : ¬ s.subtracts a := by
  cases a with
  | queue b => exact absurd rfl (ha b)
  | _ => exact id

omit [DecidableEq ι] in
/-- A step of the queue: nobody's call begins or ends. -/
theorem Usable.queue (hu : Usable h s) {a : Act ι T}
    (hsize : kind s.queue a = .sub → s.queue.q.size ≠ 0) (hcall : s'.call = s.call) :
    Usable ((.queue a, s) :: h) s' := by
  refine ⟨fun b s₀ hmem hb => ?_, fun i n hi => ?_, fun i hi => ?_⟩
  · rcases List.mem_cons.1 hmem with heq | hmem
    · obtain ⟨rfl, rfl⟩ := Prod.mk.inj heq
      exact hsize hb
    · exact hu.noWrap b s₀ hmem hb
  · exact (hu.count i n (hcall ▸ hi)).later id
  · exact (hu.isEmpty i (hcall ▸ hi)).later id

/-- A step of a call of thread `i`: of what it may return there, the state tells. -/
theorem Usable.call (hu : Usable h s) {a : SizedAct ι T} {c : Call} (ha : ∀ b, a ≠ .queue b)
    (hothers : ∀ j, j ≠ i → ¬ a.calls j)
    (hcount : ∀ n, c = .counted n → s.queue.q.size = n ∧ n.toNat + s.returned ≤ s.started)
    (hempty : c = .wasEmpty true → s.nothingReturned) : Usable ((a, s) :: h) (s.setCall i c) := by
  refine ⟨fun b s₀ hmem hb => ?_, fun j n hj => ?_, fun j hj => ?_⟩
  · rcases List.mem_cons.1 hmem with heq | hmem
    · obtain ⟨rfl, rfl⟩ := Prod.mk.inj heq
      exact absurd hb (not_subtracts ha)
    · exact hu.noWrap b s₀ hmem hb
  · rcases eq_or_ne j i with rfl | hji
    · exact .now (hcount n ((update_self ..).symm.trans hj))
    · have hj : s.call j = .counted n := (update_of_ne hji ..).symm.trans hj
      exact (hu.count j n hj).later (hothers j hji)
  · rcases eq_or_ne j i with rfl | hji
    · exact .now (hempty ((update_self ..).symm.trans hj))
    · have hj : s.call j = .wasEmpty true := (update_of_ne hji ..).symm.trans hj
      exact (hu.isEmpty j hj).later (hothers j hji)

theorem usable_step (hi : Sizes s) (hu : Usable h s) {a : SizedAct ι T} (hok : CountsInFirst s a)
    (hs : s.step a = some s') : Sizes s' ∧ Usable ((a, s) :: h) s' := by
  cases a with
  | queue a =>
    simp only [Sized.step] at hs
    split at hs
    · obtain ⟨q', hq, rfl⟩ := Option.map_eq_some_iff.1 hs
      refine ⟨hi.step_queue hok hq, hu.queue (hi.size_ne_zero hok hq) ?_⟩
      cases kind s.queue a <;> rfl
    · cases hs
  | isEmpty i =>
    simp only [Sized.step] at hs
    split at hs
    · obtain rfl := Option.some.inj hs
      exact ⟨hi.setCall _, hu.call nofun (fun j hj => hj.symm) nofun nofun⟩
    · cases hs
  | count i =>
    simp only [Sized.step] at hs
    split at hs
    · obtain rfl := Option.some.inj hs
      exact ⟨hi.setCall _, hu.call nofun (fun j hj => hj.symm) nofun nofun⟩
    · cases hs
  | load i =>
    simp only [Sized.step] at hs
    split at hs
    · obtain rfl := Option.some.inj hs
      refine ⟨hi.setCall _, hu.call nofun (fun _ _ => id) nofun fun hc => hi.nothingReturned ?_⟩
      exact eq_of_beq (Call.wasEmpty.inj hc)
    · obtain rfl := Option.some.inj hs
      refine ⟨hi.setCall _, hu.call nofun (fun _ _ => id) (fun n hc => ?_) nofun⟩
      obtain rfl := Call.counted.inj hc
      exact ⟨rfl, hi.size_le⟩
    · cases hs
  | leave i =>
    simp only [Sized.step] at hs
    split at hs
    · obtain rfl := Option.some.inj hs
      exact ⟨hi.setCall _, hu.call nofun (fun _ _ => id) nofun nofun⟩
    · obtain rfl := Option.some.inj hs
      exact ⟨hi.setCall _, hu.call nofun (fun _ _ => id) nofun nofun⟩
    · cases hs

/-- In every run of any number of threads in which a value is subtracted only after it was added. -/
theorem usable_as_size (r : Run (sizedSystem ι T) CountsInFirst h s) : Usable h s := by
  have hi : Sizes s ∧ Usable h s := by
    refine r.invariant (I := fun h s => Sizes s ∧ Usable h s) ?_ fun h s a s' hi hok hs => usable_step hi.1 hi.2 hok hs
    rintro s rfl
    exact ⟨sizes_init, usable_init⟩
  exact hi.2

end run

/-! ### Runs -/

section runs

/-- The condition, evaluated. -/
def checkCountsInFirst (s : Sized ι T) : SizedAct ι T → Bool
  | .queue a => (kind s.queue a != .sub || (s.uncounting a.thread).all fun p => decide (p ∈ s.ins)) &&
      (kind s.queue a != .start || decide (s.queue.q.allocs + 1 < 2 ^ 64))
  | _ => true

omit [DecidableEq ι] in
theorem countsInFirst_of_check (s : Sized ι T) (a : SizedAct ι T) (h : checkCountsInFirst s a = true) :
    CountsInFirst s a := by
  cases a with
  | queue a =>
    simp only [checkCountsInFirst, Bool.and_eq_true, Bool.or_eq_true, bne_iff_ne, decide_eq_true_eq] at h
    refine ⟨fun hk p hp => ?_, fun hk => h.2.resolve_left (not_not.2 hk)⟩
    have hall := h.1.resolve_left (not_not.2 hk)
    rw [hp] at hall
    exact of_decide_eq_true hall
  | _ => trivial

/-- Thread 1 has pushed 7 and thread 0 has taken it, without the step that subtracts it. -/
def popsSeven (added : Nat) : List (SizedAct (Fin 2) Nat) :=
  [SizedAct.queue (.push 1 7)] ++ List.replicate (3 + added) (SizedAct.queue (.step 1 false none)) ++
    [SizedAct.queue (.tryPop 0)] ++ List.replicate 6 (SizedAct.queue (.step 0 false none))

/-- Thread 1 has added it first, and the queue is empty. -/
theorem usable_when_added : ∃ (h : History (Sized (Fin 2) Nat) (SizedAct (Fin 2) Nat)) (s : Sized (Fin 2) Nat),
    (s.returned = 1 ∧ s.call 0 = .wasEmpty true) ∧ Usable h s := by
  obtain ⟨s, ⟨h, r⟩, hp⟩ := Reach.of_exec (sizedSystem (Fin 2) Nat)
    (popsSeven 2 ++ [SizedAct.queue (.step 0 false none), SizedAct.queue (.finish 0), SizedAct.isEmpty 0,
      SizedAct.load 0])
    (fun s => s.returned = 1 ∧ s.call 0 = .wasEmpty true) countsInFirst_of_check (s := .init) rfl (by decide)
  exact ⟨h, s, of_decide_eq_true hp, usable_as_size r⟩

/-- Thread `i` is outside of any call. -/
def Sized.rests (s : Sized ι T) (i : ι) : Bool := s.call i == .none && (s.queue.pc i matches .idle)

section load

variable {h : History (Sized ι T) (SizedAct ι T)} {s : Sized ι T} {i : ι}

omit [DecidableEq ι] in
theorem Sized.rests_iff : s.rests i = true ↔ s.call i = .none ∧ s.queue.pc i = .idle := by
  unfold rests
  rw [Bool.and_eq_true, beq_iff_eq]
  refine and_congr_right fun _ => ?_
  generalize s.queue.pc i = pc
  cases pc with
  | idle => exact ⟨fun _ => rfl, fun _ => rfl⟩
  | _ => exact ⟨nofun, nofun⟩

theorem Sized.setCall_call (s : Sized ι T) {c : Call} : (s.setCall i c).call i = c := update_self ..

theorem Sized.setCall_setCall (c c' : Call) : (s.setCall i c).setCall i c' = s.setCall i c' := by
  simp only [setCall, update_idem]

/-- `Count` and `IsEmpty`, with no step of another thread in between. -/
theorem count_at_once (r : Run (sizedSystem ι T) anyStep h s) (hi : s.rests i = true) :
    Run (sizedSystem ι T) anyStep ((.load i, s.setCall i .count) :: (.count i, s) :: h)
      (s.setCall i (.counted s.queue.q.size)) := by
  obtain ⟨hc, hpc⟩ := Sized.rests_iff.1 hi
  have hcall : (sizedSystem ι T).step s (.count i) = some (s.setCall i .count) := by
    simp only [sizedSystem, Sized.step, hc, hpc]
  refine (r.step trivial hcall).step trivial ?_
  have hi : (s.setCall i .count).call i = .count := update_self ..
  simp only [sizedSystem, Sized.step, hi, Sized.setCall_setCall]
  rfl

theorem isEmpty_at_once (r : Run (sizedSystem ι T) anyStep h s) (hi : s.rests i = true) :
    Run (sizedSystem ι T) anyStep ((.load i, s.setCall i .isEmpty) :: (.isEmpty i, s) :: h)
      (s.setCall i (.wasEmpty s.queue.q.isEmpty)) := by
  obtain ⟨hc, hpc⟩ := Sized.rests_iff.1 hi
  have hcall : (sizedSystem ι T).step s (.isEmpty i) = some (s.setCall i .isEmpty) := by
    simp only [sizedSystem, Sized.step, hc, hpc]
  refine (r.step trivial hcall).step trivial ?_
  have hi : (s.setCall i .isEmpty).call i = .isEmpty := update_self ..
  simp only [sizedSystem, Sized.step, hi, Sized.setCall_setCall]
  rfl

/-- Nothing held at any moment of it that does not hold in the state in which it was called. -/
theorem not_during {P : Sized ι T → Prop} {a : SizedAct ι T} (hcall : a.calls i) (hP : ∀ c, ¬ P (s.setCall i c))
    (c c' : Call) : ¬ During (SizedAct.calls i) P ((.load i, s.setCall i c) :: (a, s) :: h) (s.setCall i c') := by
  rintro (h | ⟨-, h | ⟨h, -⟩⟩)
  · exact hP c' h
  · exact hP c h
  · exact h hcall

end load

/-- 7 is subtracted before it is added: `size_` wraps, and `Count` returns `2^64 - 1`. Then 8 is added: `IsEmpty`
says so of a queue that has 8. -/
theorem size_unusable :
    (∃ (h : History (Sized (Fin 2) Nat) (SizedAct (Fin 2) Nat)) (s : Sized (Fin 2) Nat),
      Run (sizedSystem (Fin 2) Nat) anyStep h s ∧ ∃ a s₀, (a, s₀) ∈ h ∧ s₀.subtracts a ∧ s₀.queue.q.size = 0) ∧
    (∃ (h : History (Sized (Fin 2) Nat) (SizedAct (Fin 2) Nat)) (s : Sized (Fin 2) Nat),
      Run (sizedSystem (Fin 2) Nat) anyStep h s ∧ ∃ i n, s.call i = .counted n ∧ ¬ During (SizedAct.calls i)
        (fun s₀ => s₀.queue.q.size = n ∧ n.toNat + s₀.returned ≤ s₀.started) h s) ∧
    ∃ (h : History (Sized (Fin 2) Nat) (SizedAct (Fin 2) Nat)) (s : Sized (Fin 2) Nat),
      Run (sizedSystem (Fin 2) Nat) anyStep h s ∧ ∃ i, s.call i = .wasEmpty true ∧
        ¬ During (SizedAct.calls i) Sized.nothingReturned h s := by
  refine ⟨?_, ?_, ?_⟩
  · obtain ⟨s, ⟨h, r⟩, hp⟩ := Reach.of_exec_any (sizedSystem (Fin 2) Nat) (popsSeven 0)
      (fun s => (kind s.queue (.step 0 false none) = .sub ∧ s.queue.q.size = 0) ∧
        (s.step (.queue (.step 0 false none))).isSome) (s := .init) rfl (by decide)
    obtain ⟨⟨hk, h0⟩, hsome⟩ := of_decide_eq_true hp
    obtain ⟨s', hs⟩ := Option.isSome_iff_exists.1 hsome
    have hr : Run (sizedSystem (Fin 2) Nat) anyStep ((.queue (.step 0 false none), s) :: h) s' := r.step trivial hs
    exact ⟨_, s', hr, .queue (.step 0 false none), s, List.mem_cons_self, hk, h0⟩
  · obtain ⟨s, ⟨h, r⟩, hp⟩ := Reach.of_exec_any (sizedSystem (Fin 2) Nat)
      (popsSeven 0 ++ [SizedAct.queue (.step 0 false none), SizedAct.queue (.finish 0)])
      (fun s => s.rests 0 = true ∧ s.started < s.queue.q.size.toNat + s.returned) (s := .init) rfl (by decide)
    obtain ⟨hrests, hlt⟩ := of_decide_eq_true hp
    refine ⟨_, _, count_at_once r hrests, 0, _, s.setCall_call,
      not_during (a := .count 0) (rfl : (0 : Fin 2) = 0) (fun c hc => ?_) _ _⟩
    exact Nat.not_le_of_lt hlt hc.2
  · obtain ⟨s, ⟨h, r⟩, hp⟩ := Reach.of_exec_any (sizedSystem (Fin 2) Nat)
      (popsSeven 0 ++ [SizedAct.queue (.step 0 false none), SizedAct.queue (.finish 0),
        SizedAct.queue (.push 0 8)] ++ List.replicate 9 (SizedAct.queue (.step 0 false none)) ++
        [SizedAct.queue (.finish 0)])
      (fun s => (s.rests 0 = true ∧ s.queue.q.isEmpty = true) ∧
        1 ∈ s.ins ∧ s.queue.q.taken ≤ 1 ∧ 1 < s.queue.q.values.length) (s := .init) rfl (by decide)
    obtain ⟨⟨hrests, hempty⟩, hmem, hin⟩ := of_decide_eq_true hp
    refine ⟨_, _, isEmpty_at_once r hrests, 0, ?_,
      not_during (a := .isEmpty 0) (rfl : (0 : Fin 2) = 0) (fun c hc => hc 1 hmem hin) _ _⟩
    rw [hempty]
    exact s.setCall_call

end runs

end LockFreeQueue
