import ConcurrencyCourse.Lib.Transition
import Mathlib.Algebra.BigOperators.Group.Finset.Basic
import Mathlib.Algebra.Order.Group.Multiset
import Mathlib.Data.Fintype.BigOperators

/-!
# The hazard pointers (lockfree/queue/hazard, lock_free_stack.hpp)

| here | there |
| --- | --- |
| `Pc.pushLoad`, `Pc.pushCas` | `LockFreeStack::Push` (lock_free_stack.hpp 27-35) |
| `Pc.makeMutator` … `Pc.popCas` | `TryPop` (37-54), with `Manager::MakeMutator` (hazard.cpp 15-21) and `Mutator::Protect` (mutator.cpp 31-50) |
| `Pc.removeLocal` … `Pc.delete` | `Mutator::Retire` (61-112), with `RemoveFromGuardedLocal`, `RemoveFromGuardedGlobal`, `PushRetired` (thread_state.hpp 80-107) |
| `State.collect` | `Manager::Collect` (hazard.cpp 23-27), with `DeleteForAllThreads` (thread_state.hpp 56-72) and `~Mutator`, `Mutator::Clear` (mutator.cpp 115-132) |

* The stack protects in slot 0 only, so what the maps keep by slot is one entry here: `guarded_global` is one
  pointer for all threads, `guarded_local` one for each.
* Every access to one of the maps is a step. `Collect` is one step, and nothing else runs meanwhile.
* A pointer carries the number of the node it means; the code compares addresses. The allocator may return the
  address of a deleted node. A step that reads a node that is not there is not enabled.
* The items are left out. `deleted` are the numbers of the nodes, once for every `delete`.
-/

namespace Hazard

open Function

structure Ptr (A : Type) where
  addr : A
  id : Nat
  deriving DecidableEq

structure Node (A : Type) where
  next : Option (Ptr A)
  id : Nat
  deriving DecidableEq

/-- Where a thread is, with its locals. -/
inductive Pc (A : Type) where
  | idle
  -- `new_node->next = top_.load()`
  | pushLoad (a : Ptr A)
  | pushCas (a : Ptr A)
  | makeMutator
  -- `t = ptr.load()`
  | load
  -- `ts.guarded_global[index] = t`
  | setGlobal (t : Ptr A)
  -- `ts.guarded_local[pid][index] = t`
  | setLocal (t : Ptr A)
  -- `t != ptr.load()`
  | reload (t : Ptr A)
  -- `curr_top->next`
  | popNext (p : Ptr A)
  | popCas (p : Ptr A) (next : Option (Ptr A))
  | removeLocal (p : Ptr A)
  -- `g.second == ptr`, then `guarded_global[g.first] = nullptr`
  | testGlobal (p : Ptr A)
  | clearGlobal (p : Ptr A)
  | pushRetired (p : Ptr A)
  -- the loop over the retired: position `it`, turn `i`, and the length at its start
  | scan (it i size : Nat)
  -- `ts.deleteFunction(*it)`, `rtr.erase(it)`
  | delete (it i size : Nat)
  deriving DecidableEq

structure State (ι A : Type) where
  /-- `top_`. -/
  top : Option (Ptr A)
  heap : A → Option (Node A)
  guardedGlobal : Option (Ptr A)
  guardedLocal : ι → Option (Ptr A)
  retired : ι → List (Ptr A)
  mutators : ι → Bool
  pc : ι → Pc A
  allocs : Nat
  deleted : Multiset Nat

inductive Act (ι A : Type) where
  /-- `Push`; the allocator returns `a`. -/
  | push (i : ι) (a : A)
  | tryPop (i : ι)
  /-- The next step of a thread; its CAS may fail spuriously. -/
  | step (i : ι) (spurious : Bool)
  | collect (i : ι)

variable {ι A : Type} [DecidableEq ι] [DecidableEq A]

/-! ### What a step writes -/

def State.setPc (s : State ι A) (i : ι) (pc : Pc A) : State ι A := { s with pc := update s.pc i pc }

def State.setTop (s : State ι A) (p : Option (Ptr A)) : State ι A := { s with top := p }

/-- Write to the node at `a`. -/
def State.setNode (s : State ι A) (a : A) (n : Node A) : State ι A :=
  { s with heap := update s.heap a (some n) }

/-- `new Node` at address `a`. -/
def State.alloc (s : State ι A) (a : A) : State ι A :=
  { s with heap := update s.heap a (some ⟨none, s.allocs⟩), allocs := s.allocs + 1 }

/-- `delete` of what `q` points to. -/
def State.free (s : State ι A) (q : Ptr A) : State ι A :=
  { s with heap := update s.heap q.addr none, deleted := q.id ::ₘ s.deleted }

def State.setGlobal (s : State ι A) (p : Option (Ptr A)) : State ι A := { s with guardedGlobal := p }

def State.setLocal (s : State ι A) (i : ι) (p : Option (Ptr A)) : State ι A :=
  { s with guardedLocal := update s.guardedLocal i p }

def State.setRetired (s : State ι A) (i : ι) (l : List (Ptr A)) : State ι A :=
  { s with retired := update s.retired i l }

def State.setMutator (s : State ι A) (i : ι) : State ι A := { s with mutators := update s.mutators i true }

/-- The pointers are equal for the code. -/
def sameAddr (o : Option (Ptr A)) (p : Ptr A) : Bool :=
  match o with
  | some q => q.addr = p.addr
  | none => false

/-- `PushRetired`: the list of the thread after it. -/
def pushRetired (l : List (Ptr A)) (p : Ptr A) : List (Ptr A) :=
  if ∃ q ∈ l, q.addr = p.addr then l else l ++ [p]

variable [Fintype ι]

/-- `IsGuardedByThread(ptr, skip_pid)` (thread_state.hpp 74-88). -/
def State.isGuardedByThread (s : State ι A) (p : Ptr A) (i : ι) : Bool :=
  decide (∃ j, j ≠ i ∧ sameAddr (s.guardedLocal j) p = true)

/-- `DeleteForAllThreads`. -/
def State.deleteForAllThreads (s : State ι A) : State ι A :=
  { s with
    heap := fun a => if ∃ i, ∃ q ∈ s.retired i, q.addr = a then none else s.heap a
    deleted := s.deleted + ∑ i, (((s.retired i).map Ptr.id : List Nat) : Multiset Nat)
    retired := fun _ => [] }

omit [Fintype ι] in
/-- `Clear` in thread `i`. -/
def State.clear (s : State ι A) (i : ι) : State ι A :=
  match s.guardedLocal i with
  | some q => (s.setRetired i (pushRetired (s.retired i) q)).setLocal i none
  | none => s

/-- `Collect` in thread `i`: every mutator is destroyed, and each clears what `i` guards. -/
def State.collect (s : State ι A) (i : ι) : State ι A :=
  let d := s.deleteForAllThreads
  { (if ∃ j, s.mutators j = true then d.clear i else d) with mutators := fun _ => false }

/-! ### Steps -/

omit [Fintype ι] in
def threadStep (s : State ι A) (i : ι) (spurious : Bool) : Option (State ι A) :=
  match s.pc i with
  | .idle => none
  | .pushLoad a => (s.heap a.addr).map fun n =>
    (s.setNode a.addr { n with next := s.top }).setPc i (.pushCas a)
  -- where the CAS succeeds, `next` has the address of `top_` already
  | .pushCas a => (s.heap a.addr).map fun n =>
    if spurious = false ∧ s.top.map Ptr.addr = n.next.map Ptr.addr then
      ((s.setNode a.addr { n with next := s.top }).setTop (some a)).setPc i .idle
    else (s.setNode a.addr { n with next := s.top }).setPc i (.pushCas a)
  | .makeMutator => some ((s.setMutator i).setPc i .load)
  | .load => match s.top with
    | none => some (s.setPc i .idle)
    | some t => some (s.setPc i (.setGlobal t))
  | .setGlobal t => some ((s.setGlobal (some t)).setPc i (.setLocal t))
  | .setLocal t => some ((s.setLocal i (some t)).setPc i (.reload t))
  | .reload t => match s.top with
    | some p => some (s.setPc i (if p.addr = t.addr then .popNext p else .load))
    | none => some (s.setPc i .load)
  | .popNext p => (s.heap p.addr).map fun n => s.setPc i (.popCas p n.next)
  | .popCas p next =>
    if spurious = false ∧ sameAddr s.top p = true then some ((s.setTop next).setPc i (.removeLocal p))
    else some (s.setPc i .load)
  | .removeLocal p =>
    some ((if sameAddr (s.guardedLocal i) p then s.setLocal i none else s).setPc i (.testGlobal p))
  | .testGlobal p =>
    some (s.setPc i (if sameAddr s.guardedGlobal p then .clearGlobal p else .pushRetired p))
  | .clearGlobal p => some ((s.setGlobal none).setPc i (.pushRetired p))
  | .pushRetired p =>
    some ((s.setRetired i (pushRetired (s.retired i) p)).setPc i
      (if (pushRetired (s.retired i) p).length > 10 then
        .scan 0 0 (pushRetired (s.retired i) p).length
      else .idle))
  | .scan it k size =>
    if k < size / 2 then
      ((s.retired i)[it]?).map fun q =>
        s.setPc i (if sameAddr s.guardedGlobal q then .scan (it + 1) (k + 1) size else .delete it k size)
    else some (s.setPc i .idle)
  | .delete it k size => ((s.retired i)[it]?).map fun q =>
    ((s.free q).setRetired i ((s.retired i).eraseIdx it)).setPc i (.scan it (k + 1) size)

def step (s : State ι A) : Act ι A → Option (State ι A)
  | .push i a =>
    if s.pc i = .idle ∧ s.heap a = none then some ((s.alloc a).setPc i (.pushLoad ⟨a, s.allocs⟩)) else none
  | .tryPop i => if s.pc i = .idle then some (s.setPc i .makeMutator) else none
  | .step i spurious => threadStep s i spurious
  | .collect i => if ∀ j, s.pc j = .idle then some (s.collect i) else none

def init : State ι A :=
  { top := none, heap := fun _ => none, guardedGlobal := none, guardedLocal := fun _ => none,
    retired := fun _ => [], mutators := fun _ => false, pc := fun _ => .idle, allocs := 0, deleted := 0 }

def system (ι A : Type) [DecidableEq ι] [DecidableEq A] [Fintype ι] : Transition.System (State ι A) (Act ι A) :=
  ⟨fun s => s = init, step⟩

end Hazard
