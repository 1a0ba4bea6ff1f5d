import Mathlib.Logic.Function.Basic
import ConcurrencyCourse.Lib.Transition
import ConcurrencyCourse.Stack.StampedPtr

/-!
# The stamped Treiber stack (lockfree/stack/lock_free_stack.hpp)

`Push` and `TryPop` as their atomic steps. The references to a node are split: the stamp of the
word that holds the pointer (`head_`, or the `next` of the node pushed above) counts the
acquisitions, `inner_counter` of the node collects the releases, and the thread that unlinks
the node adds the stamp to it.

* Every CAS is `compare_exchange_weak`: with `spurious` it fails although the words are equal.
* `heap` is the allocator: `push` gets any address that is free at that moment, so the address
  of a deleted node may come back.
* A step that accesses an address with no node on it is not enabled. Whether a node is
  accessed after its deletion cannot be seen from the address alone when the address was
  reused, so every allocation has its own number (`id`), kept in the node and beside every
  pointer that a thread dereferences. The numbers, `allocs`, `popped` and `deleted` are
  histories: no step of the code depends on them.
-/

namespace Stack

/-- `Node`; `id` is the number of the allocation. -/
structure Node (A V : Type) where
  value : V
  next : StampedPtr A
  inner : Int
  id : Nat

/-- Where a thread is, with its locals. `p` and `k` are `old_head` (not null) and its stamp. -/
inductive Local (A V : Type) where
  | idle
  -- Push: `new_head->next = head_.Load()`, then the CAS loop
  | pushLoad (a : A) (id : Option Nat)
  | pushCas (a : A) (id : Option Nat)
  -- TryPop: load, `IncrementStamp` by CAS
  | popLoad
  | popInc (p : A) (k : Nat)
  -- evaluate `old_head->next`, CAS it in
  | popNext (p : A) (k : Nat) (id : Option Nat)
  | popUnlink (p : A) (k : Nat) (next : StampedPtr A) (id : Option Nat)
  -- the CAS succeeded: move the value out, fold the stamp in
  | popMove (p : A) (k : Nat) (id : Option Nat)
  | popAdd (p : A) (k : Nat) (id : Option Nat) (value : V)
  -- the CAS failed: release the reference
  | popSub (p : A) (id : Option Nat)
  -- `delete old_head.raw_ptr`, then return the value or go round the loop
  | delete (p : A) (id : Option Nat) (result : Option V)
  | popDone (result : Option V)

structure State (ι A V : Type) where
  head : StampedPtr A
  heap : A → Option (Node A V)
  loc : ι → Local A V
  allocs : Nat
  popped : List (Option Nat)
  deleted : List Nat

inductive Act (ι A V : Type) where
  /-- `Push(value)`; the allocator returns `a`. -/
  | push (t : ι) (value : V) (a : A)
  | pop (t : ι)
  | go (t : ι) (spurious : Bool)

variable {ι A V : Type} [DecidableEq ι] [DecidableEq A]

/-- The number of the node at an address. -/
def State.idAt (s : State ι A V) (p : A) : Option Nat := (s.heap p).map Node.id

/-! ### What a step writes -/

def State.setLoc (s : State ι A V) (t : ι) (l : Local A V) : State ι A V :=
  { s with loc := Function.update s.loc t l }

/-- Store to `head_`. -/
def State.setHead (s : State ι A V) (w : StampedPtr A) : State ι A V := { s with head := w.packed }

/-- Write to the node at `p`. -/
def State.setNode (s : State ι A V) (p : A) (n : Node A V) : State ι A V :=
  { s with heap := Function.update s.heap p (some n) }

/-- `new Node(value)` at address `a`. -/
def State.alloc (s : State ι A V) (a : A) (value : V) : State ι A V :=
  { s with heap := Function.update s.heap a (some ⟨value, .null, 0, s.allocs⟩)
           allocs := s.allocs + 1 }

/-- `delete` of node `n` at address `p`. -/
def State.free (s : State ι A V) (p : A) (n : Node A V) : State ι A V :=
  { s with heap := Function.update s.heap p none, deleted := n.id :: s.deleted }

/-- The node with number `id` was unlinked from `head_`. -/
def State.addPopped (s : State ι A V) (id : Option Nat) : State ι A V :=
  { s with popped := id :: s.popped }

section
omit [DecidableEq A]
@[simp] theorem setLoc_heap (s : State ι A V) (t : ι) (l : Local A V) :
    (s.setLoc t l).heap = s.heap := rfl
@[simp] theorem setLoc_loc (s : State ι A V) (t : ι) (l : Local A V) :
    (s.setLoc t l).loc = Function.update s.loc t l := rfl
end

section
omit [DecidableEq ι]
@[simp] theorem setNode_heap (s : State ι A V) (p : A) (n : Node A V) :
    (s.setNode p n).heap = Function.update s.heap p (some n) := rfl
@[simp] theorem setNode_loc (s : State ι A V) (p : A) (n : Node A V) :
    (s.setNode p n).loc = s.loc := rfl
@[simp] theorem alloc_heap (s : State ι A V) (a : A) (v : V) :
    (s.alloc a v).heap = Function.update s.heap a (some ⟨v, .null, 0, s.allocs⟩) := rfl
@[simp] theorem alloc_loc (s : State ι A V) (a : A) (v : V) : (s.alloc a v).loc = s.loc := rfl
@[simp] theorem free_heap (s : State ι A V) (p : A) (n : Node A V) :
    (s.free p n).heap = Function.update s.heap p none := rfl
@[simp] theorem free_loc (s : State ι A V) (p : A) (n : Node A V) : (s.free p n).loc = s.loc := rfl
end

/-- The next atomic step of thread `t`. -/
def go (s : State ι A V) (t : ι) (spurious : Bool) : Option (State ι A V) :=
  match s.loc t with
  | .idle => none
  | .pushLoad a id => (s.heap a).map fun n =>
    (s.setNode a { n with next := s.head }).setLoc t (.pushCas a id)
  | .pushCas a id => (s.heap a).map fun n =>
    if spurious = false ∧ s.head = n.next.packed then (s.setHead ⟨some a, 0⟩).setLoc t .idle
    else (s.setNode a { n with next := s.head }).setLoc t (.pushCas a id)
  | .popLoad => match s.head.raw with
    | none => some (s.setLoc t (.popDone none))
    | some p => some (s.setLoc t (.popInc p s.head.stamp))
  | .popInc p k =>
    if spurious = false ∧ s.head = (StampedPtr.mk (some p) k).packed then
      some ((s.setHead (StampedPtr.mk (some p) k).incrementStamp).setLoc t
        (.popNext p (k + 1) (s.idAt p)))
    else some (s.setLoc t .popLoad)
  | .popNext p k id => (s.heap p).map fun n => s.setLoc t (.popUnlink p k n.next id)
  | .popUnlink p k next id =>
    if spurious = false ∧ s.head = (StampedPtr.mk (some p) k).packed then
      some (((s.setHead next).addPopped id).setLoc t (.popMove p k id))
    else some (s.setLoc t (.popSub p id))
  | .popMove p k id => (s.heap p).map fun n => s.setLoc t (.popAdd p k id n.value)
  | .popAdd p k id v => (s.heap p).map fun n =>
    (s.setNode p { n with inner := n.inner + ((k : Int) - 1) }).setLoc t
      (if n.inner = 1 - (k : Int) then .delete p id (some v) else .popDone (some v))
  | .popSub p id => (s.heap p).map fun n =>
    (s.setNode p { n with inner := n.inner - 1 }).setLoc t
      (if n.inner = 1 then .delete p id none else .popLoad)
  | .delete p _ result => (s.heap p).map fun n =>
    (s.free p n).setLoc t (match result with | some v => .popDone (some v) | none => .popLoad)
  | .popDone _ => some (s.setLoc t .idle)

def step (s : State ι A V) : Act ι A V → Option (State ι A V)
  | .push t v a => match s.loc t, s.heap a with
    | .idle, none => some ((s.alloc a v).setLoc t (.pushLoad a (some s.allocs)))
    | _, _ => none
  | .pop t => match s.loc t with
    | .idle => some (s.setLoc t .popLoad)
    | _ => none
  | .go t spurious => go s t spurious

def init : State ι A V :=
  { head := .null, heap := fun _ => none, loc := fun _ => .idle, allocs := 0, popped := [],
    deleted := [] }

def system (ι A V : Type) [DecidableEq ι] [DecidableEq A] :
    Transition.System (State ι A V) (Act ι A V) := ⟨fun s => s = init, step⟩

/-- The step does not store a head word with a stamp above 65535: no `IncrementStamp` CAS finds the
word that it expects with a stamp of 65535 already, not even if it fails for no reason. -/
def StampFits (s : State ι A V) : Act ι A V → Prop
  | .go t _ => ∀ p k, s.loc t = .popInc p k → s.head = ⟨some p, k⟩ → k + 1 ≤ StampedPtr.maxStamp
  | _ => True

/-- The node that the next step of a thread reads, writes or deletes: its address, and the
number of the node that the thread means. -/
def Local.accesses : Local A V → Option (A × Option Nat)
  | .idle | .popLoad | .popInc _ _ | .popUnlink _ _ _ _ | .popDone _ => none
  | .pushLoad a id | .pushCas a id => some (a, id)
  | .popNext p _ id | .popMove p _ id | .popAdd p _ id _ | .popSub p id | .delete p id _ =>
    some (p, id)

/-- The nodes that can be reached from a word by following `next`. -/
inductive ReachableFrom (heap : A → Option (Node A V)) : Option A → A → Prop where
  | here (a : A) : ReachableFrom heap (some a) a
  | next {a b : A} {n : Node A V} : heap a = some n → ReachableFrom heap n.next.raw b →
      ReachableFrom heap (some a) b

end Stack
