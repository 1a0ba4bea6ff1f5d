import ConcurrencyCourse.Lib.Transition
import ConcurrencyCourse.SharedPtr.Asp
import Mathlib.Algebra.Ring.Int.Defs

/-!
# `LockFreeStack` on `AtomicSharedPtr` (lockfree/shared_ptr/lock_free_stack.hpp)

Any number of threads run `Push` and `TryPop`. Every atomic step of the `Load`s and
`CompareExchangeWeak`s they make, of the handles they copy and drop, and of the deletions these
cause is a step here.

| here | there |
| --- | --- |
| block `n` | a `Node` with its `ControlBlock` |
| `State.value n`, `State.next n` | `Node::value`, `Node::next` |
| `Task.pushLoad` … `Task.pushEnd` | `Push`, lines 24-29 |
| `Task.popLoad` … `Task.popEnd` | `TryPop`, lines 33-43 |

* `new_node->next` is the `expected` of the CAS of `Push`. While nobody else can see the node the
  handle is in `Task.pushTry` or in the operation; the publishing CAS leaves it in `State.next`.
* The argument `desired` is a copy; its `IncrementStrong` is one step with the reading of the handle
  that is copied. `next` of a published node is not written again.
* `Limited` and `Op.touches` are those of `AtomicSharedPtr`.
-/

namespace LockFreeStack

open Transition SharedPtr Function

inductive Task (V : Type) where
  | idle
  -- Push: `new_node->next = top_.Load()`, the condition of the loop, the end of `new_node`
  | pushLoad (n : Nat)
  | pushTry (n : Nat) (next : Handle)
  | pushCas (n : Nat)
  | pushEnd
  | pushed
  -- TryPop: `curr_top = top_.Load()`, the second `if`, the end of `curr_top`
  | popLoad
  | popTry (c : Nat)
  | popCas (c : Nat)
  | popRetry
  | popEnd (v : V)
  | popped (res : Option V)

structure State (V ι : Type) where
  mem : Mem Unit
  ops : ι → Op Unit
  tasks : ι → Task V
  next : Nat → Handle
  value : Nat → V

inductive Act (V ι : Type) where
  | push (t : ι) (v : V)
  | tryPop (t : ι)
  | go (t : ι) (spurious : Bool)
  /-- The call returns. -/
  | ret (t : ι)

variable {V ι : Type} [DecidableEq ι]

def State.set (s : State V ι) (t : ι) (task : Task V) (op : Op Unit) : State V ι :=
  { s with tasks := update s.tasks t task, ops := update s.ops t op }

/-- `top_.CompareExchangeWeak(expected, desired)`: the copying of `desired`. -/
def State.callCas (s : State V ι) (t : ι) (task : Task V) (exp : Handle) : Handle → State V ι
  | none => s.set t task (.compareExchangeWeak () exp none)
  | some b =>
    { s.set t task ⟨.acqLoad () (.cas exp (some b)), (s.mem.count b 1 0).dropped b⟩ with
      mem := s.mem.count b 1 0 }

/-- A step of the code between two operations. -/
def State.advance (s : State V ι) (t : ι) : Option (State V ι) :=
  match s.tasks t, (s.ops t).pc with
  | .pushLoad n, .done (.loaded h) => some (s.set t (.pushTry n h) .idle)
  | .pushTry n exp, _ => some (s.callCas t (.pushCas n) exp (some n))
  | .pushCas n, .done (.cas true _) => some (s.set t .pushEnd (.reset n))
  | .pushCas n, .done (.cas false exp) => some (s.set t (.pushTry n exp) .idle)
  | .pushEnd, .done _ => some (s.set t .pushed .idle)
  | .popLoad, .done (.loaded none) => some (s.set t (.popped none) .idle)
  | .popLoad, .done (.loaded (some c)) => some (s.set t (.popTry c) .idle)
  | .popTry c, _ => some (s.callCas t (.popCas c) (some c) (s.next c))
  | .popCas c, .done (.cas true _) => some (s.set t (.popEnd (s.value c)) (.reset c))
  | .popCas _, .done (.cas false none) => some (s.set t .popLoad (.load ()))
  | .popCas _, .done (.cas false (some e)) => some (s.set t .popRetry (.reset e))
  | .popRetry, .done _ => some (s.set t .popLoad (.load ()))
  | .popEnd v, .done _ => some (s.set t (.popped (some v)) .idle)
  | _, _ => none

/-- After a step of the operation: a `Push` that published its node leaves `expected` in it, and
deleting a block ends the handle in its node. -/
def State.after (s : State V ι) (t : ι) (x : Mem Unit × Op Unit) : State V ι :=
  match s.tasks t, (s.ops t).todo, x.2.pc with
  | .pushCas n, [], .done (.cas true exp) =>
    { s with mem := x.1, ops := update s.ops t ⟨.done (.cas true none), x.2.todo⟩
             next := update s.next n exp }
  | _, .del b :: _, _ =>
    { s with mem := x.1, ops := update s.ops t x.2, next := update s.next b none }
  | _, _, _ => { s with mem := x.1, ops := update s.ops t x.2 }

/-- No operation is running. -/
def Quiet (op : Op Unit) : Bool :=
  match op.todo, op.pc with
  | [], .idle | [], .done _ => true
  | _, _ => false

def step (s : State V ι) : Act V ι → Option (State V ι)
  | .push t v => match s.tasks t with
    | .idle => some { s.set t (.pushLoad s.mem.allocs) (.load ()) with
                      mem := s.mem.make, value := update s.value s.mem.allocs v }
    | _ => none
  | .tryPop t => match s.tasks t with
    | .idle => some (s.set t .popLoad (.load ()))
    | _ => none
  | .go t spurious =>
    if Quiet (s.ops t) then s.advance t
    else (opStep s.next s.mem spurious (s.ops t)).map (s.after t)
  | .ret t => match s.tasks t with
    | .pushed | .popped _ => some (s.set t .idle .idle)
    | _ => none

def init [Inhabited V] : State V ι :=
  { mem := { reg := fun _ => .null, strong := fun _ => 0, transient := fun _ => 0, allocs := 0,
             deleted := [] }
    ops := fun _ => .idle, tasks := fun _ => .idle, next := fun _ => none, value := fun _ => default }

def system (V ι : Type) [Inhabited V] [DecidableEq ι] : System (State V ι) (Act V ι) :=
  ⟨fun s => s = init, step⟩

/-- No stamp exceeds the limit. -/
def Limited (s : State V ι) : Act V ι → Prop
  | .go t _ => (s.ops t).Limited s.mem
  | _ => True

/-! ### The abstract stack -/

/-- The nodes from a handle along `next`. -/
def walk (next : Nat → Handle) : Nat → Handle → List Nat
  | 0, _ | _ + 1, none => []
  | k + 1, some n => n :: walk next k (next n)

/-- The nodes of the stack, the top first. -/
def State.nodes (s : State V ι) : List Nat := walk s.next s.mem.allocs (s.mem.reg ()).raw

/-- The values in the stack, the top first. -/
def State.contents (s : State V ι) : List V := s.nodes.map s.value

inductive Event (V : Type) where
  | push (n : Nat) (v : V)
  | pop (n : Nat) (v : V)

/-- The successful CASes of `Push` and `TryPop`. -/
def event (s : State V ι) : Act V ι → Option (ι × Event V)
  | .go t spurious => match s.tasks t, (s.ops t).todo, (s.ops t).pc with
    | .pushCas n, [], .casTry _ w exp _ =>
      if spurious = false ∧ s.mem.reg () = (StampedPtr.mk exp w.stamp).packed then
        some (t, .push n (s.value n)) else none
    | .popCas c, [], .casTry _ w exp _ =>
      if spurious = false ∧ s.mem.reg () = (StampedPtr.mk exp w.stamp).packed then
        some (t, .pop c (s.value c)) else none
    | _, _, _ => none
  | _ => none

/-- What an event does to a stack. -/
def Applies : Option (Event V) → List V → List V → Prop
  | none, l, l' => l' = l
  | some (.push _ v), l, l' => l' = v :: l
  | some (.pop _ v), l, l' => l = v :: l'

/-- The nodes pushed and popped in a run, with their values, newest first. -/
def pushes : History (State V ι) (Act V ι) → List (Nat × V)
  | [] => []
  | (a, s) :: h => match event s a with
    | some (_, .push n v) => (n, v) :: pushes h
    | _ => pushes h

def pops : History (State V ι) (Act V ι) → List (Nat × V)
  | [] => []
  | (a, s) :: h => match event s a with
    | some (_, .pop n v) => (n, v) :: pops h
    | _ => pops h

/-- The actions that begin a call of thread `t`. -/
def Begins (t : ι) : Act V ι → Bool
  | .push u _ | .tryPop u => u = t
  | .go _ _ | .ret _ => false

/-- The call that thread `t` has begun last. -/
def lastCall (t : ι) (h : History (State V ι) (Act V ι)) : Option (Act V ι) :=
  (h.map Prod.fst).find? (Begins t)

/-- The events of thread `t` in its current call. -/
def callEvents (t : ι) : History (State V ι) (Act V ι) → List (Event V)
  | [] => []
  | (a, s) :: h =>
    if Begins t a then [] else match event s a with
    | some (u, e) => if u = t then e :: callEvents t h else callEvents t h
    | none => callEvents t h

/-- What a call of thread `t` that is about to return has done: a `Push` of `v` one push of `v`, a
`TryPop` that returns `v` one pop of `v`; one that returns `nullopt` nothing, and the stack was empty
at some moment of the call. -/
def Returns (t : ι) (h : History (State V ι) (Act V ι)) (s : State V ι) : Task V → Prop
  | .pushed => ∃ n v, lastCall t h = some (.push t v) ∧ callEvents t h = [.push n v]
  | .popped (some v) => lastCall t h = some (.tryPop t) ∧ ∃ n, callEvents t h = [.pop n v]
  | .popped none => lastCall t h = some (.tryPop t) ∧ callEvents t h = [] ∧
      During (fun a => Begins t a = true) (fun s => s.contents = []) h s
  | _ => True

/-! ### Handles and accesses -/

/-- The handles that the code has outside an operation. -/
def Task.handles : Task V → List Handle
  | .pushLoad n | .pushCas n => [some n]
  | .pushTry n next => [some n, next]
  | .popTry c => [some c]
  | .idle | .pushEnd | .pushed | .popLoad | .popCas _ | .popRetry | .popEnd _ | .popped _ => []

/-- The node that the code itself, not the operation, reads or writes in the next step: `Push` has
`expected` in its node; `TryPop` copies `curr_top->next`, and reads `curr_top->value` in the end. -/
def State.accesses (s : State V ι) (t : ι) : List Nat :=
  match s.tasks t with
  | .pushLoad n | .pushTry n _ | .pushCas n => [n]
  | .popTry c => c :: (s.next c).toList
  | .popCas c => match (s.ops t).todo, (s.ops t).pc with
    | [], .done (.cas true _) => [c]
    | _, _ => []
  | _ => []

/-- A handle to node `n` exists, or an operation still works on its counters. -/
def State.Referred (s : State V ι) (n : Nat) : Prop :=
  (∃ t, some n ∈ (s.tasks t).handles ∨ (s.ops t).RefersTo n) ∨ (s.mem.reg ()).raw = some n ∨
    ∃ k, k ∉ s.mem.deleted ∧ s.next k = some n

end LockFreeStack
