import ConcurrencyCourse.Lib.Transition
import ConcurrencyCourse.MSQueue.Queue

/-!
# `LockFreeQueue` (tasks/lockfree/queue/lock_free_queue.hpp)

`Push` and `TryPop` by any number of threads, as their atomic steps.

| here | there |
| --- | --- |
| `Queue`, `putStep` | the fields, and `Push` (51-72): line by line the `Put` of `MSQueue`, with the unassigned outer `curr_tail` as the `outer` of a step |
| `popStep` | `TryPop` (74-95); the lines that would delete `curr_head` are comments there |
| `event` | the CAS that links a node, the CAS that moves `head_` |

No node is deleted before the destructor: `garbage` and `freed` stay empty. `contents` are the values behind
`head_`.
-/

namespace LockFreeQueue

open MSQueue Transition

/-- Where a `TryPop` is: `h` is `curr_head`. -/
inductive PopPc (T : Type) where
  | loadHead
  -- `curr_head->next == nullptr`
  | readNext (h : Nat)
  -- `curr_head->next` once more, for the CAS
  | readNext2 (h : Nat)
  -- `head_.compare_exchange_weak(curr_head, curr_head->next)`
  | casHead (h : Nat) (next : Ptr)
  -- `next_head = curr_head->next`
  | readNext3 (h : Nat)
  -- `item = std::move(*(next_head->value))`
  | moveValue (h nh : Nat)
  -- `size_.fetch_sub(1)`
  | subSize (item : T)
  -- returned `nullopt`
  | empty
  | popped (item : T)

inductive Pc (T : Type) where
  | idle
  | push (item : T) (pc : PutPc)
  | pop (pc : PopPc T)

structure State (ι T : Type) where
  q : Queue T
  pc : ι → Pc T

inductive Act (ι T : Type) where
  | push (i : ι) (item : T)
  | tryPop (i : ι)
  /-- The next step of thread `i`; `outer` is what the outer `curr_tail` of its `Push` holds. -/
  | step (i : ι) (spurious : Bool) (outer : Ptr)
  | finish (i : ι)

variable {ι T : Type} [DecidableEq ι]

def State.setPc (s : State ι T) (i : ι) (pc : Pc T) : State ι T :=
  { s with pc := Function.update s.pc i pc }

def State.setQ (s : State ι T) (q : Queue T) : State ι T := { s with q := q }

/-- The next step of a `TryPop`. -/
def popStep (q : Queue T) (spurious : Bool) : PopPc T → Option (Queue T × PopPc T)
  | .loadHead => q.head.map fun h => (q, .readNext h)
  | .readNext h => some (q, if (q.nodes h).next = none then .empty else .readNext2 h)
  | .readNext2 h => some (q, .casHead h (q.nodes h).next)
  | .casHead h next =>
    if spurious = false ∧ q.head = some h then some (q.advance next, .readNext3 h)
    else some (q, .loadHead)
  | .readNext3 h => (q.nodes h).next.map fun nh => (q, .moveValue h nh)
  | .moveValue _ nh => (q.nodes nh).value.map fun item => (q.moveOut nh, .subSize item)
  | .subSize item => some (q.subSize, .popped item)
  | .empty | .popped _ => none

def step (s : State ι T) : Act ι T → Option (State ι T)
  | .push i item => match s.pc i with
    | .idle => some ((s.setQ (s.q.newNode item)).setPc i (.push item (.loadTail s.q.allocs)))
    | _ => none
  | .tryPop i => match s.pc i with
    | .idle => some (s.setPc i (.pop .loadHead))
    | _ => none
  | .step i spurious outer => match s.pc i with
    | .idle => none
    | .push item pc =>
      (putStep s.q spurious outer pc).map fun r => (s.setQ r.1).setPc i (.push item r.2)
    | .pop pc => (popStep s.q spurious pc).map fun r => (s.setQ r.1).setPc i (.pop r.2)
  | .finish i => match s.pc i with
    | .push _ .done | .pop .empty | .pop (.popped _) => some (s.setPc i .idle)
    | _ => none

def init : State ι T := ⟨.empty, fun _ => .idle⟩

def system (ι T : Type) [DecidableEq ι] : System (State ι T) (Act ι T) :=
  ⟨fun s => s = init, step⟩

/-! ### The queue, seen from outside -/

/-- The values behind `head_`. -/
def State.contents (s : State ι T) : List T := s.q.values.drop s.q.taken

inductive Event (T : Type) where
  | enq (item : T)
  | deq (item : T)

/-- A step that links a node, or moves `head_` to a node with a value. -/
def event (s : State ι T) : Act ι T → Option (ι × Event T)
  | .step i spurious _ => match s.pc i with
    | .push item (.link _ t) =>
      if spurious = false ∧ (s.q.nodes t).next = none then some (i, .enq item) else none
    | .pop (.casHead h next) =>
      if spurious = false ∧ s.q.head = some h then
        (next.bind fun n => (s.q.nodes n).value).map fun item => (i, .deq item)
      else none
    | _ => none
  | _ => none

/-- What was linked, in this order. -/
def enqueued : History (State ι T) (Act ι T) → List T
  | [] => []
  | (a, s) :: h => match event s a with
    | some (_, .enq item) => enqueued h ++ [item]
    | _ => enqueued h

/-- What the successful CASes of `head_` took, in this order. -/
def dequeued : History (State ι T) (Act ι T) → List T
  | [] => []
  | (a, s) :: h => match event s a with
    | some (_, .deq item) => dequeued h ++ [item]
    | _ => dequeued h

/-- What the CAS of thread `i` linked in its current call of `Push`. -/
def linked (i : ι) : History (State ι T) (Act ι T) → Option T
  | [] => none
  | (a, s) :: h => match event s a with
    | some (j, .enq item) => if j = i then some item else linked i h
    | _ => match a with
      | .push j _ => if j = i then none else linked i h
      | _ => linked i h

/-- What the CAS of thread `i` took in its current call of `TryPop`. -/
def taken (i : ι) : History (State ι T) (Act ι T) → Option T
  | [] => none
  | (a, s) :: h => match event s a with
    | some (j, .deq item) => if j = i then some item else taken i h
    | _ => match a with
      | .tryPop j => if j = i then none else taken i h
      | _ => taken i h

end LockFreeQueue
