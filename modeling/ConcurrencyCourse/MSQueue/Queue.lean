import Mathlib.Logic.Function.Basic

/-!
# The lock-free queue (tasks/executors/exe/support/msqueue.hpp)

`Put` and `Take` as their atomic steps, on a queue that any number of threads share. Nodes are
numbered in the order of their allocation; a `Node*` is `Option Nat` with `none` for `nullptr`.
A step that dereferences a null pointer is not enabled.

* `Put` declares `curr_tail` twice: the one that the final `tail_.compare_exchange_strong` reads
  is the outer one, which is never assigned. Its value comes with the step (`outer`).
* `compare_exchange_weak` fails with `spurious` although the values are equal.
* `size_` is a `size_t`, 64 bits wide.
* `newNode` takes a new number, so a freed node keeps its number (`freed`) and nothing else gets it;
  `newNodeAt` is the allocation at an address that somebody else had before (Garbage.lean).
* `chain`, `values`, `taken`, `added` and `removed` are histories: the nodes and the values in
  the order in which they were linked, the successful CASes of `head_`, the additions to and
  the subtractions from `size_`. No step depends on them.
-/

namespace MSQueue

/-- `Node*`. -/
abbrev Ptr := Option Nat

/-- `Node`; `value` is `none` in the sentinel and after the value was moved out. -/
structure Node (T : Type) where
  value : Option T
  next : Ptr

structure Queue (T : Type) where
  nodes : Nat → Node T
  allocs : Nat
  head : Ptr
  tail : Ptr
  size : UInt64
  /-- `deleted_`, oldest first. -/
  garbage : List Nat
  freed : List Nat
  chain : List Nat
  values : List T
  taken : Nat
  added : Nat
  removed : Nat

variable {T : Type}

/-- `MSQueue()`: one sentinel. -/
def Queue.empty : Queue T :=
  { nodes := fun _ => ⟨none, none⟩, allocs := 1, head := some 0, tail := some 0, size := 0,
    garbage := [], freed := [], chain := [0], values := [], taken := 0, added := 0, removed := 0 }

/-- `IsEmpty`. -/
def Queue.isEmpty (q : Queue T) : Bool := q.size == 0

/-! ### What a step writes -/

/-- `new Node{item}`; the node is `q.allocs`. -/
def Queue.newNode (q : Queue T) (item : T) : Queue T :=
  { q with nodes := Function.update q.nodes q.allocs ⟨some item, none⟩, allocs := q.allocs + 1 }

/-- `new Node{item}` at the address `n`. -/
def Queue.newNodeAt (q : Queue T) (n : Nat) (item : T) : Queue T :=
  { q with nodes := Function.update q.nodes n ⟨some item, none⟩ }

def Queue.setTail (q : Queue T) (p : Ptr) : Queue T := { q with tail := p }

/-- The CAS that puts node `n` behind node `t`. -/
def Queue.link (q : Queue T) (t n : Nat) : Queue T :=
  { q with nodes := Function.update q.nodes t { q.nodes t with next := some n }
           chain := q.chain ++ [n], values := q.values ++ (q.nodes n).value.toList }

/-- `size_.fetch_add(1)`. -/
def Queue.addSize (q : Queue T) : Queue T :=
  { q with size := q.size + 1, added := q.added + 1 }

/-- `size_.fetch_sub(1)`. -/
def Queue.subSize (q : Queue T) : Queue T :=
  { q with size := q.size - 1, removed := q.removed + 1 }

/-- The CAS of `head_` in `Take`. -/
def Queue.advance (q : Queue T) (p : Ptr) : Queue T :=
  { q with head := p, taken := q.taken + 1 }

/-- `std::move(*(next_head->value))`. -/
def Queue.moveOut (q : Queue T) (n : Nat) : Queue T :=
  { q with nodes := Function.update q.nodes n { q.nodes n with value := none } }

/-- The loop of `CollectGarbage`: pop and delete while more than `half` are left. -/
def freeDownTo (half : Nat) : List Nat → List Nat → List Nat × List Nat
  | [], freed => ([], freed)
  | n :: gs, freed =>
    if (n :: gs).length > half then freeDownTo half gs (freed ++ [n]) else (n :: gs, freed)

/-- `deleted_.push(curr_head)`. -/
def Queue.pushGarbage (q : Queue T) (n : Nat) : Queue T := { q with garbage := q.garbage ++ [n] }

/-- `CollectGarbage`. -/
def Queue.collectGarbage (q : Queue T) : Queue T :=
  if q.garbage.length < 10 then q
  else
    let r := freeDownTo (q.garbage.length / 2) q.garbage q.freed
    { q with garbage := r.1, freed := r.2 }

/-- `deleted_.push(curr_head); CollectGarbage();` (only the caller of `Take` uses `deleted_`). -/
def Queue.retire (q : Queue T) (n : Nat) : Queue T := (q.pushGarbage n).collectGarbage

/-! ### Put -/

/-- Where a `Put` is: `n` is `new_node`, `t` the inner `curr_tail`. -/
inductive PutPc where
  | loadTail (n : Nat)
  -- `curr_tail->next != nullptr`
  | readNext (n t : Nat)
  -- `curr_tail->next` once more, for the CAS
  | readNext2 (n t : Nat)
  -- `tail_.compare_exchange_weak(curr_tail, curr_tail->next)`
  | help (n t : Nat) (next : Ptr)
  -- `curr_tail->next.compare_exchange_weak(null_ptr, new_node)`
  | link (n t : Nat)
  -- `tail_.compare_exchange_strong(curr_tail, new_node)`
  | swing (n : Nat)
  -- `size_.fetch_add(1)`
  | bump
  | done

/-- The next step of a `Put`. -/
def putStep (q : Queue T) (spurious : Bool) (outer : Ptr) : PutPc → Option (Queue T × PutPc)
  | .loadTail n => q.tail.map fun t => (q, .readNext n t)
  | .readNext n t => some (q, if (q.nodes t).next ≠ none then .readNext2 n t else .link n t)
  | .readNext2 n t => some (q, .help n t (q.nodes t).next)
  | .help n t next =>
    if spurious = false ∧ q.tail = some t then some (q.setTail next, .loadTail n)
    else q.tail.map fun t' => (q, .link n t')
  | .link n t =>
    if spurious = false ∧ (q.nodes t).next = none then some (q.link t n, .swing n)
    else some (q, .loadTail n)
  | .swing n => some (if q.tail = outer then q.setTail (some n) else q, .bump)
  | .bump => some (q.addSize, .done)
  | .done => none

/-! ### Take -/

/-- Where a `Take` is: `h` is `curr_head`. -/
inductive TakePc (T : Type) where
  | loadHead
  -- `curr_head->next == nullptr`
  | readNext (h : Nat)
  -- `curr_head->next` once more, for the CAS
  | readNext2 (h : Nat)
  -- `head_.compare_exchange_weak(curr_head, curr_head->next)`
  | casHead (h : Nat) (next : Ptr)
  -- `next_head = curr_head->next`
  | readNext3 (h : Nat)
  -- `item = std::move(*(next_head->value))`
  | moveValue (h next : Nat)
  -- `deleted_.push(curr_head)`, `CollectGarbage`
  | retire (h : Nat) (item : T)
  -- `size_.fetch_sub(1)`
  | subSize (item : T)
  | done (result : Option T)

/-- The next step of a `Take`. -/
def takeStep (q : Queue T) (spurious : Bool) : TakePc T → Option (Queue T × TakePc T)
  | .loadHead => q.head.map fun h => (q, .readNext h)
  | .readNext h => some (q, if (q.nodes h).next = none then .done none else .readNext2 h)
  | .readNext2 h => some (q, .casHead h (q.nodes h).next)
  | .casHead h next =>
    if spurious = false ∧ q.head = some h then some (q.advance next, .readNext3 h)
    else some (q, .loadHead)
  | .readNext3 h => (q.nodes h).next.map fun nh => (q, .moveValue h nh)
  | .moveValue h nh => (q.nodes nh).value.map fun item => (q.moveOut nh, .retire h item)
  | .retire h item => some (q.retire h, .subSize item)
  | .subSize item => some (q.subSize, .done (some item))
  | .done _ => none

/-- The node that the thread has not linked yet. -/
def PutPc.priv : PutPc → Option Nat
  | .loadTail n | .readNext n _ | .readNext2 n _ | .help n _ _ | .link n _ => some n
  | .swing _ | .bump | .done => none

/-- `0`: not linked; `1`: linked, not counted in `size_`; `2`: counted. -/
def PutPc.phase : PutPc → Nat
  | .loadTail _ | .readNext _ _ | .readNext2 _ _ | .help _ _ _ | .link _ _ => 0
  | .swing _ | .bump => 1
  | .done => 2

/-- The node that the next step of a `Put` reads or writes. `new_node` itself is private until
it is linked. -/
def PutPc.accesses : PutPc → Option Nat
  | .readNext _ t | .readNext2 _ t | .link _ t => some t
  | _ => none

/-- The node that the next step of a `Take` reads, writes or retires. -/
def TakePc.accesses : TakePc T → Option Nat
  | .readNext h | .readNext2 h | .readNext3 h | .retire h _ => some h
  | .moveValue _ nh => some nh
  | _ => none

end MSQueue
