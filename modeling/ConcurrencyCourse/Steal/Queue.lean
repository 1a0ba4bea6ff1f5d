import Mathlib.Logic.Function.Basic
import ConcurrencyCourse.Lib.Transition
import Mathlib.Algebra.Group.Nat.Defs

/-!
# `WorkStealingQueue` (lockfree/steal/work_stealing_queue.hpp)

A bounded ring buffer with one producer. The owner thread calls `TryPush` and `TryPop`, any
number of other threads call `Grab`. Each atomic load, store and CAS is one step, so a step of
any other thread may come between any two of them.

`head_` and `tail_` only grow; `ToIndex` is applied when a slot is accessed. They are natural
numbers here (a run with fewer than 2^64 pushes does not wrap them; an infinite run is taken as if
it did not either), but the *difference* of the two loads in
`CountElements` and `IsFull` is taken in `size_t`: `head_` may have passed the `tail_` that was
loaded, and then the difference is a huge number, not a negative one.

The operands of `==` and `-` in `IsEmpty`, `IsFull` and `CountElements` are unsequenced, so the
action says which of the two loads comes first.
-/

namespace Steal

/-- `a - b` in `size_t`. -/
def subSize (a b : Nat) : Nat := (a + (2 ^ 64 - b % 2 ^ 64)) % 2 ^ 64

theorem subSize_of_le {a b : Nat} (h : b ≤ a) (h' : a - b < 2 ^ 64) : subSize a b = a - b := by
  unfold subSize; omega

/-- The template parameter `Capacity`: `kRealCapacity = Capacity + 1` is a `size_t` too. -/
structure Capacity where
  val : Nat
  fits : val + 1 < 2 ^ 64

/-- `ToIndex` (work_stealing_queue.hpp:122). -/
def Capacity.toIndex (c : Capacity) (pos : Nat) : Nat := pos % (c.val + 1)

/-- The members of the queue. A slot that was never written holds `nullptr`. -/
structure Queue (α : Type) where
  head : Nat
  tail : Nat
  buffer : Nat → Option α

/-- The owner: which atomic access comes next, with the locals it needs. -/
inductive Owner (α : Type) where
  | idle
  -- TryPush
  | pushFull (item : α)
  | pushFullT (item : α) (tail : Nat)
  | pushFullH (item : α) (head : Nat)
  | pushTail (item : α)
  | pushSlot (item : α) (currentTail : Nat)
  | pushPublish (item : α) (currentTail : Nat)
  | pushDone (ok : Bool)
  -- TryPop
  | popHead
  | popLoop (currentHead : Nat)
  | popEmptyT (currentHead tail : Nat)
  | popEmptyH (currentHead head : Nat)
  | popItem (currentHead : Nat)
  | popCas (currentHead : Nat) (item : Option α)
  | popDone (result : Option α)
  deriving DecidableEq

/-- A thread in `Grab`; `n` is `out_buffer.size()`, `out` the slots copied so far. -/
inductive Thief (α : Type) where
  | idle
  | grabHead (n : Nat)
  | grabLoop (n currentHead : Nat)
  | countT (n currentHead tail : Nat)
  | countH (n currentHead head : Nat)
  | grabCopy (n currentHead toGrab : Nat) (out : List (Option α))
  | grabDone (out : List (Option α))
  deriving DecidableEq

/-- The queue, its threads, and two histories no code reads: the items pushed so far, and the
items handed out so far in the order of the `head_` CASes. -/
structure State (ι α : Type) where
  q : Queue α
  own : Owner α
  thief : ι → Thief α
  pushed : List α
  taken : List (Option α)

inductive Act (ι α : Type) where
  | push (item : α)
  | pop
  | own (tailFirst : Bool)
  | grab (i : ι) (n : Nat)
  | thief (i : ι) (tailFirst : Bool)

variable {ι α : Type} [DecidableEq ι]

/-- The next atomic step of the owner. -/
def ownStep (c : Capacity) (s : State ι α) (tailFirst : Bool) : Option (State ι α) :=
  let q := s.q
  match s.own with
  | .idle => none
  | .pushFull x =>
    some { s with own := if tailFirst then .pushFullT x q.tail else .pushFullH x q.head }
  | .pushFullT x t =>
    some { s with own := if subSize t q.head = c.val then .pushDone false else .pushTail x }
  | .pushFullH x h =>
    some { s with own := if subSize q.tail h = c.val then .pushDone false else .pushTail x }
  | .pushTail x => some { s with own := .pushSlot x q.tail }
  | .pushSlot x t =>
    some { s with
      q := { q with buffer := Function.update q.buffer (c.toIndex t) (some x) }
      own := .pushPublish x t }
  | .pushPublish x t =>
    some { s with q := { q with tail := t + 1 }, pushed := s.pushed ++ [x], own := .pushDone true }
  | .pushDone _ => some { s with own := .idle }
  | .popHead => some { s with own := .popLoop q.head }
  | .popLoop h =>
    some { s with own := if tailFirst then .popEmptyT h q.tail else .popEmptyH h q.head }
  | .popEmptyT h t =>
    some { s with own := if q.head = t then .popDone none else .popItem h }
  | .popEmptyH h h' =>
    some { s with own := if h' = q.tail then .popDone none else .popItem h }
  | .popItem h => some { s with own := .popCas h (q.buffer (c.toIndex h)) }
  | .popCas h x =>
    if q.head = h then
      some { s with q := { q with head := h + 1 }, taken := s.taken ++ [x], own := .popDone x }
    else some { s with own := .popLoop q.head }
  | .popDone _ => some { s with own := .idle }

/-- `Grab` after `CountElements()` returned `count`. -/
def counted (n h count : Nat) : Thief α :=
  if count = 0 then .grabDone [] else .grabCopy n h (if n < count then n else count) []

/-- The next atomic step of a thread in `Grab`. -/
def thiefStep (c : Capacity) (s : State ι α) (i : ι) (tailFirst : Bool) : Option (State ι α) :=
  let q := s.q
  let set (l : Thief α) : State ι α := { s with thief := Function.update s.thief i l }
  match s.thief i with
  | .idle => none
  | .grabHead n => some (set (.grabLoop n q.head))
  | .grabLoop n h => some (set (if tailFirst then .countT n h q.tail else .countH n h q.head))
  | .countT n h t => some (set (counted n h (subSize t q.head)))
  | .countH n h h' => some (set (counted n h (subSize q.tail h')))
  | .grabCopy n h k out =>
    if out.length < k then
      some (set (.grabCopy n h k (out ++ [q.buffer (c.toIndex (h + out.length))])))
    else if q.head = h then
      some { set (.grabDone out) with q := { q with head := h + k }, taken := s.taken ++ out }
    else some (set (.grabLoop n q.head))
  | .grabDone _ => some (set .idle)

/-- A thread calls an operation, or takes the next atomic step of the one it is in. -/
def step (c : Capacity) (s : State ι α) : Act ι α → Option (State ι α)
  | .push x => match s.own with
    | .idle => some { s with own := .pushFull x }
    | _ => none
  | .pop => match s.own with
    | .idle => some { s with own := .popHead }
    | _ => none
  | .own tf => ownStep c s tf
  | .grab i n => match s.thief i with
    | .idle => some { s with thief := Function.update s.thief i (.grabHead n) }
    | _ => none
  | .thief i tf => thiefStep c s i tf

def init : State ι α :=
  { q := ⟨0, 0, fun _ => none⟩, own := .idle, thief := fun _ => .idle, pushed := [], taken := [] }

def system (ι α : Type) [DecidableEq ι] (c : Capacity) : Transition.System (State ι α) (Act ι α) :=
  ⟨fun s => s = init, step c⟩

end Steal
