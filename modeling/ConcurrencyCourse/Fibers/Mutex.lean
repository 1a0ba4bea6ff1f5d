import ConcurrencyCourse.Lib.Transition
import ConcurrencyCourse.MSQueue.Queue

/-!
# `fibers::Mutex` (tasks/fibers/mutex/exe/fibers/sync/mutex.hpp)

`Lock` and `Unlock` by any number of fibers. Both suspend the fiber first, and the worker that ran it goes on
in `AwaitSuspend`; the fiber itself does nothing before it is resumed, so the two share one program counter.

| here | there |
| --- | --- |
| `State` | the members (39-45) and the fibers |
| `Pc.casNone` … `Pc.parked` | `LockAwaiter::AwaitSuspend` (53-75) |
| `Pc.casFree` … `Pc.runReleased` | `UnlockAwaiter::AwaitSuspend` (84-100) |
| `Pc.put`, `Pc.take` | `park_q_.Put`, `park_q_.Take` (support/msqueue.hpp 62-104), step by step: `putStep`, `takeStep` |
| `Pc.lockMtx`, `Pc.lockTake` | `mtx_.Lock()` (threads/spinlock.hpp 12-16); a fiber that spins does not move |
| `Pc.scheduled` | handed to the scheduler, which runs it some time later |

`holds f`: the `Lock` of `f` has returned, and `f` has not called `Unlock` since. Only then `f` calls `Unlock`;
`Lock` may be called by everybody, also by the fiber that holds the lock.
-/

namespace Fibers.Mutex

open MSQueue Transition

/-- `Status`. -/
inductive Status where
  | none
  | lockedNoWaiter
  | lockedWithWaiters
  deriving DecidableEq, Repr

/-- Where a fiber, or the `AwaitSuspend` that handles it, is. -/
inductive Pc (ι : Type) where
  -- in its routine
  | idle
  -- `st_.compare_exchange_strong(None, LockedNoWaiter)`
  | casNone
  | lockMtx
  -- `st_.load() == LockedWithWaiters`
  | loadSt
  -- `st_.compare_exchange_strong(LockedNoWaiter, LockedWithWaiters)`
  | casWaiters
  | put (pc : PutPc)
  | unlockParked
  | unlockRetry
  -- `acquire_lock_fiber->Run()`
  | runAcquired
  | parked
  | scheduled
  -- `st_.compare_exchange_strong(LockedNoWaiter, None)`
  | casFree
  | lockTake
  | take (pc : TakePc ι)
  -- `park_q_.IsEmpty()`
  | readEmpty (u : ι)
  | storeSt (u : ι) (isEmpty : Bool)
  | unlockTaken (u : ι)
  -- `unparked_fiber->Schedule()`
  | schedule (u : ι)
  -- `release_lock_fiber->Run()`
  | runReleased
  -- `value()` of a `nullopt`
  | thrown

structure State (ι : Type) where
  /-- `park_q_`. -/
  q : Queue ι
  st : Status
  mtx : Bool
  pc : ι → Pc ι
  holds : ι → Bool

inductive Act (ι : Type) where
  | lock (f : ι)
  | unlock (f : ι)
  /-- The next step of `f`; `spurious` and `outer` are for the queue. -/
  | step (f : ι) (spurious : Bool) (outer : Ptr)

variable {ι : Type} [DecidableEq ι]

/-! ### What a step writes -/

def State.setPc (s : State ι) (f : ι) (pc : Pc ι) : State ι :=
  { s with pc := Function.update s.pc f pc }

def State.setHolds (s : State ι) (f : ι) (b : Bool) : State ι :=
  { s with holds := Function.update s.holds f b }

def State.setSt (s : State ι) (st : Status) : State ι := { s with st := st }

def State.setMtx (s : State ι) (b : Bool) : State ι := { s with mtx := b }

def State.setQ (s : State ι) (q : Queue ι) : State ι := { s with q := q }

/-- `park_q_.Put(f)` begins with a new node. -/
def State.beginPut (s : State ι) (f : ι) : State ι :=
  (s.setQ (s.q.newNode f)).setPc f (.put (.loadTail s.q.allocs))

/-! ### Steps -/

def fiberStep (s : State ι) (f : ι) (spurious : Bool) (outer : Ptr) : Option (State ι) :=
  match s.pc f with
  | .idle | .parked | .thrown => none
  | .casNone =>
    if s.st = .none then some ((s.setSt .lockedNoWaiter).setPc f .runAcquired)
    else some (s.setPc f .lockMtx)
  | .lockMtx => if s.mtx then none else some ((s.setMtx true).setPc f .loadSt)
  | .loadSt =>
    if s.st = .lockedWithWaiters then some (s.beginPut f) else some (s.setPc f .casWaiters)
  | .casWaiters =>
    if s.st = .lockedNoWaiter then some ((s.setSt .lockedWithWaiters).beginPut f)
    else some (s.setPc f .unlockRetry)
  | .put .done => some (s.setPc f .unlockParked)
  | .put pc => (putStep s.q spurious outer pc).map fun r => (s.setQ r.1).setPc f (.put r.2)
  | .unlockParked => some ((s.setMtx false).setPc f .parked)
  | .unlockRetry => some ((s.setMtx false).setPc f .casNone)
  | .runAcquired | .scheduled => some ((s.setHolds f true).setPc f .idle)
  | .casFree =>
    if s.st = .lockedNoWaiter then some ((s.setSt .none).setPc f .runReleased)
    else some (s.setPc f .lockTake)
  | .lockTake => if s.mtx then none else some ((s.setMtx true).setPc f (.take .loadHead))
  | .take (.done (some u)) => some (s.setPc f (.readEmpty u))
  | .take (.done none) => some (s.setPc f .thrown)
  | .take pc => (takeStep s.q spurious pc).map fun r => (s.setQ r.1).setPc f (.take r.2)
  | .readEmpty u => some (s.setPc f (.storeSt u s.q.isEmpty))
  | .storeSt u isEmpty =>
    some ((s.setSt (if isEmpty then .lockedNoWaiter else .lockedWithWaiters)).setPc f (.unlockTaken u))
  | .unlockTaken u => some ((s.setMtx false).setPc f (.schedule u))
  | .schedule u => some ((s.setPc u .scheduled).setPc f .runReleased)
  | .runReleased => some (s.setPc f .idle)

def step (s : State ι) : Act ι → Option (State ι)
  | .lock f => match s.pc f with
    | .idle => some (s.setPc f .casNone)
    | _ => none
  | .unlock f => match s.pc f with
    | .idle => if s.holds f then some ((s.setHolds f false).setPc f .casFree) else none
    | _ => none
  | .step f spurious outer => fiberStep s f spurious outer

def init : State ι :=
  { q := .empty, st := .none, mtx := false, pc := fun _ => .idle, holds := fun _ => false }

def system (ι : Type) [DecidableEq ι] : System (State ι) (Act ι) := ⟨fun s => s = init, step⟩

/-- The fibers in `park_q_`, oldest first. -/
def State.waiting (s : State ι) : List ι := s.q.values.drop s.q.taken

/-- The fibers in the order in which they were linked into `park_q_`. -/
def parks : History (State ι) (Act ι) → List ι
  | [] => []
  | (a, s) :: h => match a with
    | .step f spurious _ => match s.pc f with
      | .put (.link _ t) =>
        if spurious = false ∧ (s.q.nodes t).next = none then parks h ++ [f] else parks h
      | _ => parks h
    | _ => parks h

/-- The fibers in the order in which they were scheduled. -/
def schedules : History (State ι) (Act ι) → List ι
  | [] => []
  | (a, s) :: h => match a with
    | .step f _ _ => match s.pc f with
      | .schedule u => schedules h ++ [u]
      | _ => schedules h
    | _ => schedules h

/-- The fiber that the `AwaitSuspend` of `f` took out of `park_q_` and has not scheduled yet. -/
def State.handing (s : State ι) (f : ι) : Option ι := match s.pc f with
  | .take (.readNext3 _) | .take (.moveValue _ _) => s.q.values[s.q.taken - 1]?
  | .take (.retire _ u) | .take (.subSize u) | .take (.done (some u)) => some u
  | .readEmpty u | .storeSt u _ | .unlockTaken u | .schedule u => some u
  | _ => none

/-- The lock was acquired and not let go of by the call that the fiber is in. -/
def Pc.token : Pc ι → Bool
  | .runAcquired | .scheduled | .casFree | .lockTake | .take _ => true
  | .readEmpty _ | .storeSt _ _ | .unlockTaken _ | .schedule _ => true
  | _ => false

def State.tok (s : State ι) (f : ι) : Prop := s.holds f = true ∨ (s.pc f).token = true

/-- The lock is that of `f`: it acquired it and has not passed it on, or an `Unlock` took it out of `park_q_`. -/
def State.owns (s : State ι) (f : ι) : Prop :=
  (s.tok f ∧ s.handing f = none) ∨ ∃ g, s.handing g = some f

end Fibers.Mutex
