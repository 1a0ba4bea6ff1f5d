import ConcurrencyCourse.Lib.Transition
import ConcurrencyCourse.Fibers.Mutex
import Mathlib.Logic.Function.Basic

/-!
# Fibers on a pool (tasks/fibers/mutex/exe/fibers)

Any number of fibers, workers, mutexes and events. A worker runs one fiber after the other; the fiber calls
`Yield`, `Mutex::Lock`, `Mutex::Unlock`, `Event::Wait` and `Event::Fire`.

| here | there |
| --- | --- |
| `Pc.run`, `Pc.resumed` | `Fiber::Run` (core/fiber.cpp 37-54), before and after `coro_->Resume()` |
| `Pc.routine`, `Pc.fire` | the routine, between `Resume` and `Suspend` |
| `State.suspend` | `Fiber::Suspend` (66-70): `awaiter_`, then back to the `Run` that resumed it |
| `Pc.schedule` | `YieldAwaiter` (sched/yield.cpp 11-13), and the end of `EventAwaiter` |
| `Pc.lock`, `Pc.unlock` | `LockAwaiter`, `UnlockAwaiter` (sync/mutex.hpp 47-100) |
| `Pc.wait`, `Pc.fire` | `EventAwaiter::AwaitSuspend`, `Fire` (sync/event.hpp 20-64) |
| `State.frame` | the awaiter object, on the stack of the fiber that called |
| `State.tasks` | the queue of the pool; a task is the `Run` of a fiber (60-65) |

`Run` inside an `AwaitSuspend` is its last action: nothing of the outer `Run` touches the fiber after it,
so the worker goes on with the inner one. `park_q_` and `wait_q_` are lists: `park_q_` is used under `mtx_`
only, `wait_q_` under `lock_` or, once fired, by `Fire` only (`parkQ_exclusive`, `waitQ_exclusive`).
A worker that spins on a lock does not move.
-/

namespace Fibers.Fiber

open Transition

export Fibers.Mutex (Status)

/-- What a fiber can suspend on. -/
inductive Awaiter (μ ε : Type) where
  | yield
  | lock (m : μ)
  | unlock (m : μ)
  | wait (e : ε)
  deriving DecidableEq, Repr

/-- The state of `coro_`; `unborn` is a fiber that `Go` has not made yet. -/
inductive Coro where
  | unborn
  | suspended
  | running
  | completed
  deriving DecidableEq, Repr

inductive LockPc where
  -- `st_.compare_exchange_strong(None, LockedNoWaiter)`
  | cas
  | lockMtx
  -- `st_.load() == LockedWithWaiters`
  | load
  -- `st_.compare_exchange_strong(LockedNoWaiter, LockedWithWaiters)`
  | casWaiters
  | put
  | unlockParked
  | unlockRetry
  deriving DecidableEq, Repr

inductive UnlockPc (φ : Type) where
  -- `st_.compare_exchange_strong(LockedNoWaiter, None)`
  | cas
  | lockMtx
  | take
  | readEmpty (u : φ)
  | storeSt (u : φ) (isEmpty : Bool)
  | unlockMtx (u : φ)
  -- `unparked_fiber->Schedule()`
  | schedule (u : φ)
  -- `release_lock_fiber->Run()`
  | runReleased
  -- `value()` of a `nullopt`
  | thrown
  deriving DecidableEq, Repr

inductive WaitPc where
  | lock
  | load
  | put
  | unlockParked
  | unlockFired
  deriving DecidableEq, Repr

inductive FirePc (φ : Type) where
  | lock
  | store
  | readEmpty
  | unlock (isEmpty : Bool)
  | take
  | readNext (u : φ)
  -- `fiber->Schedule()`
  | schedule (u : φ) (isEmpty : Bool)
  | thrown
  deriving DecidableEq, Repr

/-- What a worker is doing, and with which fiber. -/
inductive Pc (φ μ ε : Type) where
  | idle
  | run (f : φ)
  | routine (f : φ)
  | fire (f : φ) (e : ε) (pc : FirePc φ)
  | resumed (f : φ)
  | schedule (f : φ)
  | lock (f : φ) (m : μ) (pc : LockPc)
  | unlock (f : φ) (m : μ) (pc : UnlockPc φ)
  | wait (f : φ) (e : ε) (pc : WaitPc)
  deriving DecidableEq, Repr

structure MutexState (φ : Type) where
  st : Status
  mtx : Bool
  parkQ : List φ

structure EventState (φ : Type) where
  isFired : Bool
  lock : Bool
  waitQ : List φ

structure State (φ ω μ ε : Type) where
  tasks : List φ
  worker : ω → Pc φ μ ε
  mutex : μ → MutexState φ
  event : ε → EventState φ
  coro : φ → Coro
  /-- `awaiter_`. -/
  awaiter : φ → Option (Awaiter μ ε)
  frame : φ → Option (Awaiter μ ε)
  /-- What `delete this` was called on. -/
  deleted : List φ
  /-- `Lock` has returned, and `Unlock` was not called since. -/
  holds : φ → μ → Bool
  fireCalled : ε → Bool

inductive Act (φ ω μ ε : Type) where
  | go (f : φ)
  /-- An idle worker takes the next task. -/
  | take (w : ω)
  -- the calls of the fiber that `w` runs
  | yield (w : ω)
  | lock (w : ω) (m : μ)
  | unlock (w : ω) (m : μ)
  | wait (w : ω) (e : ε)
  | fire (w : ω) (e : ε)
  | complete (w : ω)
  /-- The next step of `w`. -/
  | step (w : ω)

variable {φ ω μ ε : Type} [DecidableEq φ] [DecidableEq ω] [DecidableEq μ] [DecidableEq ε]

/-! ### What a step writes -/

def State.setWorker (s : State φ ω μ ε) (w : ω) (p : Pc φ μ ε) : State φ ω μ ε :=
  { s with worker := Function.update s.worker w p }

def State.setMutex (s : State φ ω μ ε) (m : μ) (x : MutexState φ) : State φ ω μ ε :=
  { s with mutex := Function.update s.mutex m x }

def State.setEvent (s : State φ ω μ ε) (e : ε) (x : EventState φ) : State φ ω μ ε :=
  { s with event := Function.update s.event e x }

def State.setCoro (s : State φ ω μ ε) (f : φ) (c : Coro) : State φ ω μ ε :=
  { s with coro := Function.update s.coro f c }

def State.setSt (s : State φ ω μ ε) (m : μ) (st : Status) : State φ ω μ ε :=
  s.setMutex m { s.mutex m with st := st }

def State.setMtx (s : State φ ω μ ε) (m : μ) (b : Bool) : State φ ω μ ε :=
  s.setMutex m { s.mutex m with mtx := b }

def State.setParkQ (s : State φ ω μ ε) (m : μ) (q : List φ) : State φ ω μ ε :=
  s.setMutex m { s.mutex m with parkQ := q }

def State.setFired (s : State φ ω μ ε) (e : ε) : State φ ω μ ε :=
  s.setEvent e { s.event e with isFired := true }

def State.setLock (s : State φ ω μ ε) (e : ε) (b : Bool) : State φ ω μ ε :=
  s.setEvent e { s.event e with lock := b }

def State.setWaitQ (s : State φ ω μ ε) (e : ε) (q : List φ) : State φ ω μ ε :=
  s.setEvent e { s.event e with waitQ := q }

/-- `Schedule`: `Submit` of the fiber's `Run`. -/
def State.submit (s : State φ ω μ ε) (f : φ) : State φ ω μ ε := { s with tasks := s.tasks ++ [f] }

/-- `coro_->Resume()`: `Suspend` returns, and with it the call that made the awaiter. -/
def State.resume (s : State φ ω μ ε) (f : φ) : State φ ω μ ε :=
  { s with
    coro := Function.update s.coro f .running
    frame := Function.update s.frame f none
    holds := match s.frame f with
      | some (.lock m) => Function.update s.holds f (Function.update (s.holds f) m true)
      | _ => s.holds }

/-- The routine makes an awaiter and calls `Suspend`. -/
def State.suspend (s : State φ ω μ ε) (f : φ) (a : Awaiter μ ε) : State φ ω μ ε :=
  { s with
    coro := Function.update s.coro f .suspended
    awaiter := Function.update s.awaiter f (some a)
    frame := Function.update s.frame f (some a) }

/-- `std::exchange(awaiter_, nullptr)`. -/
def State.takeAwaiter (s : State φ ω μ ε) (f : φ) : State φ ω μ ε :=
  { s with awaiter := Function.update s.awaiter f none }

def State.delete (s : State φ ω μ ε) (f : φ) : State φ ω μ ε := { s with deleted := s.deleted ++ [f] }

def State.callFire (s : State φ ω μ ε) (e : ε) : State φ ω μ ε :=
  { s with fireCalled := Function.update s.fireCalled e true }

def State.release (s : State φ ω μ ε) (f : φ) (m : μ) : State φ ω μ ε :=
  { s with holds := Function.update s.holds f (Function.update (s.holds f) m false) }

/-! ### Steps -/

/-- Where `AwaitSuspend` begins. -/
def awaitSuspend (f : φ) : Awaiter μ ε → Pc φ μ ε
  | .yield => .schedule f
  | .lock m => .lock f m .cas
  | .unlock m => .unlock f m .cas
  | .wait e => .wait f e .lock

def lockStep (s : State φ ω μ ε) (w : ω) (f : φ) (m : μ) : LockPc → Option (State φ ω μ ε)
  | .cas =>
    if (s.mutex m).st = .none then some ((s.setSt m .lockedNoWaiter).setWorker w (.run f))
    else some (s.setWorker w (.lock f m .lockMtx))
  | .lockMtx => if (s.mutex m).mtx then none else some ((s.setMtx m true).setWorker w (.lock f m .load))
  | .load =>
    if (s.mutex m).st = .lockedWithWaiters then some (s.setWorker w (.lock f m .put))
    else some (s.setWorker w (.lock f m .casWaiters))
  | .casWaiters =>
    if (s.mutex m).st = .lockedNoWaiter then
      some ((s.setSt m .lockedWithWaiters).setWorker w (.lock f m .put))
    else some (s.setWorker w (.lock f m .unlockRetry))
  | .put => some ((s.setParkQ m ((s.mutex m).parkQ ++ [f])).setWorker w (.lock f m .unlockParked))
  | .unlockParked => some ((s.setMtx m false).setWorker w .idle)
  | .unlockRetry => some ((s.setMtx m false).setWorker w (.lock f m .cas))

def unlockStep (s : State φ ω μ ε) (w : ω) (f : φ) (m : μ) : UnlockPc φ → Option (State φ ω μ ε)
  | .cas =>
    if (s.mutex m).st = .lockedNoWaiter then some ((s.setSt m .none).setWorker w (.run f))
    else some (s.setWorker w (.unlock f m .lockMtx))
  | .lockMtx => if (s.mutex m).mtx then none else some ((s.setMtx m true).setWorker w (.unlock f m .take))
  | .take => match (s.mutex m).parkQ with
    | [] => some (s.setWorker w (.unlock f m .thrown))
    | u :: q => some ((s.setParkQ m q).setWorker w (.unlock f m (.readEmpty u)))
  | .readEmpty u => some (s.setWorker w (.unlock f m (.storeSt u (s.mutex m).parkQ.isEmpty)))
  | .storeSt u isEmpty =>
    some ((s.setSt m (if isEmpty then .lockedNoWaiter else .lockedWithWaiters)).setWorker w
      (.unlock f m (.unlockMtx u)))
  | .unlockMtx u => some ((s.setMtx m false).setWorker w (.unlock f m (.schedule u)))
  | .schedule u => some ((s.submit u).setWorker w (.unlock f m .runReleased))
  | .runReleased => some (s.setWorker w (.run f))
  | .thrown => none

def waitStep (s : State φ ω μ ε) (w : ω) (f : φ) (e : ε) : WaitPc → Option (State φ ω μ ε)
  | .lock => if (s.event e).lock then none else some ((s.setLock e true).setWorker w (.wait f e .load))
  | .load =>
    if (s.event e).isFired then some (s.setWorker w (.wait f e .unlockFired))
    else some (s.setWorker w (.wait f e .put))
  | .put => some ((s.setWaitQ e ((s.event e).waitQ ++ [f])).setWorker w (.wait f e .unlockParked))
  | .unlockParked => some ((s.setLock e false).setWorker w .idle)
  | .unlockFired => some ((s.setLock e false).setWorker w (.schedule f))

/-- The loop of `Fire`: on with `Take`, or back in the routine. -/
def fireLoop (f : φ) (e : ε) (isEmpty : Bool) : Pc φ μ ε := if isEmpty then .routine f else .fire f e .take

def fireStep (s : State φ ω μ ε) (w : ω) (f : φ) (e : ε) : FirePc φ → Option (State φ ω μ ε)
  | .lock => if (s.event e).lock then none else some ((s.setLock e true).setWorker w (.fire f e .store))
  | .store => some ((s.setFired e).setWorker w (.fire f e .readEmpty))
  | .readEmpty => some (s.setWorker w (.fire f e (.unlock (s.event e).waitQ.isEmpty)))
  | .unlock isEmpty => some ((s.setLock e false).setWorker w (fireLoop f e isEmpty))
  | .take => match (s.event e).waitQ with
    | [] => some (s.setWorker w (.fire f e .thrown))
    | u :: q => some ((s.setWaitQ e q).setWorker w (.fire f e (.readNext u)))
  | .readNext u => some (s.setWorker w (.fire f e (.schedule u (s.event e).waitQ.isEmpty)))
  | .schedule u isEmpty => some ((s.submit u).setWorker w (fireLoop f e isEmpty))
  | .thrown => none

def workerStep (s : State φ ω μ ε) (w : ω) : Option (State φ ω μ ε) :=
  match s.worker w with
  | .idle | .routine _ => none
  | .run f => some ((s.resume f).setWorker w (.routine f))
  | .resumed f =>
    if s.coro f = .completed then some ((s.delete f).setWorker w .idle)
    else (s.awaiter f).map fun a => (s.takeAwaiter f).setWorker w (awaitSuspend f a)
  | .schedule f => some ((s.submit f).setWorker w .idle)
  | .lock f m pc => lockStep s w f m pc
  | .unlock f m pc => unlockStep s w f m pc
  | .wait f e pc => waitStep s w f e pc
  | .fire f e pc => fireStep s w f e pc

/-- The fiber that `w` runs suspends on `a`. -/
def callStep (s : State φ ω μ ε) (w : ω) (a : Awaiter μ ε) : Option (State φ ω μ ε) :=
  match s.worker w with
  | .routine f => some ((s.suspend f a).setWorker w (.resumed f))
  | _ => none

def step (s : State φ ω μ ε) : Act φ ω μ ε → Option (State φ ω μ ε)
  | .go f => if s.coro f = .unborn then some ((s.setCoro f .suspended).submit f) else none
  | .take w => match s.worker w, s.tasks with
    | .idle, f :: rest => some ({ s with tasks := rest }.setWorker w (.run f))
    | _, _ => none
  | .yield w => callStep s w .yield
  | .lock w m => callStep s w (.lock m)
  -- only the owner unlocks
  | .unlock w m => match s.worker w with
    | .routine f => if s.holds f m then callStep (s.release f m) w (.unlock m) else none
    | _ => none
  | .wait w e => callStep s w (.wait e)
  -- each event is fired once
  | .fire w e => match s.worker w with
    | .routine f =>
      if s.fireCalled e then none else some ((s.callFire e).setWorker w (.fire f e .lock))
    | _ => none
  | .complete w => match s.worker w with
    | .routine f => some ((s.setCoro f .completed).setWorker w (.resumed f))
    | _ => none
  | .step w => workerStep s w

def init : State φ ω μ ε :=
  { tasks := []
    worker := fun _ => .idle
    mutex := fun _ => ⟨.none, false, []⟩
    event := fun _ => ⟨false, false, []⟩
    coro := fun _ => .unborn
    awaiter := fun _ => none
    frame := fun _ => none
    deleted := []
    holds := fun _ _ => false
    fireCalled := fun _ => false }

variable (φ ω μ ε) in
def system : System (State φ ω μ ε) (Act φ ω μ ε) := ⟨fun s => s = init, step⟩

end Fibers.Fiber
