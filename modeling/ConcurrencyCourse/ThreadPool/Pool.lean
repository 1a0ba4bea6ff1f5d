import ConcurrencyCourse.Lib.Transition
import Mathlib.Data.Fintype.Sum
import Mathlib.Data.Fintype.Basic

/-!
# `ThreadPool` (tasks/tasks/thread-pool/tp)

Any number of client threads and of workers. Tasks are numbered in the order of the calls of `Submit`; a task is
whatever its worker does between `run` and the end of it, calls of `Submit` and `WaitIdle` included.

| here | there |
| --- | --- |
| `CallPc.add` … `CallPc.unlockMtx` | `ThreadPool::Submit` (thread_pool.cpp 43-52), with `WaitGroup::Add` (wait_group.hpp 22-28) and `Put` (queue.hpp 43-58) |
| `CallPc.loadCounter` … `CallPc.parked` | `ThreadPool::WaitIdle`, `WaitGroup::Wait` (48-55) |
| `WorkerPc` | `ThreadPool::WorkerRoutine` (54-72), with `Take` (queue.hpp 61-79) and `WaitGroup::Done` (31-44) |
| `StopPc` | `ThreadPool::Stop` (93-107), with `Close` (82-93) |

* The critical sections of the queue's own mutex are one step each: `is_opened_` and `queue_` are only accessed
  inside. The calls of `notify_one` and `notify_all` outside of it are steps of their own.
* `cv_` and `worker_routine_cv_` are the workers asleep in them. `notify_one` wakes any one, the `pick` of the
  action; `spurious` wakes without a reason.
* `futex::Wait` compares and sleeps in one step.
* `counter_` does not overflow. `Start` has been called: a worker that has not run yet is at its first step.
* `parent`, `finished` and the number of a task are for the statements only.
-/

namespace ThreadPool

open Transition

/-- A call of `Submit` or `WaitIdle`. -/
inductive CallPc where
  | idle
  -- `counter_.fetch_add(1)`
  | add (t : Nat)
  -- `done_.store(0)`
  | storeZero (t : Nat)
  | put (t : Nat)
  -- `cv_.notify_one()`
  | notifyTake (t : Nat)
  -- `is_running_.store(true)`
  | setRunning (t : Nat)
  | lockMtx (t : Nat)
  -- `worker_routine_cv_.notify_one()`
  | notifyRoutine (t : Nat)
  | unlockMtx (t : Nat)
  -- `counter_.load()`
  | loadCounter
  -- `futex::Wait(done_, 0)`
  | futexWait
  | parked
  deriving DecidableEq, Repr

inductive WorkerPc where
  | take
  -- in `cv_`
  | sleepTake
  | run (t : Nat)
  -- `Done`: `counter_.fetch_sub(1)`
  | fetchSub
  -- `done_.store(1)`
  | storeOne
  | wakeAll
  -- `!is_running_.load()`, after a `nullopt`
  | checkRunning
  | lockMtx
  -- the predicate: `!tasks_.IsEmpty()`
  | readEmpty
  -- `!is_running_.load()`
  | readRunning
  -- the predicate is false; still has `worker_routine_mtx_`
  | goSleep
  -- in `worker_routine_cv_`
  | sleepRoutine
  | unlockMtx
  | left
  deriving DecidableEq, Repr

inductive StopPc where
  | idle
  -- `is_running_.store(false)`
  | clear
  | close
  -- `cv_.notify_all()`
  | notifyTake
  | lockMtx
  -- `worker_routine_cv_.notify_all()`
  | notifyRoutine
  | unlockMtx
  | join
  | returned
  deriving DecidableEq, Repr

structure State (γ ω : Type) where
  /-- `is_opened_`. -/
  opened : Bool
  queue : List Nat
  /-- `is_running_`. -/
  running : Bool
  /-- `worker_routine_mtx_`. -/
  mtx : Bool
  counter : Nat
  /-- `done_`. -/
  done : Bool
  /-- What the clients are doing, and the workers inside a task. -/
  call : γ ⊕ ω → CallPc
  worker : ω → WorkerPc
  stop : StopPc
  /-- How many tasks there are. -/
  tasks : Nat
  /-- The task that submitted the task. -/
  parent : Nat → Option Nat
  finished : List Nat

inductive Act (γ ω : Type) where
  | submit (c : γ ⊕ ω)
  | waitIdle (c : γ ⊕ ω)
  /-- The next step of a call. -/
  | call (c : γ ⊕ ω) (pick : Option ω)
  /-- `futex::Wait` returns by itself. -/
  | unpark (c : γ ⊕ ω)
  | work (w : ω)
  | spurious (w : ω)
  | stop
  | stopStep

variable {γ ω : Type} [DecidableEq γ] [DecidableEq ω]

/-! ### What a step writes -/

def State.setCall (s : State γ ω) (c : γ ⊕ ω) (pc : CallPc) : State γ ω :=
  { s with call := Function.update s.call c pc }

def State.setWorker (s : State γ ω) (w : ω) (pc : WorkerPc) : State γ ω :=
  { s with worker := Function.update s.worker w pc }

def State.setQueue (s : State γ ω) (q : List Nat) : State γ ω := { s with queue := q }

def State.setRunning (s : State γ ω) (b : Bool) : State γ ω := { s with running := b }

def State.setMtx (s : State γ ω) (b : Bool) : State γ ω := { s with mtx := b }

def State.setCounter (s : State γ ω) (n : Nat) : State γ ω := { s with counter := n }

def State.setDone (s : State γ ω) (b : Bool) : State γ ω := { s with done := b }

def State.setStop (s : State γ ω) (pc : StopPc) : State γ ω := { s with stop := pc }

/-- The task of the worker ends. -/
def State.finish (s : State γ ω) (t : Nat) : State γ ω := { s with finished := s.finished ++ [t] }

/-- The task that is running where the call is made. -/
def State.caller (s : State γ ω) : γ ⊕ ω → Option Nat
  | .inl _ => none
  | .inr w => match s.worker w with
    | .run t => some t
    | _ => none

/-- A new task. -/
def State.newTask (s : State γ ω) (c : γ ⊕ ω) : State γ ω :=
  { s.setCall c (.add s.tasks) with
    tasks := s.tasks + 1, parent := Function.update s.parent s.tasks (s.caller c) }

/-- Every worker at `asleep` goes on at `awake`. -/
def State.notifyAll (s : State γ ω) (asleep awake : WorkerPc) : State γ ω :=
  { s with worker := fun w => if s.worker w = asleep then awake else s.worker w }

/-- `WakeAll`. -/
def State.unparkAll (s : State γ ω) : State γ ω :=
  { s with call := fun c => if s.call c = .parked then .loadCounter else s.call c }

variable [Fintype ω]

/-- One of the workers at `asleep`, if there is one, goes on at `awake`. -/
def State.notifyOne (s : State γ ω) (asleep awake : WorkerPc) : Option ω → Option (State γ ω)
  | some w => if s.worker w = asleep then some (s.setWorker w awake) else none
  | none => if ∀ w, s.worker w ≠ asleep then some s else none

/-! ### Steps -/

def callStep (s : State γ ω) (c : γ ⊕ ω) (pick : Option ω) : Option (State γ ω) :=
  match s.call c with
  | .idle | .parked => none
  | .add t =>
    some ((s.setCounter (s.counter + 1)).setCall c (if s.counter = 0 then .storeZero t else .put t))
  | .storeZero t => some ((s.setDone false).setCall c (.put t))
  | .put t =>
    some (if s.opened then (s.setQueue (s.queue ++ [t])).setCall c (.notifyTake t)
      else s.setCall c (.setRunning t))
  | .notifyTake t => (s.notifyOne .sleepTake .take pick).map fun s' => s'.setCall c (.setRunning t)
  | .setRunning t => some ((s.setRunning true).setCall c (.lockMtx t))
  | .lockMtx t => if s.mtx then none else some ((s.setMtx true).setCall c (.notifyRoutine t))
  | .notifyRoutine t =>
    (s.notifyOne .sleepRoutine .lockMtx pick).map fun s' => s'.setCall c (.unlockMtx t)
  | .unlockMtx _ => some ((s.setMtx false).setCall c .idle)
  | .loadCounter => some (s.setCall c (if s.counter = 0 then .idle else .futexWait))
  | .futexWait => some (s.setCall c (if s.done then .loadCounter else .parked))

omit [Fintype ω] in
def workStep (s : State γ ω) (w : ω) : Option (State γ ω) :=
  match s.worker w with
  | .sleepTake | .sleepRoutine | .left => none
  | .take => match s.queue with
    | t :: q => some ((s.setQueue q).setWorker w (.run t))
    | [] => some (s.setWorker w (if s.opened then .sleepTake else .checkRunning))
  | .run t =>
    if s.call (.inr w) = .idle then some ((s.finish t).setWorker w .fetchSub) else none
  | .fetchSub =>
    some ((s.setCounter (s.counter - 1)).setWorker w (if s.counter = 1 then .storeOne else .lockMtx))
  | .storeOne => some ((s.setDone true).setWorker w .wakeAll)
  | .wakeAll => some (s.unparkAll.setWorker w .lockMtx)
  | .checkRunning => some (s.setWorker w (if s.running then .lockMtx else .left))
  | .lockMtx => if s.mtx then none else some ((s.setMtx true).setWorker w .readEmpty)
  | .readEmpty => some (s.setWorker w (if s.queue = [] then .readRunning else .unlockMtx))
  | .readRunning => some (s.setWorker w (if s.running then .goSleep else .unlockMtx))
  | .goSleep => some ((s.setMtx false).setWorker w .sleepRoutine)
  | .unlockMtx => some ((s.setMtx false).setWorker w .take)

def stopStep (s : State γ ω) : Option (State γ ω) :=
  match s.stop with
  | .idle | .returned => none
  | .clear => some ((s.setRunning false).setStop .close)
  | .close =>
    some (if s.opened then { s with opened := false, stop := .notifyTake } else s.setStop .lockMtx)
  | .notifyTake => some ((s.notifyAll .sleepTake .take).setStop .lockMtx)
  | .lockMtx => if s.mtx then none else some ((s.setMtx true).setStop .notifyRoutine)
  | .notifyRoutine => some ((s.notifyAll .sleepRoutine .lockMtx).setStop .unlockMtx)
  | .unlockMtx => some ((s.setMtx false).setStop .join)
  | .join => if ∀ w, s.worker w = .left then some (s.setStop .returned) else none

omit [DecidableEq γ] [DecidableEq ω] [Fintype ω] in
/-- The thread is free to call: a client, or a worker inside a task. -/
def State.canCall (s : State γ ω) (c : γ ⊕ ω) : Bool :=
  s.call c = .idle && match c with
    | .inl _ => true
    | .inr _ => (s.caller c).isSome

def step (s : State γ ω) : Act γ ω → Option (State γ ω)
  | .submit c => if s.canCall c then some (s.newTask c) else none
  | .waitIdle c => if s.canCall c then some (s.setCall c .loadCounter) else none
  | .call c pick => callStep s c pick
  | .unpark c => if s.call c = .parked then some (s.setCall c .loadCounter) else none
  | .work w => workStep s w
  | .spurious w => match s.worker w with
    | .sleepTake => some (s.setWorker w .take)
    | .sleepRoutine => some (s.setWorker w .lockMtx)
    | _ => none
  | .stop => if s.stop = .idle then some (s.setStop .clear) else none
  | .stopStep => stopStep s

def init : State γ ω :=
  { opened := true, queue := [], running := false, mtx := false, counter := 0, done := true,
    call := fun _ => .idle, worker := fun _ => .take, stop := .idle, tasks := 0, parent := fun _ => none,
    finished := [] }

def system (γ ω : Type) [DecidableEq γ] [DecidableEq ω] [Fintype ω] : System (State γ ω) (Act γ ω) :=
  ⟨fun s => s = init, step⟩

end ThreadPool
