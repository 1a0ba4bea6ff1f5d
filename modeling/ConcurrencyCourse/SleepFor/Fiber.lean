import ConcurrencyCourse.Lib.Transition
import Mathlib.Logic.Function.Basic

/-!
# Fibers that sleep (tasks/fibers/sleep_for/exe/fibers)

Any number of fibers on one `io_context`, and any number of threads in its `run`. A thread executes one handler after
the other, in any order; the routine of a fiber calls `Go`, `Yield` and `SleepFor`, and returns.

| here | there |
| --- | --- |
| `Pc.run` … `Pc.schedule` | `Fiber::Run` (core/fiber.cpp 35-51), around `coro_->Resume()` |
| `Pc.routine`, `State.suspend` | between `Resume` and `Suspend` (exe/coro/core.cpp 24-43) |
| `Pc.wakeAndRun` | `WakeAndRun` (57-60) |
| `Pc.sleepFor`, `Pc.awoken` | `SleepFor` (sched/sleep_for.cpp 12-25), before and after its `Yield` |
| `Act.go` | `Go` (sched/go.cpp 7-11): from the routine of a fiber, or from outside |
| `State.queue` | what asio may hand to a thread |
| `State.deferred` | what the handler of the thread has deferred: queued when it returns |
| `State.timer` | the `steady_timer t` of each call of `SleepFor`, numbered in the order of their construction |

A timer that waits fires whenever it likes: its delay has no meaning here. `Go` makes a fiber and posts it in one
step. An exception does not escape from a routine.
-/

namespace SleepFor

/-- `Fiber::Status`. -/
inductive Status where
  | runnable
  | running
  | sleeping
  deriving DecidableEq, Repr

/-- Where a suspended routine goes on: at its beginning, or after the `Yield` of its own or of `SleepFor`. -/
inductive Frame where
  | entry
  | yield
  | sleepFor (k : Nat)
  deriving DecidableEq, Repr

/-- The state of `coro_`; `unborn` is a fiber that `Go` has not made yet. -/
inductive Coro where
  | unborn
  | suspended (at_ : Frame)
  | running
  | completed
  deriving DecidableEq, Repr

/-- The handlers: of `Schedule`, the one that `SleepFor` defers, and the one that it gives to `async_wait`. The last
has no reference to the timer: `k` says which one has fired. -/
inductive Handler (φ : Type) where
  | run (f : φ)
  | asyncWait (f : φ) (k : Nat)
  | wakeAndRun (f : φ) (k : Nat)
  deriving DecidableEq, Repr

inductive TimerState (φ : Type) where
  | idle
  -- `async_wait` with the handler that wakes `f`
  | waiting (f : φ)
  | fired
  | destroyed
  deriving DecidableEq, Repr

structure Timer (φ : Type) where
  /-- The fiber on whose stack it is. -/
  stack : φ
  state : TimerState φ
  deriving DecidableEq, Repr

inductive SleepPc where
  -- `fiber->MarkSleep()`
  | mark
  -- `asio::steady_timer t(..)`
  | timer
  -- `asio::defer(..)`
  | defer (k : Nat)
  -- `Yield()`
  | yield (k : Nat)
  deriving DecidableEq, Repr

/-- What a thread does next. -/
inductive Pc (φ : Type) where
  | idle
  | wakeAndRun (f : φ)
  | run (f : φ)
  | resume (f : φ)
  | routine (f : φ)
  -- on the stack of `f`; `fiber` is the local variable
  | sleepFor (f fiber : φ) (pc : SleepPc)
  -- `~steady_timer`, and `SleepFor` returns
  | awoken (f : φ) (k : Nat)
  -- `coro_->IsCompleted()`
  | resumed (f : φ)
  -- `delete this`
  | delete (f : φ)
  -- `status_ == Status::Sleeping`
  | check (f : φ)
  | schedule (f : φ)
  -- `t.async_wait(..)`
  | asyncWait (f : φ) (k : Nat)
  -- the handler has returned
  | returned
  deriving DecidableEq, Repr

structure State (φ τ : Type) where
  queue : List (Handler φ)
  deferred : τ → List (Handler φ)
  pc : τ → Pc φ
  /-- `current_fiber`, a `ThreadLocalPtr`. -/
  currentFiber : τ → Option φ
  status : φ → Status
  coro : φ → Coro
  timer : Nat → Option (Timer φ)
  /-- How many timers were made. -/
  made : Nat
  /-- What `delete this` was called on. -/
  deleted : List φ

inductive Act (φ τ : Type) where
  | go (f : φ)
  /-- An idle thread takes a handler. -/
  | take (t : τ) (h : Handler φ)
  | fire (k : Nat)
  -- what the routine that runs on `t` does
  | yield (t : τ)
  | sleepFor (t : τ)
  | complete (t : τ)
  /-- The next step of `t`. -/
  | step (t : τ)

variable {φ τ : Type} [DecidableEq φ] [DecidableEq τ]

/-! ### What a step writes -/

def State.setPc (s : State φ τ) (t : τ) (p : Pc φ) : State φ τ := { s with pc := Function.update s.pc t p }

def State.setStatus (s : State φ τ) (f : φ) (st : Status) : State φ τ :=
  { s with status := Function.update s.status f st }

def State.setCoro (s : State φ τ) (f : φ) (c : Coro) : State φ τ := { s with coro := Function.update s.coro f c }

def State.setCurrent (s : State φ τ) (t : τ) (f : φ) : State φ τ :=
  { s with currentFiber := Function.update s.currentFiber t (some f) }

def State.setTimer (s : State φ τ) (k : Nat) (tm : Timer φ) : State φ τ :=
  { s with timer := Function.update s.timer k (some tm) }

/-- `asio::post`, and what asio does when a wait is over. -/
def State.post (s : State φ τ) (h : Handler φ) : State φ τ := { s with queue := s.queue ++ [h] }

/-- `asio::defer` in a handler that `t` executes. -/
def State.defer (s : State φ τ) (t : τ) (h : Handler φ) : State φ τ :=
  { s with deferred := Function.update s.deferred t (s.deferred t ++ [h]) }

/-- The handler of `t` has returned: what it deferred is queued. -/
def State.flush (s : State φ τ) (t : τ) : State φ τ :=
  { s with queue := s.queue ++ s.deferred t, deferred := Function.update s.deferred t [] }

/-- `asio::steady_timer t` on the stack of `f`. -/
def State.makeTimer (s : State φ τ) (f : φ) : State φ τ :=
  { s.setTimer s.made ⟨f, .idle⟩ with made := s.made + 1 }

/-- `~steady_timer`: a wait that is not over is cancelled, and its handler is called all the same. -/
def State.destroyTimer (s : State φ τ) (k : Nat) : Option (State φ τ) :=
  (s.timer k).map fun tm => match tm.state with
    | .waiting f => (s.setTimer k ⟨tm.stack, .destroyed⟩).post (.wakeAndRun f k)
    | _ => s.setTimer k ⟨tm.stack, .destroyed⟩

def State.delete (s : State φ τ) (f : φ) : State φ τ := { s with deleted := f :: s.deleted }

/-- `coro_->Suspend()` of `f`: back to the `Run` that resumed it. -/
def State.suspend (s : State φ τ) (t : τ) (f : φ) (at_ : Frame) : State φ τ :=
  (s.setCoro f (.suspended at_)).setPc t (.resumed f)

/-! ### Steps -/

/-- Where the routine goes on when it is resumed at `at_`. -/
def Frame.pc (f : φ) : Frame → Pc φ
  | .entry | .yield => .routine f
  | .sleepFor k => .awoken f k

/-- Where the handler begins. -/
def Handler.pc : Handler φ → Pc φ
  | .run f => .run f
  | .asyncWait f k => .asyncWait f k
  | .wakeAndRun f _ => .wakeAndRun f

def sleepStep (s : State φ τ) (t : τ) (f fiber : φ) : SleepPc → Option (State φ τ)
  | .mark => some ((s.setStatus fiber .sleeping).setPc t (.sleepFor f fiber .timer))
  | .timer => some ((s.makeTimer f).setPc t (.sleepFor f fiber (.defer s.made)))
  | .defer k => some ((s.defer t (.asyncWait fiber k)).setPc t (.sleepFor f fiber (.yield k)))
  | .yield k => (s.currentFiber t).map fun self => s.suspend t self (.sleepFor k)

def threadStep (s : State φ τ) (t : τ) : Option (State φ τ) :=
  match s.pc t with
  | .idle | .routine _ => none
  | .wakeAndRun f => some ((s.setStatus f .runnable).setPc t (.run f))
  | .run f => some (((s.setCurrent t f).setStatus f .running).setPc t (.resume f))
  -- a routine that runs or has completed can not be resumed
  | .resume f => match s.coro f with
    | .suspended at_ => some ((s.setCoro f .running).setPc t (at_.pc f))
    | _ => none
  | .sleepFor f fiber pc => sleepStep s t f fiber pc
  | .awoken f k => (s.destroyTimer k).map fun s' => s'.setPc t (.routine f)
  | .resumed f => if s.coro f = .completed then some (s.setPc t (.delete f)) else some (s.setPc t (.check f))
  | .delete f => some ((s.delete f).setPc t .returned)
  | .check f => if s.status f = .sleeping then some (s.setPc t .returned) else some (s.setPc t (.schedule f))
  | .schedule f => some ((s.post (.run f)).setPc t .returned)
  -- a timer that is destroyed can not be used; this one is used once
  | .asyncWait f k => match s.timer k with
    | some ⟨g, .idle⟩ => some ((s.setTimer k ⟨g, .waiting f⟩).setPc t .returned)
    | _ => none
  | .returned => some ((s.flush t).setPc t .idle)

def step (s : State φ τ) : Act φ τ → Option (State φ τ)
  | .go f => if s.coro f = .unborn then some ((s.setCoro f (.suspended .entry)).post (.run f)) else none
  | .take t h =>
    if s.pc t = .idle ∧ h ∈ s.queue then some ({ s with queue := s.queue.erase h }.setPc t h.pc) else none
  | .fire k => match s.timer k with
    | some ⟨g, .waiting f⟩ => some ((s.setTimer k ⟨g, .fired⟩).post (.wakeAndRun f k))
    | _ => none
  | .yield t => match s.pc t with
    | .routine _ => (s.currentFiber t).map fun self => s.suspend t self .yield
    | _ => none
  | .sleepFor t => match s.pc t with
    | .routine f => (s.currentFiber t).map fun self => s.setPc t (.sleepFor f self .mark)
    | _ => none
  | .complete t => match s.pc t with
    | .routine f => some ((s.setCoro f .completed).setPc t (.resumed f))
    | _ => none
  | .step t => threadStep s t

def init : State φ τ :=
  { queue := []
    deferred := fun _ => []
    pc := fun _ => .idle
    currentFiber := fun _ => none
    status := fun _ => .runnable
    coro := fun _ => .unborn
    timer := fun _ => none
    made := 0
    deleted := [] }

def system (φ τ : Type) [DecidableEq φ] [DecidableEq τ] : Transition.System (State φ τ) (Act φ τ) :=
  ⟨fun s => s = init, step⟩

/-! ### Where a fiber is -/

/-- The fiber that a thread runs: from `Run` or `WakeAndRun` on, until the last access of `Run` to it. -/
def Pc.runs : Pc φ → Option φ
  | .idle | .asyncWait _ _ | .returned => none
  | .wakeAndRun f | .run f | .resume f | .routine f | .sleepFor f _ _ | .awoken f _ => some f
  | .resumed f | .delete f | .check f | .schedule f => some f

/-- The places of a fiber. From `holds` on it waits on the timer `k`. -/
inductive Place (τ : Type) where
  | runs (t : τ)
  | posted
  /-- `t` has left the fiber and is about to queue the deferred handler, or it executes it. -/
  | holds (t : τ) (k : Nat)
  /-- The deferred handler is queued. -/
  | queued (k : Nat)
  | waits (k : Nat)
  /-- The timer has fired; the handler is queued. -/
  | fired (k : Nat)
  deriving DecidableEq, Repr

def Place.timer : Place τ → Option Nat
  | .runs _ | .posted => none
  | .holds _ k | .queued k | .waits k | .fired k => some k

def State.isAt (s : State φ τ) (f : φ) : Place τ → Prop
  | .runs t => (s.pc t).runs = some f
  | .posted => .run f ∈ s.queue
  | .holds t k => s.pc t = .asyncWait f k ∨ s.pc t = .returned ∧ .asyncWait f k ∈ s.deferred t
  | .queued k => .asyncWait f k ∈ s.queue
  | .waits k => ∃ g, s.timer k = some ⟨g, .waiting f⟩
  | .fired k => .wakeAndRun f k ∈ s.queue

/-- From `Go` to `delete this`. -/
def State.live (s : State φ τ) (f : φ) : Prop := s.coro f ≠ .unborn ∧ f ∉ s.deleted

def Handler.fiber : Handler φ → φ
  | .run f | .asyncWait f _ | .wakeAndRun f _ => f

/-- A pointer to the fiber, or to something on its stack. -/
def Pc.refers : Pc φ → φ → Prop
  | .idle, _ | .returned, _ => False
  | .wakeAndRun f, g | .run f, g | .resume f, g | .routine f, g | .awoken f _, g | .resumed f, g => f = g
  | .delete f, g | .check f, g | .schedule f, g | .asyncWait f _, g => f = g
  | .sleepFor f fiber _, g => f = g ∨ fiber = g

structure Linear (s : State φ τ) : Prop where
  /-- A live fiber is in one place: it is run by one thread, posted, or waits on one timer; it is not lost. -/
  place : ∀ f, s.live f → ∃! p, s.isAt f p
  /-- And nothing is queued twice. -/
  once : s.queue.Nodup
  /-- Only a fiber that is suspended is resumed. -/
  resumes : ∀ t f, s.pc t = .resume f → ∃ at_, s.coro f = .suspended at_
  /-- A fiber whose routine is being executed is with the thread that does so. -/
  executes : ∀ f, s.coro f = .running → ∃ t, (s.pc t).runs = some f
  /-- The timer that a fiber waits on is there, on its stack, as long as it does. -/
  timer : ∀ f p k, s.isAt f p → p.timer = some k → ∃ st, s.timer k = some ⟨f, st⟩ ∧ st ≠ .destroyed
  /-- And it is destroyed when it has fired: no wait is cancelled. -/
  destroys : ∀ t f k, s.pc t = .awoken f k → s.timer k = some ⟨f, .fired⟩
  /-- A fiber is deleted once, when its routine has completed. -/
  deleted : s.deleted.Nodup ∧ ∀ f ∈ s.deleted, s.coro f = .completed
  /-- When its routine has completed, it is deleted, or about to be. -/
  deletes : ∀ f, s.coro f = .completed → f ∈ s.deleted ∨ ∃ t, s.pc t = .resumed f ∨ s.pc t = .delete f
  /-- Nobody has a pointer to it afterwards. -/
  gone : ∀ f ∈ s.deleted, (∀ t, ¬ (s.pc t).refers f ∧ ∀ h ∈ s.deferred t, h.fiber ≠ f) ∧
    (∀ h ∈ s.queue, h.fiber ≠ f) ∧ ∀ k g, s.timer k ≠ some ⟨g, .waiting f⟩
  /-- No thread gets stuck: each can take its next step, unless it waits for a handler or for the routine. -/
  goesOn : ∀ t, s.pc t ≠ .idle → (∀ f, s.pc t ≠ .routine f) → ∃ s', step s (.step t) = some s'
  /-- Nor does a routine: it can go to sleep, and yield. -/
  calls : ∀ t f, s.pc t = .routine f →
    (∃ s', step s (.sleepFor t) = some s') ∧ ∃ s', step s (.yield t) = some s'

end SleepFor
