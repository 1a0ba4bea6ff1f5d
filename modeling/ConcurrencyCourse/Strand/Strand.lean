import ConcurrencyCourse.Lib.Transition
import ConcurrencyCourse.MSQueue.Queue
import Mathlib.Algebra.Group.Nat.Defs

/-!
# Strand (tasks/executors/exe/executors/strand.cpp)

`Submit` by any number of threads and every `Run` that was given to the underlying executor, as
their atomic steps. The executor is a free choice of the action: it runs any pending closure at any
time, also several at once. Nothing in the model says that there is only one.

* `tasks_` is the queue of `MSQueue.Queue`, its `Put` and `Take` taken step by step; its nodes are
  not freed under anybody.
* `scheduled_` is a `size_t`, 64 bits wide.
* `processing_tasks` is local to one `Run`, so it is a list here.
* `value()` on `nullopt` throws inside `noexcept`: the run is `terminated`.
* A thread can call `Submit` only while all the calls whose task is not completed and counted
  yet fit into `size_t` (`State.room`): each of them has a frame or a node in memory.
* `executed`, `begun`, `counted` and `completed` are histories: the tasks in the order in which they
  were run, the calls of `Submit`, the additions to `scheduled_`, the sum of the subtractions.
-/

namespace Strand

open MSQueue

/-- Where a call of `Submit` is; `put .done` is before `scheduled_.fetch_add(1)`. -/
inductive SubPc where
  | idle
  | put (pc : PutPc)
  | submitSelf

/-- Where a `Run` is. -/
inductive RunPc (T : Type) where
  | absent
  -- given to the underlying executor
  | pending
  -- `processing_tasks.Put(tasks_.Take().value())`, `tasks_.IsEmpty()`
  | take (pc : TakePc T) (processing : List T)
  -- `RunTasks`, `scheduled_.fetch_sub(completed)`
  | runTasks (processing : List T) (count : UInt64)
  | submitSelf
  | finished
  | terminated

structure State (ι T : Type) where
  tasks : Queue T
  scheduled : UInt64
  sub : ι → SubPc
  runs : Nat → RunPc T
  /-- How many closures the underlying executor got. -/
  spawned : Nat
  executed : List T
  begun : Nat
  counted : Nat
  completed : Nat

inductive Act (ι T : Type) where
  /-- Thread `i` calls `Submit(task)`. -/
  | submit (i : ι) (task : T)
  | sub (i : ι) (spurious : Bool) (outer : Ptr)
  | run (k : Nat) (spurious : Bool)

variable {ι T : Type} [DecidableEq ι]

/-- The calls of `Submit` that are not counted yet and the tasks that are not completed fit
into `size_t`, with one more. -/
def State.room (s : State ι T) : Bool := s.begun + 1 < min s.counted s.completed + 2 ^ 64

/-! ### What a step writes -/

def State.setSub (s : State ι T) (i : ι) (pc : SubPc) : State ι T :=
  { s with sub := Function.update s.sub i pc }

def State.setRun (s : State ι T) (k : Nat) (pc : RunPc T) : State ι T :=
  { s with runs := Function.update s.runs k pc }

def State.setTasks (s : State ι T) (q : Queue T) : State ι T := { s with tasks := q }

/-- `underlying_.Submit(…)` in `SubmitSelf`. -/
def State.spawn (s : State ι T) : State ι T :=
  { s with runs := Function.update s.runs s.spawned .pending, spawned := s.spawned + 1 }

/-- `scheduled_.fetch_add(1)`. -/
def State.fetchAdd (s : State ι T) : State ι T :=
  { s with scheduled := s.scheduled + 1, counted := s.counted + 1 }

/-- `scheduled_.fetch_sub(completed)`. -/
def State.fetchSub (s : State ι T) (c : UInt64) : State ι T :=
  { s with scheduled := s.scheduled - c, completed := s.completed + c.toNat }

/-- A task runs. -/
def State.execute (s : State ι T) (task : T) : State ι T :=
  { s with executed := s.executed ++ [task] }

/-! ### Steps -/

/-- `new Node` at the beginning of `Put`. -/
def State.beginPut (s : State ι T) (i : ι) (task : T) : State ι T :=
  { (s.setTasks (s.tasks.newNode task)).setSub i (.put (.loadTail s.tasks.allocs)) with
    begun := s.begun + 1 }

/-- The next step of thread `i` in `Submit`. -/
def subStep (s : State ι T) (i : ι) (spurious : Bool) (outer : Ptr) : Option (State ι T) :=
  match s.sub i with
  | .idle => none
  | .put .done =>
    some (s.fetchAdd.setSub i (if s.scheduled = 0 then .submitSelf else .idle))
  | .put pc =>
    (putStep s.tasks spurious outer pc).map fun r => (s.setTasks r.1).setSub i (.put r.2)
  | .submitSelf => some (s.spawn.setSub i .idle)

/-- The next step of the `k`-th `Run`. -/
def runStep (s : State ι T) (k : Nat) (spurious : Bool) : Option (State ι T) :=
  match s.runs k with
  | .absent | .finished | .terminated => none
  | .pending => some (s.setRun k (.take .loadHead []))
  | .take (.done none) _ => some (s.setRun k .terminated)
  | .take (.done (some task)) processing =>
    some (s.setRun k (if s.tasks.isEmpty then .runTasks (processing ++ [task]) 0
      else .take .loadHead (processing ++ [task])))
  | .take pc processing =>
    (takeStep s.tasks spurious pc).map fun r => (s.setTasks r.1).setRun k (.take r.2 processing)
  | .runTasks (task :: processing) count =>
    some ((s.execute task).setRun k (.runTasks processing (count + 1)))
  | .runTasks [] count =>
    some ((s.fetchSub count).setRun k (if s.scheduled > count then .submitSelf else .finished))
  | .submitSelf => some (s.spawn.setRun k .finished)

def step (s : State ι T) : Act ι T → Option (State ι T)
  | .submit i task => match s.sub i with
    | .idle => if s.room then some (s.beginPut i task) else none
    | _ => none
  | .sub i spurious outer => subStep s i spurious outer
  | .run k spurious => runStep s k spurious

def init : State ι T :=
  { tasks := .empty, scheduled := 0, sub := fun _ => .idle, runs := fun _ => .absent,
    spawned := 0, executed := [], begun := 0, counted := 0, completed := 0 }

def system (ι T : Type) [DecidableEq ι] : Transition.System (State ι T) (Act ι T) :=
  ⟨fun s => s = init, step⟩

/-! ### Who is responsible -/

/-- Somebody who has or will have a `Run` in the underlying executor. -/
inductive Holder (ι : Type) where
  | sub (i : ι)
  | run (k : Nat)

/-- The `Run` is pending or has not returned responsibility. -/
def RunPc.active : RunPc T → Bool
  | .pending | .take _ _ | .runTasks _ _ | .submitSelf => true
  | .absent | .finished | .terminated => false

/-- A pending or active `Run`, or the call of `SubmitSelf` that is about to submit one. -/
def State.holds (s : State ι T) : Holder ι → Prop
  | .sub i => s.sub i = .submitSelf
  | .run k => (s.runs k).active = true

/-- The thread has linked its task and not yet added it to `scheduled_`. -/
def SubPc.uncounted : SubPc → Prop
  | .put pc => pc.priv = none
  | _ => False

end Strand
