import ConcurrencyCourse.Lib.Transition
import ConcurrencyCourse.Futures.SharedState
import Mathlib.Logic.Function.Basic

/-!
# Sequential pipelines (futures/fun/exe/futures/combine/seq/*.hpp)

`f | stage₀ | stage₁ | …` on a future `f`: one thread builds the chain, somebody sets the promise of `f`, and the
executors run the continuations; each of them goes on at any time, one step at a time.

| here | there |
| --- | --- |
| `cells i` | the state of the `i`-th future of the chain; `Via` makes no new one |
| `PipePc` | `Pipe` of a stage: `Contract`, `Subscribe`, and `Via(input_future.GetExecutor())` on the new future (map.hpp:23-33); `Flatten` returns its future as it is (flatten.hpp:24) |
| `Stage.run` | the callback of a stage: it sets the promise, or subscribes to an inner future |
| `TaskPc` | the callback as a task, from its submission till it has set the promise of the next future |
| `TaskPc.innerPending` | the callback on an inner future, submitted to that future's executor |
| `TaskPc.thrown` | `included_future_result.value()` on an error (flat_map.hpp:49, flatten.hpp:17) |
| `Act.promise`, `Act.inner i` | `SetResult` by whoever completes the input future, or an inner one |

* `V` takes the value types of all stages together; a stage's function is only called on values of its input type.
  For `Flatten` these are futures, and `asFuture` reads the value as the future that it is.
* A future that somebody else completes is what it is completed with, if it is completed at all (`Fut`).
* The executors run each task once, at any later time. `Inline` runs it at once, which is one of these times.
-/

namespace Futures.Pipeline

open Function Transition

/-- A future that somebody else completes. -/
structure Fut (V E : Type) where
  result : Option (Result V E)
  executor : Executor

inductive Stage (V E : Type) where
  | via (e : Executor)
  | map (f : V → V)
  | andThen (f : V → Result V E)
  | orElse (f : E → Result V E)
  | flatMap (f : V → Fut V E)
  | flatten (asFuture : V → Fut V E)

/-- What a callback does with the result: it sets the promise, or subscribes to this future. -/
inductive Next (V E : Type) where
  | set (r : Result V E)
  | subscribe (fut : Fut V E)

variable {V E : Type}

/-- The callback of the stage; `Via` has none. -/
def Stage.run : Stage V E → Result V E → Next V E
  | .via _, r => .set r
  | .map f, .ok v => .set (ok (f v))
  | .map _, .error e => .set (err e)
  | .andThen f, .ok v => .set (f v)
  | .andThen _, .error e => .set (err e)
  | .orElse f, .error e => .set (f e)
  | .orElse _, .ok v => .set (ok v)
  | .flatMap f, .ok v => .subscribe (f v)
  | .flatMap _, .error e => .set (err e)
  | .flatten asFuture, .ok v => .subscribe (asFuture v)
  | .flatten _, .error e => .set (err e)

/-- The callback calls the function that the user gave. -/
def Stage.calls : Stage V E → Result V E → Bool
  | .map _, .ok _ | .andThen _, .ok _ | .flatMap _, .ok _ | .orElse _, .error _ => true
  | _, _ => false

def Stage.isVia : Stage V E → Bool
  | .via _ => true
  | _ => false

def Stage.isFlatten : Stage V E → Bool
  | .flatten _ => true
  | _ => false

/-- Where `SetResult` or `SetCallback` is: before its store, between the store and the exchange, after it. -/
inductive Phase where
  | before
  | between
  | after
  deriving DecidableEq, Repr

inductive TaskPc (V E : Type) where
  | absent
  -- `executor_->Submit(...)` with the result and the callback
  | pending (e : Executor) (r : Option (Result V E)) (k : Option (Stage V E))
  -- `included_future.Subscribe(...)`
  | subscribe (fut : Fut V E)
  | exchangeInner (fut : Fut V E)
  -- the inner future has the callback
  | waiting (fut : Fut V E)
  | innerPending (e : Executor) (r : Option (Result V E))
  | thrown
  -- `SetResult` on the next future
  | set (r : Result V E)
  | exchange
  | done

inductive PipePc (V E : Type) where
  | next
  -- `SetCallback`
  | store (st : Stage V E)
  | exchange (st : Stage V E)
  -- `Via(input_future.GetExecutor())`
  | inherit (st : Stage V E)

structure State (V E : Type) where
  cells : Nat → SharedState (Result V E) (Stage V E)
  /-- The future that the next stage is applied to. -/
  cur : Nat
  rest : List (Stage V E)
  pipe : PipePc V E
  promise : Phase
  tasks : Nat → TaskPc V E
  /-- The inner future of the `i`-th callback, and its completion. -/
  inners : Nat → SharedState (Result V E) Unit
  innerSet : Nat → Phase
  /-- How often the cell has submitted its callback. -/
  submits : Nat → Nat
  /-- The executors that the user's function was called on. -/
  calls : Nat → List Executor

inductive Act where
  | pipe
  | promise
  | task (i : Nat)
  | inner (i : Nat)

/-! ### What a step writes -/

def State.setCell (s : State V E) (i : Nat) (c : SharedState (Result V E) (Stage V E)) : State V E :=
  { s with cells := update s.cells i c }

def State.setTask (s : State V E) (i : Nat) (t : TaskPc V E) : State V E := { s with tasks := update s.tasks i t }

def State.setInner (s : State V E) (i : Nat) (c : SharedState (Result V E) Unit) : State V E :=
  { s with inners := update s.inners i c }

def State.setInnerSet (s : State V E) (i : Nat) (p : Phase) : State V E :=
  { s with innerSet := update s.innerSet i p }

def State.setPromise (s : State V E) (p : Phase) : State V E := { s with promise := p }

def State.setPipe (s : State V E) (p : PipePc V E) : State V E := { s with pipe := p }

/-- The chain goes on with the new future. -/
def State.advance (s : State V E) : State V E := { s with cur := s.cur + 1, pipe := .next }

/-- `SubmitCallbackIntoExecutor`, when an exchange has come second. -/
def State.submit (s : State V E) (i : Nat) : Option (Option (Result V E) × Option (Stage V E)) → State V E
  | none => s
  | some (r, k) => { s.setTask i (.pending (s.cells i).executor r k) with
      submits := update s.submits i (s.submits i + 1) }

/-- The user's function is called on `e`. -/
def State.call (s : State V E) (i : Nat) (e : Executor) (called : Bool) : State V E :=
  if called then { s with calls := update s.calls i (s.calls i ++ [e]) } else s

/-! ### Steps -/

/-- `state_.exchange(ResultSet)` on cell `i`. -/
def State.exchangeResult (s : State V E) (i : Nat) : State V E :=
  (s.setCell i (s.cells i).exchangeResult.1).submit i (s.cells i).exchangeResult.2

/-- `state_.exchange(CallbackSet)` on cell `i`. -/
def State.exchangeCallback (s : State V E) (i : Nat) : State V E :=
  (s.setCell i (s.cells i).exchangeCallback.1).submit i (s.cells i).exchangeCallback.2

/-- The next step of the thread that builds the chain. -/
def State.pipeStep (s : State V E) : Option (State V E) :=
  match s.pipe with
  | .next => match s.rest with
    | [] => none
    | .via e :: rest => some { s.setCell s.cur ((s.cells s.cur).setExecutor e) with rest := rest }
    | st :: rest => some { s with rest := rest, pipe := .store st }
  | .store st => some ((s.setCell s.cur ((s.cells s.cur).store st)).setPipe (.exchange st))
  | .exchange st =>
    if st.isFlatten then some (s.exchangeCallback s.cur).advance
    else some ((s.exchangeCallback s.cur).setPipe (.inherit st))
  | .inherit _ =>
    some (s.setCell (s.cur + 1) ((s.cells (s.cur + 1)).setExecutor (s.cells s.cur).executor)).advance

/-- The next step of `promise.Set(m)`. -/
def State.promiseStep (m : Option (Result V E)) (s : State V E) : Option (State V E) :=
  match s.promise with
  | .before => m.map fun r => (s.setCell 0 ((s.cells 0).emplace r)).setPromise .between
  | .between => some ((s.exchangeResult 0).setPromise .after)
  | .after => none

def Next.pc : Next V E → TaskPc V E
  | .set r => .set r
  | .subscribe fut => .subscribe fut

/-- The callback on the inner future is submitted. -/
def TaskPc.submitInner (fut : Fut V E) (t : TaskPc V E) : Option (Option (Result V E) × Option Unit) → TaskPc V E
  | none => t
  | some (r, _) => .innerPending fut.executor r

/-- The next step of the `i`-th callback. -/
def State.taskStep (s : State V E) (i : Nat) : Option (State V E) :=
  match s.tasks i with
  | .pending e (some r) (some st) => some ((s.call i e (st.calls r)).setTask i (st.run r).pc)
  | .subscribe fut => some ((s.setInner i ((s.inners i).store ())).setTask i (.exchangeInner fut))
  | .exchangeInner fut =>
    some ((s.setInner i (s.inners i).exchangeCallback.1).setTask i
      (TaskPc.submitInner fut (.waiting fut) (s.inners i).exchangeCallback.2))
  | .innerPending _ (some (.ok v)) => some (s.setTask i (.set (ok v)))
  | .innerPending _ (some (.error _)) => some (s.setTask i .thrown)
  | .set r => some ((s.setCell (i + 1) ((s.cells (i + 1)).emplace r)).setTask i .exchange)
  | .exchange => some ((s.exchangeResult (i + 1)).setTask i .done)
  | _ => none

/-- The inner future that the callback has got. -/
def TaskPc.fut : TaskPc V E → Option (Fut V E)
  | .subscribe fut | .exchangeInner fut | .waiting fut => some fut
  | _ => none

/-- The next step of whoever completes the inner future of the `i`-th callback. -/
def State.innerStep (s : State V E) (i : Nat) : Option (State V E) :=
  match (s.tasks i).fut, s.innerSet i with
  | some fut, .before =>
    fut.result.map fun r => (s.setInner i ((s.inners i).emplace r)).setInnerSet i .between
  | some fut, .between =>
    some (((s.setInner i (s.inners i).exchangeResult.1).setInnerSet i .after).setTask i
      (TaskPc.submitInner fut (s.tasks i) (s.inners i).exchangeResult.2))
  | _, _ => none

def step (m : Option (Result V E)) (s : State V E) : Act → Option (State V E)
  | .pipe => s.pipeStep
  | .promise => s.promiseStep m
  | .task i => s.taskStep i
  | .inner i => s.innerStep i

def init (stages : List (Stage V E)) : State V E :=
  { cells := fun _ => .new, cur := 0, rest := stages, pipe := .next, promise := .before, tasks := fun _ => .absent,
    inners := fun _ => .new, innerSet := fun _ => .before, submits := fun _ => 0, calls := fun _ => [] }

/-- The pipeline on a future that is completed with `m`, if at all. -/
def system (stages : List (Stage V E)) (m : Option (Result V E)) : System (State V E) Act :=
  ⟨fun s => s = init stages, step m⟩

/-! ### What it is to compute -/

/-- What comes of it in the end, if anything does. -/
def Next.outcome : Next V E → Option (Result V E)
  | .set r => some r
  | .subscribe fut => match fut.result with
    | some (.ok v) => some (ok v)
    | _ => none

/-- The stages that subscribe, one for each link of the chain. -/
def links (stages : List (Stage V E)) : List (Stage V E) := stages.filter fun st => !st.isVia

/-- What the `i`-th future of the chain is completed with, if at all. -/
def value (stages : List (Stage V E)) (m : Option (Result V E)) : Nat → Option (Result V E)
  | 0 => m
  | i + 1 => (value stages m i).bind fun r => (links stages)[i]?.bind fun st => (st.run r).outcome

/-- What the last future is completed with. -/
def outcome (stages : List (Stage V E)) (m : Option (Result V E)) : Option (Result V E) :=
  value stages m (links stages).length

end Futures.Pipeline
