import Mathlib.Data.List.Basic

/-!
# `SharedState` (futures/fun/exe/futures/state/shared_state.hpp)

The state that a future and its promise share. `SetResult` and `SetCallback` each store their argument
and then exchange the state word; the one that comes second submits the callback with the result to the
executor.

| here | there |
| --- | --- |
| `Result` | `tl::expected<T, Error>` |
| `emplace`, `exchangeResult` | the two halves of `SetResult` (lines 56-66) |
| `store`, `exchangeCallback` | the two halves of `SetCallback` (lines 68-74) |
| `submit` | what `SubmitCallbackIntoExecutor` moves into the task (lines 97-107) |

* The result and the callback have any types: `R` is `Result T`, and `κ` stands for the closures.
* A callback that was moved into a task leaves an empty `unique_function` behind: `callback = none`
  here. A moved-from result is still there and is of no use to anybody.
* `ResultConsumed` is never stored.
-/

namespace Futures

/-- `Result<T>`. -/
abbrev Result (V E : Type) := Except E V

/-- `Ok`. -/
abbrev ok {V E : Type} (v : V) : Result V E := .ok v

/-- `Err`. -/
abbrev err {V E : Type} (e : E) : Result V E := .error e

/-- `Inline()`, or another executor. -/
inductive Executor where
  | inline
  | other (id : Nat)
  deriving DecidableEq, Repr

/-- `SharedState::State`. -/
inductive Word where
  | initial
  | callbackSet
  | resultSet
  deriving DecidableEq, Repr

structure SharedState (R κ : Type) where
  result : Option R
  callback : Option κ
  executor : Executor
  word : Word
  deriving DecidableEq

namespace SharedState

variable {R κ : Type}

/-- `Contract`: a new state. -/
def new : SharedState R κ := ⟨none, none, .inline, .initial⟩

/-- `result_opt_.emplace(result)`. -/
def emplace (s : SharedState R κ) (r : R) : SharedState R κ := { s with result := some r }

/-- `callback_opt_ = callback`. -/
def store (s : SharedState R κ) (k : κ) : SharedState R κ := { s with callback := some k }

/-- The result and the callback that are moved into the task. -/
def submit (s : SharedState R κ) : SharedState R κ × Option (Option R × Option κ) :=
  ({ s with callback := none }, some (s.result, s.callback))

/-- `state_.exchange(ResultSet)` and what follows. -/
def exchangeResult (s : SharedState R κ) : SharedState R κ × Option (Option R × Option κ) :=
  if s.word = .callbackSet then submit { s with word := .resultSet }
  else ({ s with word := .resultSet }, none)

/-- `state_.exchange(CallbackSet)` and what follows. -/
def exchangeCallback (s : SharedState R κ) : SharedState R κ × Option (Option R × Option κ) :=
  if s.word = .resultSet then submit { s with word := .callbackSet }
  else ({ s with word := .callbackSet }, none)

/-- `SetResult`, as one event. -/
def setResult (s : SharedState R κ) (r : R) : SharedState R κ × Option (Option R × Option κ) :=
  (s.emplace r).exchangeResult

/-- `SetCallback`, as one event. -/
def setCallback (s : SharedState R κ) (k : κ) : SharedState R κ × Option (Option R × Option κ) :=
  (s.store k).exchangeCallback

/-- `SyncGet`: it waits for a result. -/
def syncGet (s : SharedState R κ) : Option R := s.result

/-- `SetExecutor`. -/
def setExecutor (s : SharedState R κ) (e : Executor) : SharedState R κ := { s with executor := e }

end SharedState

end Futures
