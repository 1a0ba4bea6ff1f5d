import ConcurrencyCourse.Lib.Transition
import Mathlib.Logic.Function.Basic

/-!
# `Coroutine` (tasks/fibers/coro/coroutine.cpp)

Any number of threads and coroutines. One thread runs at a time, and control may pass from one to another whenever
the program's own code runs: in a routine or outside of all of them, not inside `Resume`, `Suspend` or `Run`. No
coroutine is destroyed.

| here | there |
| --- | --- |
| `Context` | what an `ExecutionContext` (sure) holds: `SwitchTo` saves one and goes on with another, `ExitTo` only goes on |
| `Coroutine`, `State.stack` | the fields, and `context_stack`, top first; it is `static`: one for all threads |
| `State.resume`, `State.suspend` | `Resume` (23), `Suspend` (37) |
| `State.finish` | the end of `Run` (46-57): the routine has returned, or `e` has escaped from it |
| `State.goOn` | what follows: the routine, the rest of `Suspend`, or of `Resume` with its `rethrow_exception` (31) |

`calls`, `clock` and `entered` are histories, on which no step depends: the `Resume` calls that have not returned,
newest first, the number of `Resume` calls made, and for each coroutine the number of the last one that entered it.
-/

namespace Coro

open Function

/-- A stack on which code runs. -/
inductive Flow (τ γ : Type) where
  | thread (t : τ)
  | coro (c : γ)
  deriving DecidableEq

/-- Where the code of a stack goes on. -/
inductive Context (τ γ : Type) where
  | empty
  -- `Setup`: `Run` of the coroutine
  | entry (c : γ)
  -- in the `Resume` call number `k`, of coroutine `c`, after `SwitchTo`
  | inResume (f : Flow τ γ) (c : γ) (k : Nat)
  -- in `Suspend`, after `SwitchTo`
  | inSuspend (f : Flow τ γ)
  deriving DecidableEq

/-- `sure::ExecutionContext*`. -/
inductive ContextPtr (γ : Type) where
  | own (c : γ)
  | caller (c : γ)
  deriving DecidableEq

structure ContextNode (γ : Type) where
  callerContext : ContextPtr γ
  ownContext : ContextPtr γ
  deriving DecidableEq

structure Coroutine (τ γ ε : Type) where
  context : Context τ γ
  callerContext : Context τ γ
  completed : Bool
  eptr : Option ε

/-- A call of `Resume`: by which thread and on which stack, and what `context_stack` was. -/
structure Call (τ γ : Type) where
  number : Nat
  coro : γ
  thread : τ
  flow : Flow τ γ
  before : List (ContextNode γ)

structure State (τ γ ε : Type) where
  coro : γ → Option (Coroutine τ γ ε)
  stack : List (ContextNode γ)
  /-- On which stack the thread runs. -/
  runs : τ → Flow τ γ
  calls : List (Call τ γ)
  clock : Nat
  entered : γ → Option Nat

inductive Act (τ γ ε : Type) where
  | create (t : τ) (c : γ)
  | resume (t : τ) (c : γ)
  | suspend (t : τ)
  /-- The routine that runs on thread `t` returns, or `e` escapes from it. -/
  | finish (t : τ) (e : Option ε)

/-- A `Resume` call returns, or rethrows: its number and the exception. -/
abbrev Return (ε : Type) := Nat × Option ε

variable {τ γ ε : Type} [DecidableEq τ] [DecidableEq γ]

/-- The node that `Resume` pushes. -/
def node (c : γ) : ContextNode γ := ⟨.caller c, .own c⟩

def State.setCoro (s : State τ γ ε) (c : γ) (co : Coroutine τ γ ε) : State τ γ ε :=
  { s with coro := update s.coro c (some co) }

/-- What the context at `p` holds. -/
def State.context (s : State τ γ ε) : ContextPtr γ → Option (Context τ γ)
  | .own c => (s.coro c).map (·.context)
  | .caller c => (s.coro c).map (·.callerContext)

/-- Save a context. -/
def State.save (s : State τ γ ε) (x : Context τ γ) : ContextPtr γ → State τ γ ε
  | .own c => match s.coro c with
    | some co => s.setCoro c { co with context := x }
    | none => s
  | .caller c => match s.coro c with
    | some co => s.setCoro c { co with callerContext := x }
    | none => s

/-- Thread `t` goes on on the stack `f`. -/
def State.setRuns (s : State τ γ ε) (t : τ) (f : Flow τ γ) : State τ γ ε := { s with runs := update s.runs t f }

/-- `Resume` call number `k` is over. -/
def State.close (s : State τ γ ε) (k : Nat) : State τ γ ε :=
  { s with calls := s.calls.filter (·.number ≠ k) }

/-- Thread `t` goes on with the context. -/
def State.goOn (s : State τ γ ε) (t : τ) : Context τ γ → Option (State τ γ ε × Option (Return ε))
  | .empty => none
  | .entry c => some (s.setRuns t (.coro c), none)
  | .inSuspend f => some (s.setRuns t f, none)
  | .inResume f c k => some ((s.setRuns t f).close k, some (k, (s.coro c).bind (·.eptr)))

/-- `from->SwitchTo(*to)`, with what is saved. -/
def State.switchTo (s : State τ γ ε) (t : τ) (source target : ContextPtr γ) (x : Context τ γ) :
    Option (State τ γ ε × Option (Return ε)) :=
  ((s.save x source).context target).bind ((s.save x source).goOn t)

/-- `ExitTo(*to)`. -/
def State.exitTo (s : State τ γ ε) (t : τ) (target : ContextPtr γ) : Option (State τ γ ε × Option (Return ε)) :=
  (s.context target).bind (s.goOn t)

/-- `context_stack.push(node)`, and the call is noted. -/
def State.push (s : State τ γ ε) (t : τ) (c : γ) : State τ γ ε :=
  { s with stack := node c :: s.stack
           calls := ⟨s.clock, c, t, s.runs t, s.stack⟩ :: s.calls
           clock := s.clock + 1
           entered := update s.entered c (some s.clock) }

def State.setStack (s : State τ γ ε) (l : List (ContextNode γ)) : State τ γ ε := { s with stack := l }

def State.resume (s : State τ γ ε) (t : τ) (c : γ) : Option (State τ γ ε × Option (Return ε)) :=
  (s.push t c).switchTo t (.caller c) (.own c) (.inResume (s.runs t) c s.clock)

/-- Outside of the coroutines it is undefined (readme.md). -/
def State.suspend (s : State τ γ ε) (t : τ) : Option (State τ γ ε × Option (Return ε)) :=
  match s.runs t, s.stack with
  | .coro _, top :: rest => (s.setStack rest).switchTo t top.ownContext top.callerContext (.inSuspend (s.runs t))
  | _, _ => none

/-- `eptr_`, `completed_`, `context_stack.pop()`, `context_.ExitTo(caller_context_)`. -/
def State.finish (s : State τ γ ε) (t : τ) (e : Option ε) : Option (State τ γ ε × Option (Return ε)) :=
  match s.runs t, s.stack with
  | .coro c, _ :: rest => (s.coro c).bind fun co =>
      ((s.setStack rest).setCoro c { co with completed := true, eptr := e.or co.eptr }).exitTo t (.caller c)
  | _, _ => none

/-- The state after an action, and the `Resume` call that it ends. -/
def State.act (s : State τ γ ε) : Act τ γ ε → Option (State τ γ ε × Option (Return ε))
  | .create _ c => match s.coro c with
    | none => some (s.setCoro c ⟨.entry c, .empty, false, none⟩, none)
    | some _ => none
  | .resume t c => s.resume t c
  | .suspend t => s.suspend t
  | .finish t e => s.finish t e

def init : State τ γ ε :=
  { coro := fun _ => none, stack := [], runs := .thread, calls := [], clock := 0, entered := fun _ => none }

def system (τ γ ε : Type) [DecidableEq τ] [DecidableEq γ] : Transition.System (State τ γ ε) (Act τ γ ε) :=
  ⟨fun s => s = init, fun s a => (s.act a).map (·.1)⟩

/-! ### What the program may do, and what it gets -/

def Act.thread : Act τ γ ε → τ
  | .create t _ | .resume t _ | .suspend t | .finish t _ => t

/-- The coroutine that the action is about. -/
def State.subject (s : State τ γ ε) : Act τ γ ε → Option γ
  | .create _ c | .resume _ c => some c
  | .suspend t | .finish t _ => match s.runs t with
    | .coro c => some c
    | .thread _ => none

/-- The coroutine that the action leaves, and the exception that escapes from it. -/
def State.leaves (s : State τ γ ε) : Act τ γ ε → Option (γ × Option ε)
  | .create _ _ | .resume _ _ => none
  | .suspend t => match s.runs t with
    | .coro c => some (c, none)
    | .thread _ => none
  | .finish t e => match s.runs t with
    | .coro c => some (c, e)
    | .thread _ => none

/-- No coroutine is resumed that runs or is completed. -/
def Proper (s : State τ γ ε) : Act τ γ ε → Prop
  | .resume _ c => (∃ co, s.coro c = some co ∧ co.completed = false) ∧ ∀ call ∈ s.calls, call.coro ≠ c
  | _ => True

/-- A coroutine is left only while it is the one that was entered last, of all that have not been left. -/
def InTurn (s : State τ γ ε) (a : Act τ γ ε) : Prop :=
  ∀ c e, s.leaves a = some (c, e) → s.calls.head?.map (·.coro) = some c

/-- What an action is to do. -/
structure Controlled (s : State τ γ ε) (a : Act τ γ ε) (s' : State τ γ ε) (r : Option (Return ε)) : Prop where
  enters : ∀ t c, a = .resume t c → s'.runs t = .coro c
  /-- `context_stack` is the chain of the `Resume` calls that have not returned. -/
  chain : s'.stack = s'.calls.map fun call => node call.coro
  /-- Control goes back to the `Resume` call that entered the coroutine last, and there the exception comes out. -/
  returns : ∀ c e, s.leaves a = some (c, e) → r = (s.entered c).map fun k => (k, e)
  only : s.leaves a = none → r = none
  /-- In the thread and on the stack that made the call, and with the same `context_stack`. -/
  same : ∀ k e, r = some (k, e) → ∃ call ∈ s.calls, call.number = k ∧ call.thread = a.thread ∧
    s'.runs a.thread = call.flow ∧ s'.stack = call.before
  /-- The other coroutines keep their state. -/
  keep : ∀ c, s.subject a ≠ some c → s'.coro c = s.coro c

end Coro
