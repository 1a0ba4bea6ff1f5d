import ConcurrencyCourse.Coro.Coroutine

/-!
# `SimpleCoroutine` (exe/coro/simple.cpp, core.cpp in tasks/fibers/yield, mutex and sleep_for)

Any number of threads and coroutines. The threads run side by side, and a coroutine may go on in another thread than
before. A call touches what belongs to its own thread and the object of its coroutine, which is nobody else's while the
call is open, so that a `Resume` up to `SwitchTo`, and all that follows a `SwitchTo`, is one step.

| here | there |
| --- | --- |
| `Context` | what an `ExecutionContext` (sure) holds; `prev` is the local variable of `Resume` (simple.cpp 20) |
| `Coroutine` | the fields of `Coroutine` (core.hpp 42-46) |
| `State.current` | `current`, a `ThreadLocalPtr` |
| `State.resume`, `State.suspend` | `Resume` (simple.cpp 19-27, core.cpp 26-34), `Suspend` (29-31, 41-45) |
| `State.finish` | the end of `Run` (core.cpp 47-58) |
| `State.goOn` | what follows: the routine, the rest of `Suspend`, or of `Resume` with its rollback of `current` |

`calls`, `clock` and `entered` are histories, as in `Coroutine`; here the open `Resume` calls are listed by threads.
`Inv` says that each thread has a chain of calls of its own, and that `current` is the coroutine of its newest call.
Every step keeps it: with a `current` for each thread, coroutines need not be left in turn.
-/

namespace Coro.Simple

open Function Transition

/-- Where the code of a stack goes on. -/
inductive Context (τ γ : Type) where
  | empty
  -- `Setup`: `Run` of the coroutine
  | entry (c : γ)
  -- in the `Resume` call number `k`, of coroutine `c`, after `SwitchTo`
  | inResume (f : Flow τ γ) (c : γ) (k : Nat) (prev : Option γ)
  -- in `Suspend`, after `SwitchTo`
  | inSuspend (f : Flow τ γ)
  deriving DecidableEq

structure Coroutine (τ γ ε : Type) where
  context : Context τ γ
  callerContext : Context τ γ
  completed : Bool
  eptr : Option ε

/-- A call of `Resume`: on which stack, and what `current` was. -/
structure Call (τ γ : Type) where
  number : Nat
  coro : γ
  flow : Flow τ γ
  before : Option γ

structure State (τ γ ε : Type) where
  coro : γ → Option (Coroutine τ γ ε)
  current : τ → Option γ
  /-- On which stack the thread runs. -/
  runs : τ → Flow τ γ
  calls : τ → List (Call τ γ)
  clock : Nat
  entered : γ → Option Nat

variable {τ γ ε : Type} [DecidableEq τ] [DecidableEq γ]

def State.setCoro (s : State τ γ ε) (c : γ) (co : Coroutine τ γ ε) : State τ γ ε :=
  { s with coro := update s.coro c (some co) }

/-- Thread `t` goes on on the stack `f`. -/
def State.setRuns (s : State τ γ ε) (t : τ) (f : Flow τ γ) : State τ γ ε := { s with runs := update s.runs t f }

def State.setCurrent (s : State τ γ ε) (t : τ) (c : Option γ) : State τ γ ε :=
  { s with current := update s.current t c }

/-- `Resume` call number `k` is over. -/
def State.close (s : State τ γ ε) (k : Nat) : State τ γ ε :=
  { s with calls := fun t => (s.calls t).filter (·.number ≠ k) }

/-- Thread `t` goes on with the context. -/
def State.goOn (s : State τ γ ε) (t : τ) : Context τ γ → Option (State τ γ ε × Option (Return ε))
  | .empty => none
  | .entry c => some (s.setRuns t (.coro c), none)
  | .inSuspend f => some (s.setRuns t f, none)
  | .inResume f c k prev => some (((s.setRuns t f).setCurrent t prev).close k, some (k, (s.coro c).bind (·.eptr)))

/-- `current = this`, and the call is noted. -/
def State.enter (s : State τ γ ε) (t : τ) (c : γ) : State τ γ ε :=
  { s.setCurrent t (some c) with
    calls := update s.calls t (⟨s.clock, c, s.runs t, s.current t⟩ :: s.calls t)
    clock := s.clock + 1
    entered := update s.entered c (some s.clock) }

/-- `caller_context_.SwitchTo(context_)` -/
def State.resume (s : State τ γ ε) (t : τ) (c : γ) : Option (State τ γ ε × Option (Return ε)) :=
  (s.coro c).bind fun co =>
    ((s.enter t c).setCoro c { co with callerContext := .inResume (s.runs t) c s.clock (s.current t) }).goOn t
      co.context

/-- `context_.SwitchTo(caller_context_)` of the coroutine that `current` points to. -/
def State.suspend (s : State τ γ ε) (t : τ) : Option (State τ γ ε × Option (Return ε)) :=
  (s.current t).bind fun c => (s.coro c).bind fun co =>
    (s.setCoro c { co with context := .inSuspend (s.runs t) }).goOn t co.callerContext

/-- `eptr_`, `completed_`, `context_.ExitTo(caller_context_)`. -/
def State.finish (s : State τ γ ε) (t : τ) (e : Option ε) : Option (State τ γ ε × Option (Return ε)) :=
  match s.runs t with
  | .thread _ => none
  | .coro c => (s.coro c).bind fun co =>
    (s.setCoro c { co with completed := true, eptr := e.or co.eptr }).goOn t co.callerContext

/-- The state after an action, and the `Resume` call that it ends. -/
def State.act (s : State τ γ ε) : Act τ γ ε → Option (State τ γ ε × Option (Return ε))
  | .create _ c => match s.coro c with
    | none => some (s.setCoro c ⟨.entry c, .empty, false, none⟩, none)
    | some _ => none
  | .resume t c => s.resume t c
  | .suspend t => s.suspend t
  | .finish t e => s.finish t e

def init : State τ γ ε :=
  { coro := fun _ => none, current := fun _ => none, runs := .thread, calls := fun _ => [], clock := 0
    entered := fun _ => none }

def system (τ γ ε : Type) [DecidableEq τ] [DecidableEq γ] : System (State τ γ ε) (Act τ γ ε) :=
  ⟨fun s => s = init, fun s a => (s.act a).map (·.1)⟩

/-! ### What the program may do, and what it gets -/

/-- The coroutine that the action is about. -/
def State.subject (s : State τ γ ε) : Act τ γ ε → Option γ
  | .create _ c | .resume _ c => some c
  | .suspend t | .finish t _ => match s.runs t with
    | .coro c => some c
    | .thread _ => none

/-- The coroutine that the action leaves, and the exception that escapes from it. -/
def State.leaves (s : State τ γ ε) : Act τ γ ε → Option (γ × Option ε)
  | .create _ _ | .resume _ _ => none
  | .suspend t => match s.runs t with
    | .coro c => some (c, none)
    | .thread _ => none
  | .finish t e => match s.runs t with
    | .coro c => some (c, e)
    | .thread _ => none

/-- No coroutine is resumed that runs in some thread or is completed. -/
def Proper (s : State τ γ ε) : Act τ γ ε → Prop
  | .resume _ c => (∃ co, s.coro c = some co ∧ co.completed = false) ∧ ∀ t, ∀ call ∈ s.calls t, call.coro ≠ c
  | _ => True

/-- What an action is to do. -/
structure Controlled (s : State τ γ ε) (a : Act τ γ ε) (s' : State τ γ ε) (r : Option (Return ε)) : Prop where
  enters : ∀ t c, a = .resume t c → s'.runs t = .coro c
  /-- `current` points to the coroutine that runs. -/
  current : ∀ t c, s'.runs t = .coro c ↔ s'.current t = some c
  /-- Control goes back to the `Resume` call that entered the coroutine last, and there the exception comes out. -/
  returns : ∀ c e, s.leaves a = some (c, e) → r = (s.entered c).map fun k => (k, e)
  only : s.leaves a = none → r = none
  /-- In the thread and on the stack that made the call, and with the same `current`. -/
  same : ∀ k e, r = some (k, e) → ∃ call ∈ s.calls a.thread, call.number = k ∧ s'.runs a.thread = call.flow ∧
    s'.current a.thread = call.before
  /-- The other threads go on as if nothing had happened. -/
  others : ∀ t, t ≠ a.thread → s'.runs t = s.runs t ∧ s'.current t = s.current t ∧ s'.calls t = s.calls t
  /-- The other coroutines keep their state. -/
  keep : ∀ c, s.subject a ≠ some c → s'.coro c = s.coro c

/-! ### The chains of calls -/

section chains

variable {t : τ} {calls rest : List (Call τ γ)} {call call' : Call τ γ}

/-- On which stack thread `t` runs, with these calls open. -/
def top (t : τ) : List (Call τ γ) → Flow τ γ
  | [] => .thread t
  | call :: _ => .coro call.coro

/-- Each call was made by the coroutine of the call below it. -/
def Linked (t : τ) : List (Call τ γ) → Prop
  | [] => True
  | call :: rest => call.flow = top t rest ∧ call.before = rest.head?.map (·.coro) ∧
      (∀ other ∈ rest, other.number ≠ call.number) ∧ Linked t rest

omit [DecidableEq τ] [DecidableEq γ] in
theorem Linked.eq_of_number (h : Linked t calls) (h1 : call ∈ calls) (h2 : call' ∈ calls)
    (hn : call.number = call'.number) : call = call' := by
  induction calls with
  | nil => cases h1
  | cons first rest ih =>
    obtain ⟨-, -, hne, hrest⟩ := h
    rcases List.mem_cons.1 h1 with h1 | h1 <;> rcases List.mem_cons.1 h2 with h2 | h2
    · exact h1.trans h2.symm
    · exact absurd (hn.symm.trans (congrArg Call.number h1)) (hne call' h2)
    · exact absurd (hn.trans (congrArg Call.number h2)) (hne call h1)
    · exact ih hrest h1 h2

omit [DecidableEq τ] [DecidableEq γ] in
/-- When the newest call returns, the others are left. -/
theorem Linked.close (h : Linked t (call :: rest)) : (call :: rest).filter (·.number ≠ call.number) = rest := by
  rw [List.filter_cons_of_neg (by simp), List.filter_eq_self]
  exact fun other hother => decide_eq_true (h.2.2.1 other hother)

omit [DecidableEq τ] [DecidableEq γ] in
/-- The stack on which a thread runs is that of the newest coroutine. -/
theorem top_eq_coro {c : γ} : top t calls = .coro c ↔ calls.head?.map (·.coro) = some c := by
  cases calls with
  | nil => exact ⟨nofun, nofun⟩
  | cons call rest => exact ⟨fun h => congrArg some (Flow.coro.inj h), fun h => congrArg Flow.coro (Option.some.inj h)⟩

end chains

/-- The coroutine of a call that has not returned. -/
structure Entered (call : Call τ γ) (co : Coroutine τ γ ε) : Prop where
  running : co.completed = false
  noThrow : co.eptr = none
  caller : co.callerContext = .inResume call.flow call.coro call.number call.before

structure Inv (s : State τ γ ε) : Prop where
  runs : ∀ t, s.runs t = top t (s.calls t)
  current : ∀ t, s.current t = (s.calls t).head?.map (·.coro)
  linked : ∀ t, Linked t (s.calls t)
  apart : ∀ t t' call call', call ∈ s.calls t → call' ∈ s.calls t' → call.number = call'.number → t = t'
  calls : ∀ t, ∀ call ∈ s.calls t, s.entered call.coro = some call.number ∧ call.number < s.clock ∧
    ∃ co, s.coro call.coro = some co ∧ Entered call co
  rests : ∀ c co, s.coro c = some co → co.completed = false → (∀ t, ∀ call ∈ s.calls t, call.coro ≠ c) →
    co.eptr = none ∧ (co.context = .entry c ∨ co.context = .inSuspend (.coro c))

section steps

variable {s s' : State τ γ ε} {t : τ} {c : γ} {e : Option ε} {r : Option (Return ε)} {co : Coroutine τ γ ε}

omit [DecidableEq τ] [DecidableEq γ] in
theorem inv_init : Inv (init : State τ γ ε) :=
  ⟨fun _ => rfl, fun _ => rfl, fun _ => trivial, nofun, nofun, nofun⟩

omit [DecidableEq τ] [DecidableEq γ] in
/-- A coroutine is entered by one call only. -/
theorem Inv.unique (hi : Inv s) {t t' : τ} {call call' : Call τ γ} (h1 : call ∈ s.calls t) (h2 : call' ∈ s.calls t')
    (hc : call.coro = call'.coro) : t = t' ∧ call = call' := by
  have hn : call.number = call'.number := by
    have h := (hi.calls t call h1).1
    rw [hc, (hi.calls t' call' h2).1] at h
    exact (Option.some.inj h).symm
  obtain rfl := hi.apart t t' call call' h1 h2 hn
  exact ⟨rfl, (hi.linked t).eq_of_number h1 h2 hn⟩

omit [DecidableEq τ] [DecidableEq γ] in
theorem Inv.runs_iff_current (hi : Inv s) : s.runs t = .coro c ↔ s.current t = some c := by
  rw [hi.runs, hi.current, top_eq_coro]

omit [DecidableEq τ] [DecidableEq γ] in
/-- The newest call of a thread that runs in a coroutine. -/
theorem Inv.newest (hi : Inv s) (hruns : s.runs t = .coro c) :
    ∃ call rest, s.calls t = call :: rest ∧ call.coro = c := by
  rw [hi.runs] at hruns
  cases hc : s.calls t with
  | nil =>
    rw [hc] at hruns
    cases hruns
  | cons call rest =>
    rw [hc] at hruns
    exact ⟨call, rest, rfl, Flow.coro.inj hruns⟩

omit [DecidableEq τ] in
theorem setCoro_coro : (s.setCoro c co).coro c = some co := update_self ..

omit [DecidableEq τ] in
theorem setCoro_of_ne {d : γ} (h : d ≠ c) : (s.setCoro c co).coro d = s.coro d := update_of_ne h ..

/-! ### A coroutine is made -/

omit [DecidableEq τ] in
theorem Inv.create (hi : Inv s) (hnone : s.coro c = none) : Inv (s.setCoro c ⟨.entry c, .empty, false, none⟩) := by
  refine ⟨hi.runs, hi.current, hi.linked, hi.apart, fun t call hcall => ?_, fun d co hd hrun hnot => ?_⟩
  · obtain ⟨h1, h2, co, hco, hent⟩ := hi.calls t call hcall
    refine ⟨h1, h2, co, (setCoro_of_ne ?_).trans hco, hent⟩
    intro heq
    rw [heq, hnone] at hco
    cases hco
  · rcases eq_or_ne d c with rfl | hne
    · obtain rfl := Option.some.inj (setCoro_coro.symm.trans hd)
      exact ⟨rfl, .inl rfl⟩
    · exact hi.rests d co ((setCoro_of_ne hne).symm.trans hd) hrun hnot

/-! ### A coroutine is entered -/

/-- In coroutine `c`, after `SwitchTo`. -/
def State.inside (s : State τ γ ε) (t : τ) (c : γ) (co : Coroutine τ γ ε) : State τ γ ε :=
  ((s.enter t c).setCoro c { co with callerContext := .inResume (s.runs t) c s.clock (s.current t) }).setRuns t
    (.coro c)

theorem resume_eq (hi : Inv s) (hco : s.coro c = some co) (hrun : co.completed = false)
    (hnot : ∀ t, ∀ call ∈ s.calls t, call.coro ≠ c) : s.resume t c = some (s.inside t c co, none) := by
  have hgo : ∀ s₁ : State τ γ ε, s₁.goOn t co.context = some (s₁.setRuns t (.coro c), none) := by
    intro s₁
    rcases (hi.rests c co hco hrun hnot).2 with hctx | hctx <;> rw [hctx] <;> rfl
  unfold State.resume
  rw [hco, Option.bind_some, hgo]
  rfl

theorem inside_calls : (s.inside t c co).calls t = ⟨s.clock, c, s.runs t, s.current t⟩ :: s.calls t := update_self ..

theorem inside_calls_of_ne {t' : τ} (h : t' ≠ t) : (s.inside t c co).calls t' = s.calls t' := update_of_ne h ..

/-- The calls are the old ones and the new one. -/
theorem mem_inside_calls {t' : τ} {call : Call τ γ} (h : call ∈ (s.inside t c co).calls t') :
    call ∈ s.calls t' ∨ t' = t ∧ call = ⟨s.clock, c, s.runs t, s.current t⟩ := by
  rcases eq_or_ne t' t with rfl | hne
  · rw [inside_calls] at h
    exact (List.mem_cons.1 h).elim (fun h => .inr ⟨rfl, h⟩) .inl
  · rw [inside_calls_of_ne hne] at h
    exact .inl h

theorem Inv.inside (hi : Inv s) (hco : s.coro c = some co) (hrun : co.completed = false)
    (hnot : ∀ t, ∀ call ∈ s.calls t, call.coro ≠ c) : Inv (s.inside t c co) := by
  have hrest := hi.rests c co hco hrun hnot
  have hold : ∀ t', ∀ call ∈ s.calls t', call.number ≠ s.clock := fun t' call hcall =>
    Nat.ne_of_lt (hi.calls t' call hcall).2.1
  refine ⟨fun t' => ?_, fun t' => ?_, fun t' => ?_, fun t₁ t₂ call₁ call₂ h1 h2 hn => ?_, fun t' call hcall => ?_,
    fun d co' hd hrun' hnot' => ?_⟩
  · rcases eq_or_ne t' t with rfl | hne
    · rw [inside_calls]
      exact update_self ..
    · rw [inside_calls_of_ne hne]
      exact (update_of_ne hne ..).trans (hi.runs t')
  · rcases eq_or_ne t' t with rfl | hne
    · rw [inside_calls]
      exact update_self ..
    · rw [inside_calls_of_ne hne]
      exact (update_of_ne hne ..).trans (hi.current t')
  · rcases eq_or_ne t' t with rfl | hne
    · rw [inside_calls]
      exact ⟨hi.runs t', hi.current t', hold t', hi.linked t'⟩
    · rw [inside_calls_of_ne hne]
      exact hi.linked t'
  · rcases mem_inside_calls h1 with hold1 | ⟨rfl, rfl⟩ <;> rcases mem_inside_calls h2 with hold2 | ⟨rfl, rfl⟩
    · exact hi.apart t₁ t₂ call₁ call₂ hold1 hold2 hn
    · exact absurd hn (hold t₁ call₁ hold1)
    · exact absurd hn.symm (hold t₂ call₂ hold2)
    · rfl
  · rcases mem_inside_calls hcall with hcall | ⟨rfl, rfl⟩
    · obtain ⟨h1, h2, co', hco', hent⟩ := hi.calls t' call hcall
      have hne := hnot t' call hcall
      exact ⟨(update_of_ne hne ..).trans h1, Nat.lt_succ_of_lt h2, co', (setCoro_of_ne hne).trans hco', hent⟩
    · exact ⟨update_self .., Nat.lt_succ_self _, _, setCoro_coro, hrun, hrest.1, rfl⟩
  · have hne : d ≠ c := by
      rintro rfl
      have hmem : ⟨s.clock, d, s.runs t, s.current t⟩ ∈ (s.inside t d co).calls t := by
        rw [inside_calls]
        exact List.mem_cons_self
      exact hnot' t _ hmem rfl
    refine hi.rests d co' ((setCoro_of_ne hne).symm.trans hd) hrun' fun t' call hcall => hnot' t' call ?_
    rcases eq_or_ne t' t with rfl | hne
    · rw [inside_calls]
      exact List.mem_cons_of_mem _ hcall
    · rwa [inside_calls_of_ne hne]

/-! ### A coroutine is left -/

/-- The coroutine of the newest call is left, with `co` for its object, and the call returns. -/
def State.left (s : State τ γ ε) (t : τ) (call : Call τ γ) (co : Coroutine τ γ ε) : State τ γ ε :=
  (((s.setCoro call.coro co).setRuns t call.flow).setCurrent t call.before).close call.number

section left

variable {call : Call τ γ} {rest : List (Call τ γ)}

theorem Inv.left_calls (hi : Inv s) (hc : s.calls t = call :: rest) : (s.left t call co).calls t = rest := by
  change (s.calls t).filter _ = rest
  have hl := hi.linked t
  rw [hc] at hl ⊢
  exact hl.close

theorem Inv.left_calls_of_ne (hi : Inv s) (hc : s.calls t = call :: rest) {t' : τ} (hne : t' ≠ t) :
    (s.left t call co).calls t' = s.calls t' := by
  change (s.calls t').filter _ = s.calls t'
  rw [List.filter_eq_self]
  intro other hother
  refine decide_eq_true fun hn => hne ?_
  exact hi.apart t' t other call hother (hc ▸ List.mem_cons_self) hn

theorem Inv.mem_left_calls (hi : Inv s) (hc : s.calls t = call :: rest) {t' : τ} {other : Call τ γ}
    (h : other ∈ (s.left t call co).calls t') : other ∈ s.calls t' ∧ other.coro ≠ call.coro := by
  have hmem : other ∈ s.calls t' := (List.mem_filter.1 h).1
  refine ⟨hmem, fun heq => ?_⟩
  obtain ⟨rfl, rfl⟩ := hi.unique hmem (hc ▸ List.mem_cons_self (l := rest)) heq
  exact of_decide_eq_true (List.mem_filter.1 h).2 rfl

theorem Inv.left (hi : Inv s) (hc : s.calls t = call :: rest)
    (hco : co.completed = false → co.eptr = none ∧ (co.context = .entry call.coro ∨
      co.context = .inSuspend (.coro call.coro))) : Inv (s.left t call co) := by
  obtain ⟨hflow, hbefore, -, hrest⟩ : Linked t (call :: rest) := hc ▸ hi.linked t
  refine ⟨fun t' => ?_, fun t' => ?_, fun t' => ?_, fun t₁ t₂ call₁ call₂ h1 h2 hn => ?_, fun t' call' hcall => ?_,
    fun d co' hd hrun hnot => ?_⟩
  · rcases eq_or_ne t' t with rfl | hne
    · rw [hi.left_calls hc]
      exact (update_self ..).trans hflow
    · rw [hi.left_calls_of_ne hc hne]
      exact (update_of_ne hne ..).trans (hi.runs t')
  · rcases eq_or_ne t' t with rfl | hne
    · rw [hi.left_calls hc]
      exact (update_self ..).trans hbefore
    · rw [hi.left_calls_of_ne hc hne]
      exact (update_of_ne hne ..).trans (hi.current t')
  · rcases eq_or_ne t' t with rfl | hne
    · rwa [hi.left_calls hc]
    · rw [hi.left_calls_of_ne hc hne]
      exact hi.linked t'
  · exact hi.apart t₁ t₂ call₁ call₂ (hi.mem_left_calls hc h1).1 (hi.mem_left_calls hc h2).1 hn
  · obtain ⟨hmem, hne⟩ := hi.mem_left_calls hc hcall
    obtain ⟨h1, h2, co', hco', hent⟩ := hi.calls t' call' hmem
    exact ⟨h1, h2, co', (setCoro_of_ne hne).trans hco', hent⟩
  · rcases eq_or_ne d call.coro with rfl | hd'
    · obtain rfl := Option.some.inj (setCoro_coro.symm.trans hd)
      exact hco hrun
    · refine hi.rests d co' ((setCoro_of_ne hd').symm.trans hd) hrun fun t' call' hcall => ?_
      rcases eq_or_ne call'.number call.number with hn | hn
      · obtain rfl := hi.apart t' t call' call hcall (hc ▸ List.mem_cons_self) hn
        rw [(hi.linked t').eq_of_number hcall (hc ▸ List.mem_cons_self) hn]
        exact hd'.symm
      · exact hnot t' call' (List.mem_filter.2 ⟨hcall, decide_eq_true hn⟩)

theorem suspend_eq (hi : Inv s) (hc : s.calls t = call :: rest) (hco : s.coro call.coro = some co)
    (hent : Entered call co) :
    s.suspend t = some (s.left t call { co with context := .inSuspend (.coro call.coro) },
      some (call.number, none)) := by
  have hcurrent : s.current t = some call.coro := by rw [hi.current, hc]; rfl
  have hruns : s.runs t = .coro call.coro := hi.runs_iff_current.2 hcurrent
  unfold State.suspend
  rw [hcurrent, Option.bind_some, hco, Option.bind_some, hruns, hent.caller]
  simp only [State.goOn, State.setCurrent, State.setRuns, State.close, setCoro_coro, Option.bind_some, hent.noThrow]
  rfl

theorem finish_eq (hi : Inv s) (hc : s.calls t = call :: rest) (hco : s.coro call.coro = some co)
    (hent : Entered call co) :
    s.finish t e = some (s.left t call { co with completed := true, eptr := e }, some (call.number, e)) := by
  have hruns : s.runs t = .coro call.coro := by rw [hi.runs, hc]; rfl
  have hor : e.or co.eptr = e := by rw [hent.noThrow, Option.or_none]
  unfold State.finish
  rw [hruns]
  simp only [hco, hor, Option.bind_some]
  rw [hent.caller]
  simp only [State.goOn, State.setCurrent, State.setRuns, State.close, setCoro_coro, Option.bind_some]
  rfl

/-- The states before and after, and what came back. -/
theorem Inv.controlled_left (hi : Inv s) {a : Act τ γ ε} (hc : s.calls a.thread = call :: rest)
    (hi' : Inv (s.left a.thread call co)) (hleaves : s.leaves a = some (call.coro, e))
    (hsubject : s.subject a = some call.coro) (ha : ∀ t c, a ≠ .resume t c) :
    Controlled s a (s.left a.thread call co) (some (call.number, e)) := by
  have hmem : call ∈ s.calls a.thread := hc ▸ List.mem_cons_self
  refine ⟨fun t c h => absurd h (ha t c), fun t c => hi'.runs_iff_current, fun c e' h => ?_, fun h => ?_,
    fun k e' h => ?_, fun t' hne => ?_, fun c hne => ?_⟩
  · rw [hleaves] at h
    obtain ⟨rfl, rfl⟩ := Prod.mk.inj (Option.some.inj h)
    rw [(hi.calls a.thread call hmem).1]
    rfl
  · rw [hleaves] at h
    cases h
  · obtain ⟨rfl, rfl⟩ := Prod.mk.inj (Option.some.inj h)
    exact ⟨call, hmem, rfl, update_self .., update_self ..⟩
  · exact ⟨update_of_ne hne .., update_of_ne hne .., hi.left_calls_of_ne hc hne⟩
  · rw [hsubject] at hne
    exact setCoro_of_ne fun heq => hne (congrArg some heq.symm)

end left

/-! ### One step -/

theorem Inv.step (hi : Inv s) {a : Act τ γ ε} (hp : Proper s a) (hs : s.act a = some (s', r)) :
    Inv s' ∧ Controlled s a s' r := by
  cases a with
  | create t c =>
    simp only [State.act] at hs
    split at hs
    · next hnone =>
      obtain ⟨rfl, rfl⟩ := Prod.mk.inj (Option.some.inj hs)
      have hi' := hi.create hnone
      exact ⟨hi', (by rintro _ _ ⟨⟩), fun _ _ => hi'.runs_iff_current, (by rintro _ _ ⟨⟩), fun _ => rfl,
        (by rintro _ _ ⟨⟩), fun _ _ => ⟨rfl, rfl, rfl⟩, fun d hne => setCoro_of_ne fun heq =>
          hne (congrArg some heq.symm)⟩
    · cases hs
  | resume t c =>
    obtain ⟨⟨co, hco, hrun⟩, hnot⟩ := hp
    have heq := resume_eq (t := t) hi hco hrun hnot
    obtain ⟨rfl, rfl⟩ := Prod.mk.inj (Option.some.inj (heq.symm.trans hs))
    have hi' := hi.inside (t := t) hco hrun hnot
    refine ⟨hi', fun t' c' h => ?_, fun _ _ => hi'.runs_iff_current, (by rintro _ _ ⟨⟩), fun _ => rfl,
      (by rintro _ _ ⟨⟩), fun t' hne => ?_, fun d hne => setCoro_of_ne fun heq => hne (congrArg some heq.symm)⟩
    · obtain ⟨rfl, rfl⟩ := Act.resume.inj h
      exact update_self ..
    · exact ⟨update_of_ne hne .., update_of_ne hne .., inside_calls_of_ne hne⟩
  | suspend t =>
    cases hruns : s.runs t with
    | thread t' =>
      -- `current` is null
      have hcurrent : s.current t = none := by
        cases hcur : s.current t with
        | none => rfl
        | some c => rw [hi.runs_iff_current.2 hcur] at hruns; cases hruns
      simp only [State.act, State.suspend, hcurrent, Option.bind_none] at hs
      cases hs
    | coro c =>
      have hleaves : s.leaves (.suspend t) = some (c, none) := by simp only [State.leaves, hruns]
      have hsubject : s.subject (.suspend t) = some c := by simp only [State.subject, hruns]
      obtain ⟨call, rest, hc, rfl⟩ := hi.newest hruns
      obtain ⟨-, -, co, hco, hent⟩ := hi.calls t call (hc ▸ List.mem_cons_self)
      obtain ⟨rfl, rfl⟩ := Prod.mk.inj (Option.some.inj ((suspend_eq hi hc hco hent).symm.trans hs))
      have hi' : Inv (s.left t call { co with context := .inSuspend (.coro call.coro) }) :=
        hi.left hc fun _ => ⟨hent.noThrow, .inr rfl⟩
      exact ⟨hi', hi.controlled_left (a := .suspend t) hc hi' hleaves hsubject (by rintro _ _ ⟨⟩)⟩
  | finish t e =>
    cases hruns : s.runs t with
    | thread t' =>
      simp only [State.act, State.finish, hruns] at hs
      cases hs
    | coro c =>
      have hleaves : s.leaves (.finish t e) = some (c, e) := by simp only [State.leaves, hruns]
      have hsubject : s.subject (.finish t e : Act τ γ ε) = some c := by simp only [State.subject, hruns]
      obtain ⟨call, rest, hc, rfl⟩ := hi.newest hruns
      obtain ⟨-, -, co, hco, hent⟩ := hi.calls t call (hc ▸ List.mem_cons_self)
      obtain ⟨rfl, rfl⟩ := Prod.mk.inj (Option.some.inj ((finish_eq hi hc hco hent).symm.trans hs))
      have hi' : Inv (s.left t call { co with completed := true, eptr := e }) := hi.left hc (by rintro ⟨⟩)
      exact ⟨hi', hi.controlled_left (a := .finish t e) hc hi' hleaves hsubject (by rintro _ _ ⟨⟩)⟩

end steps

/-! ### Every run -/

section run

variable {h : History (State τ γ ε) (Act τ γ ε)} {s : State τ γ ε}

theorem inv (r : Run (system τ γ ε) Proper h s) : Inv s := by
  induction r with
  | init hinit =>
    obtain rfl := hinit
    exact inv_init
  | step _ hp hs ih =>
    obtain ⟨⟨s₁, r⟩, hact, rfl⟩ := Option.map_eq_some_iff.1 hs
    exact (ih.step hp hact).1

/-- Any number of threads, each with coroutines that resume and suspend, that may go on in another thread than before
and be left in any order: control goes where it should in every step. -/
theorem controls_everywhere (r : Run (system τ γ ε) Proper h s) {a : Act τ γ ε} {s₀ : State τ γ ε}
    (hmem : (a, s₀) ∈ h) {s₁ : State τ γ ε} {ret : Option (Return ε)} (hact : s₀.act a = some (s₁, ret)) :
    Controlled s₀ a s₁ ret := by
  induction r with
  | init _ => cases hmem
  | step r hp _ ih =>
    rcases List.mem_cons.1 hmem with heq | hmem
    · obtain ⟨rfl, rfl⟩ := Prod.mk.inj heq
      exact ((inv r).step hp hact).2
    · exact ih hmem

end run

/-! ### Two threads and two coroutines -/

section runs

def checkProper (s : State (Fin 2) γ ε) : Act (Fin 2) γ ε → Bool
  | .resume _ c => (s.coro c).any (fun co => !co.completed) &&
      decide (∀ t, (s.calls t).all (fun call => decide (call.coro ≠ c)) = true)
  | _ => true

theorem proper_of_check (s : State (Fin 2) γ ε) (a : Act (Fin 2) γ ε) (h : checkProper s a = true) : Proper s a := by
  cases a with
  | resume t c =>
    simp only [checkProper, Bool.and_eq_true, Option.any_eq_true, Bool.not_eq_true', List.all_eq_true,
      decide_eq_true_eq] at h
    exact h
  | _ => trivial

/-- Each thread resumes a coroutine, then they suspend in the order in which they were entered: not in turn. Thread 1
goes on in the coroutine of thread 0, which ends there with an exception. -/
theorem controls_out_of_turn : ∃ (h : History (State (Fin 2) (Fin 2) Nat) (Act (Fin 2) (Fin 2) Nat))
    (s : State (Fin 2) (Fin 2) Nat), ((s.coro 0).bind (·.eptr) = some 7 ∧ s.clock = 3) ∧
      ∀ a s₀, (a, s₀) ∈ h → ∀ s₁ r, s₀.act a = some (s₁, r) → Controlled s₀ a s₁ r := by
  obtain ⟨s, ⟨h, r⟩, hp⟩ := Reach.of_exec (system (Fin 2) (Fin 2) Nat)
    [.create 0 0, .create 1 1, .resume 0 0, .resume 1 1, .suspend 0, .suspend 1, .resume 1 0, .finish 1 (some 7)]
    (fun s => (s.coro 0).bind (·.eptr) = some 7 ∧ s.clock = 3) proper_of_check (s := init) rfl (by decide)
  exact ⟨h, s, of_decide_eq_true hp, fun a s₀ hmem s₁ ret hact => controls_everywhere r hmem hact⟩

end runs

end Coro.Simple
