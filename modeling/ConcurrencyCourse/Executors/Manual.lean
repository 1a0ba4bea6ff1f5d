import ConcurrencyCourse.Lib.Calls
import ConcurrencyCourse.Lib.Threads
import Mathlib.Algebra.BigOperators.Group.Multiset.Basic
import Mathlib.Algebra.Ring.Nat

/-!
# `ManualExecutor` (tasks/tasks/executors/exe/executors/manual.cpp, manual.hpp)

| here | there |
| --- | --- |
| `Act.submit` | `Submit` (5-7) |
| `Act.runAtMost`, `Call` with a `limit` | `RunAtMost` (11-22) |
| `Act.runNext` | `RunNext` (manual.hpp 35-37) |
| `Act.drain`, `Call` without one | `Drain` (24-36) |
| `Act.finish` | `task()` returns (19, 33) |

A task may submit other tasks, and may itself call `RunAtMost`, `RunNext` or `Drain`: a thread is inside a stack of
such calls, each but the innermost one in the middle of a task. What a task does, and what the thread does outside of
tasks, is up to the environment. Any number of threads submit.

The operations of `tasks_` (exe/support/queue.hpp) take effect under its mutex, and each is one step here. `IsEmpty` and
`Take` are two of them. `Take` waits while there is nothing to take, and a thread that waits in it inside a task of its
own can only be helped by others; with one thread that runs tasks it never comes to that.

`runs_each_once` is the main theorem. Tasks that throw are left out, and what is counted does not wrap.
-/

namespace ManualExecutor

open Transition Function Finset

/-- Where a call is in its loop. -/
inductive Pc (τ : Type) where
  | isEmpty
  | take
  | task (t : τ)
  deriving DecidableEq, Repr

structure Call (τ : Type) where
  /-- `none` for `Drain`. -/
  limit : Option ℕ
  i : ℕ
  pc : Pc τ
  deriving DecidableEq, Repr

structure State (τ ι : Type) where
  tasks : List τ
  /-- The calls a thread is in, the innermost one first. -/
  calls : ι → List (Call τ)
  /-- What the call that returned last has returned to the thread. -/
  result : ι → Option ℕ

inductive Act (τ ι : Type) where
  | submit (k : ι) (t : τ)
  | runAtMost (k : ι) (limit : ℕ)
  | drain (k : ι)
  | finish (k : ι)
  | step (k : ι)
  deriving DecidableEq, Repr

/-- `RunNext` returns whether that was 1. -/
abbrev Act.runNext {τ ι : Type} (k : ι) : Act τ ι := .runAtMost k 1

section model

variable {τ ι : Type} [DecidableEq ι]

/-- The condition of the loop. -/
def Call.goesOn (c : Call τ) : Bool :=
  match c.limit with
  | some limit => c.i < limit
  | none => true

/-- The task that is running in the call. -/
def Call.task (c : Call τ) : Option τ :=
  match c.pc with
  | .task t => some t
  | _ => none

def State.setCalls (s : State τ ι) (k : ι) (cs : List (Call τ)) : State τ ι := { s with calls := update s.calls k cs }

/-- Outside of all calls, or in a task. -/
def State.free (s : State τ ι) (k : ι) : Bool :=
  match s.calls k with
  | [] => true
  | c :: _ => c.task.isSome

def State.call (s : State τ ι) (k : ι) (limit : Option ℕ) : Option (State τ ι) :=
  if s.free k then some (s.setCalls k (⟨limit, 0, .isEmpty⟩ :: s.calls k)) else none

def State.ret (s : State τ ι) (k : ι) (cs : List (Call τ)) (n : ℕ) : State τ ι :=
  { s with result := update s.result k (some n) }.setCalls k cs

/-- The value with which a call returns at its next step. -/
def Call.returns (c : Call τ) (tasks : List τ) : Option ℕ :=
  match c.pc with
  | .isEmpty => if c.goesOn then (if tasks = [] then some c.i else none) else c.limit
  | _ => none

def callStep (s : State τ ι) (k : ι) (c : Call τ) (cs : List (Call τ)) : Option (State τ ι) :=
  match c.pc with
  | .isEmpty => match c.returns s.tasks with
    | some n => some (s.ret k cs n)
    | none => some (s.setCalls k ({ c with pc := .take } :: cs))
  | .take => match s.tasks with
    | t :: tasks => some ({ s with tasks := tasks }.setCalls k ({ c with pc := .task t } :: cs))
    | [] => none
  | .task _ => none

def step (s : State τ ι) : Act τ ι → Option (State τ ι)
  | .submit k t => if s.free k then some { s with tasks := s.tasks ++ [t] } else none
  | .runAtMost k limit => s.call k (some limit)
  | .drain k => s.call k none
  | .finish k => match s.calls k with
    | c :: cs => match c.pc with
      | .task _ => some (s.setCalls k ({ c with i := c.i + 1, pc := .isEmpty } :: cs))
      | _ => none
    | [] => none
  | .step k => match s.calls k with
    | c :: cs => callStep s k c cs
    | [] => none

def init : State τ ι := ⟨[], fun _ => [], fun _ => none⟩

variable (τ ι) in
def system : System (State τ ι) (Act τ ι) := ⟨fun s => s = init, step⟩

/-- `Put` and `Take` of `tasks_`; nobody closes it. -/
def event (s : State τ ι) : Act τ ι → Option (ι × Closable.Event τ)
  | .submit k t => some (k, .put t true)
  | .step k => match s.calls k, s.tasks with
    | ⟨_, _, .take⟩ :: _, t :: _ => some (k, .take t)
    | _, _ => none
  | _ => none

def begins (k : ι) : Act τ ι → Bool
  | .runAtMost j _ | .drain j => j = k
  | _ => false

def calls : Calls (State τ ι) (Act τ ι) ι (Closable.Event τ) := ⟨begins, event⟩

def State.contents (s : State τ ι) : Closable.Contents τ := ⟨true, s.tasks⟩

/-- The task that returns. -/
def finishes (s : State τ ι) : Act τ ι → Option (ι × τ)
  | .finish k => ((s.calls k).head?.bind Call.task).map fun t => (k, t)
  | _ => none

/-- The call that returns, and its value. -/
def returns (s : State τ ι) : Act τ ι → Option (ι × ℕ)
  | .step k => ((s.calls k).head?.bind (Call.returns · s.tasks)).map fun n => (k, n)
  | _ => none

/-- The tasks that have returned, and on which thread. -/
def finished (h : History (State τ ι) (Act τ ι)) : List (ι × τ) := h.filterMap fun e => finishes e.2 e.1

/-- What the calls of a thread have returned, in sum. -/
def counted (k : ι) (h : History (State τ ι) (Act τ ι)) : ℕ :=
  ((h.filterMap fun e => returns e.2 e.1).map fun p => if p.1 = k then p.2 else 0).sum

/-- The tasks a thread is in. -/
def running (cs : List (Call τ)) : Multiset τ := cs.filterMap Call.task

end model

section steps

variable {τ ι : Type} [DecidableEq ι] {s s' : State τ ι} {a : Act τ ι} {k : ι} {c : Call τ} {cs : List (Call τ)}

/-- What a step is. -/
inductive Steps (s : State τ ι) : Act τ ι → State τ ι → Prop where
  | submit (k : ι) (t : τ) : s.free k = true → Steps s (.submit k t) { s with tasks := s.tasks ++ [t] }
  | runAtMost (k : ι) (limit : ℕ) : s.free k = true →
      Steps s (.runAtMost k limit) (s.setCalls k (⟨some limit, 0, .isEmpty⟩ :: s.calls k))
  | drain (k : ι) : s.free k = true → Steps s (.drain k) (s.setCalls k (⟨none, 0, .isEmpty⟩ :: s.calls k))
  | finish (k : ι) (l : Option ℕ) (i : ℕ) (t : τ) (cs : List (Call τ)) : s.calls k = ⟨l, i, .task t⟩ :: cs →
      Steps s (.finish k) (s.setCalls k (⟨l, i + 1, .isEmpty⟩ :: cs))
  | ret (k : ι) (l : Option ℕ) (i : ℕ) (cs : List (Call τ)) (n : ℕ) : s.calls k = ⟨l, i, .isEmpty⟩ :: cs →
      Call.returns ⟨l, i, .isEmpty⟩ s.tasks = some n → Steps s (.step k) (s.ret k cs n)
  | next (k : ι) (l : Option ℕ) (i : ℕ) (cs : List (Call τ)) : s.calls k = ⟨l, i, .isEmpty⟩ :: cs →
      Call.returns ⟨l, i, .isEmpty⟩ s.tasks = none → Steps s (.step k) (s.setCalls k (⟨l, i, .take⟩ :: cs))
  | take (k : ι) (l : Option ℕ) (i : ℕ) (cs : List (Call τ)) (t : τ) (tasks : List τ) :
      s.calls k = ⟨l, i, .take⟩ :: cs → s.tasks = t :: tasks →
      Steps s (.step k) ({ s with tasks := tasks }.setCalls k (⟨l, i, .task t⟩ :: cs))

theorem steps_of_step (hs : step s a = some s') : Steps s a s' := by
  cases a with
  | submit k t =>
    simp only [step] at hs
    split at hs
    · next hf =>
      obtain rfl := Option.some.inj hs
      exact .submit k t hf
    · cases hs
  | runAtMost k limit =>
    simp only [step, State.call] at hs
    split at hs
    · next hf =>
      obtain rfl := Option.some.inj hs
      exact .runAtMost k limit hf
    · cases hs
  | drain k =>
    simp only [step, State.call] at hs
    split at hs
    · next hf =>
      obtain rfl := Option.some.inj hs
      exact .drain k hf
    · cases hs
  | finish k =>
    simp only [step] at hs
    split at hs
    · next c cs hc =>
      obtain ⟨l, i, pc⟩ := c
      split at hs
      · next t hpc =>
        obtain rfl := Option.some.inj hs
        obtain rfl : pc = .task t := hpc
        exact .finish k l i t cs hc
      · cases hs
    · cases hs
  | step k =>
    simp only [step] at hs
    split at hs
    · next c cs hc =>
      obtain ⟨l, i, pc⟩ := c
      simp only [callStep] at hs
      split at hs
      · split at hs
        · next n hn =>
          obtain rfl := Option.some.inj hs
          exact .ret k l i cs n hc hn
        · next hn =>
          obtain rfl := Option.some.inj hs
          exact .next k l i cs hc hn
      · split at hs
        · next t tasks ht =>
          obtain rfl := Option.some.inj hs
          exact .take k l i cs t tasks hc ht
        · cases hs
      · cases hs
    · cases hs

theorem applies_of_step (hs : Steps s a s') : Applies Closable.spec (event s a) s.contents s'.contents := by
  cases hs with
  | submit k t hf => exact ⟨rfl, rfl⟩
  | runAtMost k limit hf => rfl
  | drain k hf => rfl
  | finish k l i t cs hc => rfl
  | ret k l i cs n hc hn =>
    simp only [event, hc]
    rfl
  | next k l i cs hc hn =>
    simp only [event, hc]
    rfl
  | take k l i cs t tasks hc ht =>
    simp only [event, hc, ht]
    exact ⟨by simp [State.contents, State.setCalls, ht], rfl⟩

/-! ### The stack of calls -/

/-- A call in its loop, or in a task. -/
structure Call.Ok (c : Call τ) : Prop where
  le : ∀ l, c.limit = some l → c.i ≤ l
  lt : ∀ l, c.limit = some l → c.pc ≠ .isEmpty → c.i < l

/-- All but the innermost call are in a task. -/
structure Stack (cs : List (Call τ)) : Prop where
  ok : ∀ c ∈ cs, c.Ok
  outer : ∀ c ∈ cs.tail, c.task.isSome = true

theorem Stack.nil : Stack ([] : List (Call τ)) := ⟨by simp, by simp⟩

theorem Stack.replace {c' : Call τ} (h : Stack (c :: cs)) (hc : c'.Ok) : Stack (c' :: cs) := by
  refine ⟨fun d hd => ?_, h.outer⟩
  rcases List.mem_cons.1 hd with rfl | hd
  · exact hc
  · exact h.ok d (List.mem_cons_of_mem _ hd)

theorem Stack.pop (h : Stack (c :: cs)) : Stack cs :=
  ⟨fun d hd => h.ok d (List.mem_cons_of_mem _ hd), fun d hd => h.outer d (List.mem_of_mem_tail hd)⟩

omit [DecidableEq ι] in
/-- A call that begins in a task, or outside of all calls. -/
theorem Stack.push (h : Stack (s.calls k)) (hf : s.free k = true) (l : Option ℕ) :
    Stack (⟨l, 0, .isEmpty⟩ :: s.calls k) := by
  refine ⟨fun d hd => ?_, fun d hd => ?_⟩
  · rcases List.mem_cons.1 hd with rfl | hd
    · exact ⟨by simp, by simp⟩
    · exact h.ok d hd
  · rw [List.tail_cons] at hd
    unfold State.free at hf
    split at hf
    · next hnil => simp [hnil] at hd
    · next c cs hc =>
      rw [hc] at hd h
      rcases List.mem_cons.1 hd with rfl | hd
      · exact hf
      · exact h.outer d hd

theorem Call.returns_eq {l : Option ℕ} {i n : ℕ} {tasks : List τ} (hok : Call.Ok ⟨l, i, (.isEmpty : Pc τ)⟩)
    (hn : Call.returns ⟨l, i, .isEmpty⟩ tasks = some n) : n = i ∧ (l = some n ∨ tasks = []) := by
  unfold Call.returns Call.goesOn at hn
  cases l with
  | none => simp_all
  | some l =>
    have hle := hok.le l rfl
    by_cases hlt : i < l
    · by_cases hnil : tasks = []
      · simp_all
      · simp [hlt, hnil] at hn
    · simp only [hlt, decide_false, Bool.false_eq_true, if_false, Option.some.injEq] at hn
      subst hn
      exact ⟨by simp only at hle; omega, .inl rfl⟩

theorem Call.lt_of_goes {l : Option ℕ} {i : ℕ} {tasks : List τ}
    (hn : Call.returns ⟨l, i, .isEmpty⟩ tasks = none) : (∀ m, l = some m → i < m) ∧ tasks ≠ [] := by
  unfold Call.returns Call.goesOn at hn
  cases l with
  | none => simpa using hn
  | some l => by_cases hlt : i < l <;> simp_all

theorem Stack.step (h : ∀ k, Stack (s.calls k)) (hs : Steps s a s') (j : ι) : Stack (s'.calls j) := by
  have hset : ∀ (s₀ : State τ ι) k cs, (∀ k, Stack (s₀.calls k)) → Stack cs → Stack ((s₀.setCalls k cs).calls j) := by
    intro s₀ k cs h₀ hcs
    by_cases hj : j = k
    · subst hj
      simpa [State.setCalls] using hcs
    · simpa [State.setCalls, hj] using h₀ j
  cases hs with
  | submit k t hf => exact h j
  | runAtMost k limit hf => exact hset s k _ h ((h k).push hf _)
  | drain k hf => exact hset s k _ h ((h k).push hf _)
  | finish k l i t cs hc =>
    have hk := hc ▸ h k
    have hlt := (hk.ok _ List.mem_cons_self).lt
    exact hset s k _ h (hk.replace ⟨fun m hm => hlt m hm (by simp), by simp⟩)
  | ret k l i cs n hc hn => exact hset _ k _ h (hc ▸ h k).pop
  | next k l i cs hc hn =>
    have hk := hc ▸ h k
    have hlt := (Call.lt_of_goes hn).1
    exact hset s k _ h (hk.replace ⟨fun m hm => (hlt m hm).le, fun m hm _ => hlt m hm⟩)
  | take k l i cs t tasks hc ht =>
    have hk := hc ▸ h k
    have hok := hk.ok _ List.mem_cons_self
    exact hset _ k _ h (hk.replace ⟨hok.le, fun m hm _ => hok.lt m hm (by simp)⟩)

/-! ### What has been run -/

variable {h : History (State τ ι) (Act τ ι)}

omit [DecidableEq ι] in
theorem finished_cons {s₀ : State τ ι} : finished ((a, s₀) :: h) = (finishes s₀ a).toList ++ finished h := by
  unfold finished
  cases hf : finishes s₀ a <;> simp [hf]

theorem counted_cons {s₀ : State τ ι} : counted k ((a, s₀) :: h) =
    ((returns s₀ a).map fun p => if p.1 = k then p.2 else 0).getD 0 + counted k h := by
  unfold counted
  cases hf : returns s₀ a <;> simp [hf]

theorem taken_cons {es : List (Closable.Event τ)} {e : Closable.Event τ} :
    Closable.taken (e :: es) = Closable.taken es ++ (match e with | .take t => [t] | _ => []) := by
  cases e <;> simp [Closable.taken]

theorem running_cons : running (c :: cs) = (c.task.elim 0 fun t => {t}) + running cs := by
  unfold running
  cases hc : c.task <;> simp [hc]

/-- Each task that was taken has returned or is running; and each that a thread has run is counted by one of its
calls. -/
structure Inv [Fintype ι] (h : History (State τ ι) (Act τ ι)) (s : State τ ι) : Prop where
  stack : ∀ k, Stack (s.calls k)
  once : (Closable.taken (calls.all h) : Multiset τ) = ↑((finished h).map Prod.snd) + ∑ k, running (s.calls k)
  count : ∀ k, ((finished h).filter fun p => p.1 = k).length = counted k h + ((s.calls k).map Call.i).sum

theorem Inv.init [Fintype ι] : Inv [] (init : State τ ι) where
  stack _ := .nil
  once := by simp [calls, Calls.all, Closable.taken, finished, ManualExecutor.init, running]
  count k := by simp [finished, counted, ManualExecutor.init]

theorem sum_running [Fintype ι] (k : ι) (cs : List (Call τ)) :
    (∑ j, running (update s.calls k cs j)) + running (s.calls k) = (∑ j, running (s.calls j)) + running cs :=
  Threads.sum_update_add running s.calls k cs

/-- A step that neither takes a task nor ends one. -/
theorem Inv.once_quiet [Fintype ι] (hi : Inv h s) (he : event s a = none) (hf : finishes s a = none)
    (hcs : running cs = running (s.calls k)) : (Closable.taken (calls.all ((a, s) :: h)) : Multiset τ) =
      ↑((finished ((a, s) :: h)).map Prod.snd) + ∑ j, running (update s.calls k cs j) := by
  rw [Calls.all_none he, finished_cons, hf, Threads.sum_update_same running s.calls k cs hcs]
  exact hi.once

theorem Inv.once_step [Fintype ι] (hi : Inv h s) (hs : Steps s a s') :
    (Closable.taken (calls.all ((a, s) :: h)) : Multiset τ) =
      ↑((finished ((a, s) :: h)).map Prod.snd) + ∑ j, running (s'.calls j) := by
  cases hs with
  | submit k t hf =>
    rw [Calls.all_some (show calls.event s (.submit k t) = some (k, .put t true) from rfl), taken_cons, List.append_nil]
    exact hi.once
  | runAtMost k limit hf => exact hi.once_quiet rfl rfl (by simp [running_cons, Call.task])
  | drain k hf => exact hi.once_quiet rfl rfl (by simp [running_cons, Call.task])
  | finish k l i t cs hc =>
    have hsum := sum_running (s := s) k (⟨l, i + 1, .isEmpty⟩ :: cs)
    have hfin : finishes s (.finish k) = some (k, t) := by simp [finishes, hc, Call.task]
    rw [hc, running_cons, running_cons] at hsum
    simp only [Call.task, Option.elim_none, Option.elim_some, zero_add, ← add_assoc, add_left_inj] at hsum
    rw [Calls.all_none rfl, finished_cons, hfin, hi.once, ← hsum]
    simp only [Option.toList_some, List.singleton_append, List.map_cons, ← Multiset.cons_coe, State.setCalls,
      ← Multiset.singleton_add]
    ac_rfl
  | ret k l i cs n hc hn =>
    refine hi.once_quiet ?_ rfl (by simp [hc, running_cons, Call.task])
    simp [event, hc]
  | next k l i cs hc hn =>
    refine hi.once_quiet ?_ rfl (by simp [hc, running_cons, Call.task])
    simp [event, hc]
  | take k l i cs t tasks hc ht =>
    have hsum := sum_running (s := s) k (⟨l, i, .task t⟩ :: cs)
    have he : calls.event s (.step k) = some (k, .take t) := by simp [calls, event, hc, ht]
    rw [hc, running_cons, running_cons] at hsum
    simp only [Call.task, Option.elim_none, Option.elim_some, zero_add, ← add_assoc, add_left_inj] at hsum
    rw [Calls.all_some he, taken_cons, finished_cons, ← Multiset.coe_add, hi.once]
    simp only [State.setCalls, hsum, finishes, Option.toList_none, List.nil_append, Multiset.coe_singleton]
    ac_rfl

theorem Inv.count_step [Fintype ι] (hi : Inv h s) (hs : Steps s a s') (j : ι) :
    ((finished ((a, s) :: h)).filter fun p => p.1 = j).length =
      counted j ((a, s) :: h) + ((s'.calls j).map Call.i).sum := by
  have hj := hi.count j
  rw [finished_cons, counted_cons]
  cases hs with
  | submit k t hf => simpa [finishes, returns] using hj
  | runAtMost k limit hf =>
    by_cases hkj : j = k
    · subst hkj
      simpa [finishes, returns, State.setCalls] using hj
    · simpa [finishes, returns, State.setCalls, hkj] using hj
  | drain k hf =>
    by_cases hkj : j = k
    · subst hkj
      simpa [finishes, returns, State.setCalls] using hj
    · simpa [finishes, returns, State.setCalls, hkj] using hj
  | finish k l i t cs hc =>
    by_cases hkj : j = k
    · subst hkj
      simp [finishes, returns, State.setCalls, hc, Call.task] at hj ⊢
      omega
    · have hkj' : k ≠ j := Ne.symm hkj
      simpa [finishes, returns, State.setCalls, hc, Call.task, hkj, hkj'] using hj
  | ret k l i cs n hc hn =>
    obtain ⟨rfl, -⟩ := Call.returns_eq ((hc ▸ hi.stack k).ok _ List.mem_cons_self) hn
    by_cases hkj : j = k
    · subst hkj
      simp [finishes, returns, State.setCalls, State.ret, hc, hn] at hj ⊢
      omega
    · have hkj' : k ≠ j := Ne.symm hkj
      simpa [finishes, returns, State.setCalls, State.ret, hc, hn, hkj, hkj'] using hj
  | next k l i cs hc hn =>
    by_cases hkj : j = k
    · subst hkj
      simpa [finishes, returns, State.setCalls, hc, hn] using hj
    · simpa [finishes, returns, State.setCalls, hc, hn, hkj] using hj
  | take k l i cs t tasks hc ht =>
    by_cases hkj : j = k
    · subst hkj
      simpa [finishes, returns, State.setCalls, hc, Call.returns] using hj
    · simpa [finishes, returns, State.setCalls, hc, Call.returns, hkj] using hj

theorem Inv.step [Fintype ι] (hi : Inv h s) (hs : Steps s a s') : Inv ((a, s) :: h) s' :=
  ⟨Stack.step hi.stack hs, hi.once_step hs, hi.count_step hs⟩

end steps

section main

variable {τ ι : Type} [DecidableEq ι]

/-- After any run, with any number of threads. The tasks are taken in the order in which they were submitted; each
that was taken has returned, once, or is running. What the calls of a thread have returned and what those it is in
have counted so far are, together, the tasks that have returned on this thread: no nested call counts for another. A
call returns the number it has counted, which is its limit, or below it with nothing left in the queue; so with
`Drain` nothing is left. -/
structure Correct [Fintype ι] (h : History (State τ ι) (Act τ ι)) (s : State τ ι) : Prop where
  fifo : Closable.accepted (calls.all h) = Closable.taken (calls.all h) ++ s.tasks
  once : (Closable.taken (calls.all h) : Multiset τ) = ↑((finished h).map Prod.snd) + ∑ k, running (s.calls k)
  count : ∀ k, ((finished h).filter fun p => p.1 = k).length = counted k h + ((s.calls k).map Call.i).sum
  nested : ∀ k, ∀ c ∈ (s.calls k).tail, c.task.isSome = true
  returns : ∀ k c cs n, s.calls k = c :: cs → c.returns s.tasks = some n → step s (.step k) = some (s.ret k cs n) ∧
    n = c.i ∧ (∀ l, c.limit = some l → n ≤ l) ∧ (c.limit = some n ∨ s.tasks = [])

/-- Only thread `k` runs tasks. -/
def runsOn (k : ι) (_ : State τ ι) : Act τ ι → Prop
  | .runAtMost j _ | .drain j => j = k
  | _ => True

/-- In `Take`, with nothing to take. -/
def State.waits (s : State τ ι) (k : ι) : Prop := (s.calls k).head?.map Call.pc = some .take ∧ s.tasks = []

/-- Nobody else takes what `IsEmpty` has seen. -/
structure Single (k : ι) (s : State τ ι) : Prop where
  others : ∀ j, j ≠ k → s.calls j = []
  take : (s.calls k).head?.map Call.pc = some .take → s.tasks ≠ []

theorem Single.step {s s' : State τ ι} {a : Act τ ι} {k : ι} (hi : Single k s) (hst : Stack (s.calls k))
    (hok : runsOn k s a) (hs : Steps s a s') : Single k s' := by
  have hmine : ∀ {j c cs}, s.calls j = c :: cs → j = k := by
    intro j c cs hc
    by_contra hj
    simp [hi.others j hj] at hc
  have hset : ∀ (s₀ : State τ ι) c cs, (∀ j, j ≠ k → s₀.calls j = []) → (c.pc = .take → s₀.tasks ≠ []) →
      Single k (s₀.setCalls k (c :: cs)) := by
    intro s₀ c cs h₀ htake
    refine ⟨fun j hj => by simp [State.setCalls, hj, h₀ j hj], fun hc => htake ?_⟩
    simpa [State.setCalls] using hc
  cases hs with
  | submit j t hf => exact ⟨hi.others, fun _ => by simp⟩
  | runAtMost j limit hf =>
    obtain rfl : j = k := hok
    exact hset s _ _ hi.others (by simp)
  | drain j hf =>
    obtain rfl : j = k := hok
    exact hset s _ _ hi.others (by simp)
  | finish j l i t cs hc =>
    obtain rfl := hmine hc
    exact hset s _ _ hi.others (by simp)
  | ret j l i cs n hc hn =>
    obtain rfl := hmine hc
    rw [hc] at hst
    -- the call below is in a task
    refine ⟨fun i' hi' => by simp [State.ret, State.setCalls, hi', hi.others i' hi'], fun htake => ?_⟩
    cases cs with
    | nil => simp [State.ret, State.setCalls] at htake
    | cons d cs =>
      have hd := hst.outer d List.mem_cons_self
      have hpc : d.pc = .take := by simpa [State.ret, State.setCalls] using htake
      simp [Call.task, hpc] at hd
  | next j l i cs hc hn =>
    obtain rfl := hmine hc
    exact hset s _ _ hi.others fun _ => (Call.lt_of_goes hn).2
  | take j l i cs t tasks hc ht =>
    obtain rfl := hmine hc
    exact hset _ _ _ hi.others (by simp)

/-- Thread `i` takes the task that thread `j` has seen. -/
def bothRun (i j : ι) (t : τ) : List (Act τ ι) :=
  [.submit i t, .runNext i, .drain j, .step i, .step j, .step i]

theorem exists_waits {i j : ι} (hij : i ≠ j) (t : τ) : ∃ s : State τ ι, Reach (system τ ι) anyStep s ∧ s.waits j := by
  have hji : j ≠ i := hij.symm
  have hexec : ∃ s : State τ ι, exec (system τ ι) noCheck init (bothRun i j t) = some s ∧ s.waits j := by
    simp [bothRun, exec_cons, exec_nil, noCheck, system, step, State.call, State.free, State.setCalls, callStep,
      Call.returns, Call.goesOn, State.waits, init, hij, hji]
  obtain ⟨s, hs, hw⟩ := hexec
  exact ⟨s, (Reach.init rfl).exec (fun _ _ _ => trivial) hs, hw⟩

theorem runs_each_once [Fintype ι] :
    (∀ (h : History (State τ ι) (Act τ ι)) (s : State τ ι), Run (system τ ι) anyStep h s → Correct h s) ∧
      (∀ (k : ι) (s : State τ ι), Reach (system τ ι) (runsOn k) s → ∀ j, ¬ s.waits j) ∧
      ∀ (i j : ι) (_ : τ), i ≠ j → ∃ s : State τ ι, Reach (system τ ι) anyStep s ∧ s.waits j := by
  have hinv : ∀ (h : History (State τ ι) (Act τ ι)) (s : State τ ι), Run (system τ ι) anyStep h s → Inv h s :=
    fun h s r => r.invariant (fun _ hs => hs ▸ Inv.init) fun _ _ _ _ hi _ hs => hi.step (steps_of_step hs)
  refine ⟨fun h s r => ?_, fun k s r j hw => ?_, fun i j t hij => exists_waits hij t⟩
  · have hi := hinv h s r
    have hpath : Path Closable.spec ⟨true, []⟩ (calls.all h) s.contents :=
      calls.refines State.contents (fun _ hs => hs ▸ rfl)
        (fun _ _ _ _ _ _ hs => applies_of_step (steps_of_step hs)) r
    refine ⟨Closable.fifo hpath, hi.once, hi.count, fun k => (hi.stack k).outer, fun k c cs n hc hn => ?_⟩
    obtain ⟨l, i, pc⟩ := c
    have hok := (hc ▸ hi.stack k).ok _ List.mem_cons_self
    obtain rfl : pc = .isEmpty := by
      unfold Call.returns at hn
      split at hn
      · next hpc => exact hpc
      · cases hn
    obtain ⟨rfl, hend⟩ := Call.returns_eq hok hn
    exact ⟨by simp [step, hc, callStep, hn], rfl, hok.le, hend⟩
  · obtain ⟨h, r⟩ := r
    have hsingle : (∀ k, Stack (s.calls k)) ∧ Single k s :=
      r.invariant (I := fun _ s => (∀ k, Stack (s.calls k)) ∧ Single k s)
        (fun _ hs => hs ▸ ⟨fun _ => .nil, fun _ _ => rfl, by simp [init]⟩)
        fun _ _ _ _ hi hok hs => ⟨Stack.step hi.1 (steps_of_step hs), hi.2.step (hi.1 k) hok (steps_of_step hs)⟩
    by_cases hj : j = k
    · subst hj
      exact hsingle.2.take hw.1 hw.2
    · simp [State.waits, hsingle.2.others j hj] at hw

end main

end ManualExecutor
