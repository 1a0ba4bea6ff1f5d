import ConcurrencyCourse.ThreadPool.Effect

/-!
# Where the tasks are

A task is in the hands of its `Submit` until `Put`, in the queue, in the hands of its worker, or finished.
`TaskMove` lists what a step does to the tasks.

* `places t` counts the places of task `t`. As long as no `Put` is refused it is 1 for every task there is.
* `load` counts what `counter_` counts: the tasks between their `fetch_add` and their `fetch_sub`.

`Accepting`: no `Put` is refused when `Stop` is called after the calls of `Submit` (`SubmitsFirst`).
-/

namespace ThreadPool

open Transition Function

variable {γ ω : Type}

/-! ### In whose hands -/

/-- What a thread has to do with the tasks. -/
inductive Hands where
  | nothing
  /-- A task before `fetch_add`. -/
  | new (t : Nat)
  /-- A task between `fetch_add` and its end. -/
  | counted (t : Nat)
  /-- Has run a task, before `fetch_sub`. -/
  | ended
  deriving DecidableEq

def CallPc.hands : CallPc → Hands
  | .add t => .new t
  | .storeZero t | .put t => .counted t
  | _ => .nothing

def WorkerPc.hands : WorkerPc → Hands
  | .run t => .counted t
  | .fetchSub => .ended
  | _ => .nothing

variable [Fintype γ] [Fintype ω]

def State.weigh (f : Hands → Nat) (s : State γ ω) : Nat :=
  (∑ c, f (s.call c).hands) + ∑ w, f (s.worker w).hands

/-- Somebody's hands, `old` before the step, are `new` after it. -/
def Passes (s s' : State γ ω) (old new : Hands) : Prop :=
  ∀ f : Hands → Nat, s'.weigh f + f old = s.weigh f + f new

/-- What a step does to the tasks. -/
inductive TaskMove (s s' : State γ ω) : Prop where
  | same (passes : Passes s s' .nothing .nothing) (queue : s'.queue = s.queue)
      (finished : s'.finished = s.finished) (tasks : s'.tasks = s.tasks) (counter : s'.counter = s.counter)
  | submit (passes : Passes s s' .nothing (.new s.tasks)) (queue : s'.queue = s.queue)
      (finished : s'.finished = s.finished) (tasks : s'.tasks = s.tasks + 1) (counter : s'.counter = s.counter)
  | add {t : Nat} (passes : Passes s s' (.new t) (.counted t)) (queue : s'.queue = s.queue)
      (finished : s'.finished = s.finished) (tasks : s'.tasks = s.tasks) (counter : s'.counter = s.counter + 1)
  | put {t : Nat} (passes : Passes s s' (.counted t) .nothing) (queue : s'.queue = s.queue ++ [t])
      (finished : s'.finished = s.finished) (tasks : s'.tasks = s.tasks) (counter : s'.counter = s.counter)
  | take {t : Nat} (passes : Passes s s' .nothing (.counted t)) (queue : s.queue = t :: s'.queue)
      (finished : s'.finished = s.finished) (tasks : s'.tasks = s.tasks) (counter : s'.counter = s.counter)
  | finish {t : Nat} (passes : Passes s s' (.counted t) .ended) (queue : s'.queue = s.queue)
      (finished : s'.finished = s.finished ++ [t]) (tasks : s'.tasks = s.tasks)
      (counter : s'.counter = s.counter)
  | fetchSub (passes : Passes s s' .ended .nothing) (queue : s'.queue = s.queue)
      (finished : s'.finished = s.finished) (tasks : s'.tasks = s.tasks)
      (counter : s'.counter = s.counter - 1)

section moves

variable {s s' u : State γ ω} {a : Act γ ω}

theorem passes_setCall [DecidableEq γ] [DecidableEq ω] (h₁ : ∀ f, u.weigh f = s.weigh f)
    {c : γ ⊕ ω} {p q : CallPc} (hp : u.call c = p) : Passes s (u.setCall c q) p.hands q.hands := by
  intro f
  have h := Threads.sum_update_add (fun p : CallPc => f p.hands) u.call c q
  have h₁ := h₁ f
  rw [hp] at h
  simp only [State.weigh, State.setCall] at h h₁ ⊢
  omega

theorem passes_setWorker [DecidableEq ω] (h₁ : ∀ f, u.weigh f = s.weigh f) {w : ω} {p q : WorkerPc}
    (hp : u.worker w = p) : Passes s (u.setWorker w q) p.hands q.hands := by
  intro f
  have h := Threads.sum_update_add (fun p : WorkerPc => f p.hands) u.worker w q
  have h₁ := h₁ f
  rw [hp] at h
  simp only [State.weigh, State.setWorker] at h h₁ ⊢
  omega

/-- Hands that hold the same as before. -/
theorem Passes.same {x y : Hands} (h : Passes s s' x y) (hxy : y = x) : Passes s s' .nothing .nothing := by
  intro f
  have hf := h f
  rw [hxy] at hf
  exact congrArg (· + _) (Nat.add_right_cancel hf)

theorem passes_rfl : Passes s s .nothing .nothing := fun _ => rfl

theorem weigh_notifyAll (asleep awake : WorkerPc) (h : awake.hands = asleep.hands) (f : Hands → Nat) :
    (s.notifyAll asleep awake).weigh f = s.weigh f := by
  have hw : ∀ w, (if s.worker w = asleep then awake else s.worker w).hands = (s.worker w).hands := by
    intro w
    split
    · next hw => rw [hw, h]
    · rfl
  simp only [State.weigh, State.notifyAll, hw]

theorem weigh_unparkAll (f : Hands → Nat) : s.unparkAll.weigh f = s.weigh f := by
  have hc : ∀ c, (if s.call c = .parked then CallPc.loadCounter else s.call c).hands = (s.call c).hands := by
    intro c
    split
    · next hc => rw [hc]; rfl
    · rfl
  simp only [State.weigh, State.unparkAll, hc]

omit [Fintype γ] [Fintype ω] in
theorem CallMove.hands_eq {p p' : CallPc} (h : CallMove s p p') (hopen : ∀ t, p = .put t → s.opened = true) :
    p'.hands = p.hands := by
  cases h with
  | rejected closed => cases closed.symm.trans (hopen _ rfl)
  | _ => rfl

omit [Fintype γ] [Fintype ω] in
theorem WorkMove.hands_eq {p p' : WorkerPc} (h : WorkMove s p p') : p'.hands = p.hands := by
  cases h <;> rfl

variable [DecidableEq γ] [DecidableEq ω]

/-- A step that only moves a caller that keeps what it has. -/
theorem taskMove_setCall {c : γ ⊕ ω} {p : CallPc} (h₁ : ∀ f, u.weigh f = s.weigh f)
    (hrest : u.queue = s.queue ∧ u.finished = s.finished ∧ u.tasks = s.tasks ∧ u.counter = s.counter)
    {p' : CallPc} (hp : u.call c = p) (hpp : p'.hands = p.hands) : TaskMove s (u.setCall c p') :=
  .same ((passes_setCall h₁ hp).same hpp) hrest.1 hrest.2.1 hrest.2.2.1 hrest.2.2.2

omit [DecidableEq γ] in
theorem taskMove_setWorker {w : ω} {p : WorkerPc} (h₁ : ∀ f, u.weigh f = s.weigh f)
    (hrest : u.queue = s.queue ∧ u.finished = s.finished ∧ u.tasks = s.tasks ∧ u.counter = s.counter)
    {p' : WorkerPc} (hp : u.worker w = p) (hpp : p'.hands = p.hands) : TaskMove s (u.setWorker w p') :=
  .same ((passes_setWorker h₁ hp).same hpp) hrest.1 hrest.2.1 hrest.2.2.1 hrest.2.2.2

theorem Effect.taskMove (he : Effect s a s') (hopen : ∀ c t, s.call c = .put t → s.opened = true) :
    TaskMove s s' := by
  have hr : s.queue = s.queue ∧ s.finished = s.finished ∧ s.tasks = s.tasks ∧ s.counter = s.counter :=
    ⟨rfl, rfl, rfl, rfl⟩
  cases he with
  | @callMove _ c p move => exact taskMove_setCall (fun _ => rfl) hr rfl (move.hands_eq (hopen c))
  | workMove move => exact taskMove_setWorker (fun _ => rfl) hr rfl move.hands_eq
  | @submit c can =>
    have h : Passes s (s.setCall c (.add s.tasks)) .nothing (.new s.tasks) :=
      passes_setCall (fun _ => rfl) (canCall_idle can)
    exact .submit h rfl rfl rfl rfl
  | waitIdle can => exact taskMove_setCall (fun _ => rfl) hr (canCall_idle can) rfl
  | @add c pick t p at_ next =>
    have h := passes_setCall (s := s) (u := s.setCounter (s.counter + 1)) (q := p) (fun _ => rfl) at_
    rcases next with ⟨-, rfl⟩ | ⟨-, rfl⟩ <;> exact .add h rfl rfl rfl rfl
  | storeZero at_ => exact taskMove_setCall (s := s) (u := s.setDone false) (fun _ => rfl) hr at_ (by rfl)
  | @put c pick t at_ opened =>
    have h := passes_setCall (s := s) (u := s.setQueue (s.queue ++ [t])) (q := .notifyTake t)
      (fun _ => rfl) at_
    exact .put h rfl rfl rfl rfl
  | @notifyTake c w t at_ asleep =>
    have hw : ∀ f, (s.setWorker w .take).weigh f = s.weigh f := fun f =>
      Nat.add_right_cancel (passes_setWorker (s := s) (q := .take) (fun _ => rfl) asleep f)
    exact taskMove_setCall hw hr at_ rfl
  | notifyNoTake at_ nobody => exact taskMove_setCall (fun _ => rfl) hr at_ rfl
  | setRunning at_ => exact taskMove_setCall (s := s) (u := s.setRunning true) (fun _ => rfl) hr at_ (by rfl)
  | callLock at_ free => exact taskMove_setCall (s := s) (u := s.setMtx true) (fun _ => rfl) hr at_ (by rfl)
  | @notifyRoutine c w t at_ asleep =>
    have hw : ∀ f, (s.setWorker w .lockMtx).weigh f = s.weigh f := fun f =>
      Nat.add_right_cancel (passes_setWorker (s := s) (q := .lockMtx) (fun _ => rfl) asleep f)
    exact taskMove_setCall hw hr at_ rfl
  | notifyNoRoutine at_ nobody => exact taskMove_setCall (fun _ => rfl) hr at_ rfl
  | callUnlock at_ => exact taskMove_setCall (s := s) (u := s.setMtx false) (fun _ => rfl) hr at_ (by rfl)
  | @take w t q at_ queue =>
    have h := passes_setWorker (s := s) (u := s.setQueue q) (q := .run t) (fun _ => rfl) at_
    exact .take h queue rfl rfl rfl
  | @finish w t at_ free =>
    have h := passes_setWorker (s := s) (u := s.finish t) (q := .fetchSub) (fun _ => rfl) at_
    exact .finish h rfl rfl rfl rfl
  | @fetchSub w p at_ next =>
    have h := passes_setWorker (s := s) (u := s.setCounter (s.counter - 1)) (q := p) (fun _ => rfl) at_
    rcases next with ⟨-, rfl⟩ | ⟨-, rfl⟩ <;> exact .fetchSub h rfl rfl rfl rfl
  | storeOne at_ => exact taskMove_setWorker (s := s) (u := s.setDone true) (fun _ => rfl) hr at_ (by rfl)
  | wakeAll at_ => exact taskMove_setWorker weigh_unparkAll hr at_ rfl
  | workLock at_ free => exact taskMove_setWorker (s := s) (u := s.setMtx true) (fun _ => rfl) hr at_ (by rfl)
  | sleepRoutine at_ => exact taskMove_setWorker (s := s) (u := s.setMtx false) (fun _ => rfl) hr at_ (by rfl)
  | workUnlock at_ => exact taskMove_setWorker (s := s) (u := s.setMtx false) (fun _ => rfl) hr at_ (by rfl)
  | notifyAllTake at_ =>
    have hw := weigh_notifyAll (s := s) .sleepTake .take rfl
    exact .same (fun f => congrArg (· + _) (hw f)) rfl rfl rfl rfl
  | notifyAllRoutine at_ =>
    have hw := weigh_notifyAll (s := s) .sleepRoutine .lockMtx rfl
    exact .same (fun f => congrArg (· + _) (hw f)) rfl rfl rfl rfl
  | stopMove move isStop => exact .same passes_rfl rfl rfl rfl rfl
  | clear at_ => exact .same passes_rfl rfl rfl rfl rfl
  | close at_ => exact .same passes_rfl rfl rfl rfl rfl
  | stopLock at_ free => exact .same passes_rfl rfl rfl rfl rfl
  | stopUnlock at_ => exact .same passes_rfl rfl rfl rfl rfl

end moves

/-! ### The places of a task -/

/-- The hands hold task `t`. -/
def Hands.holds (t : Nat) : Hands → Nat
  | .new t' | .counted t' => if t' = t then 1 else 0
  | _ => 0

def State.places (s : State γ ω) (t : Nat) : Nat :=
  s.weigh (Hands.holds t) + s.queue.count t + s.finished.count t

/-- What `counter_` counts. -/
def Hands.load : Hands → Nat
  | .counted _ | .ended => 1
  | _ => 0

def State.load (s : State γ ω) : Nat := s.weigh Hands.load + s.queue.length

section places

variable {s s' : State γ ω}

theorem count_singleton (t t' : Nat) : [t'].count t = (Hands.counted t').holds t := by
  rw [List.count_singleton, Hands.holds]
  simp only [beq_iff_eq]

/-- A step moves a task from one place to another; `Submit` adds a task. -/
theorem TaskMove.places (h : TaskMove s s') (hp : ∀ t, s.places t = if t < s.tasks then 1 else 0) (t : Nat) :
    s'.places t = if t < s'.tasks then 1 else 0 := by
  have hp := hp t
  unfold State.places at hp ⊢
  cases h with
  | same passes queue finished tasks counter =>
    have hw := Nat.add_right_cancel (passes (Hands.holds t))
    rwa [hw, queue, finished, tasks]
  | submit passes queue finished tasks counter =>
    have hw : s'.weigh (Hands.holds t) = s.weigh (Hands.holds t) + if s.tasks = t then 1 else 0 :=
      passes (Hands.holds t)
    rw [hw, queue, finished, tasks]
    by_cases ht : s.tasks = t
    · rw [if_neg (by omega)] at hp
      rw [if_pos ht, if_pos (by omega)]
      omega
    · by_cases hlt : t < s.tasks
      · rw [if_pos hlt] at hp
        rw [if_neg ht, if_pos (by omega)]
        omega
      · rw [if_neg hlt] at hp
        rw [if_neg ht, if_neg (by omega)]
        omega
  | @add t' passes queue finished tasks counter =>
    have hw := Nat.add_right_cancel (passes (Hands.holds t))
    rwa [hw, queue, finished, tasks]
  | @put t' passes queue finished tasks counter =>
    have hw : s'.weigh (Hands.holds t) + (Hands.counted t').holds t = s.weigh (Hands.holds t) :=
      passes (Hands.holds t)
    rw [queue, finished, tasks, List.count_append, count_singleton]
    omega
  | @take t' passes queue finished tasks counter =>
    have hw : s'.weigh (Hands.holds t) = s.weigh (Hands.holds t) + (Hands.counted t').holds t :=
      passes (Hands.holds t)
    have hq : s.queue.count t = (Hands.counted t').holds t + s'.queue.count t := by
      rw [queue, ← count_singleton, ← List.count_append]
      rfl
    rw [finished, tasks]
    omega
  | @finish t' passes queue finished tasks counter =>
    have hw : s'.weigh (Hands.holds t) + (Hands.counted t').holds t = s.weigh (Hands.holds t) :=
      passes (Hands.holds t)
    rw [queue, finished, tasks, List.count_append, count_singleton]
    omega
  | fetchSub passes queue finished tasks counter =>
    have hw := Nat.add_right_cancel (passes (Hands.holds t))
    rwa [hw, queue, finished, tasks]

/-- `fetch_add` and `fetch_sub` count. -/
theorem TaskMove.counter (h : TaskMove s s') (hc : s.counter = s.load) : s'.counter = s'.load := by
  unfold State.load at hc ⊢
  cases h with
  | same passes queue finished tasks counter =>
    have hw := Nat.add_right_cancel (passes Hands.load)
    rw [counter, hw, queue, hc]
  | submit passes queue finished tasks counter =>
    have hw := Nat.add_right_cancel (passes Hands.load)
    rw [counter, hw, queue, hc]
  | add passes queue finished tasks counter =>
    have hw : s'.weigh Hands.load = s.weigh Hands.load + 1 := passes Hands.load
    rw [counter, queue]
    omega
  | put passes queue finished tasks counter =>
    have hw : s'.weigh Hands.load + 1 = s.weigh Hands.load := passes Hands.load
    rw [counter, queue, List.length_append, List.length_singleton]
    omega
  | take passes queue finished tasks counter =>
    have hw : s'.weigh Hands.load = s.weigh Hands.load + 1 := passes Hands.load
    rw [queue, List.length_cons] at hc
    omega
  | finish passes queue finished tasks counter =>
    have hw := Nat.add_right_cancel (passes Hands.load)
    rw [counter, hw, queue, hc]
  | fetchSub passes queue finished tasks counter =>
    have hw : s'.weigh Hands.load + 1 = s.weigh Hands.load := passes Hands.load
    rw [counter, queue]
    omega

theorem weigh_init (f : Hands → Nat) (h : f .nothing = 0) : (init : State γ ω).weigh f = 0 := by
  simp [State.weigh, init, CallPc.hands, WorkerPc.hands, h]

end places

/-! ### `Stop` after `Submit` -/

/-- In a call of `Submit`. -/
def CallPc.submits : CallPc → Bool
  | .idle | .loadCounter | .futexWait | .parked => false
  | _ => true

/-- `Submit` is only called before `Stop`, and `Stop` only once every `Submit` has returned. -/
def SubmitsFirst (s : State γ ω) : Act γ ω → Prop
  | .submit _ => s.stop = .idle
  | .stop => ∀ c, (s.call c).submits = false
  | _ => True

/-- Has set `is_opened_` to false. -/
def StopPc.closed : StopPc → Bool
  | .idle | .clear | .close => false
  | _ => true

/-- The check for runs that stop after their `Submit`s. -/
def checkSubmitsFirst (s : State γ ω) : Act γ ω → Bool
  | .submit _ => s.stop = .idle
  | .stop => decide (∀ c, (s.call c).submits = false)
  | _ => true

theorem submitsFirst_of_check (s : State γ ω) (a : Act γ ω) (h : checkSubmitsFirst s a = true) :
    SubmitsFirst s a := by
  cases a with
  | submit c =>
    have hidle : s.stop = .idle := of_decide_eq_true h
    exact hidle
  | stop =>
    have hall : ∀ c, (s.call c).submits = false := of_decide_eq_true h
    exact hall
  | _ => trivial

structure Accepting (s : State γ ω) : Prop where
  /-- No `Submit` from the start of `Stop` on. -/
  quiet : s.stop ≠ .idle → ∀ c, (s.call c).submits = false
  closed : s.opened = false ↔ s.stop.closed = true
  places : ∀ t, s.places t = if t < s.tasks then 1 else 0

section accepting

variable {s s' : State γ ω} {a : Act γ ω}

theorem Accepting.opened_of_put (hi : Accepting s) (c : γ ⊕ ω) (t : Nat) (hc : s.call c = .put t) :
    s.opened = true := by
  by_contra ho
  have hcl := hi.closed.1 (by simpa using ho)
  have hne : s.stop ≠ .idle := by
    intro h
    rw [h] at hcl
    cases hcl
  have hq := hi.quiet hne c
  rw [hc] at hq
  cases hq

variable [DecidableEq γ] [DecidableEq ω]

omit [Fintype γ] in
/-- Only a new call puts a thread into `Submit`. -/
theorem Effect.submits (he : Effect s a s') {c : γ ⊕ ω} (h : (s'.call c).submits = true) :
    (s.call c).submits = true ∨ a = .submit c := by
  rcases he.call c with heq | hn
  · exact .inl (heq ▸ h)
  · generalize s.call c = p, s'.call c = p' at hn h
    cases hn with
    | move move => cases move <;> first | exact .inl rfl | cases h
    | submit isSubmit => exact .inr isSubmit
    | waitIdle => cases h
    | _ => exact .inl rfl

omit [Fintype γ] in
theorem Effect.stop_begins (he : Effect s a s') (hs : s.stop = .idle) (hs' : s'.stop ≠ .idle) :
    a = .stop ∧ s'.call = s.call := by
  cases he with
  | stopMove move isStop => exact ⟨isStop hs, rfl⟩
  | clear at_ => cases hs.symm.trans at_
  | close at_ => cases hs.symm.trans at_
  | notifyAllTake at_ => cases hs.symm.trans at_
  | stopLock at_ free => cases hs.symm.trans at_
  | notifyAllRoutine at_ => cases hs.symm.trans at_
  | stopUnlock at_ => cases hs.symm.trans at_
  | _ => exact absurd hs hs'

theorem Accepting.quiet_step (hi : Accepting s) (ha : SubmitsFirst s a) (he : Effect s a s')
    (hs' : s'.stop ≠ .idle) (c : γ ⊕ ω) : (s'.call c).submits = false := by
  by_cases hidle : s.stop = .idle
  · obtain ⟨rfl, hc⟩ := he.stop_begins hidle hs'
    rw [hc]
    exact ha c
  · by_contra hc
    rcases he.submits (by simpa using hc) with h | rfl
    · rw [hi.quiet hidle c] at h
      cases h
    · exact hidle ha

theorem Accepting.closed_step (hi : Accepting s) (he : Effect s a s') :
    s'.opened = false ↔ s'.stop.closed = true := by
  have hcl := hi.closed
  cases he with
  | @stopMove _ p move isStop =>
    change s.opened = false ↔ p.closed = true
    rw [hcl]
    generalize hp : s.stop = q at move hcl
    cases move with
    | closedAlready closed => cases hcl.1 closed
    | _ => rfl
  | clear at_ => rw [at_] at hcl; exact hcl
  | close at_ => exact ⟨fun _ => rfl, fun _ => rfl⟩
  | notifyAllTake at_ => rw [at_] at hcl; exact hcl
  | stopLock at_ free => rw [at_] at hcl; exact hcl
  | notifyAllRoutine at_ => rw [at_] at hcl; exact hcl
  | stopUnlock at_ => rw [at_] at hcl; exact hcl
  | _ => exact hcl

theorem Accepting.taskMove (hi : Accepting s) (he : Effect s a s') : TaskMove s s' :=
  he.taskMove hi.opened_of_put

theorem Accepting.step (hi : Accepting s) (ha : SubmitsFirst s a) (he : Effect s a s') : Accepting s' where
  quiet := hi.quiet_step ha he
  closed := hi.closed_step he
  places := (hi.taskMove he).places hi.places

omit [DecidableEq γ] [DecidableEq ω] in
theorem accepting_init : Accepting (init : State γ ω) where
  quiet h := absurd rfl h
  closed := ⟨nofun, nofun⟩
  places t := by
    unfold State.places
    rw [weigh_init _ rfl]
    rfl

end accepting

end ThreadPool
