import ConcurrencyCourse.ThreadPool.Tasks
import Mathlib.Logic.Relation

/-!
# `WaitIdle` (thread_pool.cpp 43-87, wait_group.hpp 22-55)

* `counter_` is the number of tasks between their `fetch_add` and their `fetch_sub` (`TaskMove.counter`). When a
  `WaitIdle` reads 0, every task that is not about to be added has finished; a task that is about to be added was
  not submitted by a task, for that one would still run.
* `done_` is written apart from `counter_`. While it is 0, the counter is not, or a `Done` is about to store 1
  (`Parking.zero`); while somebody is parked, it is 0, or a `Done` is about to wake all (`Parking.parked`).
-/

namespace ThreadPool

open Transition Function

variable {γ ω : Type} [Fintype γ] [Fintype ω]

/-! ### Who submits what -/

/-- The task of the call, until `Submit` returns. -/
def CallPc.submitting : CallPc → Option Nat
  | .add t | .storeZero t | .put t | .notifyTake t | .setRunning t | .lockMtx t | .notifyRoutine t
  | .unlockMtx t => some t
  | _ => none

/-- The `Submit` of the task has returned. -/
def Submitted (s : State γ ω) (t : Nat) : Prop := t < s.tasks ∧ ∀ c, (s.call c).submitting ≠ some t

/-- `d` was submitted by `t` or by a task that `t` submitted, and so on. -/
def Descends (s : State γ ω) : Nat → Nat → Prop := Relation.ReflTransGen fun p d => s.parent d = some p

structure Family (s : State γ ω) : Prop where
  fresh : ∀ c t, (s.call c).submitting = some t → t < s.tasks
  known : ∀ t p, s.parent t = some p → t < s.tasks
  /-- A task is submitted by a worker that is running its parent. -/
  inside : ∀ c t p, (s.call c).submitting = some t → s.parent t = some p →
    ∃ w, c = .inr w ∧ s.worker w = .run p

/-- The two words of the `WaitGroup`. -/
structure Parking (s : State γ ω) : Prop where
  zero : s.done = false → s.counter ≠ 0 ∨ ∃ w, s.worker w = .storeOne
  parked : (∃ c, s.call c = .parked) → s.done = false ∨ ∃ w, s.worker w = .wakeAll

structure Waiting (s : State γ ω) : Prop extends Accepting s where
  counter : s.counter = s.load
  family : Family s
  parking : Parking s

section load

variable {s : State γ ω}

/-- Whoever has what `counter_` counts. -/
theorem load_call (hc : s.counter = s.load) {c : γ ⊕ ω} {t : Nat} (h : (s.call c).hands = .counted t) :
    s.counter ≠ 0 := by
  have hle := Threads.le_sum (fun c => ((s.call c).hands).load) c
  have h1 : ((s.call c).hands).load = 1 := by
    rw [h]
    rfl
  unfold State.load State.weigh at hc
  omega

theorem load_worker (hc : s.counter = s.load) {w : ω} (h : ((s.worker w).hands).load = 1) :
    s.counter ≠ 0 := by
  have hle := Threads.le_sum (fun w => ((s.worker w).hands).load) w
  unfold State.load State.weigh at hc
  omega

theorem load_queue (hc : s.counter = s.load) (h : s.counter = 0) : s.queue = [] := by
  unfold State.load at hc
  exact List.eq_nil_of_length_eq_zero (by omega)

/-- When `counter_` is 0, a task has finished or is about to be added. -/
theorem Accepting.done_of_zero (hi : Accepting s) (hc : s.counter = s.load) (h : s.counter = 0) {t : Nat}
    (ht : t < s.tasks) : t ∈ s.finished ∨ ∃ c, s.call c = .add t := by
  by_contra hno
  obtain ⟨hfin, hadd⟩ := not_or.1 hno
  have hcalls : ∀ c, ((s.call c).hands).holds t = 0 := by
    intro c
    have hload := fun t => mt (load_call hc (c := c) (t := t)) (not_not.2 h)
    have hadd : s.call c ≠ .add t := fun h => hadd ⟨c, h⟩
    generalize s.call c = p at hload hadd
    cases p with
    | add t' =>
      have hne : t' ≠ t := fun h => hadd (h ▸ rfl)
      exact if_neg hne
    | storeZero t' => exact absurd rfl (hload t')
    | put t' => exact absurd rfl (hload t')
    | _ => rfl
  have hworkers : ∀ w, ((s.worker w).hands).holds t = 0 := by
    intro w
    have hload := mt (load_worker hc (w := w)) (not_not.2 h)
    generalize s.worker w = p at hload
    cases p with
    | run t' => exact absurd rfl hload
    | _ => rfl
  have hp := hi.places t
  rw [if_pos ht] at hp
  unfold State.places State.weigh at hp
  simp only [hcalls, hworkers, Finset.sum_const_zero, load_queue hc h, List.count_nil,
    List.count_eq_zero_of_not_mem hfin] at hp
  cases hp

end load

section steps

variable [DecidableEq γ] [DecidableEq ω] {s s' : State γ ω} {a : Act γ ω}

omit [Fintype γ] [Fintype ω] [DecidableEq γ] [DecidableEq ω] in
theorem CallNext.submitting {c : γ ⊕ ω} {p p' : CallPc} (h : CallNext s a c p p') {t : Nat}
    (ht : p'.submitting = some t) : p.submitting = some t ∨ a = .submit c ∧ t = s.tasks := by
  cases h with
  | move move => cases move <;> exact .inl ht
  | submit isSubmit => exact .inr ⟨isSubmit, (Option.some.inj ht).symm⟩
  | add next => rcases next with ⟨-, rfl⟩ | ⟨-, rfl⟩ <;> exact .inl ht
  | waitIdle => cases ht
  | unlock => cases ht
  | _ => exact .inl ht

omit [Fintype γ] in
/-- Only `Submit` makes a task. -/
theorem Effect.submitting (he : Effect s a s') :
    (∃ c, s.canCall c = true ∧ s' = s.newTask c) ∨
      (s'.tasks = s.tasks ∧ s'.parent = s.parent ∧
        ∀ c t, (s'.call c).submitting = some t → (s.call c).submitting = some t) := by
  have hcall : (∀ c, a ≠ .submit c) → ∀ c t, (s'.call c).submitting = some t →
      (s.call c).submitting = some t := by
    intro hno c t ht
    rcases he.call c with heq | hn
    · rwa [heq] at ht
    · exact (hn.submitting ht).resolve_right fun h => hno c h.1
  cases he with
  | @submit c can => exact .inl ⟨c, can, rfl⟩
  | callMove move noSubmit => exact .inr ⟨rfl, rfl, hcall noSubmit⟩
  | workMove move => exact .inr ⟨rfl, rfl, fun _ _ h => h⟩
  | stopMove move isStop => exact .inr ⟨rfl, rfl, fun _ _ h => h⟩
  | _ => exact .inr ⟨rfl, rfl, hcall nofun⟩

omit [Fintype γ] in
/-- A worker leaves its task only when it is in no call. -/
theorem Effect.run_stays (he : Effect s a s') {w : ω} {t : Nat} (hw : s.worker w = .run t)
    (hc : s.call (.inr w) ≠ .idle) : s'.worker w = .run t := by
  rcases he.worker w with heq | hn
  · exact heq.trans hw
  · rw [hw] at hn
    generalize s'.worker w = p' at hn ⊢
    cases hn with
    | move move => cases move
    | finish free => exact absurd free hc

omit [Fintype γ] [Fintype ω] [DecidableEq γ] [DecidableEq ω] in
/-- The task that calls is the one its worker runs. -/
theorem caller_cases {c : γ ⊕ ω} {p : Nat} (h : s.caller c = some p) : ∃ w, c = .inr w ∧ s.worker w = .run p := by
  cases c with
  | inl c => cases h
  | inr w =>
    refine ⟨w, rfl, ?_⟩
    simp only [State.caller] at h
    split at h
    · next hw => rwa [Option.some.inj h] at hw
    · cases h

omit [Fintype γ] [Fintype ω] in
theorem Family.newTask (hi : Family s) {c : γ ⊕ ω} (can : s.canCall c = true) : Family (s.newTask c) where
  fresh c' t ht := by
    rcases eq_or_ne c' c with rfl | hne
    · have hself : (s.newTask c').call c' = .add s.tasks := update_self ..
      rw [hself] at ht
      obtain rfl := Option.some.inj ht
      exact Nat.lt_succ_self _
    · have hother : (s.newTask c).call c' = s.call c' := update_of_ne hne ..
      rw [hother] at ht
      exact Nat.lt_succ_of_lt (hi.fresh c' t ht)
  known t p hp := by
    change update s.parent s.tasks (s.caller c) t = some p at hp
    rcases eq_or_ne t s.tasks with rfl | hne
    · exact Nat.lt_succ_self _
    · rw [update_of_ne hne] at hp
      exact Nat.lt_succ_of_lt (hi.known t p hp)
  inside c' t p ht hp := by
    change update s.parent s.tasks (s.caller c) t = some p at hp
    rcases eq_or_ne c' c with rfl | hne
    · have hself : (s.newTask c').call c' = .add s.tasks := update_self ..
      rw [hself] at ht
      obtain rfl := Option.some.inj ht
      rw [update_self] at hp
      exact caller_cases hp
    · have hother : (s.newTask c).call c' = s.call c' := update_of_ne hne ..
      rw [hother] at ht
      rw [update_of_ne (Nat.ne_of_lt (hi.fresh c' t ht))] at hp
      exact hi.inside c' t p ht hp

omit [Fintype γ] in
theorem Family.step (hi : Family s) (he : Effect s a s') : Family s' := by
  rcases he.submitting with ⟨c, can, rfl⟩ | ⟨ht, hp, hcall⟩
  · exact hi.newTask can
  · constructor
    · intro c t h
      rw [ht]
      exact hi.fresh c t (hcall c t h)
    · intro t p h
      rw [hp] at h
      rw [ht]
      exact hi.known t p h
    · intro c t p h hpar
      rw [hp] at hpar
      have hs := hcall c t h
      obtain ⟨w, rfl, hw⟩ := hi.inside c t p hs hpar
      refine ⟨w, rfl, he.run_stays hw fun hidle => ?_⟩
      rw [hidle] at hs
      cases hs

omit [Fintype γ] in
/-- What is stored in `done_` is 0 again, or will be followed by a wake-up. -/
theorem Effect.done_eq (he : Effect s a s') :
    s'.done = s.done ∨ s'.done = false ∨ ∃ w, s'.worker w = .wakeAll := by
  cases he with
  | storeZero at_ => exact .inr (.inl rfl)
  | @storeOne w at_ => exact .inr (.inr ⟨w, update_self ..⟩)
  | _ => exact .inl rfl

/-- `done_` becomes 0 under a task that `counter_` counts. -/
theorem Waiting.zero_step (hi : Waiting s) (he : Effect s a s') (hd : s'.done = false) :
    s'.counter ≠ 0 ∨ ∃ w, s'.worker w = .storeOne := by
  have hstays : ∀ w, s.worker w = .storeOne → s'.worker w = .storeOne := by
    intro w hw
    rcases he.worker w with heq | hn
    · exact heq.trans hw
    · generalize s.worker w = p, s'.worker w = p' at hn hw
      subst hw
      cases hn with
      | move move => cases move
      | storeOne done => cases hd.symm.trans done
  have hkeep : s.done = false → s'.counter = s.counter → s'.counter ≠ 0 ∨ ∃ w, s'.worker w = .storeOne := by
    intro hd hc
    rw [hc]
    exact (hi.parking.zero hd).imp_right fun ⟨w, hw⟩ => ⟨w, hstays w hw⟩
  cases he with
  | storeZero at_ =>
    have hne := load_call hi.counter (congrArg CallPc.hands at_)
    exact .inl hne
  | storeOne at_ => cases hd
  | add at_ next => exact .inl (Nat.succ_ne_zero _)
  | @fetchSub w p at_ next =>
    rcases next with ⟨-, rfl⟩ | ⟨hne, -⟩
    · exact .inr ⟨w, update_self ..⟩
    · have hpos := load_worker hi.counter (w := w) (by rw [at_]; rfl)
      exact .inl (show s.counter - 1 ≠ 0 by omega)
  | _ => exact hkeep hd rfl

omit [Fintype γ] in
theorem Parking.parked_step (hi : Parking s) (he : Effect s a s') (h : ∃ c, s'.call c = .parked) :
    s'.done = false ∨ ∃ w, s'.worker w = .wakeAll := by
  obtain ⟨c, hc⟩ := h
  have hbefore : s.done = false ∨ ∃ w, s.worker w = .wakeAll := by
    rcases he.call c with heq | hn
    · exact hi.parked ⟨c, heq.symm.trans hc⟩
    · rw [hc] at hn
      generalize s.call c = p at hn
      cases hn with
      | move move =>
        cases move with
        | park done => exact .inl done
      | add next => rcases next with ⟨-, hp⟩ | ⟨-, hp⟩ <;> cases hp
  rcases hbefore with hd | ⟨w, hw⟩
  · rcases he.done_eq with heq | h
    · exact .inl (heq.trans hd)
    · exact h
  · rcases he.worker w with heq | hn
    · exact .inr ⟨w, heq.trans hw⟩
    · generalize s.worker w = p, s'.worker w = p' at hn hw
      subst hw
      cases hn with
      | move move => cases move
      | wakeAll unparked => exact absurd hc (unparked c)

theorem Waiting.step (hi : Waiting s) (ha : SubmitsFirst s a) (he : Effect s a s') : Waiting s' where
  toAccepting := hi.toAccepting.step ha he
  counter := (hi.taskMove he).counter hi.counter
  family := hi.family.step he
  parking := ⟨hi.zero_step he, hi.parking.parked_step he⟩

omit [DecidableEq γ] [DecidableEq ω] in
theorem waiting_init : Waiting (init : State γ ω) where
  toAccepting := accepting_init
  counter := by
    unfold State.load
    rw [weigh_init _ rfl]
    rfl
  family := ⟨nofun, nofun, nofun⟩
  parking := ⟨nofun, fun ⟨_, h⟩ => by cases h⟩

omit [Fintype γ] in
/-- A `Submit` that has returned does not come back. -/
theorem Submitted.step {t : Nat} (h : Submitted s t) (he : Effect s a s') : Submitted s' t := by
  obtain ⟨hlt, hno⟩ := h
  rcases he.submitting with ⟨c, can, rfl⟩ | ⟨ht, -, hcall⟩
  · refine ⟨Nat.lt_succ_of_lt hlt, fun c' h => ?_⟩
    rcases eq_or_ne c' c with rfl | hne
    · have hself : (s.newTask c').call c' = .add s.tasks := update_self ..
      rw [hself] at h
      exact absurd (Option.some.inj h) (Nat.ne_of_gt hlt)
    · have hother : (s.newTask c).call c' = s.call c' := update_of_ne hne ..
      rw [hother] at h
      exact hno c' h
  · exact ⟨ht ▸ hlt, fun c h => hno c (hcall c t h)⟩

end steps

/-! ### `WaitIdle` -/

/-- The state in which the last `WaitIdle` of the caller began. -/
def began [DecidableEq γ] [DecidableEq ω] (c : γ ⊕ ω) : History (State γ ω) (Act γ ω) → Option (State γ ω)
  | [] => none
  | (.waitIdle c', s) :: h => if c' = c then some s else began c h
  | _ :: h => began c h

/-- In `Add`, before or after its `fetch_add`. -/
def CallPc.adding : CallPc → Bool
  | .add _ | .storeZero _ => true
  | _ => false

/-- Runs a task, or is in the `Done` after it. -/
def WorkerPc.busy : WorkerPc → Bool
  | .run _ | .fetchSub | .storeOne | .wakeAll => true
  | _ => false

/-- No task is queued or running, and no `Add` or `Done` is in progress. -/
structure Idle (s : State γ ω) : Prop where
  queue : s.queue = []
  calls : ∀ c, (s.call c).adding = false
  workers : ∀ w, (s.worker w).busy = false

variable [DecidableEq γ] [DecidableEq ω]

structure WaitsForAll (h : History (State γ ω) (Act γ ω)) (s : State γ ω) : Prop where
  /-- `WaitIdle` returns after the tasks that had been submitted when it began, and after theirs. -/
  sound : ∀ c pick s' s₀, s.call c = .loadCounter → step s (.call c pick) = some s' → s'.call c = .idle →
    began c h = some s₀ → ∀ t, Submitted s₀ t → ∀ d, Descends s t d → d ∈ s'.finished
  /-- And it does not sleep when there is nothing to wait for, and nothing to be put. -/
  wakes : Idle s → (∀ c t, s.call c ≠ .put t) → ∀ c, s.call c ≠ .parked

section waits

variable {h : History (State γ ω) (Act γ ω)} {s s' : State γ ω}

omit [DecidableEq γ] [DecidableEq ω] in
theorem Waiting.wakes (hi : Waiting s) (hidle : Idle s) (hput : ∀ c t, s.call c ≠ .put t) (c : γ ⊕ ω) :
    s.call c ≠ .parked := by
  intro hc
  have hzero : s.counter = 0 := by
    rw [hi.counter]
    have hcalls : ∀ c, ((s.call c).hands).load = 0 := by
      intro c
      have hno := hidle.calls c
      have hput := hput c
      generalize s.call c = p at hno hput
      cases p with
      | storeZero t => cases hno
      | put t => exact absurd rfl (hput t)
      | _ => rfl
    have hworkers : ∀ w, ((s.worker w).hands).load = 0 := by
      intro w
      have hno := hidle.workers w
      generalize s.worker w = p at hno
      cases p <;> first | rfl | cases hno
    simp only [State.load, State.weigh, hcalls, hworkers, hidle.queue, Finset.sum_const_zero, List.length_nil,
      Nat.add_zero]
  have hfree : ∀ w p, s.worker w = p → p.busy = false := fun w p hw => hw ▸ hidle.workers w
  rcases hi.parking.parked ⟨c, hc⟩ with hd | ⟨w, hw⟩
  · rcases hi.parking.zero hd with hne | ⟨w, hw⟩
    · exact hne hzero
    · cases hfree w _ hw
  · cases hfree w _ hw

omit [DecidableEq γ] [DecidableEq ω] in
/-- A descendant has been submitted by a task; none is running any more. -/
theorem Waiting.finished (hi : Waiting s) (hz : s.counter = 0) {t d : Nat} (ht : Submitted s t)
    (hd : Descends s t d) : d ∈ s.finished := by
  have hlast : d = t ∨ ∃ p, s.parent d = some p := by
    cases hd with
    | refl => exact .inl rfl
    | tail _ hp => exact .inr ⟨_, hp⟩
  rcases hlast with rfl | ⟨p, hp⟩
  · rcases hi.done_of_zero hi.counter hz ht.1 with hf | ⟨c, hc⟩
    · exact hf
    · exact absurd (congrArg CallPc.submitting hc) (ht.2 c)
  · rcases hi.done_of_zero hi.counter hz (hi.family.known d p hp) with hf | ⟨c, hc⟩
    · exact hf
    · obtain ⟨w, -, hw⟩ := hi.family.inside c d p (congrArg CallPc.submitting hc) hp
      exact absurd hz (load_worker hi.counter (w := w) (by rw [hw]; rfl))

omit [Fintype γ] in
/-- `WaitIdle` returns from a `load` of 0. -/
theorem waitIdle_returns {c : γ ⊕ ω} {pick : Option ω} (hc : s.call c = .loadCounter)
    (hs : step s (.call c pick) = some s') (hc' : s'.call c = .idle) :
    s.counter = 0 ∧ s'.finished = s.finished := by
  simp only [step, callStep, hc] at hs
  obtain rfl := Option.some.inj hs
  refine ⟨?_, rfl⟩
  by_contra hne
  rw [if_neg hne] at hc'
  have hself : (s.setCall c .futexWait).call c = .futexWait := update_self ..
  cases hself.symm.trans hc'

/-- What had been submitted when a `WaitIdle` began stays so. -/
structure Told (h : History (State γ ω) (Act γ ω)) (s : State γ ω) : Prop extends Waiting s where
  submitted : ∀ c s₀, began c h = some s₀ → ∀ t, Submitted s₀ t → Submitted s t

theorem Told.step (hi : Told h s) {a : Act γ ω} (ha : SubmitsFirst s a) (hs : ThreadPool.step s a = some s') :
    Told ((a, s) :: h) s' where
  toWaiting := hi.toWaiting.step ha (step_effect hs)
  submitted c s₀ hb t ht := by
    have he := step_effect hs
    have hold : began c h = some s₀ → Submitted s' t := fun hb => (hi.submitted c s₀ hb t ht).step he
    cases a with
    | waitIdle c' =>
      simp only [began] at hb
      split at hb
      · obtain rfl := Option.some.inj hb
        exact ht.step he
      · exact hold hb
    | _ => exact hold hb

theorem Told.waitsForAll (hi : Told h s) : WaitsForAll h s where
  sound c pick s' s₀ hc hs hc' hb t ht d hd := by
    obtain ⟨hz, hfin⟩ := waitIdle_returns hc hs hc'
    rw [hfin]
    exact hi.finished hz (hi.submitted c s₀ hb t ht) hd
  wakes := hi.wakes

end waits

/-- In every run, `WaitIdle` waits for the tasks submitted before it and for their descendants, and is not asleep
when no task is queued, running or still to be put and no `Add` or `Done` is in progress. -/
theorem waitIdle_waits {h : History (State γ ω) (Act γ ω)} {s : State γ ω}
    (r : Run (system γ ω) SubmitsFirst h s) : WaitsForAll h s := by
  have hi : Told h s := by
    refine r.invariant (I := Told) ?_ fun h s a s' hi ha hs => hi.step ha hs
    rintro s rfl
    exact ⟨waiting_init, nofun⟩
  exact hi.waitsForAll

/-- A task submits another while a `WaitIdle` is parked; that wakes when both have run, and is about to return. -/
theorem waitIdle_waits_for_child : ∃ (h : History (State (Fin 2) (Fin 1)) (Act (Fin 2) (Fin 1))) (s : State (Fin 2) (Fin 1)),
    (s.call (.inl 1) = .loadCounter ∧ s.counter = 0 ∧ s.parent 1 = some 0) ∧ WaitsForAll h s := by
  obtain ⟨s, ⟨h, r⟩, hp⟩ := Reach.of_exec (system (Fin 2) (Fin 1))
    ([Act.submit (.inl 0)] ++ List.replicate 8 (Act.call (.inl 0) none) ++ [Act.waitIdle (.inl 1)] ++
      List.replicate 2 (Act.call (.inl 1) none) ++ [Act.work 0, Act.submit (.inr 0)] ++
      List.replicate 7 (Act.call (.inr 0) none) ++ List.replicate 10 (Act.work 0))
    (fun s => s.call (.inl 1) = .loadCounter ∧ s.counter = 0 ∧ s.parent 1 = some 0) submitsFirst_of_check
    (s := init) rfl (by decide)
  exact ⟨h, s, of_decide_eq_true hp, waitIdle_waits r⟩

/-- `Add` has returned, `Put` has not been called yet: a `WaitIdle` is parked, rightly. -/
theorem waitIdle_parked_before_put : ∃ s : State (Fin 2) (Fin 1), Reach (system (Fin 2) (Fin 1)) SubmitsFirst s ∧
    Idle s ∧ s.call (.inl 1) = .parked := by
  obtain ⟨s, hr, hp⟩ := Reach.of_exec (system (Fin 2) (Fin 1))
    ([Act.submit (.inl 0)] ++ List.replicate 2 (Act.call (.inl 0) none) ++ [Act.waitIdle (.inl 1)] ++
      List.replicate 2 (Act.call (.inl 1) none))
    (fun s => (s.queue = [] ∧ (∀ c, (s.call c).adding = false) ∧ ∀ w, (s.worker w).busy = false) ∧
      s.call (.inl 1) = .parked) submitsFirst_of_check (s := init) rfl (by decide)
  obtain ⟨⟨hq, hcalls, hworkers⟩, hparked⟩ := of_decide_eq_true hp
  exact ⟨s, hr, ⟨hq, hcalls, hworkers⟩, hparked⟩

end ThreadPool
