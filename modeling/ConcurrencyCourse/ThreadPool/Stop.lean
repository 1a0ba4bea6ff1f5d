import ConcurrencyCourse.ThreadPool.Effect

/-!
# `Stop` next to `Submit` (thread_pool.cpp 43-52, 54-72, 93-107)

`Stop` clears `is_running_`, closes the queue and wakes everybody, once. `Submit` ignores that `Put` was refused
and sets `is_running_` again. A worker that reads it then goes to sleep after the last `notify_all`
(`stop_hangs`). While no `Submit` does that (`KeepsStopped`), no worker sleeps in `worker_routine_cv_` once
`Stop` has notified it (`stop_does_not_hang`).
-/

namespace ThreadPool

open Transition

variable {γ ω : Type} [DecidableEq γ] [DecidableEq ω] [Fintype ω]

/-- A `Submit` that has not called `worker_routine_cv_.notify_one()` yet. -/
def CallPc.willNotify : CallPc → Bool
  | .add _ | .storeZero _ | .put _ | .notifyTake _ | .setRunning _ | .lockMtx _ | .notifyRoutine _ => true
  | _ => false

/-- `Stop` joins workers that nobody will wake. -/
structure Hangs (s : State γ ω) : Prop where
  joining : s.stop = .join
  closed : s.opened = false
  empty : s.queue = []
  /-- With an empty queue, the predicate of the wait is false. -/
  running : s.running = true
  /-- A worker remains, and those that remain are asleep. -/
  remains : ∃ w, s.worker w = .sleepRoutine
  asleep : ∀ w, s.worker w = .left ∨ s.worker w = .sleepRoutine
  nobody : ∀ c, (s.call c).willNotify = false

/-- `Stop` has set `is_running_` to false. -/
def StopPc.cleared : StopPc → Bool
  | .idle | .clear => false
  | _ => true

/-- `Stop` has called `worker_routine_cv_.notify_all()`. -/
def StopPc.notified : StopPc → Bool
  | .unlockMtx | .join | .returned => true
  | _ => false

/-- No `Submit` sets `is_running_` after `Stop` has cleared it, unless all workers have left. -/
def KeepsStopped (s : State γ ω) (a : Act γ ω) : Prop :=
  ∀ c pick t, a = .call c pick → s.call c = .setRunning t →
    s.stop.cleared = false ∨ ∀ w, s.worker w = .left

structure Stopping (s : State γ ω) : Prop where
  locks : Locks s
  stopped : s.stop.cleared = true → s.running = false ∨ ∀ w, s.worker w = .left
  awake : s.stop.notified = true → ∀ w, s.worker w ≠ .goSleep ∧ s.worker w ≠ .sleepRoutine

section steps

variable {s s' : State γ ω} {a : Act γ ω}

omit [DecidableEq γ] [DecidableEq ω] in
theorem StopNext.cleared {p p' : StopPc} (h : StopNext s p p') (hp : p'.cleared = true) :
    p.cleared = true ∨ p = .clear := by
  cases h with
  | move move =>
    cases move with
    | stop => cases hp
    | _ => exact .inl rfl
  | clear => exact .inr rfl
  | _ => exact .inl rfl

omit [DecidableEq γ] [DecidableEq ω] in
theorem StopNext.notified {p p' : StopPc} (h : StopNext s p p') (hp : p'.notified = true) :
    p.notified = true ∨ p = .notifyRoutine := by
  cases h with
  | move move =>
    cases move with
    | joined _ => exact .inl rfl
    | _ => cases hp
  | notifyRoutine => exact .inr rfl
  | unlock => exact .inl rfl
  | _ => cases hp

/-- Whoever has notified has cleared the flag before. -/
theorem StopPc.cleared_of_notified {p : StopPc} (h : p.notified = true) : p.cleared = true := by
  cases p <;> first | rfl | cases h

/-- The step after `store(false)`. -/
theorem Effect.clear_running (he : Effect s a s') (hp : s.stop = .clear) (hp' : s'.stop ≠ .clear) :
    s'.running = false := by
  cases he with
  | clear at_ => rfl
  | stopMove move isStop =>
    rw [hp] at move
    cases move
  | close at_ => cases hp.symm.trans at_
  | notifyAllTake at_ => cases hp.symm.trans at_
  | stopLock at_ free => cases hp.symm.trans at_
  | notifyAllRoutine at_ => cases hp.symm.trans at_
  | stopUnlock at_ => cases hp.symm.trans at_
  | _ => exact absurd hp hp'

theorem Stopping.stopped_step (hi : Stopping s) (ha : KeepsStopped s a) (he : Effect s a s')
    (hc : s'.stop.cleared = true) : s'.running = false ∨ ∀ w, s'.worker w = .left := by
  have hbefore : s.stop.cleared = true ∨ s.stop = .clear := by
    rcases he.stop_next with h | h
    · exact .inl (h ▸ hc)
    · exact h.cleared hc
  rcases hbefore with hb | hb
  · rcases hi.stopped hb with hr | hleft
    · rcases he.running_eq with h | ⟨-, h⟩ | ⟨c, pick, t, rfl, hpc, hw, -⟩
      · exact .inl (h.trans hr)
      · exact .inl h
      · rcases ha c pick t rfl hpc with h | h
        · exact absurd hb (by rw [h]; decide)
        · exact .inr fun w => (congrFun hw w).trans (h w)
    · exact .inr fun w => he.left (hleft w)
  · refine .inl (he.clear_running hb fun h => ?_)
    rw [h] at hc
    cases hc

/-- While `is_running_` is clear nobody goes to sleep in `worker_routine_cv_`. -/
theorem Stopping.awake_worker (hi : Stopping s) (hn : s.stop.notified = true) (he : Effect s a s') (w : ω) :
    s'.worker w ≠ .goSleep ∧ s'.worker w ≠ .sleepRoutine := by
  obtain ⟨hgo, hsleep⟩ := hi.awake hn w
  rcases he.worker w with h | h
  · rw [h]
    exact ⟨hgo, hsleep⟩
  · constructor
    · intro hw
      rw [hw] at h
      generalize hp : s.worker w = p at h
      cases h with
      | move move =>
        cases move with
        | goSleep running =>
          rcases hi.stopped (StopPc.cleared_of_notified hn) with hr | hleft
          · cases hr.symm.trans running
          · cases hp.symm.trans (hleft w)
      | fetchSub next => rcases next with ⟨-, hq⟩ | ⟨-, hq⟩ <;> cases hq
    · intro hw
      rw [hw] at h
      generalize hp : s.worker w = p at h
      cases h with
      | move move => cases move
      | fetchSub next => rcases next with ⟨-, hq⟩ | ⟨-, hq⟩ <;> cases hq
      | sleepRoutine => exact hgo hp

omit [DecidableEq γ] [DecidableEq ω] [Fintype ω] in
/-- Nobody is between the predicate and the sleep while `Stop` has the mutex. -/
theorem Locks.not_goSleep (hl : Locks s) (hp : s.stop.locked = true) (w : ω) : s.worker w ≠ .goSleep := by
  intro hw
  have hww : s.locked (.worker w) = true := congrArg WorkerPc.locked hw
  cases hl.unique .stop (.worker w) hp hww

theorem Stopping.awake_step (hi : Stopping s) (he : Effect s a s') (hn : s'.stop.notified = true) (w : ω) :
    s'.worker w ≠ .goSleep ∧ s'.worker w ≠ .sleepRoutine := by
  have hbefore : s.stop.notified = true ∨ (s.stop = .notifyRoutine ∧ s'.stop ≠ .notifyRoutine) := by
    rcases he.stop_next with h | h
    · exact .inl (h ▸ hn)
    · refine (h.notified hn).imp_right fun hb => ⟨hb, fun hb' => ?_⟩
      rw [hb'] at hn
      cases hn
  rcases hbefore with hb | ⟨hb, hb'⟩
  · exact hi.awake_worker hb he w
  · have hgo := hi.locks.not_goSleep (by rw [hb]; rfl) w
    cases he with
    | stopMove move isStop =>
      rw [hb] at move
      cases move
    | clear at_ => cases hb.symm.trans at_
    | close at_ => cases hb.symm.trans at_
    | notifyAllTake at_ => cases hb.symm.trans at_
    | stopLock at_ free => cases hb.symm.trans at_
    | stopUnlock at_ => cases hb.symm.trans at_
    | notifyAllRoutine at_ =>
      change (if s.worker w = .sleepRoutine then WorkerPc.lockMtx else s.worker w) ≠ _ ∧
        (if s.worker w = .sleepRoutine then WorkerPc.lockMtx else s.worker w) ≠ _
      split
      · exact ⟨nofun, nofun⟩
      · next hw => exact ⟨hgo, hw⟩
    | _ => exact absurd hb hb'

theorem Stopping.step (hi : Stopping s) (ha : KeepsStopped s a) (he : Effect s a s') : Stopping s' where
  locks := hi.locks.step he
  stopped := hi.stopped_step ha he
  awake := hi.awake_step he

omit [DecidableEq γ] [DecidableEq ω] [Fintype ω] in
theorem stopping_init : Stopping (init : State γ ω) where
  locks := locks_init
  stopped := nofun
  awake := nofun

end steps

/-- In every run whose `Submit`s leave the cleared flag alone, `Stop` does not hang: once it has notified, no
worker is asleep in `worker_routine_cv_`. -/
theorem stop_does_not_hang {s : State γ ω} (r : Reach (system γ ω) KeepsStopped s) :
    ¬ Hangs s ∧ (s.stop.notified = true → ∀ w, s.worker w ≠ .sleepRoutine) := by
  have hi : Stopping s := by
    refine r.invariant (I := Stopping) ?_ fun s a s' hi ha hs => hi.step ha (step_effect hs)
    rintro s rfl
    exact stopping_init
  refine ⟨fun hh => ?_, fun hn w => (hi.awake hn w).2⟩
  obtain ⟨w, hw⟩ := hh.remains
  exact (hi.awake (by rw [hh.joining]; rfl) w).2 hw

/-- The check for runs whose `Submit`s leave the cleared flag alone. -/
def checkKeepsStopped (s : State γ ω) : Act γ ω → Bool
  | .call c _ => match s.call c with
    | .setRunning _ => !s.stop.cleared || decide (∀ w, s.worker w = .left)
    | _ => true
  | _ => true

omit [DecidableEq γ] [DecidableEq ω] in
theorem keepsStopped_of_check (s : State γ ω) (a : Act γ ω) (h : checkKeepsStopped s a = true) :
    KeepsStopped s a := by
  intro c pick t ha hc
  subst ha
  simpa [checkKeepsStopped, hc] using h

/-- A `Submit` whose task is accepted overlaps with `Stop`; the worker runs it and leaves while `Stop` joins. -/
theorem stop_returns_next_to_submit : ∃ s : State (Fin 1) (Fin 1),
    (s.stop = .join ∧ s.finished = [0] ∧ s.worker 0 = .left) ∧ ¬ Hangs s := by
  obtain ⟨s, hr, hp⟩ := Reach.of_exec (system (Fin 1) (Fin 1))
    ([Act.submit (.inl 0)] ++ List.replicate 5 (Act.call (.inl 0) none) ++ [Act.stop] ++
      List.replicate 3 Act.stopStep ++ List.replicate 3 (Act.call (.inl 0) none) ++
      List.replicate 3 Act.stopStep ++ List.replicate 11 (Act.work 0))
    (fun s => s.stop = .join ∧ s.finished = [0] ∧ s.worker 0 = .left) keepsStopped_of_check
    (s := init) rfl (by decide)
  exact ⟨s, of_decide_eq_true hp, (stop_does_not_hang hr).1⟩

/-- `Submit` finds the queue closed, and sets `is_running_` after `Stop` has cleared it. The worker reads it and
goes to sleep. -/
theorem stop_hangs : ∃ s : State (Fin 1) (Fin 1), Reach (system (Fin 1) (Fin 1)) anyStep s ∧ Hangs s := by
  obtain ⟨s, hr, hp⟩ := Reach.of_exec_any (system (Fin 1) (Fin 1))
    ([Act.submit (.inl 0)] ++ List.replicate 2 (Act.call (.inl 0) none) ++ [Act.stop] ++
      List.replicate 3 Act.stopStep ++ List.replicate 5 (Act.call (.inl 0) none) ++
      List.replicate 3 Act.stopStep ++ List.replicate 6 (Act.work 0))
    (fun s => (s.stop = .join ∧ s.opened = false ∧ s.queue = []) ∧
      (s.running = true ∧ s.worker 0 = .sleepRoutine) ∧ ∀ c, (s.call c).willNotify = false)
    (s := init) rfl (by decide)
  obtain ⟨⟨hj, hc, hq⟩, ⟨hrun, hw⟩, hno⟩ := of_decide_eq_true hp
  exact ⟨s, hr, hj, hc, hq, hrun, ⟨0, hw⟩, fun | 0 => .inr hw, hno⟩

end ThreadPool
