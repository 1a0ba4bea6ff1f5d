import ConcurrencyCourse.ThreadPool.Stop
import ConcurrencyCourse.ThreadPool.Tasks

/-!
# `Stop` drains the queue (thread_pool.cpp 43-107, queue.hpp 43-93)

`Stop` is called when all calls of `Submit` have returned (`SubmitsFirst`).

* `Woken`: while the queue is not empty, some worker is on its way to `Take`, or some `Submit` still has the
  `notify_one` to call that wakes one.
* `State.rank`: what is left to do once the queue is closed. Every step of a worker, the spurious wake-ups
  included, and of `Stop` lowers it.
-/

namespace ThreadPool

open Transition Function

variable {γ ω : Type}

/-- Has called `cv_.notify_all()`. -/
def StopPc.notifiedTake : StopPc → Bool
  | .idle | .clear | .close | .notifyTake => false
  | _ => true

/-- A worker that calls `Take` before it can sleep. -/
def WorkerPc.alert : WorkerPc → Bool
  | .sleepTake | .checkRunning | .readRunning | .goSleep | .sleepRoutine | .left => false
  | _ => true

/-- `Submit` between `cv_.notify_one()` and the end of `worker_routine_cv_.notify_one()`. -/
def CallPc.waking : CallPc → Bool
  | .setRunning _ | .lockMtx _ | .notifyRoutine _ => true
  | _ => false

/-- Somebody will call `Take`. -/
def Woken (s : State γ ω) : Prop :=
  (∃ w, (s.worker w).alert = true) ∨ (∃ c t, s.call c = .notifyTake t) ∨
    ((∀ w, s.worker w ≠ .sleepTake) ∧ ∃ c, (s.call c).waking = true)

variable [Fintype γ] [DecidableEq γ] [DecidableEq ω] [Fintype ω]

structure Draining (s : State γ ω) : Prop extends Accepting s where
  stopping : Stopping s
  drained : ∀ w, s.worker w = .checkRunning ∨ s.worker w = .left → s.opened = false ∧ s.queue = []
  woken : s.queue ≠ [] → Woken s
  noTake : s.stop.notifiedTake = true → ∀ w, s.worker w ≠ .sleepTake
  joined : s.stop = .returned → ∀ w, s.worker w = .left

section woken

variable {s s' : State γ ω}

omit [Fintype γ] [Fintype ω] in
theorem Woken.setCall (hw : Woken s) {c : γ ⊕ ω} {p : CallPc} (ht : ∀ t, s.call c ≠ .notifyTake t)
    (hk : (s.call c).waking = true → p.waking = true) : Woken (s.setCall c p) := by
  rcases hw with hw | ⟨c', t, hc'⟩ | ⟨hno, c', hc'⟩
  · exact .inl hw
  · have hne : c' ≠ c := fun h => ht t (h ▸ hc')
    exact .inr (.inl ⟨c', t, (update_of_ne hne ..).trans hc'⟩)
  · refine .inr (.inr ⟨hno, ?_⟩)
    rcases eq_or_ne c' c with rfl | hne
    · exact ⟨c', (congrArg CallPc.waking (update_self ..)).trans (hk hc')⟩
    · exact ⟨c', (congrArg CallPc.waking (update_of_ne hne ..)).trans hc'⟩

omit [Fintype γ] [Fintype ω] [DecidableEq γ] in
theorem Woken.setWorker (hw : Woken s) {w : ω} {p : WorkerPc} (ha : (s.worker w).alert = true → p.alert = true)
    (hp : p ≠ .sleepTake) : Woken (s.setWorker w p) := by
  rcases hw with ⟨w', hw'⟩ | hc | ⟨hno, hc⟩
  · refine .inl ?_
    rcases eq_or_ne w' w with rfl | hne
    · exact ⟨w', (congrArg WorkerPc.alert (update_self ..)).trans (ha hw')⟩
    · exact ⟨w', (congrArg WorkerPc.alert (update_of_ne hne ..)).trans hw'⟩
  · exact .inr (.inl hc)
  · refine .inr (.inr ⟨fun w' => ?_, hc⟩)
    change update s.worker w p w' ≠ _
    rcases eq_or_ne w' w with rfl | hne
    · rwa [update_self]
    · rw [update_of_ne hne]
      exact hno w'

omit [Fintype γ] [Fintype ω] [DecidableEq γ] in
/-- Whoever is alert now wakes for whatever is queued. -/
theorem Woken.worker {w : ω} {p : WorkerPc} (hp : p.alert = true) : Woken (s.setWorker w p) :=
  .inl ⟨w, (congrArg WorkerPc.alert (update_self ..)).trans hp⟩

omit [Fintype γ] [Fintype ω] [DecidableEq γ] [DecidableEq ω] in
theorem Woken.notifyAll (hw : Woken s) {asleep awake : WorkerPc} (ha : awake.alert = true) :
    Woken (s.notifyAll asleep awake) := by
  have halert : ∀ w, (s.worker w).alert = true → ((s.notifyAll asleep awake).worker w).alert = true := by
    intro w hw
    change (if s.worker w = asleep then awake else s.worker w).alert = true
    split
    · exact ha
    · exact hw
  rcases hw with ⟨w, hw⟩ | hc | ⟨hno, hc⟩
  · exact .inl ⟨w, halert w hw⟩
  · exact .inr (.inl hc)
  · refine .inr (.inr ⟨fun w => ?_, hc⟩)
    change (if s.worker w = asleep then awake else s.worker w) ≠ .sleepTake
    split
    · intro h
      rw [h] at ha
      cases ha
    · exact hno w

omit [Fintype γ] [Fintype ω] [DecidableEq γ] [DecidableEq ω] in
theorem Woken.unparkAll (hw : Woken s) : Woken s.unparkAll := by
  have hcall : ∀ c, s.call c ≠ .parked → s.unparkAll.call c = s.call c := fun c hc => if_neg hc
  rcases hw with hw | ⟨c, t, hc⟩ | ⟨hno, c, hc⟩
  · exact .inl hw
  · exact .inr (.inl ⟨c, t, (hcall c (by rw [hc]; nofun)).trans hc⟩)
  · refine .inr (.inr ⟨hno, c, ?_⟩)
    rw [hcall c fun h => by rw [h] at hc; cases hc]
    exact hc

omit [Fintype γ] [Fintype ω] [DecidableEq γ] [DecidableEq ω] in
/-- With something in the queue, a worker that is alert stays so. -/
theorem WorkMove.alert {p p' : WorkerPc} (h : WorkMove s p p') (hq : s.queue ≠ []) :
    (p.alert = true → p'.alert = true) ∧ p' ≠ .sleepTake := by
  cases h with
  | sleepTake empty opened => exact absurd empty hq
  | nullopt empty closed => exact absurd empty hq
  | empty empty => exact absurd empty hq
  | _ => exact ⟨fun h => (by first | rfl | cases h), nofun⟩

omit [Fintype γ] [Fintype ω] [DecidableEq γ] [DecidableEq ω] in
theorem CallMove.waking_eq {p p' : CallPc} (h : CallMove s p p') (hopen : ∀ t, p = .put t → s.opened = true) :
    (∀ t, p ≠ .notifyTake t) ∧ p.waking = false := by
  cases h with
  | rejected closed => cases closed.symm.trans (hopen _ rfl)
  | _ => exact ⟨nofun, rfl⟩

omit [DecidableEq γ] [DecidableEq ω] in
/-- With a task in the queue, a worker is alert or about to sleep in one of the two. -/
theorem Draining.asleep [Nonempty ω] (hi : Draining s) (hq : s.queue ≠ []) :
    ∃ w, (s.worker w).alert = true ∨ s.worker w = .sleepTake ∨ s.worker w = .readRunning ∨
      s.worker w = .goSleep ∨ s.worker w = .sleepRoutine := by
  obtain ⟨w⟩ := ‹Nonempty ω›
  refine ⟨w, ?_⟩
  cases hw : s.worker w with
  | checkRunning => exact absurd (hi.drained w (.inl hw)).2 hq
  | left => exact absurd (hi.drained w (.inr hw)).2 hq
  | sleepTake => exact .inr (.inl rfl)
  | readRunning => exact .inr (.inr (.inl rfl))
  | goSleep => exact .inr (.inr (.inr (.inl rfl)))
  | sleepRoutine => exact .inr (.inr (.inr (.inr rfl)))
  | _ => exact .inl rfl

omit [Fintype γ] [DecidableEq γ] [DecidableEq ω] [Fintype ω] in
/-- While a `Submit` has the mutex no worker is between the test of the queue and its sleep. -/
theorem Locks.outside (hl : Locks s) {c : γ ⊕ ω} {t : Nat} (hc : s.call c = .notifyRoutine t) (w : ω) :
    s.worker w ≠ .readRunning ∧ s.worker w ≠ .goSleep := by
  have hcc : s.locked (.call c) = true := congrArg CallPc.locked hc
  constructor
  · intro hw
    have hww : s.locked (.worker w) = true := congrArg WorkerPc.locked hw
    cases hl.unique _ _ hcc hww
  · intro hw
    have hww : s.locked (.worker w) = true := congrArg WorkerPc.locked hw
    cases hl.unique _ _ hcc hww

/-- Put, wake and be woken: while there is a task, somebody takes care of it. -/
theorem Draining.woken_step [Nonempty ω] (hi : Draining s) {a : Act γ ω} (he : Effect s a s')
    (hopen : ∀ c t, s.call c = .put t → s.opened = true) (hq : s'.queue ≠ []) : Woken s' := by
  cases he with
  | @callMove _ c p move =>
    obtain ⟨ht, hk⟩ := move.waking_eq (hopen c)
    exact (hi.woken hq).setCall ht fun h => absurd h (by rw [hk]; nofun)
  | workMove move =>
    obtain ⟨ha, hp⟩ := move.alert hq
    exact (hi.woken hq).setWorker ha hp
  | stopMove move isStop => exact hi.woken hq
  | @submit c can =>
    have hc := canCall_idle can
    exact (hi.woken hq).setCall (c := c) (p := .add s.tasks) (by rw [hc]; nofun) (by rw [hc]; nofun)
  | waitIdle can =>
    have hc := canCall_idle can
    exact (hi.woken hq).setCall (by rw [hc]; nofun) (by rw [hc]; nofun)
  | @add c pick t p at_ next =>
    have hw : Woken (s.setCounter (s.counter + 1)) := hi.woken hq
    have hc : (s.setCounter (s.counter + 1)).call c = .add t := at_
    exact hw.setCall (by rw [hc]; nofun) (by rw [hc]; nofun)
  | @storeZero c pick t at_ =>
    have hw : Woken (s.setDone false) := hi.woken hq
    have hc : (s.setDone false).call c = .storeZero t := at_
    exact hw.setCall (by rw [hc]; nofun) (by rw [hc]; nofun)
  | @put c pick t at_ opened => exact .inr (.inl ⟨c, t, update_self ..⟩)
  | @notifyTake c w t at_ asleep => exact .inl ⟨w, (congrArg WorkerPc.alert (update_self ..)).trans rfl⟩
  | @notifyNoTake c t at_ nobody =>
    exact .inr (.inr ⟨nobody, c, (congrArg CallPc.waking (update_self ..)).trans rfl⟩)
  | @setRunning c pick t at_ =>
    have hw : Woken (s.setRunning true) := hi.woken hq
    have hc : (s.setRunning true).call c = .setRunning t := at_
    exact hw.setCall (by rw [hc]; nofun) fun _ => rfl
  | @callLock c pick t at_ free =>
    have hw : Woken (s.setMtx true) := hi.woken hq
    have hc : (s.setMtx true).call c = .lockMtx t := at_
    exact hw.setCall (by rw [hc]; nofun) fun _ => rfl
  | @notifyRoutine c w t at_ asleep => exact .inl ⟨w, (congrArg WorkerPc.alert (update_self ..)).trans rfl⟩
  | @notifyNoRoutine c t at_ nobody =>
    -- nobody sleeps there, and the caller has the mutex
    have hout := hi.stopping.locks.outside at_
    rcases hi.woken hq with hw | ⟨c', t', hc'⟩ | ⟨hno, -⟩
    · exact .inl hw
    · have hne : c' ≠ c := fun h => by rw [h, at_] at hc'; cases hc'
      exact .inr (.inl ⟨c', t', (update_of_ne hne ..).trans hc'⟩)
    · obtain ⟨w, hw | hw | hw | hw | hw⟩ := hi.asleep hq
      · exact .inl ⟨w, hw⟩
      · exact absurd hw (hno w)
      · exact absurd hw (hout w).1
      · exact absurd hw (hout w).2
      · exact absurd hw (nobody w)
  | @callUnlock c pick t at_ =>
    have hw : Woken (s.setMtx false) := hi.woken hq
    have hc : (s.setMtx false).call c = .unlockMtx t := at_
    exact hw.setCall (by rw [hc]; nofun) (by rw [hc]; nofun)
  | @take w t q at_ queue => exact Woken.worker rfl
  | finish at_ free => exact Woken.worker rfl
  | fetchSub at_ next => exact Woken.worker (by rcases next with ⟨-, rfl⟩ | ⟨-, rfl⟩ <;> rfl)
  | storeOne at_ => exact Woken.worker rfl
  | wakeAll at_ => exact Woken.worker rfl
  | workLock at_ free => exact Woken.worker rfl
  | @sleepRoutine w at_ =>
    have hw : Woken (s.setMtx false) := hi.woken hq
    have hp : (s.setMtx false).worker w = .goSleep := at_
    exact hw.setWorker (by rw [hp]; nofun) nofun
  | workUnlock at_ => exact Woken.worker rfl
  | clear at_ => exact hi.woken hq
  | close at_ => exact hi.woken hq
  | notifyAllTake at_ => exact (hi.woken hq).notifyAll rfl
  | stopLock at_ free => exact hi.woken hq
  | notifyAllRoutine at_ => exact (hi.woken hq).notifyAll rfl
  | stopUnlock at_ => exact hi.woken hq

end woken

section steps

variable {s s' : State γ ω} {a : Act γ ω}

omit [DecidableEq γ] [DecidableEq ω] in
theorem Draining.keepsStopped (hi : Draining s) : KeepsStopped s a := by
  intro c pick t _ hc
  by_cases hidle : s.stop = .idle
  · exact .inl (by rw [hidle]; rfl)
  · have hq := hi.quiet hidle c
    rw [hc] at hq
    cases hq

omit [Fintype γ] in
theorem Effect.stays_drained (he : Effect s a s') (ho : s.opened = false) (hq : s.queue = []) :
    s'.opened = false ∧ s'.queue = [] := by
  cases he with
  | put at_ opened => cases ho.symm.trans opened
  | take at_ queue => cases hq.symm.trans queue
  | close at_ => exact ⟨rfl, hq⟩
  | _ => exact ⟨ho, hq⟩

theorem Draining.drained_step (hi : Draining s) (he : Effect s a s') (w : ω)
    (hw : s'.worker w = .checkRunning ∨ s'.worker w = .left) : s'.opened = false ∧ s'.queue = [] := by
  rcases he.worker w with heq | hn
  · obtain ⟨ho, hq⟩ := hi.drained w (heq ▸ hw)
    exact he.stays_drained ho hq
  · have hd := hi.drained w
    generalize s.worker w = p, s'.worker w = p' at hn hw hd
    cases hn with
    | move move =>
      cases move with
      | nullopt empty closed => exact he.stays_drained closed empty
      | leave stopped =>
        obtain ⟨ho, hq⟩ := hd (.inl rfl)
        exact he.stays_drained ho hq
      | _ => rcases hw with hw | hw <;> cases hw
    | fetchSub next => rcases next with ⟨-, rfl⟩ | ⟨-, rfl⟩ <;> rcases hw with hw | hw <;> cases hw
    | _ => rcases hw with hw | hw <;> cases hw

theorem StopPc.closed_of_notifiedTake {p : StopPc} (h : p.notifiedTake = true) : p.closed = true := by
  cases p <;> first | rfl | cases h

theorem Draining.noTake_step (hi : Draining s) (he : Effect s a s') (hn : s'.stop.notifiedTake = true) (w : ω) :
    s'.worker w ≠ .sleepTake := by
  by_cases hs : s.stop.notifiedTake = true
  · have hno := hi.noTake hs w
    have ho := hi.closed.2 (StopPc.closed_of_notifiedTake hs)
    rcases he.worker w with heq | hnext
    · rwa [heq]
    · generalize s.worker w = p, s'.worker w = p' at hnext hno ⊢
      cases hnext with
      | move move =>
        cases move with
        | sleepTake empty opened => cases ho.symm.trans opened
        | _ => nofun
      | fetchSub next => rcases next with ⟨-, rfl⟩ | ⟨-, rfl⟩ <;> nofun
      | _ => nofun
  · have hcl := hi.closed
    cases he with
    | @stopMove _ p move isStop =>
      change p.notifiedTake = true at hn
      generalize s.stop = q at move hcl hs
      cases move with
      | stop => cases hn
      | closedAlready closed => cases hcl.1 closed
      | joined left => exact absurd rfl hs
    | clear at_ => cases hn
    | close at_ => cases hn
    | notifyAllTake at_ =>
      change (if s.worker w = .sleepTake then WorkerPc.take else s.worker w) ≠ .sleepTake
      split
      · nofun
      · assumption
    | stopLock at_ free => exact absurd (by rw [at_]; rfl) hs
    | notifyAllRoutine at_ => exact absurd (by rw [at_]; rfl) hs
    | stopUnlock at_ => exact absurd (by rw [at_]; rfl) hs
    | _ => exact absurd hn hs

theorem Draining.joined_step (hi : Draining s) (he : Effect s a s') (hr : s'.stop = .returned) (w : ω) :
    s'.worker w = .left := by
  by_cases hs : s.stop = .returned
  · exact he.left (hi.joined hs w)
  · cases he with
    | @stopMove _ p move isStop =>
      obtain rfl : p = .returned := hr
      generalize s.stop = q at move hs
      cases move with
      | joined left => exact left w
    | clear at_ => cases hr
    | close at_ => cases hr
    | notifyAllTake at_ => cases hr
    | stopLock at_ free => cases hr
    | notifyAllRoutine at_ => cases hr
    | stopUnlock at_ => cases hr
    | _ => exact absurd hr hs

theorem Draining.step [Nonempty ω] (hi : Draining s) (ha : SubmitsFirst s a) (he : Effect s a s') :
    Draining s' where
  toAccepting := hi.toAccepting.step ha he
  stopping := hi.stopping.step hi.keepsStopped he
  drained := hi.drained_step he
  woken := hi.woken_step he hi.opened_of_put
  noTake := hi.noTake_step he
  joined := hi.joined_step he

end steps

/-! ### What is left to do -/

def WorkerPc.toDo : WorkerPc → Nat
  | .left => 0
  | .checkRunning => 1
  | .take => 2
  | .sleepTake | .unlockMtx => 3
  | .readRunning => 4
  | .readEmpty => 5
  | .lockMtx => 6
  | .sleepRoutine | .wakeAll => 7
  | .goSleep | .storeOne => 8
  | .fetchSub => 9
  | .run _ => 10

def StopPc.toDo : StopPc → Nat
  | .returned => 0
  | .join => 1
  | .unlockMtx => 2
  | .notifyRoutine => 3
  | .lockMtx => 4
  | .notifyTake => 5
  | .close => 6
  | .clear => 7
  | .idle => 8

/-- A task in the queue is worth more than one turn of a worker. -/
def State.rank (s : State γ ω) : Nat :=
  9 * s.queue.length + (∑ w, (s.worker w).toDo) + s.stop.toDo

/-- Only callers moved. -/
def SamePool (s s' : State γ ω) : Prop := s'.worker = s.worker ∧ s'.queue = s.queue ∧ s'.stop = s.stop

section rank

variable {s s' : State γ ω} {a : Act γ ω}

omit [Fintype γ] [DecidableEq γ] in
theorem rank_setWorker (w : ω) (p : WorkerPc) :
    (s.setWorker w p).rank + (s.worker w).toDo = s.rank + p.toDo := by
  have h := Threads.sum_update_add WorkerPc.toDo s.worker w p
  simp only [State.rank, State.setWorker] at h ⊢
  omega

omit [Fintype γ] [DecidableEq γ] in
theorem rank_setWorker_lt {w : ω} {p p' : WorkerPc} (hp : s.worker w = p) (h : p'.toDo < p.toDo) :
    (s.setWorker w p').rank < s.rank := by
  have hr := rank_setWorker (s := s) w p'
  rw [hp] at hr
  omega

omit [Fintype γ] [DecidableEq γ] [DecidableEq ω] in
theorem rank_setStop_lt {p : StopPc} (h : p.toDo < s.stop.toDo) : (s.setStop p).rank < s.rank := by
  simp only [State.rank, State.setStop]
  omega

omit [Fintype γ] [DecidableEq γ] [DecidableEq ω] in
theorem rank_notifyAll_le (asleep awake : WorkerPc) (h : awake.toDo ≤ asleep.toDo) :
    (s.notifyAll asleep awake).rank ≤ s.rank := by
  have hw : ∀ w, (if s.worker w = asleep then awake else s.worker w).toDo ≤ (s.worker w).toDo := by
    intro w
    split
    · next hw => rw [hw]; exact h
    · exact Nat.le_refl _
  have hsum := Finset.sum_le_sum fun w (_ : w ∈ Finset.univ) => hw w
  simp only [State.rank, State.notifyAll]
  omega

omit [Fintype γ] [DecidableEq γ] [DecidableEq ω] [Fintype ω] in
/-- With the queue closed and the flag cleared, a worker does not go back. -/
theorem WorkMove.toDo_lt {p p' : WorkerPc} (h : WorkMove s p p') (ho : s.opened = false)
    (hr : s.running = false) : p'.toDo < p.toDo := by
  cases h with
  | sleepTake empty opened => cases ho.symm.trans opened
  | goesOn running => cases hr.symm.trans running
  | goSleep running => cases hr.symm.trans running
  | _ => decide

theorem Draining.rank_step (hi : Draining s) (ha : SubmitsFirst s a) (he : Effect s a s')
    (hcl : s.stop.closed = true) : s'.rank < s.rank ∨ SamePool s s' := by
  have ho := hi.closed.2 hcl
  have hne : s.stop ≠ .idle := by
    intro h
    rw [h] at hcl
    cases hcl
  have hquiet : ∀ c t, s.call c ≠ .put t ∧ s.call c ≠ .notifyTake t ∧ s.call c ≠ .notifyRoutine t := by
    intro c t
    have h := hi.quiet hne c
    refine ⟨?_, ?_, ?_⟩ <;> intro hc <;> rw [hc] at h <;> cases h
  have hcleared : s.stop.cleared = true := by
    generalize s.stop = q at hcl
    cases q <;> first | rfl | cases hcl
  cases he with
  | callMove move => exact .inr ⟨rfl, rfl, rfl⟩
  | @workMove _ w p move =>
    rcases hi.stopping.stopped hcleared with hr | hleft
    · exact .inl (rank_setWorker_lt rfl (move.toDo_lt ho hr))
    · rw [hleft w] at move
      cases move
  | @stopMove _ p move isStop =>
    refine .inl (rank_setStop_lt ?_)
    generalize s.stop = q at move
    cases move <;> decide
  | submit can => exact absurd ha hne
  | waitIdle can => exact .inr ⟨rfl, rfl, rfl⟩
  | add at_ next => exact .inr ⟨rfl, rfl, rfl⟩
  | storeZero at_ => exact .inr ⟨rfl, rfl, rfl⟩
  | put at_ opened => exact absurd at_ (hquiet _ _).1
  | notifyTake at_ asleep => exact absurd at_ (hquiet _ _).2.1
  | notifyNoTake at_ nobody => exact .inr ⟨rfl, rfl, rfl⟩
  | setRunning at_ => exact .inr ⟨rfl, rfl, rfl⟩
  | callLock at_ free => exact .inr ⟨rfl, rfl, rfl⟩
  | notifyRoutine at_ asleep => exact absurd at_ (hquiet _ _).2.2
  | notifyNoRoutine at_ nobody => exact .inr ⟨rfl, rfl, rfl⟩
  | callUnlock at_ => exact .inr ⟨rfl, rfl, rfl⟩
  | @take w t q at_ queue =>
    have h := rank_setWorker (s := s.setQueue q) w (.run t)
    have hw : ((s.setQueue q).worker w).toDo = 2 := congrArg WorkerPc.toDo at_
    have hq : (s.setQueue q).rank + 9 = s.rank := by
      simp only [State.rank, State.setQueue, queue, List.length_cons]
      omega
    rw [hw, WorkerPc.toDo] at h
    exact .inl (by omega)
  | @finish w t at_ free =>
    exact .inl (rank_setWorker_lt (s := s.finish t) at_ (Nat.lt_succ_self 9))
  | @fetchSub w p at_ next =>
    refine .inl (rank_setWorker_lt (s := s.setCounter (s.counter - 1)) at_ ?_)
    rcases next with ⟨-, rfl⟩ | ⟨-, rfl⟩ <;> decide
  | storeOne at_ => exact .inl (rank_setWorker_lt (s := s.setDone true) at_ (by decide))
  | wakeAll at_ => exact .inl (rank_setWorker_lt (s := s.unparkAll) at_ (by decide))
  | workLock at_ free => exact .inl (rank_setWorker_lt (s := s.setMtx true) at_ (by decide))
  | sleepRoutine at_ => exact .inl (rank_setWorker_lt (s := s.setMtx false) at_ (by decide))
  | workUnlock at_ => exact .inl (rank_setWorker_lt (s := s.setMtx false) at_ (by decide))
  | clear at_ => rw [at_] at hcl; cases hcl
  | close at_ => rw [at_] at hcl; cases hcl
  | notifyAllTake at_ =>
    have h := rank_notifyAll_le (s := s) .sleepTake .take (by decide)
    refine .inl (Nat.lt_of_lt_of_le (rank_setStop_lt ?_) h)
    change _ < s.stop.toDo
    rw [at_]
    decide
  | stopLock at_ free =>
    refine .inl (rank_setStop_lt (s := s.setMtx true) ?_)
    change _ < s.stop.toDo
    rw [at_]
    decide
  | notifyAllRoutine at_ =>
    have h := rank_notifyAll_le (s := s) .sleepRoutine .lockMtx (by decide)
    refine .inl (Nat.lt_of_lt_of_le (rank_setStop_lt ?_) h)
    change _ < s.stop.toDo
    rw [at_]
    decide
  | stopUnlock at_ =>
    refine .inl (rank_setStop_lt (s := s.setMtx false) ?_)
    change _ < s.stop.toDo
    rw [at_]
    decide

omit [Fintype γ] in
/-- A worker that neither sleeps nor waits for the mutex or for a call of its task moves. -/
theorem work_enabled {w : ω}
    (hs : s.worker w ≠ .sleepTake ∧ s.worker w ≠ .sleepRoutine ∧ s.worker w ≠ .left)
    (hlock : s.worker w = .lockMtx → s.mtx = false)
    (hrun : ∀ t, s.worker w = .run t → s.call (.inr w) = .idle) :
    ∃ s', step s (.work w) = some s' ∧ s'.worker w ≠ s.worker w := by
  have moved : ∀ (s₁ : State γ ω) (p : WorkerPc), p ≠ s.worker w →
      (s₁.setWorker w p).worker w ≠ s.worker w := by
    intro s₁ p hp
    change update s₁.worker w p w ≠ s.worker w
    rwa [update_self]
  simp only [ThreadPool.step, workStep]
  cases hw : s.worker w with
  | take =>
    rw [hw] at moved
    cases hq : s.queue with
    | nil => exact ⟨_, rfl, moved _ _ (by split <;> rintro ⟨⟩)⟩
    | cons t q => exact ⟨_, rfl, moved _ _ (by rintro ⟨⟩)⟩
  | sleepTake => exact absurd hw hs.1
  | run t =>
    rw [hw] at moved
    exact ⟨_, if_pos (hrun t hw), moved _ _ (by rintro ⟨⟩)⟩
  | lockMtx =>
    rw [hw] at moved
    simp only [hlock hw]
    exact ⟨_, rfl, moved _ _ (by rintro ⟨⟩)⟩
  | sleepRoutine => exact absurd hw hs.2.1
  | left => exact absurd hw hs.2.2
  | _ =>
    rw [hw] at moved
    exact ⟨_, rfl, moved _ _ (by first | (split <;> rintro ⟨⟩) | rintro ⟨⟩)⟩

/-- Some step lowers what is left to do. -/
def Progress (s : State γ ω) : Prop := ∃ a s', step s a = some s' ∧ s'.rank < s.rank

theorem Draining.work_progress (hi : Draining s) (hcl : s.stop.closed = true) {w : ω}
    (hs : s.worker w ≠ .sleepTake ∧ s.worker w ≠ .sleepRoutine ∧ s.worker w ≠ .left)
    (hlock : s.worker w = .lockMtx → s.mtx = false)
    (hrun : ∀ t, s.worker w = .run t → s.call (.inr w) = .idle) : Progress s := by
  obtain ⟨s', h, hne⟩ := work_enabled hs hlock hrun
  rcases hi.rank_step (a := .work w) trivial (step_effect h) hcl with hlt | ⟨hsame, -, -⟩
  · exact ⟨_, s', h, hlt⟩
  · exact absurd (congrFun hsame w) hne

theorem Draining.stop_progress (hi : Draining s) (hcl : s.stop.closed = true)
    (h : ∃ s', ThreadPool.step s .stopStep = some s' ∧ s'.stop ≠ s.stop) : Progress s := by
  obtain ⟨s', h, hne⟩ := h
  rcases hi.rank_step (a := .stopStep) trivial (step_effect h) hcl with hlt | ⟨-, -, hsame⟩
  · exact ⟨_, s', h, hlt⟩
  · exact absurd hsame hne

/-- Whoever else has `worker_routine_mtx_` is a worker that tests its predicate. -/
theorem Draining.holder_progress (hi : Draining s) (hcl : s.stop.closed = true)
    (hm : s.mtx = true) (hl : s.stop.locked = false) : Progress s := by
  have hne : s.stop ≠ .idle := by
    intro h
    rw [h] at hcl
    cases hcl
  obtain ⟨x, hx⟩ := hi.stopping.locks.holder hm
  cases x with
  | call c =>
    have hq := hi.quiet hne c
    change (s.call c).locked = true at hx
    generalize s.call c = p at hq hx
    cases p <;> first | (cases hx; done) | cases hq
  | worker w =>
    change (s.worker w).locked = true at hx
    refine hi.work_progress hcl (w := w) ⟨?_, ?_, ?_⟩ ?_ ?_
    · intro h; rw [h] at hx; cases hx
    · intro h; rw [h] at hx; cases hx
    · intro h; rw [h] at hx; cases hx
    · intro h; rw [h] at hx; cases hx
    · intro t h; rw [h] at hx; cases hx
  | stop =>
    change s.stop.locked = true at hx
    rw [hl] at hx
    cases hx

theorem Draining.progress (hi : Draining s) (hcl : s.stop.closed = true) (hr : s.stop ≠ .returned)
    (hrun : ∀ w t, s.worker w = .run t → s.call (.inr w) = .idle) : Progress s := by
  cases hp : s.stop with
  | idle => rw [hp] at hcl; cases hcl
  | clear => rw [hp] at hcl; cases hcl
  | close => rw [hp] at hcl; cases hcl
  | returned => exact absurd hp hr
  | notifyTake =>
    refine hi.stop_progress hcl ?_
    simp only [ThreadPool.step, stopStep, hp]
    exact ⟨_, rfl, (by rintro ⟨⟩)⟩
  | notifyRoutine =>
    refine hi.stop_progress hcl ?_
    simp only [ThreadPool.step, stopStep, hp]
    exact ⟨_, rfl, (by rintro ⟨⟩)⟩
  | unlockMtx =>
    refine hi.stop_progress hcl ?_
    simp only [ThreadPool.step, stopStep, hp]
    exact ⟨_, rfl, (by rintro ⟨⟩)⟩
  | lockMtx =>
    cases hm : s.mtx with
    | true => exact hi.holder_progress hcl hm (by rw [hp]; rfl)
    | false =>
      refine hi.stop_progress hcl ?_
      simp only [ThreadPool.step, stopStep, hp, hm]
      exact ⟨_, rfl, (by rintro ⟨⟩)⟩
  | join =>
    by_cases hall : ∀ w, s.worker w = .left
    · refine hi.stop_progress hcl ?_
      simp only [ThreadPool.step, stopStep, hp]
      exact ⟨_, if_pos hall, (by rintro ⟨⟩)⟩
    · obtain ⟨w, hw⟩ := not_forall.1 hall
      have htake := hi.noTake (by rw [hp]; rfl) w
      have hsleep := (hi.stopping.awake (by rw [hp]; rfl) w).2
      cases hm : s.mtx with
      | true => exact hi.holder_progress hcl hm (by rw [hp]; rfl)
      | false => exact hi.work_progress hcl ⟨htake, hsleep, hw⟩ (fun _ => hm) (hrun w)

end rank

/-! ### The pool -/

/-- What holds at any moment. -/
structure Drains (s : State γ ω) : Prop where
  /-- A task is with its `Submit`, in the queue, being run or finished: once, in one of them. -/
  once : ∀ t, s.places t = if t < s.tasks then 1 else 0
  /-- Next to a task in the queue somebody is awake, or about to be woken. -/
  awake : s.queue ≠ [] → Woken s
  /-- No worker leaves while there is a task, or before `Stop` has closed the queue. -/
  leaves : ∀ w, s.worker w = .left → s.stop.closed = true ∧ s.queue = []
  /-- Nobody sleeps in `cv_` after it has been notified, nor in `worker_routine_cv_`. -/
  noTake : s.stop.notifiedTake = true → ∀ w, s.worker w ≠ .sleepTake
  noRoutine : s.stop.notified = true → ∀ w, s.worker w ≠ .sleepRoutine
  /-- `Stop` returns with every task run. -/
  returned : s.stop = .returned →
    s.queue = [] ∧ (∀ w, s.worker w = .left) ∧ ∀ t, s.finished.count t = if t < s.tasks then 1 else 0
  /-- Until then, once the queue is closed and if the tasks return, a worker or `Stop` can go on. -/
  progress : s.stop.closed = true → s.stop ≠ .returned →
    (∀ w t, s.worker w = .run t → s.call (.inr w) = .idle) → Progress s
  /-- And that ends: whatever moves the workers, the queue or `Stop` lowers the rank. -/
  ends : s.stop.closed = true → ∀ a s', SubmitsFirst s a → step s a = some s' →
    s'.rank < s.rank ∨ SamePool s s'

theorem Draining.drains [Nonempty ω] {s : State γ ω} (hi : Draining s) : Drains s where
  once := hi.places
  awake := hi.woken
  leaves w hw := by
    obtain ⟨ho, hq⟩ := hi.drained w (.inr hw)
    exact ⟨hi.closed.1 ho, hq⟩
  noTake := hi.noTake
  noRoutine hn w := (hi.stopping.awake hn w).2
  returned hr := by
    have hleft := hi.joined hr
    obtain ⟨w⟩ := ‹Nonempty ω›
    have hq := (hi.drained w (.inr (hleft w))).2
    refine ⟨hq, hleft, fun t => ?_⟩
    have hcalls : ∀ c, (s.call c).hands = .nothing := by
      intro c
      have hc := hi.quiet (by rw [hr]; nofun) c
      generalize s.call c = p at hc
      cases p <;> first | rfl | cases hc
    have hworkers : ∀ w, (s.worker w).hands = .nothing := by
      intro w
      rw [hleft w]
      rfl
    have hp := hi.places t
    simpa [State.places, State.weigh, hcalls, hworkers, hq, Hands.holds] using hp
  progress := hi.progress
  ends hcl _ _ ha h := hi.rank_step ha (step_effect h) hcl

end ThreadPool
