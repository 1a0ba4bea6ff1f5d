import ConcurrencyCourse.ThreadPool.Pool
import ConcurrencyCourse.Lib.Lock
import ConcurrencyCourse.Lib.Threads

/-!
# What a step of the pool does

`Effect` lists the steps with their guards. Those that only move a caller or a worker are one constructor each
(`CallMove`, `WorkMove`); the invariants of the pool are proved by cases on it.

`Locks` says who has `worker_routine_mtx_`: a caller, a worker or the thread in `Stop`.
-/

namespace ThreadPool

open Transition Function

variable {γ ω : Type}

/-! ### Steps that only move one thread -/

inductive CallMove (s : State γ ω) : CallPc → CallPc → Prop where
  | rejected {t : Nat} (closed : s.opened = false) : CallMove s (.put t) (.setRunning t)
  | idle (zero : s.counter = 0) : CallMove s .loadCounter .idle
  | futexWait (pos : s.counter ≠ 0) : CallMove s .loadCounter .futexWait
  | retry (done : s.done = true) : CallMove s .futexWait .loadCounter
  | park (done : s.done = false) : CallMove s .futexWait .parked
  | unpark : CallMove s .parked .loadCounter

inductive WorkMove (s : State γ ω) : WorkerPc → WorkerPc → Prop where
  | sleepTake (empty : s.queue = []) (opened : s.opened = true) : WorkMove s .take .sleepTake
  | nullopt (empty : s.queue = []) (closed : s.opened = false) : WorkMove s .take .checkRunning
  | goesOn (running : s.running = true) : WorkMove s .checkRunning .lockMtx
  | leave (stopped : s.running = false) : WorkMove s .checkRunning .left
  | empty (empty : s.queue = []) : WorkMove s .readEmpty .readRunning
  | more (more : s.queue ≠ []) : WorkMove s .readEmpty .unlockMtx
  | goSleep (running : s.running = true) : WorkMove s .readRunning .goSleep
  | stopped (stopped : s.running = false) : WorkMove s .readRunning .unlockMtx
  | wakeTake : WorkMove s .sleepTake .take
  | wakeRoutine : WorkMove s .sleepRoutine .lockMtx

/-- `StopPc`s with nothing but the move. -/
inductive StopMove [Fintype ω] (s : State γ ω) : StopPc → StopPc → Prop where
  | stop : StopMove s .idle .clear
  | closedAlready (closed : s.opened = false) : StopMove s .close .lockMtx
  | joined (left : ∀ w, s.worker w = .left) : StopMove s .join .returned

variable [DecidableEq γ] [DecidableEq ω] [Fintype ω]

/-! ### All steps -/

inductive Effect (s : State γ ω) : Act γ ω → State γ ω → Prop where
  | callMove {a : Act γ ω} {c : γ ⊕ ω} {p : CallPc} (move : CallMove s (s.call c) p)
      (noSubmit : ∀ c, a ≠ .submit c) : Effect s a (s.setCall c p)
  | workMove {a : Act γ ω} {w : ω} {p : WorkerPc} (move : WorkMove s (s.worker w) p) :
      Effect s a (s.setWorker w p)
  | stopMove {a : Act γ ω} {p : StopPc} (move : StopMove s s.stop p) (isStop : s.stop = .idle → a = .stop) :
      Effect s a (s.setStop p)
  | submit {c : γ ⊕ ω} (can : s.canCall c = true) : Effect s (.submit c) (s.newTask c)
  | waitIdle {c : γ ⊕ ω} (can : s.canCall c = true) : Effect s (.waitIdle c) (s.setCall c .loadCounter)
  | add {c : γ ⊕ ω} {pick : Option ω} {t : Nat} {p : CallPc} (at_ : s.call c = .add t)
      (next : s.counter = 0 ∧ p = .storeZero t ∨ s.counter ≠ 0 ∧ p = .put t) :
      Effect s (.call c pick) ((s.setCounter (s.counter + 1)).setCall c p)
  | storeZero {c : γ ⊕ ω} {pick : Option ω} {t : Nat} (at_ : s.call c = .storeZero t) :
      Effect s (.call c pick) ((s.setDone false).setCall c (.put t))
  | put {c : γ ⊕ ω} {pick : Option ω} {t : Nat} (at_ : s.call c = .put t) (opened : s.opened = true) :
      Effect s (.call c pick) ((s.setQueue (s.queue ++ [t])).setCall c (.notifyTake t))
  | notifyTake {c : γ ⊕ ω} {w : ω} {t : Nat} (at_ : s.call c = .notifyTake t)
      (asleep : s.worker w = .sleepTake) :
      Effect s (.call c (some w)) ((s.setWorker w .take).setCall c (.setRunning t))
  | notifyNoTake {c : γ ⊕ ω} {t : Nat} (at_ : s.call c = .notifyTake t)
      (nobody : ∀ w, s.worker w ≠ .sleepTake) : Effect s (.call c none) (s.setCall c (.setRunning t))
  | setRunning {c : γ ⊕ ω} {pick : Option ω} {t : Nat} (at_ : s.call c = .setRunning t) :
      Effect s (.call c pick) ((s.setRunning true).setCall c (.lockMtx t))
  | callLock {c : γ ⊕ ω} {pick : Option ω} {t : Nat} (at_ : s.call c = .lockMtx t) (free : s.mtx = false) :
      Effect s (.call c pick) ((s.setMtx true).setCall c (.notifyRoutine t))
  | notifyRoutine {c : γ ⊕ ω} {w : ω} {t : Nat} (at_ : s.call c = .notifyRoutine t)
      (asleep : s.worker w = .sleepRoutine) :
      Effect s (.call c (some w)) ((s.setWorker w .lockMtx).setCall c (.unlockMtx t))
  | notifyNoRoutine {c : γ ⊕ ω} {t : Nat} (at_ : s.call c = .notifyRoutine t)
      (nobody : ∀ w, s.worker w ≠ .sleepRoutine) : Effect s (.call c none) (s.setCall c (.unlockMtx t))
  | callUnlock {c : γ ⊕ ω} {pick : Option ω} {t : Nat} (at_ : s.call c = .unlockMtx t) :
      Effect s (.call c pick) ((s.setMtx false).setCall c .idle)
  | take {w : ω} {t : Nat} {q : List Nat} (at_ : s.worker w = .take) (queue : s.queue = t :: q) :
      Effect s (.work w) ((s.setQueue q).setWorker w (.run t))
  | finish {w : ω} {t : Nat} (at_ : s.worker w = .run t) (free : s.call (.inr w) = .idle) :
      Effect s (.work w) ((s.finish t).setWorker w .fetchSub)
  | fetchSub {w : ω} {p : WorkerPc} (at_ : s.worker w = .fetchSub)
      (next : s.counter = 1 ∧ p = .storeOne ∨ s.counter ≠ 1 ∧ p = .lockMtx) :
      Effect s (.work w) ((s.setCounter (s.counter - 1)).setWorker w p)
  | storeOne {w : ω} (at_ : s.worker w = .storeOne) :
      Effect s (.work w) ((s.setDone true).setWorker w .wakeAll)
  | wakeAll {w : ω} (at_ : s.worker w = .wakeAll) : Effect s (.work w) (s.unparkAll.setWorker w .lockMtx)
  | workLock {w : ω} (at_ : s.worker w = .lockMtx) (free : s.mtx = false) :
      Effect s (.work w) ((s.setMtx true).setWorker w .readEmpty)
  | sleepRoutine {w : ω} (at_ : s.worker w = .goSleep) :
      Effect s (.work w) ((s.setMtx false).setWorker w .sleepRoutine)
  | workUnlock {w : ω} (at_ : s.worker w = .unlockMtx) :
      Effect s (.work w) ((s.setMtx false).setWorker w .take)
  | clear (at_ : s.stop = .clear) : Effect s .stopStep ((s.setRunning false).setStop .close)
  | close (at_ : s.stop = .close) : Effect s .stopStep { s with opened := false, stop := .notifyTake }
  | notifyAllTake (at_ : s.stop = .notifyTake) :
      Effect s .stopStep ((s.notifyAll .sleepTake .take).setStop .lockMtx)
  | stopLock (at_ : s.stop = .lockMtx) (free : s.mtx = false) :
      Effect s .stopStep ((s.setMtx true).setStop .notifyRoutine)
  | notifyAllRoutine (at_ : s.stop = .notifyRoutine) :
      Effect s .stopStep ((s.notifyAll .sleepRoutine .lockMtx).setStop .unlockMtx)
  | stopUnlock (at_ : s.stop = .unlockMtx) : Effect s .stopStep ((s.setMtx false).setStop .join)

section inversion

variable {s s' : State γ ω}

omit [DecidableEq γ] in
theorem notifyOne_cases {asleep awake : WorkerPc} {pick : Option ω}
    (h : s.notifyOne asleep awake pick = some s') :
    (∃ w, pick = some w ∧ s.worker w = asleep ∧ s' = s.setWorker w awake) ∨
      (pick = none ∧ (∀ w, s.worker w ≠ asleep) ∧ s' = s) := by
  cases pick with
  | some w =>
    simp only [State.notifyOne] at h
    split at h
    · exact .inl ⟨w, rfl, by assumption, (Option.some.inj h).symm⟩
    · cases h
  | none =>
    simp only [State.notifyOne] at h
    split at h
    · exact .inr ⟨rfl, by assumption, (Option.some.inj h).symm⟩
    · cases h

theorem callStep_effect {c : γ ⊕ ω} {pick : Option ω} (h : callStep s c pick = some s') :
    Effect s (.call c pick) s' := by
  unfold callStep at h
  cases hc : s.call c <;> simp only [hc, reduceCtorEq] at h
  case add t =>
    obtain rfl := Option.some.inj h
    split
    · next hz => exact .add hc (.inl ⟨hz, rfl⟩)
    · next hz => exact .add hc (.inr ⟨hz, rfl⟩)
  case storeZero t =>
    obtain rfl := Option.some.inj h
    exact .storeZero hc
  case put t =>
    obtain rfl := Option.some.inj h
    split
    · next ho => exact .put hc ho
    · next ho => exact .callMove (by rw [hc]; exact .rejected (by simpa using ho)) nofun
  case notifyTake t =>
    obtain ⟨s1, h1, rfl⟩ := Option.map_eq_some_iff.1 h
    rcases notifyOne_cases h1 with ⟨w, rfl, hw, rfl⟩ | ⟨rfl, hno, rfl⟩
    · exact .notifyTake hc hw
    · exact .notifyNoTake hc hno
  case setRunning t =>
    obtain rfl := Option.some.inj h
    exact .setRunning hc
  case lockMtx t =>
    split at h
    · cases h
    · next hm =>
      obtain rfl := Option.some.inj h
      exact .callLock hc (by simpa using hm)
  case notifyRoutine t =>
    obtain ⟨s1, h1, rfl⟩ := Option.map_eq_some_iff.1 h
    rcases notifyOne_cases h1 with ⟨w, rfl, hw, rfl⟩ | ⟨rfl, hno, rfl⟩
    · exact .notifyRoutine hc hw
    · exact .notifyNoRoutine hc hno
  case unlockMtx t =>
    obtain rfl := Option.some.inj h
    exact .callUnlock hc
  case loadCounter =>
    obtain rfl := Option.some.inj h
    refine .callMove ?_ nofun
    rw [hc]
    split
    · next hz => exact .idle hz
    · next hz => exact .futexWait hz
  case futexWait =>
    obtain rfl := Option.some.inj h
    refine .callMove ?_ nofun
    rw [hc]
    split
    · next hd => exact .retry hd
    · next hd => exact .park (by simpa using hd)

theorem workStep_effect {w : ω} (h : workStep s w = some s') : Effect s (.work w) s' := by
  unfold workStep at h
  cases hw : s.worker w <;> simp only [hw, reduceCtorEq] at h
  case take =>
    split at h <;> obtain rfl := Option.some.inj h
    · next t q hq => exact .take hw hq
    · next hq =>
      refine .workMove ?_
      rw [hw]
      split
      · next ho => exact .sleepTake hq ho
      · next ho => exact .nullopt hq (by simpa using ho)
  case run t =>
    split at h
    · next hc =>
      obtain rfl := Option.some.inj h
      exact .finish hw hc
    · cases h
  case fetchSub =>
    obtain rfl := Option.some.inj h
    split
    · next hz => exact .fetchSub hw (.inl ⟨hz, rfl⟩)
    · next hz => exact .fetchSub hw (.inr ⟨hz, rfl⟩)
  case storeOne =>
    obtain rfl := Option.some.inj h
    exact .storeOne hw
  case wakeAll =>
    obtain rfl := Option.some.inj h
    exact .wakeAll hw
  case checkRunning =>
    obtain rfl := Option.some.inj h
    refine .workMove ?_
    rw [hw]
    split
    · next hr => exact .goesOn hr
    · next hr => exact .leave (by simpa using hr)
  case lockMtx =>
    split at h
    · cases h
    · next hm =>
      obtain rfl := Option.some.inj h
      exact .workLock hw (by simpa using hm)
  case readEmpty =>
    obtain rfl := Option.some.inj h
    refine .workMove ?_
    rw [hw]
    split
    · next hq => exact .empty hq
    · next hq => exact .more hq
  case readRunning =>
    obtain rfl := Option.some.inj h
    refine .workMove ?_
    rw [hw]
    split
    · next hr => exact .goSleep hr
    · next hr => exact .stopped (by simpa using hr)
  case goSleep =>
    obtain rfl := Option.some.inj h
    exact .sleepRoutine hw
  case unlockMtx =>
    obtain rfl := Option.some.inj h
    exact .workUnlock hw

theorem stopStep_effect (h : stopStep s = some s') : Effect s .stopStep s' := by
  unfold stopStep at h
  cases hp : s.stop <;> simp only [hp, reduceCtorEq] at h
  case clear =>
    obtain rfl := Option.some.inj h
    exact .clear hp
  case close =>
    obtain rfl := Option.some.inj h
    split
    · exact .close hp
    · next ho =>
      exact .stopMove (by rw [hp]; exact .closedAlready (by simpa using ho)) (by rw [hp]; nofun)
  case notifyTake =>
    obtain rfl := Option.some.inj h
    exact .notifyAllTake hp
  case lockMtx =>
    split at h
    · cases h
    · next hm =>
      obtain rfl := Option.some.inj h
      exact .stopLock hp (by simpa using hm)
  case notifyRoutine =>
    obtain rfl := Option.some.inj h
    exact .notifyAllRoutine hp
  case unlockMtx =>
    obtain rfl := Option.some.inj h
    exact .stopUnlock hp
  case join =>
    split at h
    · next hl =>
      obtain rfl := Option.some.inj h
      exact .stopMove (by rw [hp]; exact .joined hl) (by rw [hp]; nofun)
    · cases h

theorem step_effect {a : Act γ ω} (h : step s a = some s') : Effect s a s' := by
  cases a with
  | submit c =>
    simp only [step] at h
    split at h
    · next hc => obtain rfl := Option.some.inj h; exact .submit hc
    · cases h
  | waitIdle c =>
    simp only [step] at h
    split at h
    · next hc => obtain rfl := Option.some.inj h; exact .waitIdle hc
    · cases h
  | call c pick => exact callStep_effect h
  | unpark c =>
    simp only [step] at h
    split at h
    · next hc =>
      obtain rfl := Option.some.inj h
      exact .callMove (by rw [hc]; exact .unpark) nofun
    · cases h
  | work w => exact workStep_effect h
  | spurious w =>
    simp only [step] at h
    split at h
    · next hw =>
      obtain rfl := Option.some.inj h
      exact .workMove (by rw [hw]; exact .wakeTake)
    · next hw =>
      obtain rfl := Option.some.inj h
      exact .workMove (by rw [hw]; exact .wakeRoutine)
    · cases h
  | stop =>
    simp only [step] at h
    split at h
    · next hp =>
      obtain rfl := Option.some.inj h
      exact .stopMove (by rw [hp]; exact .stop) fun _ => rfl
    · cases h
  | stopStep => exact stopStep_effect h

end inversion

/-! ### What a step does to one thread -/

/-- The steps of a worker, its wake-ups included. -/
inductive WorkerNext (s s' : State γ ω) (w : ω) : WorkerPc → WorkerPc → Prop where
  | move {p p' : WorkerPc} (move : WorkMove s p p') : WorkerNext s s' w p p'
  | take {t : Nat} {q : List Nat} (queue : s.queue = t :: q) : WorkerNext s s' w .take (.run t)
  | finish {t : Nat} (free : s.call (.inr w) = .idle) : WorkerNext s s' w (.run t) .fetchSub
  | fetchSub {p : WorkerPc} (next : s.counter = 1 ∧ p = .storeOne ∨ s.counter ≠ 1 ∧ p = .lockMtx) :
      WorkerNext s s' w .fetchSub p
  | storeOne (done : s'.done = true) : WorkerNext s s' w .storeOne .wakeAll
  | wakeAll (unparked : ∀ c, s'.call c ≠ .parked) : WorkerNext s s' w .wakeAll .lockMtx
  | lock (free : s.mtx = false) : WorkerNext s s' w .lockMtx .readEmpty
  | sleepRoutine : WorkerNext s s' w .goSleep .sleepRoutine
  | unlock : WorkerNext s s' w .unlockMtx .take

/-- The steps of a call, from its start to its end. -/
inductive CallNext (s : State γ ω) (a : Act γ ω) (c : γ ⊕ ω) : CallPc → CallPc → Prop where
  | move {p p' : CallPc} (move : CallMove s p p') : CallNext s a c p p'
  | submit (isSubmit : a = .submit c) : CallNext s a c .idle (.add s.tasks)
  | waitIdle : CallNext s a c .idle .loadCounter
  | add {t : Nat} {p : CallPc}
      (next : s.counter = 0 ∧ p = .storeZero t ∨ s.counter ≠ 0 ∧ p = .put t) : CallNext s a c (.add t) p
  | storeZero {t : Nat} : CallNext s a c (.storeZero t) (.put t)
  | put {t : Nat} (opened : s.opened = true) : CallNext s a c (.put t) (.notifyTake t)
  | notifyTake {t : Nat} : CallNext s a c (.notifyTake t) (.setRunning t)
  | setRunning {t : Nat} : CallNext s a c (.setRunning t) (.lockMtx t)
  | lock {t : Nat} (free : s.mtx = false) : CallNext s a c (.lockMtx t) (.notifyRoutine t)
  | notifyRoutine {t : Nat} : CallNext s a c (.notifyRoutine t) (.unlockMtx t)
  | unlock {t : Nat} : CallNext s a c (.unlockMtx t) .idle

inductive StopNext (s : State γ ω) : StopPc → StopPc → Prop where
  | move {p p' : StopPc} (move : StopMove s p p') : StopNext s p p'
  | clear : StopNext s .clear .close
  | close : StopNext s .close .notifyTake
  | notifyTake : StopNext s .notifyTake .lockMtx
  | lock (free : s.mtx = false) : StopNext s .lockMtx .notifyRoutine
  | notifyRoutine : StopNext s .notifyRoutine .unlockMtx
  | unlock : StopNext s .unlockMtx .join

section views

variable {s s' : State γ ω} {a : Act γ ω}

omit [DecidableEq γ] [Fintype ω] in
theorem worker_setWorker {w' : ω} {p : WorkerPc} (w : ω) (h : WorkerNext s s' w' (s.worker w') p) :
    update s.worker w' p w = s.worker w ∨ WorkerNext s s' w (s.worker w) (update s.worker w' p w) := by
  rcases eq_or_ne w w' with rfl | hne
  · rw [update_self]
    exact .inr h
  · exact .inl (update_of_ne hne ..)

omit [DecidableEq γ] [DecidableEq ω] [Fintype ω] in
theorem worker_notifyAll {asleep awake : WorkerPc} (w : ω) (h : WorkerNext s s' w asleep awake) :
    (s.notifyAll asleep awake).worker w = s.worker w ∨
      WorkerNext s s' w (s.worker w) ((s.notifyAll asleep awake).worker w) := by
  change (if s.worker w = asleep then awake else s.worker w) = s.worker w ∨
    WorkerNext s s' w (s.worker w) (if s.worker w = asleep then awake else s.worker w)
  split
  · next hw => exact .inr (hw ▸ h)
  · exact .inl rfl

theorem Effect.worker (he : Effect s a s') (w : ω) :
    s'.worker w = s.worker w ∨ WorkerNext s s' w (s.worker w) (s'.worker w) := by
  cases he with
  | workMove move => exact worker_setWorker w (.move move)
  | notifyTake at_ asleep => exact worker_setWorker (s := s) w (asleep ▸ .move .wakeTake)
  | notifyRoutine at_ asleep => exact worker_setWorker (s := s) w (asleep ▸ .move .wakeRoutine)
  | take at_ queue => exact worker_setWorker (s := s) w (at_ ▸ .take queue)
  | finish at_ free => exact worker_setWorker (s := s) w (at_ ▸ .finish free)
  | fetchSub at_ next => exact worker_setWorker (s := s) w (at_ ▸ .fetchSub next)
  | storeOne at_ => exact worker_setWorker (s := s) w (at_ ▸ .storeOne rfl)
  | wakeAll at_ =>
    refine worker_setWorker (s := s) w (at_ ▸ .wakeAll fun c => ?_)
    change (if s.call c = .parked then CallPc.loadCounter else s.call c) ≠ .parked
    split
    · nofun
    · assumption
  | workLock at_ free => exact worker_setWorker (s := s) w (at_ ▸ .lock free)
  | sleepRoutine at_ => exact worker_setWorker (s := s) w (at_ ▸ .sleepRoutine)
  | workUnlock at_ => exact worker_setWorker (s := s) w (at_ ▸ .unlock)
  | notifyAllTake at_ => exact worker_notifyAll w (.move .wakeTake)
  | notifyAllRoutine at_ => exact worker_notifyAll w (.move .wakeRoutine)
  | _ => exact .inl rfl

omit [DecidableEq γ] [DecidableEq ω] [Fintype ω] in
theorem canCall_idle {c : γ ⊕ ω} (h : s.canCall c = true) : s.call c = .idle := by
  unfold State.canCall at h
  simp only [Bool.and_eq_true, decide_eq_true_eq] at h
  exact h.1

omit [Fintype ω] in
theorem call_setCall {c' : γ ⊕ ω} {p : CallPc} (c : γ ⊕ ω) (h : CallNext s a c' (s.call c') p) :
    update s.call c' p c = s.call c ∨ CallNext s a c (s.call c) (update s.call c' p c) := by
  rcases eq_or_ne c c' with rfl | hne
  · rw [update_self]
    exact .inr h
  · exact .inl (update_of_ne hne ..)

theorem Effect.call (he : Effect s a s') (c : γ ⊕ ω) :
    s'.call c = s.call c ∨ CallNext s a c (s.call c) (s'.call c) := by
  cases he with
  | callMove move => exact call_setCall c (.move move)
  | submit can => exact call_setCall (s := s) c (canCall_idle can ▸ .submit rfl)
  | waitIdle can => exact call_setCall (s := s) c (canCall_idle can ▸ .waitIdle)
  | add at_ next => exact call_setCall (s := s) c (at_ ▸ .add next)
  | storeZero at_ => exact call_setCall (s := s) c (at_ ▸ .storeZero)
  | put at_ opened => exact call_setCall (s := s) c (at_ ▸ .put opened)
  | notifyTake at_ asleep => exact call_setCall (s := s) c (at_ ▸ .notifyTake)
  | notifyNoTake at_ nobody => exact call_setCall (s := s) c (at_ ▸ .notifyTake)
  | setRunning at_ => exact call_setCall (s := s) c (at_ ▸ .setRunning)
  | callLock at_ free => exact call_setCall (s := s) c (at_ ▸ .lock free)
  | notifyRoutine at_ asleep => exact call_setCall (s := s) c (at_ ▸ .notifyRoutine)
  | notifyNoRoutine at_ nobody => exact call_setCall (s := s) c (at_ ▸ .notifyRoutine)
  | callUnlock at_ => exact call_setCall (s := s) c (at_ ▸ .unlock)
  | wakeAll at_ =>
    change (if s.call c = .parked then CallPc.loadCounter else s.call c) = s.call c ∨
      CallNext s _ c (s.call c) (if s.call c = .parked then CallPc.loadCounter else s.call c)
    split
    · next hc => exact .inr (hc ▸ .move .unpark)
    · exact .inl rfl
  | _ => exact .inl rfl

theorem Effect.stop_next (he : Effect s a s') : s'.stop = s.stop ∨ StopNext s s.stop s'.stop := by
  cases he with
  | stopMove move isStop => exact .inr (.move move)
  | clear at_ => exact .inr (at_ ▸ .clear)
  | close at_ => exact .inr (at_ ▸ .close)
  | notifyAllTake at_ => exact .inr (at_ ▸ .notifyTake)
  | stopLock at_ free => exact .inr (at_ ▸ .lock free)
  | notifyAllRoutine at_ => exact .inr (at_ ▸ .notifyRoutine)
  | stopUnlock at_ => exact .inr (at_ ▸ .unlock)
  | _ => exact .inl rfl

/-- Only `Submit` and `Stop` write `is_running_`. -/
theorem Effect.running_eq (he : Effect s a s') :
    s'.running = s.running ∨ (s.stop = .clear ∧ s'.running = false) ∨
      ∃ c pick t, a = .call c pick ∧ s.call c = .setRunning t ∧ s'.worker = s.worker ∧ s'.stop = s.stop := by
  cases he with
  | clear at_ => exact .inr (.inl ⟨at_, rfl⟩)
  | setRunning at_ => exact .inr (.inr ⟨_, _, _, rfl, at_, rfl, rfl⟩)
  | _ => exact .inl rfl

/-- A worker that has left stays out. -/
theorem Effect.left (he : Effect s a s') {w : ω} (hw : s.worker w = .left) : s'.worker w = .left := by
  rcases he.worker w with h | h
  · exact h.trans hw
  · rw [hw] at h
    cases h with
    | move move => cases move

end views

/-! ### `worker_routine_mtx_` -/

/-- Whoever may have it. -/
inductive Who (γ ω : Type) where
  | call (c : γ ⊕ ω)
  | worker (w : ω)
  | stop

def CallPc.locked : CallPc → Bool
  | .notifyRoutine _ | .unlockMtx _ => true
  | _ => false

def WorkerPc.locked : WorkerPc → Bool
  | .readEmpty | .readRunning | .goSleep | .unlockMtx => true
  | _ => false

def StopPc.locked : StopPc → Bool
  | .notifyRoutine | .unlockMtx => true
  | _ => false

def State.locked (s : State γ ω) : Who γ ω → Bool
  | .call c => (s.call c).locked
  | .worker w => (s.worker w).locked
  | .stop => s.stop.locked

structure Locks (s : State γ ω) : Prop extends Lock.Guards s.mtx fun x => s.locked x = true where
  holder : s.mtx = true → ∃ x, s.locked x = true

section locks

variable {s s' : State γ ω}

omit [DecidableEq γ] [DecidableEq ω] [Fintype ω] in
/-- Nobody takes or releases it. -/
theorem Locks.same (hl : Locks s) (hm : s'.mtx = s.mtx) (h : ∀ x, s'.locked x = s.locked x) : Locks s' := by
  constructor
  · rw [hm]
    exact hl.toGuards.mono fun x hx => (h x).symm.trans hx
  · intro hmtx
    obtain ⟨x, hx⟩ := hl.holder (hm ▸ hmtx)
    exact ⟨x, (h x).trans hx⟩

omit [DecidableEq γ] [DecidableEq ω] [Fintype ω] in
theorem Locks.acquire (hl : Locks s) (hm : s.mtx = false) (hm' : s'.mtx = true) {x : Who γ ω}
    (hx : s'.locked x = true) (h : ∀ y, y ≠ x → s'.locked y = s.locked y) : Locks s' := by
  constructor
  · rw [hm']
    refine hl.toGuards.acquire hm (x := x) fun y hy => ?_
    by_cases hyx : y = x
    · exact .inr hyx
    · exact .inl ((h y hyx).symm.trans hy)
  · exact fun _ => ⟨x, hx⟩

omit [DecidableEq γ] [DecidableEq ω] [Fintype ω] in
theorem Locks.release (hl : Locks s) (hm' : s'.mtx = false) {x : Who γ ω} (hx : s.locked x = true)
    (hx' : s'.locked x = false) (h : ∀ y, y ≠ x → s'.locked y = s.locked y) : Locks s' := by
  constructor
  · refine hl.toGuards.release hx (fun y hy => ?_) s'.mtx
    by_cases hyx : y = x
    · subst hyx
      rw [hx'] at hy
      cases hy
    · exact ⟨(h y hyx).symm.trans hy, hyx⟩
  · intro hmtx
    rw [hm'] at hmtx
    cases hmtx

omit [Fintype ω] in
theorem locked_setCall_self {c : γ ⊕ ω} {p : CallPc} : (s.setCall c p).locked (.call c) = p.locked :=
  congrArg CallPc.locked (update_self ..)

omit [DecidableEq γ] [Fintype ω] in
theorem locked_setWorker_self {w : ω} {p : WorkerPc} : (s.setWorker w p).locked (.worker w) = p.locked :=
  congrArg WorkerPc.locked (update_self ..)

omit [Fintype ω] in
theorem locked_setCall_of_ne {c : γ ⊕ ω} {p : CallPc} {x : Who γ ω} (hx : x ≠ .call c) :
    (s.setCall c p).locked x = s.locked x := by
  cases x with
  | call c' =>
    have hne : c' ≠ c := fun h => hx (h ▸ rfl)
    exact congrArg CallPc.locked (update_of_ne hne ..)
  | worker w => rfl
  | stop => rfl

omit [DecidableEq γ] [Fintype ω] in
theorem locked_setWorker_of_ne {w : ω} {p : WorkerPc} {x : Who γ ω} (hx : x ≠ .worker w) :
    (s.setWorker w p).locked x = s.locked x := by
  cases x with
  | call c => rfl
  | worker w' =>
    have hne : w' ≠ w := fun h => hx (h ▸ rfl)
    exact congrArg WorkerPc.locked (update_of_ne hne ..)
  | stop => rfl

omit [DecidableEq γ] [DecidableEq ω] [Fintype ω] in
theorem locked_setStop_of_ne {p : StopPc} {x : Who γ ω} (hx : x ≠ .stop) :
    (s.setStop p).locked x = s.locked x := by
  cases x with
  | call c => rfl
  | worker w => rfl
  | stop => exact absurd rfl hx

omit [Fintype ω] in
theorem locked_setCall {c : γ ⊕ ω} {p : CallPc} (hp : p.locked = (s.call c).locked) (x : Who γ ω) :
    (s.setCall c p).locked x = s.locked x := by
  by_cases hx : x = .call c
  · subst hx
    exact locked_setCall_self.trans hp
  · exact locked_setCall_of_ne hx

omit [DecidableEq γ] [Fintype ω] in
theorem locked_setWorker {w : ω} {p : WorkerPc} (hp : p.locked = (s.worker w).locked) (x : Who γ ω) :
    (s.setWorker w p).locked x = s.locked x := by
  by_cases hx : x = .worker w
  · subst hx
    exact locked_setWorker_self.trans hp
  · exact locked_setWorker_of_ne hx

omit [DecidableEq γ] [DecidableEq ω] [Fintype ω] in
theorem locked_setStop {p : StopPc} (hp : p.locked = s.stop.locked) (x : Who γ ω) :
    (s.setStop p).locked x = s.locked x := by
  by_cases hx : x = .stop
  · subst hx
    exact hp
  · exact locked_setStop_of_ne hx

omit [DecidableEq γ] [DecidableEq ω] [Fintype ω] in
theorem locked_notifyAll {asleep awake : WorkerPc} (h : awake.locked = asleep.locked) (x : Who γ ω) :
    (s.notifyAll asleep awake).locked x = s.locked x := by
  cases x with
  | worker w =>
    change (if s.worker w = asleep then awake else s.worker w).locked = (s.worker w).locked
    split
    · next hw => rw [hw, h]
    · rfl
  | _ => rfl

omit [DecidableEq γ] [DecidableEq ω] [Fintype ω] in
theorem locked_unparkAll (x : Who γ ω) : s.unparkAll.locked x = s.locked x := by
  cases x with
  | call c =>
    change (if s.call c = .parked then CallPc.loadCounter else s.call c).locked = (s.call c).locked
    split
    · next hc => rw [hc]; rfl
    · rfl
  | _ => rfl

omit [DecidableEq γ] [DecidableEq ω] [Fintype ω] in
theorem CallMove.locked_eq {p p' : CallPc} (h : CallMove s p p') : p'.locked = p.locked := by
  cases h <;> rfl

omit [DecidableEq γ] [DecidableEq ω] [Fintype ω] in
theorem WorkMove.locked_eq {p p' : WorkerPc} (h : WorkMove s p p') : p'.locked = p.locked := by
  cases h <;> rfl

omit [DecidableEq γ] [DecidableEq ω] in
theorem StopMove.locked_eq {p p' : StopPc} (h : StopMove s p p') : p'.locked = p.locked := by
  cases h <;> rfl

theorem Locks.step (hl : Locks s) {a : Act γ ω} (he : Effect s a s') : Locks s' := by
  cases he with
  | callMove move => exact hl.same rfl (locked_setCall move.locked_eq)
  | workMove move => exact hl.same rfl (locked_setWorker move.locked_eq)
  | stopMove move => exact hl.same rfl (locked_setStop move.locked_eq)
  | @submit c can =>
    exact hl.same rfl (locked_setCall (p := .add s.tasks) (by rw [canCall_idle can]; rfl))
  | waitIdle can => exact hl.same rfl (locked_setCall (by rw [canCall_idle can]; rfl))
  | add at_ next =>
    refine hl.same rfl (locked_setCall (s := s.setCounter (s.counter + 1)) ?_)
    change _ = (s.call _).locked
    rcases next with ⟨-, rfl⟩ | ⟨-, rfl⟩ <;> rw [at_] <;> rfl
  | storeZero at_ =>
    exact hl.same rfl (locked_setCall (s := s.setDone false) (congrArg CallPc.locked at_).symm)
  | @put c pick t at_ opened =>
    exact hl.same rfl (locked_setCall (s := s.setQueue (s.queue ++ [t])) (congrArg CallPc.locked at_).symm)
  | @notifyTake c w t at_ asleep =>
    have hw := locked_setWorker (s := s) (w := w) (p := .take) (by rw [asleep]; rfl)
    have hc : (CallPc.setRunning t).locked = ((s.setWorker w .take).call c).locked :=
      (congrArg CallPc.locked at_).symm
    exact hl.same rfl fun x => (locked_setCall hc x).trans (hw x)
  | notifyNoTake at_ => exact hl.same rfl (locked_setCall (by rw [at_]; rfl))
  | setRunning at_ =>
    exact hl.same rfl (locked_setCall (s := s.setRunning true) (congrArg CallPc.locked at_).symm)
  | @callLock c pick t at_ free =>
    exact hl.acquire free rfl (x := .call c) locked_setCall_self
      fun y hy => locked_setCall_of_ne (s := s.setMtx true) hy
  | @notifyRoutine c w t at_ asleep =>
    have hw := locked_setWorker (s := s) (w := w) (p := .lockMtx) (by rw [asleep]; rfl)
    have hc : (CallPc.unlockMtx t).locked = ((s.setWorker w .lockMtx).call c).locked :=
      (congrArg CallPc.locked at_).symm
    exact hl.same rfl fun x => (locked_setCall hc x).trans (hw x)
  | notifyNoRoutine at_ => exact hl.same rfl (locked_setCall (by rw [at_]; rfl))
  | @callUnlock c pick t at_ =>
    exact hl.release rfl (x := .call c) (congrArg CallPc.locked at_) locked_setCall_self
      fun y hy => locked_setCall_of_ne (s := s.setMtx false) hy
  | @take w t q at_ queue =>
    exact hl.same rfl (locked_setWorker (s := s.setQueue q) (congrArg WorkerPc.locked at_).symm)
  | @finish w t at_ free =>
    exact hl.same rfl (locked_setWorker (s := s.finish t) (congrArg WorkerPc.locked at_).symm)
  | fetchSub at_ next =>
    refine hl.same rfl (locked_setWorker (s := s.setCounter (s.counter - 1)) ?_)
    change _ = (s.worker _).locked
    rcases next with ⟨-, rfl⟩ | ⟨-, rfl⟩ <;> rw [at_] <;> rfl
  | storeOne at_ =>
    exact hl.same rfl (locked_setWorker (s := s.setDone true) (congrArg WorkerPc.locked at_).symm)
  | @wakeAll w at_ =>
    have hw : WorkerPc.lockMtx.locked = (s.unparkAll.worker w).locked := (congrArg WorkerPc.locked at_).symm
    exact hl.same rfl fun x => (locked_setWorker hw x).trans (locked_unparkAll x)
  | @workLock w at_ free =>
    exact hl.acquire free rfl (x := .worker w) locked_setWorker_self
      fun y hy => locked_setWorker_of_ne (s := s.setMtx true) hy
  | @sleepRoutine w at_ =>
    exact hl.release rfl (x := .worker w) (congrArg WorkerPc.locked at_)
      locked_setWorker_self fun y hy => locked_setWorker_of_ne (s := s.setMtx false) hy
  | @workUnlock w at_ =>
    exact hl.release rfl (x := .worker w) (congrArg WorkerPc.locked at_)
      locked_setWorker_self fun y hy => locked_setWorker_of_ne (s := s.setMtx false) hy
  | clear at_ => exact hl.same rfl (locked_setStop (s := s.setRunning false) (congrArg StopPc.locked at_).symm)
  | close at_ =>
    exact hl.same rfl (locked_setStop (s := { s with opened := false }) (congrArg StopPc.locked at_).symm)
  | notifyAllTake at_ =>
    have hp : StopPc.lockMtx.locked = (s.notifyAll .sleepTake .take).stop.locked :=
      (congrArg StopPc.locked at_).symm
    exact hl.same rfl fun x => (locked_setStop hp x).trans (locked_notifyAll (s := s) (by rfl) x)
  | stopLock at_ free =>
    exact hl.acquire free rfl (x := .stop) rfl fun y hy => locked_setStop_of_ne (s := s.setMtx true) hy
  | notifyAllRoutine at_ =>
    have hp : StopPc.unlockMtx.locked = (s.notifyAll .sleepRoutine .lockMtx).stop.locked :=
      (congrArg StopPc.locked at_).symm
    exact hl.same rfl fun x => (locked_setStop hp x).trans (locked_notifyAll (s := s) (by rfl) x)
  | stopUnlock at_ =>
    exact hl.release rfl (x := .stop) (congrArg StopPc.locked at_) rfl
      fun y hy => locked_setStop_of_ne (s := s.setMtx false) hy

omit [DecidableEq γ] [DecidableEq ω] [Fintype ω] in
theorem locks_init : Locks (init : State γ ω) := by
  refine ⟨⟨fun x hx => ?_, fun x y hx => ?_⟩, nofun⟩
  · cases x <;> cases hx
  · cases x <;> cases hx

end locks

end ThreadPool
