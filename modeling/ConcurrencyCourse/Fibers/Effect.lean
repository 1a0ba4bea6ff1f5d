import ConcurrencyCourse.Lib.Places
import ConcurrencyCourse.Fibers.Fiber

/-!
# Where a fiber is, and what a step does

A worker can have a fiber in three ways (`Hand`): it executes its `Run` or its routine, it handles it in
`AwaitSuspend`, or it has taken it out of a wait queue and is about to schedule it. `Effect` lists the steps
of `Fibers.Fiber.step` once; the invariants are proved from it.
-/

namespace Fibers.Fiber

open Function

variable {φ ω μ ε : Type}

inductive Hand where
  | executes
  | handles
  | wakes
  deriving DecidableEq, Repr

/-- A fiber is with a worker, with the scheduler, or in one of the wait queues. -/
inductive Place (ω μ ε : Type) where
  | worker (k : Hand) (w : ω)
  | scheduled
  | parked (m : μ)
  | waits (e : ε)
  deriving DecidableEq, Repr

/-- What `UnlockAwaiter` has taken, until it is scheduled. -/
def UnlockPc.taken : UnlockPc φ → Option φ
  | .readEmpty u | .storeSt u _ | .unlockMtx u | .schedule u => some u
  | _ => none

/-- What `Fire` has taken, until it is scheduled. -/
def FirePc.taken : FirePc φ → Option φ
  | .readNext u | .schedule u _ => some u
  | _ => none

def Pc.hand : Hand → Pc φ μ ε → Option φ
  | .executes, .run f | .executes, .routine f | .executes, .fire f _ _ | .executes, .resumed f => some f
  | .handles, .schedule f | .handles, .unlock f _ _ => some f
  -- in the wait queue already
  | .handles, .lock _ _ .unlockParked | .handles, .wait _ _ .unlockParked => none
  | .handles, .lock f _ _ | .handles, .wait f _ _ => some f
  | .wakes, .unlock _ _ pc => pc.taken
  | .wakes, .fire _ _ pc => pc.taken
  | _, _ => none

def State.isAt (s : State φ ω μ ε) (f : φ) : Place ω μ ε → Prop
  | .worker k w => (s.worker w).hand k = some f
  | .scheduled => f ∈ s.tasks
  | .parked m => f ∈ (s.mutex m).parkQ
  | .waits e => f ∈ (s.event e).waitQ

/-- Made, and not deleted. -/
def State.live (s : State φ ω μ ε) (f : φ) : Prop := s.coro f ≠ .unborn ∧ f ∉ s.deleted

/-- The awaiter that a worker is in the `AwaitSuspend` of, and its fiber. -/
def Pc.awaits : Pc φ μ ε → Option (φ × Awaiter μ ε)
  | .lock f m _ => some (f, .lock m)
  | .unlock f m _ => some (f, .unlock m)
  | .wait f e _ => some (f, .wait e)
  | _ => none

/-- Under `mtx_`. -/
def Pc.inMtx : Pc φ μ ε → Option μ
  | .lock _ m .load | .lock _ m .casWaiters | .lock _ m .put | .lock _ m .unlockParked
  | .lock _ m .unlockRetry => some m
  | .unlock _ m .take | .unlock _ m (.readEmpty _) | .unlock _ m (.storeSt _ _)
  | .unlock _ m (.unlockMtx _) | .unlock _ m .thrown => some m
  | _ => none

/-- Under `lock_`. -/
def Pc.inLock : Pc φ μ ε → Option ε
  | .wait _ e .load | .wait _ e .put | .wait _ e .unlockParked | .wait _ e .unlockFired => some e
  | .fire _ e .store | .fire _ e .readEmpty | .fire _ e (.unlock _) => some e
  | _ => none

def Pc.fires : Pc φ μ ε → Option ε
  | .fire _ e _ => some e
  | _ => none

/-! ### Steps that leave every fiber in its place -/

/-- Nothing shared is written. -/
inductive Move (s : State φ ω μ ε) : Pc φ μ ε → Pc φ μ ε → Prop where
  | lockCas {f : φ} {m : μ} : Move s (.lock f m .cas) (.lock f m .lockMtx)
  | load {f : φ} {m : μ} : Move s (.lock f m .load) (.lock f m .put)
  | loadOther {f : φ} {m : μ} : Move s (.lock f m .load) (.lock f m .casWaiters)
  | casWaiters {f : φ} {m : μ} : Move s (.lock f m .casWaiters) (.lock f m .unlockRetry)
  | unlockCas {f : φ} {m : μ} : Move s (.unlock f m .cas) (.unlock f m .lockMtx)
  | takeNone {f : φ} {m : μ} : Move s (.unlock f m .take) (.unlock f m .thrown)
  | readEmpty {f u : φ} {m : μ} {b : Bool} : Move s (.unlock f m (.readEmpty u)) (.unlock f m (.storeSt u b))
  | loadFired {f : φ} {e : ε} : Move s (.wait f e .load) (.wait f e .unlockFired)
  | loadUnfired {f : φ} {e : ε} (unfired : (s.event e).isFired = false) :
      Move s (.wait f e .load) (.wait f e .put)
  | fireEmpty {f : φ} {e : ε} {b : Bool} : Move s (.fire f e .readEmpty) (.fire f e (.unlock b))
  | fireTakeNone {f : φ} {e : ε} : Move s (.fire f e .take) (.fire f e .thrown)
  | readNext {f u : φ} {e : ε} {b : Bool} : Move s (.fire f e (.readNext u)) (.fire f e (.schedule u b))

/-- `st_` is written under `mtx_`. -/
inductive StoresSt (m : μ) : Pc φ μ ε → Pc φ μ ε → Prop where
  | casWaiters {f : φ} : StoresSt m (.lock f m .casWaiters) (.lock f m .put)
  | storeSt {f u : φ} {b : Bool} : StoresSt m (.unlock f m (.storeSt u b)) (.unlock f m (.unlockMtx u))

inductive LocksMtx (m : μ) : Pc φ μ ε → Pc φ μ ε → Prop where
  | lock {f : φ} : LocksMtx m (.lock f m .lockMtx) (.lock f m .load)
  | unlock {f : φ} : LocksMtx m (.unlock f m .lockMtx) (.unlock f m .take)

inductive UnlocksMtx (m : μ) : Pc φ μ ε → Pc φ μ ε → Prop where
  | parked {f : φ} : UnlocksMtx m (.lock f m .unlockParked) .idle
  | retry {f : φ} : UnlocksMtx m (.lock f m .unlockRetry) (.lock f m .cas)
  | taken {f u : φ} : UnlocksMtx m (.unlock f m (.unlockMtx u)) (.unlock f m (.schedule u))

inductive Locks (e : ε) : Pc φ μ ε → Pc φ μ ε → Prop where
  | wait {f : φ} : Locks e (.wait f e .lock) (.wait f e .load)
  | fire {f : φ} : Locks e (.fire f e .lock) (.fire f e .store)

inductive Unlocks (e : ε) : Pc φ μ ε → Pc φ μ ε → Prop where
  | parked {f : φ} : Unlocks e (.wait f e .unlockParked) .idle
  | fired {f : φ} : Unlocks e (.wait f e .unlockFired) (.schedule f)
  | fire {f : φ} {b : Bool} : Unlocks e (.fire f e (.unlock b)) (fireLoop f e b)

/-! ### Steps with a fiber that goes elsewhere -/

/-- `AwaitSuspend` runs its own fiber, and has written `st_` before or not. -/
inductive RunsOwn (f : φ) : Pc φ μ ε → Prop where
  | lock {m : μ} : RunsOwn f (.lock f m .cas)
  | unlock {m : μ} : RunsOwn f (.unlock f m .cas)
  | runReleased {m : μ} : RunsOwn f (.unlock f m .runReleased)

/-- `x->Schedule()`. -/
inductive Submits (x : φ) : Hand → Pc φ μ ε → Pc φ μ ε → Prop where
  | own : Submits x .handles (.schedule x) .idle
  | unlock {f : φ} {m : μ} : Submits x .wakes (.unlock f m (.schedule x)) (.unlock f m .runReleased)
  | fire {f : φ} {e : ε} {b : Bool} : Submits x .wakes (.fire f e (.schedule x b)) (fireLoop f e b)

variable [DecidableEq φ] [DecidableEq ω] [DecidableEq μ] [DecidableEq ε]

/-- All steps. -/
inductive Effect (s : State φ ω μ ε) : State φ ω μ ε → Prop where
  | go {f : φ} (unborn : s.coro f = .unborn) : Effect s ((s.setCoro f .suspended).submit f)
  | take {w : ω} {f : φ} {rest : List φ} (at_ : s.worker w = .idle) (tasks : s.tasks = f :: rest) :
      Effect s ({ s with tasks := rest }.setWorker w (.run f))
  | suspend {w : ω} {f : φ} {a : Awaiter μ ε} {h : φ → μ → Bool} (at_ : s.worker w = .routine f) :
      Effect s (({ s with holds := h }.suspend f a).setWorker w (.resumed f))
  | callFire {w : ω} {f : φ} {e : ε} (at_ : s.worker w = .routine f) (first : s.fireCalled e = false) :
      Effect s ((s.callFire e).setWorker w (.fire f e .lock))
  | complete {w : ω} {f : φ} (at_ : s.worker w = .routine f) :
      Effect s ((s.setCoro f .completed).setWorker w (.resumed f))
  | resume {w : ω} {f : φ} (at_ : s.worker w = .run f) : Effect s ((s.resume f).setWorker w (.routine f))
  | delete {w : ω} {f : φ} (at_ : s.worker w = .resumed f) (completed : s.coro f = .completed) :
      Effect s ((s.delete f).setWorker w .idle)
  | await {w : ω} {f : φ} {a : Awaiter μ ε} (at_ : s.worker w = .resumed f) (running : s.coro f ≠ .completed)
      (awaiter : s.awaiter f = some a) : Effect s ((s.takeAwaiter f).setWorker w (awaitSuspend f a))
  | move {w : ω} {p p' : Pc φ μ ε} (at_ : s.worker w = p) (next : Move s p p') : Effect s (s.setWorker w p')
  | storeSt {w : ω} {m : μ} {st : Status} {p p' : Pc φ μ ε} (at_ : s.worker w = p) (next : StoresSt m p p') :
      Effect s ((s.setSt m st).setWorker w p')
  | lockMtx {w : ω} {m : μ} {p p' : Pc φ μ ε} (at_ : s.worker w = p) (next : LocksMtx m p p')
      (free : (s.mutex m).mtx = false) : Effect s ((s.setMtx m true).setWorker w p')
  | unlockMtx {w : ω} {m : μ} {p p' : Pc φ μ ε} (at_ : s.worker w = p) (next : UnlocksMtx m p p') :
      Effect s ((s.setMtx m false).setWorker w p')
  | lock {w : ω} {e : ε} {p p' : Pc φ μ ε} (at_ : s.worker w = p) (next : Locks e p p')
      (free : (s.event e).lock = false) : Effect s ((s.setLock e true).setWorker w p')
  | unlock {w : ω} {e : ε} {p p' : Pc φ μ ε} (at_ : s.worker w = p) (next : Unlocks e p p') :
      Effect s ((s.setLock e false).setWorker w p')
  | storeFired {w : ω} {f : φ} {e : ε} (at_ : s.worker w = .fire f e .store) :
      Effect s ((s.setFired e).setWorker w (.fire f e .readEmpty))
  | casRun {w : ω} {f : φ} {m : μ} {st : Status} {p : Pc φ μ ε} (at_ : s.worker w = p) (own : RunsOwn f p) :
      Effect s ((s.setSt m st).setWorker w (.run f))
  | run {w : ω} {f : φ} {p : Pc φ μ ε} (at_ : s.worker w = p) (own : RunsOwn f p) :
      Effect s (s.setWorker w (.run f))
  | submit {w : ω} {x : φ} {k : Hand} {p p' : Pc φ μ ε} (at_ : s.worker w = p) (next : Submits x k p p') :
      Effect s ((s.submit x).setWorker w p')
  | park {w : ω} {f : φ} {m : μ} (at_ : s.worker w = .lock f m .put) :
      Effect s ((s.setParkQ m ((s.mutex m).parkQ ++ [f])).setWorker w (.lock f m .unlockParked))
  | unpark {w : ω} {f u : φ} {m : μ} {q : List φ} (at_ : s.worker w = .unlock f m .take)
      (parkQ : (s.mutex m).parkQ = u :: q) :
      Effect s ((s.setParkQ m q).setWorker w (.unlock f m (.readEmpty u)))
  | enqueue {w : ω} {f : φ} {e : ε} (at_ : s.worker w = .wait f e .put) :
      Effect s ((s.setWaitQ e ((s.event e).waitQ ++ [f])).setWorker w (.wait f e .unlockParked))
  | dequeue {w : ω} {f u : φ} {e : ε} {q : List φ} (at_ : s.worker w = .fire f e .take)
      (waitQ : (s.event e).waitQ = u :: q) :
      Effect s ((s.setWaitQ e q).setWorker w (.fire f e (.readNext u)))

section inversion

variable {s s' : State φ ω μ ε} {w : ω}

theorem lockStep_effect {f : φ} {m : μ} {pc : LockPc} (hp : s.worker w = .lock f m pc)
    (h : lockStep s w f m pc = some s') : Effect s s' := by
  cases pc with
  | cas =>
    simp only [lockStep] at h
    split at h
    · cases h; exact .casRun hp .lock
    · cases h; exact .move hp .lockCas
  | lockMtx =>
    simp only [lockStep] at h
    split at h
    · cases h
    · next hfree => cases h; exact .lockMtx hp .lock (Bool.eq_false_iff.2 hfree)
  | load =>
    simp only [lockStep] at h
    split at h
    · cases h; exact .move hp .load
    · cases h; exact .move hp .loadOther
  | casWaiters =>
    simp only [lockStep] at h
    split at h
    · cases h; exact .storeSt hp .casWaiters
    · cases h; exact .move hp .casWaiters
  | put => cases h; exact .park hp
  | unlockParked => cases h; exact .unlockMtx hp .parked
  | unlockRetry => cases h; exact .unlockMtx hp .retry

theorem unlockStep_effect {f : φ} {m : μ} {pc : UnlockPc φ} (hp : s.worker w = .unlock f m pc)
    (h : unlockStep s w f m pc = some s') : Effect s s' := by
  cases pc with
  | cas =>
    simp only [unlockStep] at h
    split at h
    · cases h; exact .casRun hp .unlock
    · cases h; exact .move hp .unlockCas
  | lockMtx =>
    simp only [unlockStep] at h
    split at h
    · cases h
    · next hfree => cases h; exact .lockMtx hp .unlock (Bool.eq_false_iff.2 hfree)
  | take =>
    simp only [unlockStep] at h
    split at h
    · cases h; exact .move hp .takeNone
    · next hq => cases h; exact .unpark hp hq
  | readEmpty u => cases h; exact .move hp .readEmpty
  | storeSt u b => cases h; exact .storeSt hp .storeSt
  | unlockMtx u => cases h; exact .unlockMtx hp .taken
  | schedule u => cases h; exact .submit hp .unlock
  | runReleased => cases h; exact .run hp .runReleased
  | thrown => cases h

theorem waitStep_effect {f : φ} {e : ε} {pc : WaitPc} (hp : s.worker w = .wait f e pc)
    (h : waitStep s w f e pc = some s') : Effect s s' := by
  cases pc with
  | lock =>
    simp only [waitStep] at h
    split at h
    · cases h
    · next hfree => cases h; exact .lock hp .wait (Bool.eq_false_iff.2 hfree)
  | load =>
    simp only [waitStep] at h
    split at h
    · cases h; exact .move hp .loadFired
    · next hfired => cases h; exact .move hp (.loadUnfired (Bool.eq_false_iff.2 hfired))
  | put => cases h; exact .enqueue hp
  | unlockParked => cases h; exact .unlock hp .parked
  | unlockFired => cases h; exact .unlock hp .fired

theorem fireStep_effect {f : φ} {e : ε} {pc : FirePc φ} (hp : s.worker w = .fire f e pc)
    (h : fireStep s w f e pc = some s') : Effect s s' := by
  cases pc with
  | lock =>
    simp only [fireStep] at h
    split at h
    · cases h
    · next hfree => cases h; exact .lock hp .fire (Bool.eq_false_iff.2 hfree)
  | store => cases h; exact .storeFired hp
  | readEmpty => cases h; exact .move hp .fireEmpty
  | unlock b => cases h; exact .unlock hp .fire
  | take =>
    simp only [fireStep] at h
    split at h
    · cases h; exact .move hp .fireTakeNone
    · next hq => cases h; exact .dequeue hp hq
  | readNext u => cases h; exact .move hp .readNext
  | schedule u b => cases h; exact .submit hp .fire
  | thrown => cases h

theorem callStep_effect {a : Awaiter μ ε} {h : φ → μ → Bool}
    (hs : callStep { s with holds := h } w a = some s') : Effect s s' := by
  unfold callStep at hs
  split at hs
  · next hp => cases hs; exact .suspend hp
  · cases hs

theorem workerStep_effect (h : workerStep s w = some s') : Effect s s' := by
  unfold workerStep at h
  split at h
  · cases h
  · cases h
  · next hp => cases h; exact .resume hp
  · next f hp =>
    split at h
    · next hc => cases h; exact .delete hp hc
    · next hc =>
      obtain ⟨a, ha, rfl⟩ := Option.map_eq_some_iff.1 h
      exact .await hp hc ha
  · next hp => cases h; exact .submit hp .own
  · next hp => exact lockStep_effect hp h
  · next hp => exact unlockStep_effect hp h
  · next hp => exact waitStep_effect hp h
  · next hp => exact fireStep_effect hp h

theorem step_effect {a : Act φ ω μ ε} (h : step s a = some s') : Effect s s' := by
  cases a with
  | go f =>
    simp only [step] at h
    split at h
    · next hf => cases h; exact .go hf
    · cases h
  | take w =>
    simp only [step] at h
    split at h
    · next hp hq => cases h; exact .take hp hq
    · cases h
  | yield w => exact callStep_effect (h := s.holds) h
  | lock w m => exact callStep_effect (h := s.holds) h
  | unlock w m =>
    simp only [step] at h
    split at h
    · split at h
      · exact callStep_effect h
      · cases h
    · cases h
  | wait w e => exact callStep_effect (h := s.holds) h
  | fire w e =>
    simp only [step] at h
    split at h
    · next hp =>
      split at h
      · cases h
      · next hfirst => cases h; exact .callFire hp (Bool.eq_false_iff.2 hfirst)
    · cases h
  | complete w =>
    simp only [step] at h
    split at h
    · next hp => cases h; exact .complete hp
    · cases h
  | step w => exact workerStep_effect h

end inversion

end Fibers.Fiber
