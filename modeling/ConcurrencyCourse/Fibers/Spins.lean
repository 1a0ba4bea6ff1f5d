import ConcurrencyCourse.Lib.Lock
import ConcurrencyCourse.Fibers.Effect

/-!
# What the spin locks of `Mutex` and `Event` guard (tasks/fibers/mutex/exe/fibers/sync)

`park_q_` and `wait_q_` are used by one worker at a time, and a fiber that was put there stays there until
the worker that put it has left the lock: a mutex takes fibers out under `mtx_`, an event only once it is
fired, and it is not fired while a worker that has seen it unfired is under `lock_`.
-/

namespace Fibers.Fiber

open Function Transition

export Lock (Guards)

variable {φ ω μ ε : Type}

/-! ### What the spin locks guard -/

/-- Has seen `is_fired_` clear, and is still under `lock_`. -/
def Pc.unfired : Pc φ μ ε → Option ε
  | .wait _ e .put | .wait _ e .unlockParked => some e
  | _ => none

/-- In `Fire`, after the store. -/
def Pc.fired : Pc φ μ ε → Option ε
  | .fire _ _ .lock | .fire _ _ .store => none
  | .fire _ e _ => some e
  | _ => none

/-- Reads or writes `park_q_`. -/
def Pc.usesParkQ : Pc φ μ ε → Option μ
  | .lock _ m .put | .unlock _ m .take | .unlock _ m (.readEmpty _) => some m
  | _ => none

/-- Reads or writes `wait_q_`. -/
def Pc.usesWaitQ : Pc φ μ ε → Option ε
  | .wait _ e .put | .fire _ e .readEmpty | .fire _ e .take | .fire _ e (.readNext _) => some e
  | _ => none

/-- What a worker at `p` has seen is still so. -/
structure SeenBy (s : State φ ω μ ε) (p : Pc φ μ ε) : Prop where
  unfired : ∀ e, p.unfired = some e → (s.event e).isFired = false
  fired : ∀ e, p.fired = some e → (s.event e).isFired = true
  parked : ∀ f m, p = .lock f m .unlockParked → f ∈ (s.mutex m).parkQ
  waits : ∀ f e, p = .wait f e .unlockParked → f ∈ (s.event e).waitQ

structure Spins (s : State φ ω μ ε) : Prop where
  mtx : ∀ m, Guards (s.mutex m).mtx fun w => (s.worker w).inMtx = some m
  lock : ∀ e, Guards (s.event e).lock fun w => (s.worker w).inLock = some e
  firer : ∀ e, Guards (s.fireCalled e) fun w => (s.worker w).fires = some e
  seen : ∀ w, SeenBy s (s.worker w)

section spins

variable {s s' : State φ ω μ ε} {w v : ω} {f : φ} {m : μ} {e : ε} {p p' : Pc φ μ ε}

theorem inLock_of_unfired (h : p.unfired = some e) : p.inLock = some e := by
  unfold Pc.unfired at h
  split at h
  · exact h
  · exact h
  · cases h

theorem fires_of_fired (h : p.fired = some e) : p.fires = some e := by
  unfold Pc.fired at h
  split at h
  · cases h
  · cases h
  · exact h
  · cases h

theorem inMtx_of_usesParkQ (h : p.usesParkQ = some m) : p.inMtx = some m := by
  unfold Pc.usesParkQ at h
  split at h
  · exact h
  · exact h
  · exact h
  · cases h

/-- Under `lock_` and not fired, or fired and in `Fire`. -/
theorem usesWaitQ_cases (h : p.usesWaitQ = some e) :
    p.unfired = some e ∧ p.inLock = some e ∨ p.fired = some e := by
  unfold Pc.usesWaitQ at h
  split at h
  · exact .inl ⟨h, h⟩
  · exact .inr h
  · exact .inr h
  · exact .inr h
  · cases h

/-- `park_q_` is used by one worker at a time. -/
theorem Spins.parkQ_exclusive (hs : Spins s) (hw : (s.worker w).usesParkQ = some m)
    (hv : (s.worker v).usesParkQ = some m) : w = v :=
  (hs.mtx m).unique w v (inMtx_of_usesParkQ hw) (inMtx_of_usesParkQ hv)

/-- `wait_q_` is used by one worker at a time. -/
theorem Spins.waitQ_exclusive (hs : Spins s) (hw : (s.worker w).usesWaitQ = some e)
    (hv : (s.worker v).usesWaitQ = some e) : w = v := by
  rcases usesWaitQ_cases hw with ⟨hw, hwl⟩ | hw
  · rcases usesWaitQ_cases hv with ⟨-, hvl⟩ | hv
    · exact (hs.lock e).unique w v hwl hvl
    · cases ((hs.seen w).unfired e hw).symm.trans ((hs.seen v).fired e hv)
  · rcases usesWaitQ_cases hv with ⟨hv, -⟩ | hv
    · cases ((hs.seen v).unfired e hv).symm.trans ((hs.seen w).fired e hw)
    · exact (hs.firer e).unique w v (fires_of_fired hw) (fires_of_fired hv)

/-! A step keeps what the others have seen: `s'` differs from `s` in the worker `w`, which is at `p'`. -/

variable [DecidableEq ω]

theorem forall_worker {P : ω → Pc φ μ ε → Prop} (hw : s'.worker = update s.worker w p') (hp : P w p')
    (ho : ∀ v, v ≠ w → P v (s.worker v)) (v : ω) : P v (s'.worker v) := by
  rw [hw]
  rcases eq_or_ne v w with rfl | hv
  · rwa [update_self]
  · rw [update_of_ne hv]
    exact ho v hv

omit [DecidableEq ω] in
/-- The queues have not lost what matters to `p`, and its event has not been fired. -/
theorem SeenBy.mono (h : SeenBy s p)
    (hunfired : ∀ e, p.unfired = some e → (s.event e).isFired = false → (s'.event e).isFired = false)
    (hfired : ∀ e, (s.event e).isFired = true → (s'.event e).isFired = true)
    (hpark : ∀ f m, p = .lock f m .unlockParked → f ∈ (s.mutex m).parkQ → f ∈ (s'.mutex m).parkQ)
    (hwait : ∀ f e, p = .wait f e .unlockParked → f ∈ (s.event e).waitQ → f ∈ (s'.event e).waitQ) :
    SeenBy s' p :=
  ⟨fun e he => hunfired e he (h.unfired e he), fun e he => hfired e (h.fired e he),
    fun f m hp => hpark f m hp (h.parked f m hp), fun f e hp => hwait f e hp (h.waits f e hp)⟩

omit [DecidableEq ω] in
/-- At a place that has seen nothing. -/
theorem SeenBy.nothing (h1 : p.unfired = none) (h2 : p.fired = none)
    (h3 : ∀ f m, p ≠ .lock f m .unlockParked) : SeenBy s p where
  unfired e he := by rw [h1] at he; cases he
  fired e he := by rw [h2] at he; cases he
  parked f m hp := absurd hp (h3 f m)
  waits f e hp := by rw [hp] at h1; cases h1

/-- The flags and the queues are as before. -/
structure SameQueues (s s' : State φ ω μ ε) : Prop where
  parkQ : ∀ m, (s'.mutex m).parkQ = (s.mutex m).parkQ
  isFired : ∀ e, (s'.event e).isFired = (s.event e).isFired
  waitQ : ∀ e, (s'.event e).waitQ = (s.event e).waitQ

omit [DecidableEq ω] in
theorem SeenBy.same (h : SeenBy s p) (hq : SameQueues s s') : SeenBy s' p :=
  h.mono (fun e _ he => (hq.isFired e).trans he) (fun e he => (hq.isFired e).trans he)
    (fun _ m _ hf => (hq.parkQ m).symm ▸ hf) fun _ e _ hf => (hq.waitQ e).symm ▸ hf

theorem Spins.seen_keep (hs : Spins s) (hw : s'.worker = update s.worker w p') (hq : SameQueues s s')
    (hp : SeenBy s' p') : ∀ v, SeenBy s' (s'.worker v) :=
  forall_worker (P := fun _ p => SeenBy s' p) hw hp fun v _ => (hs.seen v).same hq

/-- `p'` has entered nothing that `p` had not. -/
structure Calm (p p' : Pc φ μ ε) : Prop where
  inMtx : ∀ m, p'.inMtx = some m → p.inMtx = some m
  inLock : ∀ e, p'.inLock = some e → p.inLock = some e
  fires : ∀ e, p'.fires = some e → p.fires = some e

/-- The locks are as before. -/
structure SameLocks (s s' : State φ ω μ ε) : Prop where
  mtx : ∀ m, (s'.mutex m).mtx = (s.mutex m).mtx
  lock : ∀ e, (s'.event e).lock = (s.event e).lock
  fireCalled : s'.fireCalled = s.fireCalled

/-- A step that neither locks nor unlocks. -/
theorem Spins.keep (hs : Spins s) (hl : SameLocks s s') (hw : s'.worker = update s.worker w p')
    (hc : Calm (s.worker w) p') (hseen : ∀ v, SeenBy s' (s'.worker v)) : Spins s' := by
  refine ⟨fun m => ?_, fun e => ?_, fun e => ?_, hseen⟩
  · rw [hw, hl.mtx]
    exact (hs.mtx m).stay (hc.inMtx m)
  · rw [hw, hl.lock]
    exact (hs.lock e).stay (hc.inLock e)
  · rw [hw, hl.fireCalled]
    exact (hs.firer e).stay (hc.fires e)

/-- `p'` is in no lock and not in `Fire`. -/
theorem Spins.outside (hs : Spins s) (hl : SameLocks s s') (hq : SameQueues s s')
    (hw : s'.worker = update s.worker w p') (h1 : p'.inMtx = none) (h2 : p'.inLock = none)
    (h3 : p'.fires = none) : Spins s' := by
  refine hs.keep hl hw ⟨?_, ?_, ?_⟩ (hs.seen_keep hw hq (.nothing ?_ ?_ ?_))
  · rw [h1]; nofun
  · rw [h2]; nofun
  · rw [h3]; nofun
  · cases hu : p'.unfired with
    | none => rfl
    | some e => cases (inLock_of_unfired hu).symm.trans h2
  · cases hf : p'.fired with
    | none => rfl
    | some e => cases (fires_of_fired hf).symm.trans h3
  · rintro f m rfl
    cases h1

omit [DecidableEq ω] in
theorem proj_update {α β γ : Type} [DecidableEq α] (g : β → γ) {l : α → β} {i : α} {x : β}
    (h : g x = g (l i)) (j : α) : g (update l i x j) = g (l j) := by
  rcases eq_or_ne j i with rfl | hj
  · rw [update_self, h]
  · rw [update_of_ne hj]

variable [DecidableEq φ] [DecidableEq μ] [DecidableEq ε]

omit [DecidableEq φ] [DecidableEq ε] in
/-- A write to the members of a mutex that leaves `park_q_` alone. -/
theorem sameQueues_setMutex {x : MutexState φ} (h : x.parkQ = (s.mutex m).parkQ) (p' : Pc φ μ ε) :
    SameQueues s ((s.setMutex m x).setWorker w p') :=
  ⟨proj_update (fun y : MutexState φ => y.parkQ) h, fun _ => rfl, fun _ => rfl⟩

omit [DecidableEq φ] [DecidableEq μ] in
theorem sameQueues_setEvent {x : EventState φ} (h1 : x.isFired = (s.event e).isFired)
    (h2 : x.waitQ = (s.event e).waitQ) (p' : Pc φ μ ε) : SameQueues s ((s.setEvent e x).setWorker w p') :=
  ⟨fun _ => rfl, proj_update (fun y : EventState φ => y.isFired) h1,
    proj_update (fun y : EventState φ => y.waitQ) h2⟩

omit [DecidableEq φ] [DecidableEq ε] in
theorem sameLocks_setMutex {x : MutexState φ} (h : x.mtx = (s.mutex m).mtx) (p' : Pc φ μ ε) :
    SameLocks s ((s.setMutex m x).setWorker w p') :=
  ⟨proj_update (fun y : MutexState φ => y.mtx) h, fun _ => rfl, rfl⟩

omit [DecidableEq φ] [DecidableEq μ] in
theorem sameLocks_setEvent {x : EventState φ} (h : x.lock = (s.event e).lock) (p' : Pc φ μ ε) :
    SameLocks s ((s.setEvent e x).setWorker w p') :=
  ⟨fun _ => rfl, proj_update (fun y : EventState φ => y.lock) h, rfl⟩

omit [DecidableEq φ] [DecidableEq μ] [DecidableEq ε] in
theorem Spins.move (hs : Spins s) (at_ : s.worker w = p) (next : Move s p p') : Spins (s.setWorker w p') := by
  have hq : SameQueues s (s.setWorker w p') := ⟨fun _ => rfl, fun _ => rfl, fun _ => rfl⟩
  have hseen := at_ ▸ hs.seen w
  refine hs.keep ⟨fun _ => rfl, fun _ => rfl, rfl⟩ rfl (at_ ▸ ?_) (hs.seen_keep rfl hq ?_)
  · cases next <;> exact ⟨fun _ h => h, fun _ h => h, fun _ h => h⟩
  · cases next with
    | loadUnfired unfired =>
      exact ⟨fun e he => by cases he; exact unfired, nofun, nofun, nofun⟩
    | fireEmpty => exact ⟨nofun, hseen.fired, nofun, nofun⟩
    | fireTakeNone => exact ⟨nofun, hseen.fired, nofun, nofun⟩
    | readNext => exact ⟨nofun, hseen.fired, nofun, nofun⟩
    | _ => exact .nothing rfl rfl nofun

omit [DecidableEq φ] [DecidableEq ε] in
theorem Spins.storeSt (hs : Spins s) {st : Status} (at_ : s.worker w = p) (next : StoresSt m p p') :
    Spins ((s.setSt m st).setWorker w p') := by
  refine hs.keep (sameLocks_setMutex (by rfl) p') rfl (at_ ▸ ?_)
    (hs.seen_keep rfl (sameQueues_setMutex (by rfl) p') ?_)
  · cases next <;> exact ⟨fun _ h => h, fun _ h => h, fun _ h => h⟩
  · cases next <;> exact .nothing rfl rfl nofun

omit [DecidableEq φ] [DecidableEq ε] in
theorem Spins.lockMtx (hs : Spins s) (at_ : s.worker w = p) (next : LocksMtx m p p')
    (free : (s.mutex m).mtx = false) : Spins ((s.setMtx m true).setWorker w p') := by
  refine ⟨fun m' => ?_, fun e => (hs.lock e).stay ?_, fun e => (hs.firer e).stay ?_,
    hs.seen_keep rfl (sameQueues_setMutex (by rfl) p') ?_⟩
  · rcases eq_or_ne m' m with rfl | hm
    · change Guards (update s.mutex m' _ m').mtx _
      rw [update_self]
      exact (hs.mtx m').enter free
    · change Guards (update s.mutex m _ m').mtx _
      rw [update_of_ne hm]
      refine (hs.mtx m').stay fun h => ?_
      cases next <;> exact absurd (Option.some.inj h).symm hm
  · cases next <;> nofun
  · cases next <;> nofun
  · cases next <;> exact .nothing rfl rfl nofun

omit [DecidableEq φ] [DecidableEq ε] in
theorem Spins.unlockMtx (hs : Spins s) (at_ : s.worker w = p) (next : UnlocksMtx m p p') :
    Spins ((s.setMtx m false).setWorker w p') := by
  have hin : (s.worker w).inMtx = some m := by rw [at_]; cases next <;> rfl
  have hout : p'.inMtx = none := by cases next <;> rfl
  refine ⟨fun m' => ?_, fun e => (hs.lock e).stay ?_, fun e => (hs.firer e).stay ?_,
    hs.seen_keep rfl (sameQueues_setMutex (by rfl) p') ?_⟩
  · rcases eq_or_ne m' m with rfl | hm
    · change Guards (update s.mutex m' _ m').mtx _
      rw [update_self]
      exact (hs.mtx m').leave hin (by rw [hout]; nofun) false
    · change Guards (update s.mutex m _ m').mtx _
      rw [update_of_ne hm]
      exact (hs.mtx m').stay (by rw [hout]; nofun)
  · cases next <;> nofun
  · cases next <;> nofun
  · cases next <;> exact .nothing rfl rfl nofun

omit [DecidableEq φ] [DecidableEq μ] in
theorem Spins.locks (hs : Spins s) (at_ : s.worker w = p) (next : Locks e p p')
    (free : (s.event e).lock = false) : Spins ((s.setLock e true).setWorker w p') := by
  refine ⟨fun m => (hs.mtx m).stay ?_, fun e' => ?_, fun e => (hs.firer e).stay (at_ ▸ ?_),
    hs.seen_keep rfl (sameQueues_setEvent (by rfl) (by rfl) p') ?_⟩
  · cases next <;> nofun
  · rcases eq_or_ne e' e with rfl | he
    · change Guards (update s.event e' _ e').lock _
      rw [update_self]
      exact (hs.lock e').enter free
    · change Guards (update s.event e _ e').lock _
      rw [update_of_ne he]
      refine (hs.lock e').stay fun h => ?_
      cases next <;> exact absurd (Option.some.inj h).symm he
  · cases next with
    | wait => nofun
    | fire => exact fun h => h
  · cases next <;> exact .nothing rfl rfl nofun

omit [DecidableEq φ] [DecidableEq μ] in
theorem Spins.unlocks (hs : Spins s) (at_ : s.worker w = p) (next : Unlocks e p p') :
    Spins ((s.setLock e false).setWorker w p') := by
  have hin : (s.worker w).inLock = some e := by rw [at_]; cases next <;> rfl
  have hout : p'.inLock = none := by
    cases next with
    | @fire _ b => cases b <;> rfl
    | _ => rfl
  have hq : SameQueues s ((s.setLock e false).setWorker w p') := sameQueues_setEvent (by rfl) (by rfl) p'
  have hseen := (at_ ▸ hs.seen w : SeenBy s p).same hq
  refine ⟨fun m => (hs.mtx m).stay ?_, fun e' => ?_, fun e => (hs.firer e).stay (at_ ▸ ?_),
    hs.seen_keep rfl hq ?_⟩
  · cases next with
    | @fire _ b => cases b <;> nofun
    | _ => nofun
  · rcases eq_or_ne e' e with rfl | he
    · change Guards (update s.event e' _ e').lock _
      rw [update_self]
      exact (hs.lock e').leave hin (by rw [hout]; nofun) false
    · change Guards (update s.event e _ e').lock _
      rw [update_of_ne he]
      exact (hs.lock e').stay (by rw [hout]; nofun)
  · cases next with
    | @fire _ b =>
      cases b with
      | false => exact fun h => h
      | true => nofun
    | _ => nofun
  · cases next with
    | @fire _ b =>
      cases b with
      | false =>
        exact ⟨nofun, hseen.fired, nofun, nofun⟩
      | true => exact .nothing rfl rfl nofun
    | _ => exact .nothing rfl rfl nofun

omit [DecidableEq φ] [DecidableEq μ] in
/-- Only the worker in `lock_` stores `is_fired_`, and nobody else is there that has seen it clear. -/
theorem Spins.storeFired (hs : Spins s) (at_ : s.worker w = .fire f e .store) :
    Spins ((s.setFired e).setWorker w (.fire f e .readEmpty)) := by
  refine hs.keep (sameLocks_setEvent (by rfl) _) rfl (at_ ▸ ⟨fun _ h => h, fun _ h => h, fun _ h => h⟩)
    (forall_worker (P := fun _ p => SeenBy _ p) rfl ?_ fun v hv => (hs.seen v).mono ?_ ?_ ?_ ?_)
  · refine ⟨nofun, fun e' he' => ?_, nofun, nofun⟩
    cases he'
    change (update s.event e _ e).isFired = true
    rw [update_self]
  · intro e' hu hclear
    rcases eq_or_ne e' e with rfl | he
    · have hin : (s.worker w).inLock = some e' := by rw [at_]; rfl
      exact absurd ((hs.lock e').unique v w (inLock_of_unfired hu) hin) hv
    · change (update s.event e _ e').isFired = false
      rwa [update_of_ne he]
  · intro e' hset
    change (update s.event e _ e').isFired = true
    rcases eq_or_ne e' e with rfl | he
    · rw [update_self]
    · rwa [update_of_ne he]
  · exact fun _ _ _ h => h
  · intro g e' _ hg
    have hwait : ((s.setFired e).event e').waitQ = (s.event e').waitQ :=
      proj_update (fun y : EventState φ => y.waitQ) (by rfl) e'
    exact hwait.symm ▸ hg

omit [DecidableEq φ] [DecidableEq μ] in
theorem Spins.callFire (hs : Spins s) (first : s.fireCalled e = false) :
    Spins ((s.callFire e).setWorker w (.fire f e .lock)) := by
  refine ⟨fun m => (hs.mtx m).stay nofun, fun e => (hs.lock e).stay nofun, fun e' => ?_,
    hs.seen_keep rfl ⟨fun _ => rfl, fun _ => rfl, fun _ => rfl⟩ (.nothing rfl rfl nofun)⟩
  rcases eq_or_ne e' e with rfl | he
  · change Guards (update s.fireCalled e' true e') _
    rw [update_self]
    exact (hs.firer e').enter first
  · change Guards (update s.fireCalled e true e') _
    rw [update_of_ne he]
    exact (hs.firer e').stay fun h => absurd (Option.some.inj h).symm he

omit [DecidableEq φ] [DecidableEq μ] [DecidableEq ε] in
theorem Spins.submit (hs : Spins s) {x : φ} {k : Hand} (at_ : s.worker w = p) (next : Submits x k p p') :
    Spins ((s.submit x).setWorker w p') := by
  have hl : SameLocks s ((s.submit x).setWorker w p') := ⟨fun _ => rfl, fun _ => rfl, rfl⟩
  have hq : SameQueues s ((s.submit x).setWorker w p') := ⟨fun _ => rfl, fun _ => rfl, fun _ => rfl⟩
  cases next with
  | own => exact hs.outside hl hq rfl rfl rfl rfl
  | unlock => exact hs.outside hl hq rfl rfl rfl rfl
  | @fire g e b =>
    have hseen := (at_ ▸ hs.seen w : SeenBy s _).same hq
    cases b with
    | true => exact hs.outside hl hq rfl rfl rfl rfl
    | false =>
      refine hs.keep hl rfl (at_ ▸ ⟨nofun, nofun, fun _ h => h⟩) (hs.seen_keep rfl hq ?_)
      exact ⟨nofun, hseen.fired, nofun, nofun⟩

omit [DecidableEq φ] [DecidableEq ε] in
/-- A worker in the lock of a queue appends to it. -/
theorem Spins.park (hs : Spins s) (at_ : s.worker w = .lock f m .put) :
    Spins ((s.setParkQ m ((s.mutex m).parkQ ++ [f])).setWorker w (.lock f m .unlockParked)) := by
  refine hs.keep (sameLocks_setMutex (by rfl) _) rfl (at_ ▸ ⟨fun _ h => h, fun _ h => h, fun _ h => h⟩)
    (forall_worker (P := fun _ p => SeenBy _ p) rfl ?_ fun v _ => (hs.seen v).mono
      (fun _ _ h => h) (fun _ h => h) ?_ fun _ _ _ h => h)
  · refine ⟨nofun, nofun, fun g m' hp => ?_, nofun⟩
    cases hp
    change f ∈ (update s.mutex m _ m).parkQ
    rw [update_self]
    exact List.mem_append_right _ (List.mem_singleton_self f)
  · intro g m' _ hg
    change g ∈ (update s.mutex m _ m').parkQ
    rcases eq_or_ne m' m with rfl | hm
    · rw [update_self]
      exact List.mem_append_left _ hg
    · rwa [update_of_ne hm]

omit [DecidableEq φ] [DecidableEq μ] in
theorem Spins.enqueue (hs : Spins s) (at_ : s.worker w = .wait f e .put) :
    Spins ((s.setWaitQ e ((s.event e).waitQ ++ [f])).setWorker w (.wait f e .unlockParked)) := by
  have hfired : ∀ e', ((s.setWaitQ e ((s.event e).waitQ ++ [f])).event e').isFired = (s.event e').isFired :=
    proj_update (fun y : EventState φ => y.isFired) (by rfl)
  refine hs.keep (sameLocks_setEvent (by rfl) _) rfl (at_ ▸ ⟨fun _ h => h, fun _ h => h, fun _ h => h⟩)
    (forall_worker (P := fun _ p => SeenBy _ p) rfl ?_ fun v _ => (hs.seen v).mono
      (fun e' _ h => (hfired e').trans h) (fun e' h => (hfired e').trans h) (fun _ _ _ h => h) ?_)
  · refine ⟨fun e' he' => (hfired e').trans ((hs.seen w).unfired e' (at_ ▸ he')), nofun, nofun,
      fun g e' hp => ?_⟩
    cases hp
    change f ∈ (update s.event e _ e).waitQ
    rw [update_self]
    exact List.mem_append_right _ (List.mem_singleton_self f)
  · intro g e' _ hg
    change g ∈ (update s.event e _ e').waitQ
    rcases eq_or_ne e' e with rfl | he
    · rw [update_self]
      exact List.mem_append_left _ hg
    · rwa [update_of_ne he]

omit [DecidableEq φ] [DecidableEq ε] in
/-- Whoever takes out of `park_q_` is under `mtx_`, so nobody else is there with a fiber just put. -/
theorem Spins.unpark (hs : Spins s) {u : φ} {q : List φ} (at_ : s.worker w = .unlock f m .take) :
    Spins ((s.setParkQ m q).setWorker w (.unlock f m (.readEmpty u))) := by
  refine hs.keep (sameLocks_setMutex (by rfl) _) rfl (at_ ▸ ⟨fun _ h => h, fun _ h => h, fun _ h => h⟩)
    (forall_worker (P := fun _ p => SeenBy _ p) rfl (.nothing rfl rfl nofun) fun v hv => (hs.seen v).mono
      (fun _ _ h => h) (fun _ h => h) ?_ fun _ _ _ h => h)
  intro g m' hp hg
  change g ∈ (update s.mutex m _ m').parkQ
  rcases eq_or_ne m' m with rfl | hm
  · have h1 : (s.worker v).inMtx = some m' := by rw [hp]; rfl
    have h2 : (s.worker w).inMtx = some m' := by rw [at_]; rfl
    exact absurd ((hs.mtx m').unique v w h1 h2) hv
  · rwa [update_of_ne hm]

omit [DecidableEq φ] [DecidableEq μ] in
/-- Whoever takes out of `wait_q_` has fired, so nobody is there that has seen the flag clear. -/
theorem Spins.dequeue (hs : Spins s) {u : φ} {q : List φ} (at_ : s.worker w = .fire f e .take) :
    Spins ((s.setWaitQ e q).setWorker w (.fire f e (.readNext u))) := by
  have hfired : ∀ e', ((s.setWaitQ e q).event e').isFired = (s.event e').isFired :=
    proj_update (fun y : EventState φ => y.isFired) (by rfl)
  have hset : (s.event e).isFired = true := (hs.seen w).fired e (by rw [at_]; rfl)
  refine hs.keep (sameLocks_setEvent (by rfl) _) rfl (at_ ▸ ⟨fun _ h => h, fun _ h => h, fun _ h => h⟩)
    (forall_worker (P := fun _ p => SeenBy _ p) rfl ?_ fun v _ => (hs.seen v).mono
      (fun e' _ h => (hfired e').trans h) (fun e' h => (hfired e').trans h) (fun _ _ _ h => h) ?_)
  · refine ⟨nofun, fun e' he' => ?_, nofun, nofun⟩
    cases he'
    exact (hfired e).trans hset
  · intro g e' hp hg
    change g ∈ (update s.event e _ e').waitQ
    rcases eq_or_ne e' e with rfl | he
    · have hclear := (hs.seen v).unfired e' (by rw [hp]; rfl)
      cases hclear.symm.trans hset
    · rwa [update_of_ne he]

theorem Spins.effect (hs : Spins s) (he : Effect s s') : Spins s' := by
  cases he with
  | go unborn =>
    exact ⟨hs.mtx, hs.lock, hs.firer, fun v => (hs.seen v).same ⟨fun _ => rfl, fun _ => rfl, fun _ => rfl⟩⟩
  | @await w f a at_ running awaiter =>
    refine hs.outside ⟨fun _ => rfl, fun _ => rfl, rfl⟩ ⟨fun _ => rfl, fun _ => rfl, fun _ => rfl⟩ rfl ?_ ?_ ?_
    · cases a <;> rfl
    · cases a <;> rfl
    · cases a <;> rfl
  | callFire at_ first => exact hs.callFire first
  | move at_ next => exact hs.move at_ next
  | storeSt at_ next => exact hs.storeSt at_ next
  | lockMtx at_ next free => exact hs.lockMtx at_ next free
  | unlockMtx at_ next => exact hs.unlockMtx at_ next
  | lock at_ next free => exact hs.locks at_ next free
  | unlock at_ next => exact hs.unlocks at_ next
  | storeFired at_ => exact hs.storeFired at_
  | casRun at_ own =>
    exact hs.outside (sameLocks_setMutex (by rfl) _) (sameQueues_setMutex (by rfl) _) rfl rfl rfl rfl
  | submit at_ next => exact hs.submit at_ next
  | park at_ => exact hs.park at_
  | unpark at_ parkQ => exact hs.unpark at_
  | enqueue at_ => exact hs.enqueue at_
  | dequeue at_ waitQ => exact hs.dequeue at_
  | _ =>
    exact hs.outside ⟨fun _ => rfl, fun _ => rfl, rfl⟩ ⟨fun _ => rfl, fun _ => rfl, fun _ => rfl⟩ rfl rfl rfl rfl

end spins

end Fibers.Fiber
