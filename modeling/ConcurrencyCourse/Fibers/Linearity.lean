import ConcurrencyCourse.Fibers.Spins
import Mathlib.Data.List.Nodup

/-!
# A fiber is in one place (tasks/fibers/mutex/exe/fibers)

`linear`: every live fiber is in one place, in a queue once, and a worker that still has to touch a fiber,
or its awaiter, is the only one to do so. Besides the places of a fiber that runs, is handled in
`AwaitSuspend`, is scheduled or is parked there is one more: `UnlockAwaiter` and `Event::Fire` have a fiber
in their hands between `Take` and `Schedule` (`taken_is_nowhere`).
-/

namespace Fibers.Fiber

open Function Transition Places

variable {φ ω μ ε : Type}

/-- The fiber of a worker. -/
def Pc.own : Pc φ μ ε → Option φ
  | .idle => none
  | .run f | .routine f | .fire f _ _ | .resumed f | .schedule f => some f
  | .lock f _ _ | .unlock f _ _ | .wait f _ _ => some f

/-- What a worker knows about its fiber. -/
def FiberOk (s : State φ ω μ ε) : Pc φ μ ε → Prop
  | .run f => s.coro f = .suspended
  | .routine f | .fire f _ _ => s.coro f = .running
  | .resumed f => s.coro f = .completed ∨
      s.coro f = .suspended ∧ ∃ a, s.awaiter f = some a ∧ s.frame f = some a
  | .lock f m _ => s.frame f = some (.lock m)
  | .unlock f m _ => s.frame f = some (.unlock m)
  | .wait f e _ => s.frame f = some (.wait e)
  | .idle | .schedule _ => True

/-- The worker executes the fiber. -/
def Place.awake : Place ω μ ε → Bool
  | .worker .executes _ => true
  | _ => false

structure Placed (s : State φ ω μ ε) : Prop where
  exclusive : Exclusive s.isAt
  live : ∀ f, s.live f ↔ ∃ p, s.isAt f p
  tasks : s.tasks.Nodup
  parkQ : ∀ m, (s.mutex m).parkQ.Nodup
  waitQ : ∀ e, (s.event e).waitQ.Nodup
  asleep : ∀ f p, s.isAt f p → p.awake = false → s.coro f = .suspended
  fiber : ∀ w, FiberOk s (s.worker w)
  nodup : s.deleted.Nodup
  completed : ∀ f, f ∈ s.deleted → s.coro f = .completed
  ended : ∀ f, s.coro f = .completed → f ∈ s.deleted ∨ ∃ w, s.worker w = .resumed f

section placed

variable {s s' : State φ ω μ ε} {w v : ω} {f x : φ} {m : μ} {e : ε} {p p' : Pc φ μ ε}

/-! ### Who else is there -/

@[simp]
theorem hand_idle (k : Hand) : (Pc.idle : Pc φ μ ε).hand k = none := by
  cases k <;> simp only [Pc.hand]

theorem own_place (h : p.own = some f) : p.hand .executes = some f ∨ p.hand .handles = some f ∨
    (∃ m, p = .lock f m .unlockParked) ∨ ∃ e, p = .wait f e .unlockParked := by
  cases p with
  | idle => cases h
  | run g => exact .inl h
  | routine g => exact .inl h
  | fire g e pc => exact .inl h
  | resumed g => exact .inl h
  | schedule g => exact .inr (.inl h)
  | unlock g m pc => exact .inr (.inl h)
  | lock g m pc =>
    cases h
    cases pc with
    | unlockParked => exact .inr (.inr (.inl ⟨m, rfl⟩))
    | _ => exact .inr (.inl rfl)
  | wait g e pc =>
    cases h
    cases pc with
    | unlockParked => exact .inr (.inr (.inr ⟨e, rfl⟩))
    | _ => exact .inr (.inl rfl)

/-- The place is the worker's, or a queue whose lock the worker is in. -/
def State.near (s : State φ ω μ ε) (w : ω) : Place ω μ ε → Prop
  | .worker _ v => v = w
  | .scheduled => False
  | .parked m => (s.worker w).inMtx = some m
  | .waits e => (s.worker w).inLock = some e

theorem near_unique (hs : Spins s) {r : Place ω μ ε} (hw : s.near w r) (hv : s.near v r) : w = v := by
  cases r with
  | worker k u => exact hw.symm.trans hv
  | scheduled => exact hw.elim
  | parked m => exact (hs.mtx m).unique w v hw hv
  | waits e => exact (hs.lock e).unique w v hw hv

/-- A fiber that a worker is with is near. -/
theorem own_isAt (hs : Spins s) (h : (s.worker w).own = some f) : ∃ r, s.isAt f r ∧ s.near w r := by
  rcases own_place h with h | h | ⟨m, h⟩ | ⟨e, h⟩
  · exact ⟨.worker .executes w, h, rfl⟩
  · exact ⟨.worker .handles w, h, rfl⟩
  · exact ⟨.parked m, (hs.seen w).parked f m h, by rw [State.near, h]; rfl⟩
  · exact ⟨.waits e, (hs.seen w).waits f e h, by rw [State.near, h]; rfl⟩

/-- No other worker is with a fiber that one executes. -/
theorem Placed.alone (hp : Placed s) (hs : Spins s) (hw : (s.worker w).hand .executes = some f)
    (hv : v ≠ w) : (s.worker v).own ≠ some f := by
  intro h
  obtain ⟨r, hr, hnear⟩ := own_isAt hs h
  cases hp.exclusive f r (.worker .executes w) hr hw
  exact hv hnear.symm

theorem FiberOk.same (h : FiberOk s p) (hf : ∀ f, p.own = some f →
    s'.coro f = s.coro f ∧ s'.awaiter f = s.awaiter f ∧ s'.frame f = s.frame f) : FiberOk s' p := by
  cases p with
  | idle => trivial
  | schedule f => trivial
  | run f => exact (hf f rfl).1.trans h
  | routine f => exact (hf f rfl).1.trans h
  | fire f e pc => exact (hf f rfl).1.trans h
  | lock f m pc => exact (hf f rfl).2.2.trans h
  | unlock f m pc => exact (hf f rfl).2.2.trans h
  | wait f e pc => exact (hf f rfl).2.2.trans h
  | resumed f =>
    obtain ⟨h1, h2, h3⟩ := hf f rfl
    simp only [FiberOk, h1, h2, h3]
    exact h

/-! ### A fiber goes from one place to another -/

variable [DecidableEq ω]

/-- The worker `w` goes to `p'`, and one queue may change. -/
theorem moves_of {P Q : Option (Place ω μ ε)} (hw : s'.worker = update s.worker w p')
    (hother : ∀ k v, v ≠ w → P ≠ some (.worker k v) ∧ Q ≠ some (.worker k v))
    (hhand : ∀ k y, p'.hand k = some y ↔
      ((s.worker w).hand k = some y ∧ ¬ (y = x ∧ P = some (.worker k w))) ∨ (y = x ∧ Q = some (.worker k w)))
    (htasks : ∀ y, y ∈ s'.tasks ↔
      (y ∈ s.tasks ∧ ¬ (y = x ∧ P = some .scheduled)) ∨ (y = x ∧ Q = some .scheduled))
    (hpark : ∀ m y, y ∈ (s'.mutex m).parkQ ↔
      (y ∈ (s.mutex m).parkQ ∧ ¬ (y = x ∧ P = some (.parked m))) ∨ (y = x ∧ Q = some (.parked m)))
    (hwait : ∀ e y, y ∈ (s'.event e).waitQ ↔
      (y ∈ (s.event e).waitQ ∧ ¬ (y = x ∧ P = some (.waits e))) ∨ (y = x ∧ Q = some (.waits e))) :
    Moves s.isAt s'.isAt x P Q := by
  intro y r
  cases r with
  | scheduled => exact htasks y
  | parked m => exact hpark m y
  | waits e => exact hwait e y
  | worker k v =>
    change (s'.worker v).hand k = some y ↔ _
    rw [hw]
    rcases eq_or_ne v w with rfl | hv
    · rw [update_self]
      exact hhand k y
    · rw [update_of_ne hv]
      obtain ⟨hP, hQ⟩ := hother k v hv
      constructor
      · exact fun h => .inl ⟨h, fun hx => hP hx.2⟩
      · rintro (⟨h, -⟩ | ⟨-, h⟩)
        · exact h
        · exact absurd h hQ

/-- The scheduler and the wait queues are as before. -/
structure SameLists (s s' : State φ ω μ ε) : Prop where
  tasks : s'.tasks = s.tasks
  parkQ : ∀ m, (s'.mutex m).parkQ = (s.mutex m).parkQ
  waitQ : ∀ e, (s'.event e).waitQ = (s.event e).waitQ

omit [DecidableEq ω] in
theorem SameQueues.lists (h : SameQueues s s') (htasks : s'.tasks = s.tasks) : SameLists s s' :=
  ⟨htasks, h.parkQ, h.waitQ⟩

/-- Nor has a worker other fibers in its hands. -/
theorem SameLists.isAt (h : SameLists s s') (hw : s'.worker = update s.worker w p')
    (hhand : ∀ k, p'.hand k = (s.worker w).hand k) (f : φ) (r : Place ω μ ε) : s'.isAt f r ↔ s.isAt f r := by
  cases r with
  | scheduled => exact iff_of_eq (congrArg (f ∈ ·) h.tasks)
  | parked m => exact iff_of_eq (congrArg (f ∈ ·) (h.parkQ m))
  | waits e => exact iff_of_eq (congrArg (f ∈ ·) (h.waitQ e))
  | worker k v =>
    change (s'.worker v).hand k = some f ↔ _
    rw [hw, proj_update (fun p : Pc φ μ ε => p.hand k) (hhand k) v]
    exact Iff.rfl

/-- What is kept of the fibers by a step that only moves one. -/
structure SameFibers (s s' : State φ ω μ ε) : Prop where
  coro : s'.coro = s.coro
  awaiter : s'.awaiter = s.awaiter
  frame : s'.frame = s.frame
  deleted : s'.deleted = s.deleted

omit [DecidableEq ω] in
theorem SameFibers.fiberOk (h : SameFibers s s') (hp : FiberOk s p) : FiberOk s' p :=
  hp.same fun f _ => ⟨congrFun h.coro f, congrFun h.awaiter f, congrFun h.frame f⟩

omit [DecidableEq ω] in
theorem SameFibers.live (h : SameFibers s s') (f : φ) : s'.live f ↔ s.live f := by
  unfold State.live
  rw [h.coro, h.deleted]

/-- A worker that is not about to delete a fiber goes on. -/
theorem Placed.ended_keep (hp : Placed s) (hw : s'.worker = update s.worker w p')
    (hnot : ∀ f, s.worker w ≠ .resumed f) (hsame : SameFibers s s') (f : φ) (hc : s'.coro f = .completed) :
    f ∈ s'.deleted ∨ ∃ v, s'.worker v = .resumed f := by
  rw [hsame.coro] at hc
  rw [hsame.deleted, hw]
  refine (hp.ended f hc).imp_right ?_
  rintro ⟨v, hv⟩
  refine ⟨v, ?_⟩
  rw [update_of_ne]
  · exact hv
  · rintro rfl
    exact hnot f hv

omit [DecidableEq ω] in
/-- A step that moves one fiber and neither resumes nor deletes one. -/
theorem Placed.moved (hp : Placed s) (hcoro : s'.coro = s.coro) (hdeleted : s'.deleted = s.deleted)
    {P Q : Place ω μ ε} (hm : Moves s.isAt s'.isAt x (some P) (some Q)) (hP : s.isAt x P)
    (hasleep : Q.awake = false → s.coro x = .suspended) (htasks : s'.tasks.Nodup)
    (hpark : ∀ m, (s'.mutex m).parkQ.Nodup) (hwait : ∀ e, (s'.event e).waitQ.Nodup)
    (hfiber : ∀ v, FiberOk s' (s'.worker v))
    (hended : ∀ f, s'.coro f = .completed → f ∈ s'.deleted ∨ ∃ v, s'.worker v = .resumed f) : Placed s' where
  exclusive := hp.exclusive.moves hm hP
  live f := by
    unfold State.live
    rw [hcoro, hdeleted]
    refine (hp.live f).trans ?_
    by_cases hf : f = x
    · subst hf
      have hQ : s'.isAt f Q := (hm.self hp.exclusive hP Q).2 rfl
      exact ⟨fun _ => ⟨Q, hQ⟩, fun _ => ⟨P, hP⟩⟩
    · exact exists_congr fun r => (hm.other hf r).symm
  tasks := htasks
  parkQ := hpark
  waitQ := hwait
  asleep f r hr hawake := by
    rw [hcoro]
    by_cases hf : f = x
    · subst hf
      cases (hm.self hp.exclusive hP r).1 hr
      exact hasleep hawake
    · exact hp.asleep f r ((hm.other hf r).1 hr) hawake
  fiber := hfiber
  nodup := hdeleted ▸ hp.nodup
  completed f hf := by
    rw [hcoro]
    rw [hdeleted] at hf
    exact hp.completed f hf
  ended := hended

/-- A step that moves one fiber, and changes none. -/
theorem Placed.shift (hp : Placed s) (hsame : SameFibers s s') {P Q : Place ω μ ε}
    (hm : Moves s.isAt s'.isAt x (some P) (some Q)) (hP : s.isAt x P)
    (hw : s'.worker = update s.worker w p') (hok : FiberOk s p') (hnot : ∀ f, s.worker w ≠ .resumed f)
    (hasleep : Q.awake = false → s.coro x = .suspended) (htasks : s'.tasks.Nodup)
    (hpark : ∀ m, (s'.mutex m).parkQ.Nodup) (hwait : ∀ e, (s'.event e).waitQ.Nodup) : Placed s' :=
  hp.moved hsame.coro hsame.deleted hm hP hasleep htasks hpark hwait
    (forall_worker (P := fun _ p => FiberOk s' p) hw (hsame.fiberOk hok) fun v _ => hsame.fiberOk (hp.fiber v))
    (hp.ended_keep hw hnot hsame)

/-- From `p` to `p'` with the same fibers in the same hands. -/
structure Quiet (s : State φ ω μ ε) (p p' : Pc φ μ ε) : Prop where
  hand : ∀ k, p'.hand k = p.hand k
  fiber : FiberOk s p → FiberOk s p'
  notResumed : ∀ f, p ≠ .resumed f

omit [DecidableEq ω]

theorem hand_fireLoop (b : Bool) (k : Hand) :
    (fireLoop f e b : Pc φ μ ε).hand k = if k = .executes then some f else none := by
  cases b <;> cases k <;> rfl

theorem fiberOk_fireLoop {b : Bool} (h : s.coro f = .running) : FiberOk s (fireLoop f e b) := by
  cases b <;> exact h

theorem Move.quiet (h : Move s p p') : Quiet s p p' where
  hand k := by cases h <;> cases k <;> rfl
  fiber hf := by cases h <;> exact hf
  notResumed := by cases h <;> nofun

theorem StoresSt.quiet (h : StoresSt m p p') : Quiet s p p' where
  hand k := by cases h <;> cases k <;> rfl
  fiber hf := by cases h <;> exact hf
  notResumed := by cases h <;> nofun

theorem LocksMtx.quiet (h : LocksMtx m p p') : Quiet s p p' where
  hand k := by cases h <;> cases k <;> rfl
  fiber hf := by cases h <;> exact hf
  notResumed := by cases h <;> nofun

theorem UnlocksMtx.quiet (h : UnlocksMtx m p p') : Quiet s p p' where
  hand k := by cases h <;> cases k <;> rfl
  fiber hf := by
    cases h with
    | parked => trivial
    | retry => exact hf
    | taken => exact hf
  notResumed := by cases h <;> nofun

theorem Locks.quiet (h : Locks e p p') : Quiet s p p' where
  hand k := by cases h <;> cases k <;> rfl
  fiber hf := by cases h <;> exact hf
  notResumed := by cases h <;> nofun

theorem Unlocks.quiet (h : Unlocks e p p') : Quiet s p p' where
  hand k := by
    cases h with
    | fire => rw [hand_fireLoop]; cases k <;> rfl
    | _ => cases k <;> rfl
  fiber hf := by
    cases h with
    | parked => trivial
    | fired => trivial
    | fire => exact fiberOk_fireLoop hf
  notResumed := by cases h <;> nofun

/-- A step that moves no fiber, and changes none. -/
theorem Placed.quiet [DecidableEq ω] (hp : Placed s) (hc : Quiet s (s.worker w) p') (hsame : SameFibers s s')
    (hq : SameLists s s') (hw : s'.worker = update s.worker w p') : Placed s' := by
  have hat : ∀ f r, s'.isAt f r ↔ s.isAt f r := hq.isAt hw hc.hand
  exact {
    exclusive := fun f r r' hr hr' => hp.exclusive f r r' ((hat f r).1 hr) ((hat f r').1 hr')
    live := fun f => (hsame.live f).trans ((hp.live f).trans (exists_congr fun r => (hat f r).symm))
    tasks := hq.tasks ▸ hp.tasks
    parkQ := fun m => hq.parkQ m ▸ hp.parkQ m
    waitQ := fun e => hq.waitQ e ▸ hp.waitQ e
    asleep := fun f r hr hawake => hsame.coro ▸ hp.asleep f r ((hat f r).1 hr) hawake
    fiber := forall_worker (P := fun _ p => FiberOk s' p) hw (hsame.fiberOk (hc.fiber (hp.fiber w)))
      fun v _ => hsame.fiberOk (hp.fiber v)
    nodup := hsame.deleted ▸ hp.nodup
    completed := fun f hf => hsame.coro ▸ hp.completed f (hsame.deleted ▸ hf)
    ended := hp.ended_keep hw hc.notResumed hsame }

/-! ### The steps that move a fiber -/

variable [DecidableEq φ] [DecidableEq ω] [DecidableEq μ] [DecidableEq ε]

omit [DecidableEq φ] [DecidableEq ω] [DecidableEq μ] [DecidableEq ε] in
theorem nodup_append_new {q : List φ} (hq : q.Nodup) (hf : f ∉ q) : (q ++ [f]).Nodup := by
  rw [← List.concat_eq_append]
  exact hq.concat hf

omit [DecidableEq φ] [DecidableEq μ] [DecidableEq ε] in
theorem Placed.take (hp : Placed s) {rest : List φ} (at_ : s.worker w = .idle) (tasks : s.tasks = f :: rest) :
    Placed ({ s with tasks := rest }.setWorker w (.run f)) := by
  have hnodup := hp.tasks
  rw [tasks, List.nodup_cons] at hnodup
  have hin : s.isAt f .scheduled := by
    change f ∈ s.tasks
    rw [tasks]
    exact List.mem_cons_self
  have hm : Moves s.isAt ({ s with tasks := rest }.setWorker w (.run f)).isAt f (some .scheduled)
      (some (.worker .executes w)) := by
    refine moves_of rfl (fun k v hv => ?_) (fun k y => ?_) (fun y => ?_) (fun m y => ?_) (fun e y => ?_)
    · exact ⟨nofun, fun h => by cases h; exact hv rfl⟩
    · rw [at_]
      cases k <;> simp [Pc.hand, eq_comm]
    · rw [tasks]
      simp only [State.setWorker, List.mem_cons, and_true, reduceCtorEq, and_false, or_false, Option.some.injEq]
      constructor
      · exact fun h => ⟨.inr h, fun hy => hnodup.1 (hy ▸ h)⟩
      · exact fun h => h.1.resolve_left h.2
    · simp [State.setWorker]
    · simp [State.setWorker]
  exact hp.shift ⟨rfl, rfl, rfl, rfl⟩ hm hin rfl (hp.asleep f _ hin rfl) (by rw [at_]; nofun) nofun
    hnodup.2 hp.parkQ hp.waitQ

omit [DecidableEq φ] [DecidableEq ω] [DecidableEq μ] [DecidableEq ε] in
theorem RunsOwn.hand (h : RunsOwn f p) (k : Hand) : p.hand k = if k = .handles then some f else none := by
  cases h <;> cases k <;> rfl

omit [DecidableEq φ] [DecidableEq μ] [DecidableEq ε] in
/-- `AwaitSuspend` runs its own fiber; `s'` differs from `s` in no queue. -/
theorem Placed.runOwn (hp : Placed s) (at_ : s.worker w = p) (own : RunsOwn f p) (hsame : SameFibers s s')
    (hq : SameLists s s') (hw : s'.worker = update s.worker w (.run f)) : Placed s' := by
  have hin : s.isAt f (.worker .handles w) := by
    change (s.worker w).hand .handles = some f
    rw [at_, own.hand]
    rfl
  have hm : Moves s.isAt s'.isAt f (some (.worker .handles w)) (some (.worker .executes w)) := by
    refine moves_of hw (fun k v hv => ?_) (fun k y => ?_) (fun y => ?_) (fun m y => ?_) (fun e y => ?_)
    · exact ⟨fun h => by cases h; exact hv rfl, fun h => by cases h; exact hv rfl⟩
    · rw [at_, own.hand]
      cases k <;> simp [Pc.hand, eq_comm]
    · simp [hq.tasks]
    · simp [hq.parkQ]
    · simp [hq.waitQ]
  refine hp.shift hsame hm hin hw (hp.asleep f _ hin rfl) ?_ nofun (hq.tasks ▸ hp.tasks)
    (fun m => hq.parkQ m ▸ hp.parkQ m) fun e => hq.waitQ e ▸ hp.waitQ e
  rw [at_]
  cases own <;> nofun

omit [DecidableEq φ] [DecidableEq μ] [DecidableEq ε] in
theorem Placed.submit (hp : Placed s) {k : Hand} (at_ : s.worker w = p) (next : Submits x k p p') :
    Placed ((s.submit x).setWorker w p') := by
  have hin : s.isAt x (.worker k w) := by
    change (s.worker w).hand k = some x
    rw [at_]
    cases next <;> rfl
  have hasleep : s.coro x = .suspended := hp.asleep x _ hin (by cases next <;> rfl)
  have hm : Moves s.isAt ((s.submit x).setWorker w p').isAt x (some (.worker k w)) (some .scheduled) := by
    refine moves_of rfl (fun k' v hv => ?_) (fun k' y => ?_) (fun y => ?_) (fun m y => ?_) (fun e y => ?_)
    · exact ⟨fun h => by cases h; exact hv rfl, nofun⟩
    · rw [at_]
      cases next with
      | own => cases k' <;> simp [Pc.hand, eq_comm]
      | unlock => cases k' <;> simp [Pc.hand, UnlockPc.taken, eq_comm]
      | fire => rw [hand_fireLoop]; cases k' <;> simp [Pc.hand, FirePc.taken, eq_comm]
    · simp [State.setWorker, State.submit]
    · simp [State.setWorker, State.submit]
    · simp [State.setWorker, State.submit]
  have hnot : x ∉ s.tasks := fun h => nomatch hp.exclusive x (.worker k w) .scheduled hin h
  have hfiber := at_ ▸ hp.fiber w
  refine hp.shift ⟨rfl, rfl, rfl, rfl⟩ hm hin rfl ?_ ?_ (fun _ => hasleep) (nodup_append_new hp.tasks hnot)
    hp.parkQ hp.waitQ
  · cases next with
    | own => trivial
    | unlock => exact hfiber
    | fire => exact fiberOk_fireLoop hfiber
  · rw [at_]
    cases next <;> nofun

omit [DecidableEq φ] [DecidableEq ω] [DecidableEq ε] in
/-- What holds of the queue that is written, and of the others. -/
theorem forall_parkQ {q : List φ} {P : List φ → Prop} (hq : P q) (ho : ∀ m', P (s.mutex m').parkQ)
    (m' : μ) : P ((s.setParkQ m q).mutex m').parkQ := by
  change P (update s.mutex m _ m').parkQ
  rcases eq_or_ne m' m with rfl | hm
  · rwa [update_self]
  · rw [update_of_ne hm]
    exact ho m'

omit [DecidableEq φ] [DecidableEq ω] [DecidableEq μ] in
theorem forall_waitQ {q : List φ} {P : List φ → Prop} (hq : P q) (ho : ∀ e', P (s.event e').waitQ)
    (e' : ε) : P ((s.setWaitQ e q).event e').waitQ := by
  change P (update s.event e _ e').waitQ
  rcases eq_or_ne e' e with rfl | he
  · rwa [update_self]
  · rw [update_of_ne he]
    exact ho e'

omit [DecidableEq φ] [DecidableEq ε] in
theorem Placed.park (hp : Placed s) (at_ : s.worker w = .lock f m .put) :
    Placed ((s.setParkQ m ((s.mutex m).parkQ ++ [f])).setWorker w (.lock f m .unlockParked)) := by
  have hin : s.isAt f (.worker .handles w) := by
    change (s.worker w).hand .handles = some f
    rw [at_]
    rfl
  have hm : Moves s.isAt ((s.setParkQ m ((s.mutex m).parkQ ++ [f])).setWorker w (.lock f m .unlockParked)).isAt f
      (some (.worker .handles w)) (some (.parked m)) := by
    refine moves_of rfl (fun k v hv => ?_) (fun k y => ?_) (fun y => ?_) (fun m' y => ?_) (fun e y => ?_)
    · exact ⟨fun h => by cases h; exact hv rfl, nofun⟩
    · rw [at_]
      cases k <;> simp [Pc.hand, eq_comm]
    · simp [State.setWorker, State.setParkQ, State.setMutex]
    · change y ∈ (update s.mutex m _ m').parkQ ↔ _
      rcases eq_or_ne m' m with rfl | hm
      · rw [update_self]
        simp
      · rw [update_of_ne hm]
        simp [hm.symm]
    · simp [State.setWorker, State.setParkQ, State.setMutex]
  have hnot : f ∉ (s.mutex m).parkQ := fun h => nomatch hp.exclusive f (.worker .handles w) (.parked m) hin h
  exact hp.shift ⟨rfl, rfl, rfl, rfl⟩ hm hin rfl (at_ ▸ hp.fiber w : FiberOk s (.lock f m .put))
    (by rw [at_]; nofun) (fun _ => hp.asleep f _ hin rfl) hp.tasks
    (forall_parkQ (P := List.Nodup) (nodup_append_new (hp.parkQ m) hnot) hp.parkQ) hp.waitQ

omit [DecidableEq φ] [DecidableEq μ] in
theorem Placed.enqueue (hp : Placed s) (at_ : s.worker w = .wait f e .put) :
    Placed ((s.setWaitQ e ((s.event e).waitQ ++ [f])).setWorker w (.wait f e .unlockParked)) := by
  have hin : s.isAt f (.worker .handles w) := by
    change (s.worker w).hand .handles = some f
    rw [at_]
    rfl
  have hm : Moves s.isAt ((s.setWaitQ e ((s.event e).waitQ ++ [f])).setWorker w (.wait f e .unlockParked)).isAt f
      (some (.worker .handles w)) (some (.waits e)) := by
    refine moves_of rfl (fun k v hv => ?_) (fun k y => ?_) (fun y => ?_) (fun m y => ?_) (fun e' y => ?_)
    · exact ⟨fun h => by cases h; exact hv rfl, nofun⟩
    · rw [at_]
      cases k <;> simp [Pc.hand, eq_comm]
    · simp [State.setWorker, State.setWaitQ, State.setEvent]
    · simp [State.setWorker, State.setWaitQ, State.setEvent]
    · change y ∈ (update s.event e _ e').waitQ ↔ _
      rcases eq_or_ne e' e with rfl | he
      · rw [update_self]
        simp
      · rw [update_of_ne he]
        simp [he.symm]
  have hnot : f ∉ (s.event e).waitQ := fun h => nomatch hp.exclusive f (.worker .handles w) (.waits e) hin h
  exact hp.shift ⟨rfl, rfl, rfl, rfl⟩ hm hin rfl (at_ ▸ hp.fiber w : FiberOk s (.wait f e .put))
    (by rw [at_]; nofun) (fun _ => hp.asleep f _ hin rfl) hp.tasks hp.parkQ
    (forall_waitQ (P := List.Nodup) (nodup_append_new (hp.waitQ e) hnot) hp.waitQ)

omit [DecidableEq φ] [DecidableEq ω] [DecidableEq μ] [DecidableEq ε] in
/-- The head of a queue without duplicates leaves it. -/
theorem mem_tail_iff {q : List φ} {y : φ} (h : (x :: q).Nodup) : y ∈ q ↔ y ∈ x :: q ∧ y ≠ x := by
  rw [List.nodup_cons] at h
  constructor
  · exact fun hy => ⟨.tail _ hy, fun hx => h.1 (hx ▸ hy)⟩
  · rintro ⟨hy, hx⟩
    exact (List.mem_cons.1 hy).resolve_left hx

omit [DecidableEq φ] [DecidableEq ε] in
theorem Placed.unpark (hp : Placed s) {q : List φ} (at_ : s.worker w = .unlock f m .take)
    (parkQ : (s.mutex m).parkQ = x :: q) :
    Placed ((s.setParkQ m q).setWorker w (.unlock f m (.readEmpty x))) := by
  have hnodup := hp.parkQ m
  rw [parkQ] at hnodup
  have hin : s.isAt x (.parked m) := by
    change x ∈ (s.mutex m).parkQ
    rw [parkQ]
    exact List.mem_cons_self
  have hm : Moves s.isAt ((s.setParkQ m q).setWorker w (.unlock f m (.readEmpty x))).isAt x
      (some (.parked m)) (some (.worker .wakes w)) := by
    refine moves_of rfl (fun k v hv => ?_) (fun k y => ?_) (fun y => ?_) (fun m' y => ?_) (fun e y => ?_)
    · exact ⟨nofun, fun h => by cases h; exact hv rfl⟩
    · rw [at_]
      cases k <;> simp [Pc.hand, UnlockPc.taken, eq_comm]
    · simp [State.setWorker, State.setParkQ, State.setMutex]
    · change y ∈ (update s.mutex m _ m').parkQ ↔ _
      rcases eq_or_ne m' m with rfl | hm
      · rw [update_self, parkQ, mem_tail_iff hnodup]
        simp
      · rw [update_of_ne hm]
        simp [hm.symm]
    · simp [State.setWorker, State.setParkQ, State.setMutex]
  exact hp.shift ⟨rfl, rfl, rfl, rfl⟩ hm hin rfl (at_ ▸ hp.fiber w : FiberOk s (.unlock f m .take))
    (by rw [at_]; nofun) (fun _ => hp.asleep x _ hin rfl) hp.tasks
    (forall_parkQ (P := List.Nodup) (List.nodup_cons.1 hnodup).2 hp.parkQ) hp.waitQ

omit [DecidableEq φ] [DecidableEq μ] in
theorem Placed.dequeue (hp : Placed s) {q : List φ} (at_ : s.worker w = .fire f e .take)
    (waitQ : (s.event e).waitQ = x :: q) :
    Placed ((s.setWaitQ e q).setWorker w (.fire f e (.readNext x))) := by
  have hnodup := hp.waitQ e
  rw [waitQ] at hnodup
  have hin : s.isAt x (.waits e) := by
    change x ∈ (s.event e).waitQ
    rw [waitQ]
    exact List.mem_cons_self
  have hm : Moves s.isAt ((s.setWaitQ e q).setWorker w (.fire f e (.readNext x))).isAt x
      (some (.waits e)) (some (.worker .wakes w)) := by
    refine moves_of rfl (fun k v hv => ?_) (fun k y => ?_) (fun y => ?_) (fun m y => ?_) (fun e' y => ?_)
    · exact ⟨nofun, fun h => by cases h; exact hv rfl⟩
    · rw [at_]
      cases k <;> simp [Pc.hand, FirePc.taken, eq_comm]
    · simp [State.setWorker, State.setWaitQ, State.setEvent]
    · simp [State.setWorker, State.setWaitQ, State.setEvent]
    · change y ∈ (update s.event e _ e').waitQ ↔ _
      rcases eq_or_ne e' e with rfl | he
      · rw [update_self, waitQ, mem_tail_iff hnodup]
        simp
      · rw [update_of_ne he]
        simp [he.symm]
  exact hp.shift ⟨rfl, rfl, rfl, rfl⟩ hm hin rfl (at_ ▸ hp.fiber w : FiberOk s (.fire f e .take))
    (by rw [at_]; nofun) (fun _ => hp.asleep x _ hin rfl) hp.tasks hp.parkQ
    (forall_waitQ (P := List.Nodup) (List.nodup_cons.1 hnodup).2 hp.waitQ)

/-! ### The steps of the fiber itself -/

/-- Only `f` is changed. -/
structure OnlyFiber (s s' : State φ ω μ ε) (f : φ) : Prop where
  coro : ∀ g, g ≠ f → s'.coro g = s.coro g
  awaiter : ∀ g, g ≠ f → s'.awaiter g = s.awaiter g
  frame : ∀ g, g ≠ f → s'.frame g = s.frame g

omit [DecidableEq φ] [DecidableEq ω] [DecidableEq μ] [DecidableEq ε] in
theorem OnlyFiber.fiberOk (h : OnlyFiber s s' f) (hf : p.own ≠ some f) (hp : FiberOk s p) : FiberOk s' p := by
  refine hp.same fun g hg => ?_
  have hne : g ≠ f := fun hgf => hf (hgf ▸ hg)
  exact ⟨h.coro g hne, h.awaiter g hne, h.frame g hne⟩

omit [DecidableEq φ] [DecidableEq μ] [DecidableEq ε] in
/-- What the other workers know when the one that executes `f` changes it. -/
theorem Placed.fiber_keep (hp : Placed s) (hs : Spins s) (hin : s.isAt f (.worker .executes w))
    (honly : OnlyFiber s s' f) (hw : s'.worker = update s.worker w p') (hok : FiberOk s' p') (v : ω) :
    FiberOk s' (s'.worker v) :=
  forall_worker (P := fun _ p => FiberOk s' p) hw hok
    (fun v hv => honly.fiberOk (hp.alone hs hin hv) (hp.fiber v)) v

omit [DecidableEq φ] [DecidableEq μ] [DecidableEq ε] in
/-- A worker changes the fiber it executes, and goes on to execute it. -/
theorem Placed.execute (hp : Placed s) (hs : Spins s) (hin : s.isAt f (.worker .executes w))
    (hhand : ∀ k, p'.hand k = (s.worker w).hand k) (hnot : ∀ f, s.worker w ≠ .resumed f)
    (honly : OnlyFiber s s' f) (hborn : s'.coro f ≠ .unborn)
    (hended : s'.coro f = .completed → p' = .resumed f) (hq : SameLists s s')
    (hdeleted : s'.deleted = s.deleted) (hw : s'.worker = update s.worker w p') (hok : FiberOk s' p') :
    Placed s' := by
  have hat : ∀ g r, s'.isAt g r ↔ s.isAt g r := hq.isAt hw hhand
  have hlive : s.live f := (hp.live f).2 ⟨_, hin⟩
  refine ⟨fun g r r' hr hr' => hp.exclusive g r r' ((hat g r).1 hr) ((hat g r').1 hr'), fun g => ?_,
    hq.tasks ▸ hp.tasks, fun m => hq.parkQ m ▸ hp.parkQ m, fun e => hq.waitQ e ▸ hp.waitQ e, fun g r hr hawake => ?_,
    hp.fiber_keep hs hin honly hw hok, hdeleted ▸ hp.nodup, fun g hg => ?_, fun g hg => ?_⟩
  · refine Iff.trans ?_ (exists_congr fun r => (hat g r).symm)
    rw [← hp.live g]
    unfold State.live
    rw [hdeleted]
    rcases eq_or_ne g f with rfl | hgf
    · exact ⟨fun _ => hlive, fun h => ⟨hborn, h.2⟩⟩
    · rw [honly.coro g hgf]
  · rw [hat] at hr
    have hgf : g ≠ f := by
      rintro rfl
      cases hp.exclusive g _ _ hr hin
      cases hawake
    rw [honly.coro g hgf]
    exact hp.asleep g r hr hawake
  · rw [hdeleted] at hg
    have hgf : g ≠ f := fun h => hlive.2 (h ▸ hg)
    rw [honly.coro g hgf]
    exact hp.completed g hg
  · rw [hdeleted, hw]
    rcases eq_or_ne g f with rfl | hgf
    · exact .inr ⟨w, (update_self ..).trans (hended hg)⟩
    · rw [honly.coro g hgf] at hg
      refine (hp.ended g hg).imp_right ?_
      rintro ⟨v, hv⟩
      refine ⟨v, ?_⟩
      rw [update_of_ne]
      · exact hv
      · rintro rfl
        exact hnot g hv

omit [DecidableEq μ] [DecidableEq ε] in
theorem Placed.suspend (hp : Placed s) (hs : Spins s) {a : Awaiter μ ε} {h : φ → μ → Bool}
    (at_ : s.worker w = .routine f) :
    Placed (({ s with holds := h }.suspend f a).setWorker w (.resumed f)) := by
  have hin : s.isAt f (.worker .executes w) := by
    change (s.worker w).hand .executes = some f
    rw [at_]
    rfl
  have hself : (({ s with holds := h }.suspend f a).setWorker w (.resumed f)).coro f = .suspended :=
    update_self ..
  refine hp.execute hs hin (fun k => ?_) (by rw [at_]; nofun) ⟨?_, ?_, ?_⟩ ?_ ?_
    ⟨rfl, fun _ => rfl, fun _ => rfl⟩ rfl rfl ?_
  · rw [at_]
    cases k <;> rfl
  · exact fun g hg => update_of_ne hg ..
  · exact fun g hg => update_of_ne hg ..
  · exact fun g hg => update_of_ne hg ..
  · rw [hself]
    nofun
  · rw [hself]
    nofun
  · exact .inr ⟨hself, a, update_self .., update_self ..⟩

omit [DecidableEq μ] [DecidableEq ε] in
theorem Placed.complete (hp : Placed s) (hs : Spins s) (at_ : s.worker w = .routine f) :
    Placed ((s.setCoro f .completed).setWorker w (.resumed f)) := by
  have hin : s.isAt f (.worker .executes w) := by
    change (s.worker w).hand .executes = some f
    rw [at_]
    rfl
  have hself : ((s.setCoro f .completed).setWorker w (.resumed f)).coro f = .completed := update_self ..
  refine hp.execute hs hin (fun k => ?_) (by rw [at_]; nofun)
    ⟨fun g hg => update_of_ne hg .., fun _ _ => rfl, fun _ _ => rfl⟩ ?_ (fun _ => rfl)
    ⟨rfl, fun _ => rfl, fun _ => rfl⟩ rfl rfl (.inl hself)
  · rw [at_]
    cases k <;> rfl
  · rw [hself]
    nofun

omit [DecidableEq ε] in
theorem Placed.resume (hp : Placed s) (hs : Spins s) (at_ : s.worker w = .run f) :
    Placed ((s.resume f).setWorker w (.routine f)) := by
  have hin : s.isAt f (.worker .executes w) := by
    change (s.worker w).hand .executes = some f
    rw [at_]
    rfl
  have hself : ((s.resume f).setWorker w (.routine f)).coro f = .running := update_self ..
  refine hp.execute hs hin (fun k => ?_) (by rw [at_]; nofun)
    ⟨fun g hg => update_of_ne hg .., fun _ _ => rfl, fun g hg => update_of_ne hg ..⟩ ?_ ?_
    ⟨rfl, fun _ => rfl, fun _ => rfl⟩ rfl rfl hself
  · rw [at_]
    cases k <;> rfl
  · rw [hself]
    nofun
  · rw [hself]
    nofun

omit [DecidableEq φ] [DecidableEq ω] [DecidableEq μ] [DecidableEq ε] in
theorem hand_awaitSuspend (a : Awaiter μ ε) (k : Hand) :
    (awaitSuspend f a).hand k = if k = .handles then some f else none := by
  cases a <;> cases k <;> rfl

omit [DecidableEq μ] [DecidableEq ε] in
theorem Placed.await (hp : Placed s) (hs : Spins s) {a : Awaiter μ ε} (at_ : s.worker w = .resumed f)
    (running : s.coro f ≠ .completed) (awaiter : s.awaiter f = some a) :
    Placed ((s.takeAwaiter f).setWorker w (awaitSuspend f a)) := by
  have hin : s.isAt f (.worker .executes w) := by
    change (s.worker w).hand .executes = some f
    rw [at_]
    rfl
  have hsusp := (at_ ▸ hp.fiber w : FiberOk s (.resumed f)).resolve_left running
  obtain ⟨hsusp, b, hb, hframe⟩ := hsusp
  cases awaiter.symm.trans hb
  have hm : Moves s.isAt ((s.takeAwaiter f).setWorker w (awaitSuspend f a)).isAt f
      (some (.worker .executes w)) (some (.worker .handles w)) := by
    refine moves_of rfl (fun k v hv => ?_) (fun k y => ?_) (fun y => ?_) (fun m y => ?_) (fun e y => ?_)
    · exact ⟨fun h => by cases h; exact hv rfl, fun h => by cases h; exact hv rfl⟩
    · rw [at_, hand_awaitSuspend]
      cases k <;> simp [Pc.hand, eq_comm]
    · simp [State.setWorker, State.takeAwaiter]
    · simp [State.setWorker, State.takeAwaiter]
    · simp [State.setWorker, State.takeAwaiter]
  refine hp.moved rfl rfl hm hin (fun _ => hsusp) hp.tasks hp.parkQ hp.waitQ
    (hp.fiber_keep hs hin ⟨fun _ _ => rfl, fun g hg => update_of_ne hg .., fun _ _ => rfl⟩ rfl ?_) fun g hg => ?_
  · cases a with
    | yield => trivial
    | lock m => exact hframe
    | unlock m => exact hframe
    | wait e => exact hframe
  · refine (hp.ended g hg).imp_right ?_
    rintro ⟨v, hv⟩
    refine ⟨v, ?_⟩
    change update s.worker w _ v = _
    rw [update_of_ne]
    · exact hv
    · rintro rfl
      cases at_.symm.trans hv
      exact running hg

omit [DecidableEq φ] [DecidableEq μ] [DecidableEq ε] in
theorem Placed.delete (hp : Placed s) (at_ : s.worker w = .resumed f) (completed : s.coro f = .completed) :
    Placed ((s.delete f).setWorker w .idle) := by
  have hin : s.isAt f (.worker .executes w) := by
    change (s.worker w).hand .executes = some f
    rw [at_]
    rfl
  have hlive : s.live f := (hp.live f).2 ⟨_, hin⟩
  have hm : Moves s.isAt ((s.delete f).setWorker w .idle).isAt f (some (.worker .executes w)) none := by
    refine moves_of rfl (fun k v hv => ?_) (fun k y => ?_) (fun y => ?_) (fun m y => ?_) (fun e y => ?_)
    · exact ⟨fun h => by cases h; exact hv rfl, nofun⟩
    · rw [at_]
      cases k <;> simp [Pc.hand, eq_comm]
    · simp [State.setWorker, State.delete]
    · simp [State.setWorker, State.delete]
    · simp [State.setWorker, State.delete]
  refine ⟨hp.exclusive.moves hm hin, fun g => ?_, hp.tasks, hp.parkQ, hp.waitQ, fun g r hr hawake => ?_, ?_,
    nodup_append_new hp.nodup hlive.2, fun g hg => ?_, fun g hg => ?_⟩
  · rcases eq_or_ne g f with rfl | hgf
    · constructor
      · exact fun h => absurd (List.mem_append_right _ (List.mem_singleton_self g)) h.2
      · rintro ⟨r, hr⟩
        exact nomatch (hm.self hp.exclusive hin r).1 hr
    · refine Iff.trans ?_ ((hp.live g).trans (exists_congr fun r => (hm.other hgf r).symm))
      change (_ ∧ g ∉ s.deleted ++ [f]) ↔ (_ ∧ g ∉ s.deleted)
      rw [List.mem_append, List.mem_singleton, or_iff_left hgf]
      exact Iff.rfl
  · rcases eq_or_ne g f with rfl | hgf
    · exact nomatch (hm.self hp.exclusive hin r).1 hr
    · exact hp.asleep g r ((hm.other hgf r).1 hr) hawake
  · exact forall_worker (P := fun _ p => FiberOk _ p) rfl trivial fun v _ =>
      (hp.fiber v).same fun _ _ => ⟨rfl, rfl, rfl⟩
  · rcases List.mem_append.1 hg with hg | hg
    · exact hp.completed g hg
    · rw [List.mem_singleton.1 hg]
      exact completed
  · rcases hp.ended g hg with hg | ⟨v, hv⟩
    · exact .inl (List.mem_append_left _ hg)
    · rcases eq_or_ne v w with rfl | hvw
      · cases at_.symm.trans hv
        exact .inl (List.mem_append_right _ (List.mem_singleton_self f))
      · exact .inr ⟨v, (update_of_ne hvw ..).trans hv⟩

omit [DecidableEq ω] [DecidableEq μ] [DecidableEq ε] in
theorem Placed.go (hp : Placed s) (hs : Spins s) (unborn : s.coro f = .unborn) :
    Placed ((s.setCoro f .suspended).submit f) := by
  have hnowhere : ∀ r, ¬ s.isAt f r := fun r hr => ((hp.live f).2 ⟨r, hr⟩).1 unborn
  have honly : OnlyFiber s ((s.setCoro f .suspended).submit f) f :=
    ⟨fun g hg => update_of_ne hg .., fun _ _ => rfl, fun _ _ => rfl⟩
  have hm : Moves s.isAt ((s.setCoro f .suspended).submit f).isAt f none (some .scheduled) := by
    intro g r
    cases r <;> simp [State.isAt, State.submit, State.setCoro]
  have hself : ((s.setCoro f .suspended).submit f).coro f = .suspended := update_self ..
  have hdeleted : f ∉ s.deleted := fun h => by cases unborn.symm.trans (hp.completed f h)
  refine ⟨hp.exclusive.moves hm hnowhere, fun g => ?_, nodup_append_new hp.tasks (hnowhere .scheduled), hp.parkQ,
    hp.waitQ, fun g r hr hawake => ?_, fun v => ?_, hp.nodup, fun g hg => ?_, fun g hg => ?_⟩
  · rcases eq_or_ne g f with rfl | hgf
    · refine ⟨fun _ => ⟨.scheduled, (hm.self hp.exclusive hnowhere _).2 rfl⟩, fun _ => ⟨?_, hdeleted⟩⟩
      rw [hself]
      nofun
    · refine Iff.trans ?_ ((hp.live g).trans (exists_congr fun r => (hm.other hgf r).symm))
      unfold State.live
      rw [honly.coro g hgf]
      exact Iff.rfl
  · rcases eq_or_ne g f with rfl | hgf
    · exact hself
    · rw [honly.coro g hgf]
      exact hp.asleep g r ((hm.other hgf r).1 hr) hawake
  · refine honly.fiberOk (fun hv => ?_) (hp.fiber v)
    obtain ⟨r, hr, -⟩ := own_isAt hs hv
    exact hnowhere r hr
  · have hgf : g ≠ f := fun h => hdeleted (h ▸ hg)
    rw [honly.coro g hgf]
    exact hp.completed g hg
  · have hgf : g ≠ f := by
      rintro rfl
      cases hself.symm.trans hg
    rw [honly.coro g hgf] at hg
    exact hp.ended g hg

omit [DecidableEq φ] [DecidableEq μ] in
theorem Placed.callFire (hp : Placed s) (at_ : s.worker w = .routine f) :
    Placed ((s.callFire e).setWorker w (.fire f e .lock)) := by
  refine hp.quiet (at_ ▸ ⟨fun k => ?_, fun h => h, nofun⟩) ⟨rfl, rfl, rfl, rfl⟩ ⟨rfl, fun _ => rfl, fun _ => rfl⟩ rfl
  cases k <;> rfl

omit [DecidableEq φ] [DecidableEq μ] in
theorem Placed.storeFired (hp : Placed s) (at_ : s.worker w = .fire f e .store) :
    Placed ((s.setFired e).setWorker w (.fire f e .readEmpty)) := by
  refine hp.quiet (at_ ▸ ⟨fun k => ?_, fun h => h, nofun⟩) ⟨rfl, rfl, rfl, rfl⟩
    ⟨rfl, fun _ => rfl, proj_update (fun y : EventState φ => y.waitQ) (by rfl)⟩ rfl
  cases k <;> rfl

theorem Placed.effect (hp : Placed s) (hs : Spins s) (he : Effect s s') : Placed s' := by
  cases he with
  | go unborn => exact hp.go hs unborn
  | take at_ tasks => exact hp.take at_ tasks
  | suspend at_ => exact hp.suspend hs at_
  | callFire at_ first => exact hp.callFire at_
  | complete at_ => exact hp.complete hs at_
  | resume at_ => exact hp.resume hs at_
  | delete at_ completed => exact hp.delete at_ completed
  | await at_ running awaiter => exact hp.await hs at_ running awaiter
  | move at_ next =>
    exact hp.quiet (at_ ▸ next.quiet) ⟨rfl, rfl, rfl, rfl⟩ ⟨rfl, fun _ => rfl, fun _ => rfl⟩ rfl
  | storeSt at_ next =>
    exact hp.quiet (at_ ▸ next.quiet) ⟨rfl, rfl, rfl, rfl⟩ ((sameQueues_setMutex (by rfl) _).lists rfl) rfl
  | lockMtx at_ next free =>
    exact hp.quiet (at_ ▸ next.quiet) ⟨rfl, rfl, rfl, rfl⟩ ((sameQueues_setMutex (by rfl) _).lists rfl) rfl
  | unlockMtx at_ next =>
    exact hp.quiet (at_ ▸ next.quiet) ⟨rfl, rfl, rfl, rfl⟩ ((sameQueues_setMutex (by rfl) _).lists rfl) rfl
  | lock at_ next free =>
    exact hp.quiet (at_ ▸ next.quiet) ⟨rfl, rfl, rfl, rfl⟩ ((sameQueues_setEvent (by rfl) (by rfl) _).lists rfl) rfl
  | unlock at_ next =>
    exact hp.quiet (at_ ▸ next.quiet) ⟨rfl, rfl, rfl, rfl⟩ ((sameQueues_setEvent (by rfl) (by rfl) _).lists rfl) rfl
  | storeFired at_ => exact hp.storeFired at_
  | casRun at_ own =>
    exact hp.runOwn at_ own ⟨rfl, rfl, rfl, rfl⟩ ((sameQueues_setMutex (by rfl) _).lists rfl) rfl
  | run at_ own => exact hp.runOwn at_ own ⟨rfl, rfl, rfl, rfl⟩ ⟨rfl, fun _ => rfl, fun _ => rfl⟩ rfl
  | submit at_ next => exact hp.submit at_ next
  | park at_ => exact hp.park at_
  | unpark at_ parkQ => exact hp.unpark at_ parkQ
  | enqueue at_ => exact hp.enqueue at_
  | dequeue at_ waitQ => exact hp.dequeue at_ waitQ

end placed

/-! ### Every run -/

variable [DecidableEq φ] [DecidableEq ω] [DecidableEq μ] [DecidableEq ε]

omit [DecidableEq φ] [DecidableEq ω] [DecidableEq μ] [DecidableEq ε] in
theorem spins_init : Spins (init : State φ ω μ ε) where
  mtx _ := ⟨nofun, nofun⟩
  lock _ := ⟨nofun, nofun⟩
  firer _ := ⟨nofun, nofun⟩
  seen _ := .nothing rfl rfl nofun

omit [DecidableEq φ] [DecidableEq ω] [DecidableEq μ] [DecidableEq ε] in
theorem nowhere_init (f : φ) (r : Place ω μ ε) : ¬ (init : State φ ω μ ε).isAt f r := by
  cases r with
  | worker k w => cases k <;> nofun
  | _ => nofun

omit [DecidableEq φ] [DecidableEq ω] [DecidableEq μ] [DecidableEq ε] in
theorem placed_init : Placed (init : State φ ω μ ε) where
  exclusive f r _ hr := absurd hr (nowhere_init f r)
  live f := ⟨fun h => absurd rfl h.1, fun ⟨r, hr⟩ => absurd hr (nowhere_init f r)⟩
  tasks := .nil
  parkQ _ := .nil
  waitQ _ := .nil
  asleep f r hr := absurd hr (nowhere_init f r)
  fiber _ := trivial
  nodup := .nil
  completed := nofun
  ended := nofun

theorem placed {s : State φ ω μ ε} (r : Reach (system φ ω μ ε) anyStep s) : Placed s ∧ Spins s := by
  refine r.invariant (I := fun s => Placed s ∧ Spins s) ?_ ?_
  · rintro s rfl
    exact ⟨placed_init, spins_init⟩
  · intro s a s' hi _ hstep
    have he := step_effect hstep
    exact ⟨hi.1.effect hi.2 he, hi.2.effect he⟩

/-! ### Linearity -/

/-- The worker executes, handles or wakes the fiber, or is still in the `AwaitSuspend` that has parked it. -/
def Pc.touches (p : Pc φ μ ε) (f : φ) : Prop := p.own = some f ∨ p.hand .wakes = some f

structure Linear (s : State φ ω μ ε) : Prop where
  place : ∀ f, s.live f → ∃! p, s.isAt f p
  gone : ∀ f, ¬ s.live f → ∀ p, ¬ s.isAt f p
  queued : s.tasks.Nodup ∧ (∀ m, (s.mutex m).parkQ.Nodup) ∧ ∀ e, (s.event e).waitQ.Nodup
  /-- `Resume` finds its fiber suspended. -/
  resumes : ∀ w f, s.worker w = .run f → s.coro f = .suspended
  deleted : s.deleted.Nodup ∧ ∀ f, f ∈ s.deleted → s.coro f = .completed
  deletes : ∀ f, s.coro f = .completed → f ∈ s.deleted ∨ ∃ w, s.worker w = .resumed f
  /-- A fiber that is still to be touched is not deleted, not scheduled, and touched by no other worker. -/
  touch : ∀ w f, (s.worker w).touches f →
    s.live f ∧ f ∉ s.tasks ∧ ∀ v, v ≠ w → ¬ (s.worker v).touches f
  /-- In `AwaitSuspend` the awaiter exists, and its fiber is not resumed. -/
  awaiter : ∀ w f a, (s.worker w).awaits = some (f, a) → s.frame f = some a ∧ s.coro f = .suspended

section linear

variable {s : State φ ω μ ε} {w v : ω} {f : φ} {a : Awaiter μ ε}

omit [DecidableEq φ] [DecidableEq ω] [DecidableEq μ] [DecidableEq ε] in
theorem touches_isAt (hs : Spins s) (h : (s.worker w).touches f) : ∃ r, s.isAt f r ∧ s.near w r := by
  rcases h with h | h
  · exact own_isAt hs h
  · exact ⟨.worker .wakes w, h, rfl⟩

omit [DecidableEq φ] [DecidableEq ω] [DecidableEq μ] [DecidableEq ε] in
theorem own_of_awaits {p : Pc φ μ ε} (h : p.awaits = some (f, a)) :
    p.own = some f ∧ p.hand .executes = none := by
  cases p <;> first | (cases h; done) | (cases h; exact ⟨rfl, rfl⟩)

omit [DecidableEq φ] [DecidableEq ω] [DecidableEq μ] [DecidableEq ε] in
theorem frame_of_awaits {p : Pc φ μ ε} (hp : FiberOk s p) (h : p.awaits = some (f, a)) :
    s.frame f = some a := by
  cases p <;> first | (cases h; done) | (cases h; exact hp)

omit [DecidableEq φ] [DecidableEq ω] [DecidableEq μ] [DecidableEq ε] in
theorem Placed.isLinear (hp : Placed s) (hs : Spins s) : Linear s where
  place f hf := by
    obtain ⟨r, hr⟩ := (hp.live f).1 hf
    exact ⟨r, hr, fun r' hr' => hp.exclusive f r' r hr' hr⟩
  gone f hf r hr := hf ((hp.live f).2 ⟨r, hr⟩)
  queued := ⟨hp.tasks, hp.parkQ, hp.waitQ⟩
  resumes w f hw := (hw ▸ hp.fiber w : FiberOk s (.run f))
  deleted := ⟨hp.nodup, hp.completed⟩
  deletes := hp.ended
  touch w f hw := by
    obtain ⟨r, hr, hnear⟩ := touches_isAt hs hw
    refine ⟨(hp.live f).2 ⟨r, hr⟩, fun hf => ?_, fun v hv hvf => ?_⟩
    · cases hp.exclusive f r .scheduled hr hf
      exact hnear
    · obtain ⟨r', hr', hnear'⟩ := touches_isAt hs hvf
      cases hp.exclusive f r r' hr hr'
      exact hv (near_unique hs hnear' hnear)
  awaiter w f a hw := by
    refine ⟨frame_of_awaits (hp.fiber w) hw, ?_⟩
    obtain ⟨hown, hnot⟩ := own_of_awaits hw
    obtain ⟨r, hr, hnear⟩ := own_isAt hs hown
    refine hp.asleep f r hr ?_
    cases r with
    | worker k v =>
      cases k with
      | executes =>
        cases hnear
        cases hnot.symm.trans hr
      | _ => rfl
    | _ => rfl

end linear

/-- **Linearity.** In every run, with any fibers, workers, mutexes and events, every live fiber is in one
place: executed by a worker, handled in its `AwaitSuspend`, taken out of a wait queue by a worker that is
about to schedule it, scheduled once, or parked once. -/
theorem linear {s : State φ ω μ ε} (r : Reach (system φ ω μ ε) anyStep s) : Linear s :=
  (placed r).1.isLinear (placed r).2

/-- `f0` holds the mutex, `f1` parks, and `f0` has taken it out of `park_q_`. -/
def handOver : List (Act (Fin 2) (Fin 2) Unit Unit) :=
  [.go 0, .go 1, .take 0, .step 0, .lock 0 (), .step 0, .step 0, .step 0,
    .take 1, .step 1, .lock 1 (), .step 1, .step 1, .step 1, .step 1, .step 1, .step 1, .step 1,
    .unlock 0 (), .step 0, .step 0, .step 0, .step 0]

/-- The worker of `f0` is about to schedule `f1`, which nobody else has. -/
theorem linear_handOver : ∃ s : State (Fin 2) (Fin 2) Unit Unit,
    s.isAt 1 (.worker .wakes 0) ∧ s.isAt 0 (.worker .handles 0) ∧ Linear s := by
  obtain ⟨s, hr, hs⟩ := Reach.of_exec_any (system (Fin 2) (Fin 2) Unit Unit) handOver
    (fun s => decide ((s.worker 0).hand .wakes = some 1 ∧ (s.worker 0).hand .handles = some 0)) rfl (by decide)
  obtain ⟨h1, h2⟩ := of_decide_eq_true hs
  exact ⟨s, h1, h2, linear hr⟩

/-- The places of a fiber that runs, is handled in `AwaitSuspend`, is scheduled or is parked. -/
def Place.settled : Place ω μ ε → Bool
  | .worker .wakes _ => false
  | _ => true

/-- Between `Take` and `Schedule` a live fiber is in none of these. -/
theorem taken_is_nowhere : ¬ ∀ s : State (Fin 2) (Fin 2) Unit Unit,
    Reach (system (Fin 2) (Fin 2) Unit Unit) anyStep s →
      ∀ f, s.live f → ∃! p, p.settled = true ∧ s.isAt f p := by
  intro h
  obtain ⟨s, hr, hs⟩ := Reach.of_exec_any (system (Fin 2) (Fin 2) Unit Unit) handOver
    (fun s => decide ((s.worker 0).hand .wakes = some 1)) rfl (by decide)
  have hhand := of_decide_eq_true hs
  have hw : s.isAt 1 (.worker .wakes 0) := hhand
  have hp := (placed hr).1
  obtain ⟨p, ⟨hsettled, hp1⟩, -⟩ := h s hr 1 ((hp.live 1).2 ⟨_, hw⟩)
  cases hp.exclusive 1 _ _ hp1 hw
  cases hsettled

end Fibers.Fiber
