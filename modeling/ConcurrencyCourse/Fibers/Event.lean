import ConcurrencyCourse.Fibers.MutexFifo
import ConcurrencyCourse.Lib.Lock

/-!
# `fibers::Event` (tasks/fibers/mutex/exe/fibers/sync/event.hpp)

Any number of fibers call `Wait`, somebody calls `Fire` once. A fiber that waits is suspended, and the worker that ran
it goes on in `AwaitSuspend`: a fiber `f` and its `AwaitSuspend` are two activities (`fiber f`, `await f`).

| here | there |
| --- | --- |
| `State` | the members (45-47), the fibers and the `Fire` |
| `.wait`, `FiberPc` | `Wait` (21-28) around the suspension |
| `FirePc` | `Fire` (30-42) |
| `AwaitPc` | `AwaitSuspend` (54-64) |
| `.put`, `.take` | `wait_q_.Put`, `wait_q_.Take` (support/msqueue.hpp 62-104), step by step: `putStep`, `takeStep` |
| `.runnable` | `fiber->Schedule()`; a worker runs it some time later |

A fiber puts itself into `wait_q_` with the lock held and before `is_fired_` is set; `Fire` takes after it has set it and
given the lock back. So `Put`s and `Take`s never meet, `size_` is exact whenever `Fire` reads it, and it reads it before
it schedules the fiber that it took: after the last one it touches the event no more. `event_correct` is the main
theorem.
-/

namespace Fibers.Event

open MSQueue Transition Function

inductive FiberPc where
  -- in its routine, in no call of `Wait`
  | running
  | suspended
  | runnable
  deriving DecidableEq, Repr

inductive AwaitPc where
  | off
  | lock
  -- `is_fired_.load()`
  | loadFired
  | put (pc : PutPc)
  | unlockParked
  | unlockFired
  | schedule

inductive FirePc (ι : Type) where
  | idle
  | lock
  | storeFired
  | readEmpty
  | unlock (isEmpty : Bool)
  -- the loop
  | take (pc : TakePc ι)
  -- `fiber_opt.value()`
  | value (fiber : Option ι) (isEmpty : Bool)
  | schedule (fiber : ι) (isEmpty : Bool)
  | returned
  | thrown

structure State (ι : Type) where
  /-- `wait_q_`. -/
  q : Queue ι
  /-- `lock_`. -/
  locked : Bool
  /-- `is_fired_`. -/
  fired : Bool
  fiber : ι → FiberPc
  await : ι → AwaitPc
  fire : FirePc ι

inductive Act (ι : Type) where
  | wait (f : ι)
  | callFire
  /-- The next step of an `AwaitSuspend`; `spurious` and `outer` are for the queue. -/
  | await (f : ι) (spurious : Bool) (outer : Ptr)
  | fire (spurious : Bool)
  /-- A worker runs the fiber: its `Wait` returns. -/
  | resume (f : ι)

variable {ι : Type} [DecidableEq ι]

/-! ### What a step writes -/

def State.setQ (s : State ι) (q : Queue ι) : State ι := { s with q := q }

def State.setLocked (s : State ι) (b : Bool) : State ι := { s with locked := b }

def State.setFired (s : State ι) : State ι := { s with fired := true }

def State.setFiber (s : State ι) (f : ι) (p : FiberPc) : State ι := { s with fiber := update s.fiber f p }

def State.setAwait (s : State ι) (f : ι) (p : AwaitPc) : State ι := { s with await := update s.await f p }

def State.setFire (s : State ι) (p : FirePc ι) : State ι := { s with fire := p }

/-! ### Steps -/

/-- The lock is a spinlock: whoever finds it locked does not move. -/
def awaitStep (s : State ι) (f : ι) (spurious : Bool) (outer : Ptr) : Option (State ι) :=
  match s.await f with
  | .off => none
  | .lock => if s.locked then none else some ((s.setLocked true).setAwait f .loadFired)
  | .loadFired =>
    if s.fired then some (s.setAwait f .unlockFired)
    else some ((s.setQ (s.q.newNode f)).setAwait f (.put (.loadTail s.q.allocs)))
  | .put .done => some (s.setAwait f .unlockParked)
  | .put pc => (putStep s.q spurious outer pc).map fun r => (s.setQ r.1).setAwait f (.put r.2)
  | .unlockParked => some ((s.setLocked false).setAwait f .off)
  | .unlockFired => some ((s.setLocked false).setAwait f .schedule)
  | .schedule => some ((s.setFiber f .runnable).setAwait f .off)

def fireStep (s : State ι) (spurious : Bool) : Option (State ι) :=
  match s.fire with
  | .idle | .returned | .thrown => none
  | .lock => if s.locked then none else some ((s.setLocked true).setFire .storeFired)
  | .storeFired => some (s.setFired.setFire .readEmpty)
  | .readEmpty => some (s.setFire (.unlock s.q.isEmpty))
  | .unlock isEmpty => some ((s.setLocked false).setFire (if isEmpty then .returned else .take .loadHead))
  | .take (.done fiber) => some (s.setFire (.value fiber s.q.isEmpty))
  | .take pc => (takeStep s.q spurious pc).map fun r => (s.setQ r.1).setFire (.take r.2)
  | .value none _ => some (s.setFire .thrown)
  | .value (some f) isEmpty => some (s.setFire (.schedule f isEmpty))
  | .schedule f isEmpty =>
    some ((s.setFiber f .runnable).setFire (if isEmpty then .returned else .take .loadHead))

def step (s : State ι) : Act ι → Option (State ι)
  | .wait f => if s.fiber f = .running then some ((s.setFiber f .suspended).setAwait f .lock) else none
  | .callFire => match s.fire with
    | .idle => some (s.setFire .lock)
    | _ => none
  | .await f spurious outer => awaitStep s f spurious outer
  | .fire spurious => fireStep s spurious
  | .resume f => if s.fiber f = .runnable then some (s.setFiber f .running) else none

def init : State ι :=
  { q := .empty, locked := false, fired := false, fiber := fun _ => .running, await := fun _ => .off, fire := .idle }

def system (ι : Type) [DecidableEq ι] : System (State ι) (Act ι) := ⟨fun s => s = init, step⟩

/-! ### Calls of `Wait` and of `Schedule` -/

/-- The fiber that a step schedules. -/
def scheduled (s : State ι) : Act ι → Option ι
  | .await f _ _ => match s.await f with
    | .schedule => some f
    | _ => none
  | .fire _ => match s.fire with
    | .schedule f _ => some f
    | _ => none
  | _ => none

/-- How often the fiber has been scheduled. -/
def schedules (f : ι) (h : History (State ι) (Act ι)) : Nat := h.countP fun e => scheduled e.2 e.1 = some f

def waits? (f : ι) : Act ι → Bool
  | .wait g => g = f
  | _ => false

/-- How often the fiber has called `Wait`. -/
def waits (f : ι) (h : History (State ι) (Act ι)) : Nat := h.countP fun e => waits? f e.1

/-! ### The invariant -/

/-- In the section of the lock. -/
def AwaitPc.inside : AwaitPc → Bool
  | .loadFired | .put _ | .unlockParked | .unlockFired => true
  | _ => false

/-- In or after `Put`: `is_fired_` was not set. -/
def AwaitPc.parks : AwaitPc → Bool
  | .put _ | .unlockParked => true
  | _ => false

/-- It saw that `is_fired_` was set. -/
def AwaitPc.late : AwaitPc → Bool
  | .unlockFired | .schedule => true
  | _ => false

/-- Linked, if the fiber is suspended. -/
def AwaitPc.linked : AwaitPc → Bool
  | .put pc => pc.priv.isNone
  | .unlockParked | .off => true
  | _ => false

/-- Linked, and not added to `size_`. -/
def AwaitPc.uncounted : AwaitPc → Bool
  | .put pc => pc.phase == 1
  | _ => false

def FirePc.inside : FirePc ι → Bool
  | .storeFired | .readEmpty | .unlock _ => true
  | _ => false

/-- `is_fired_` is set. -/
def FirePc.fired : FirePc ι → Bool
  | .idle | .lock | .storeFired => false
  | _ => true

/-- The lock is not given back yet. -/
def FirePc.early : FirePc ι → Bool
  | .idle | .lock | .storeFired | .readEmpty | .unlock _ => true
  | _ => false

/-- A fiber is taken, and not scheduled. -/
def FirePc.hands : FirePc ι → Nat
  | .take (.done none) => 0
  | .take (.done (some _)) => 1
  | .take pc => pc.unsized
  | .value _ _ | .schedule _ _ => 1
  | _ => 0

def FirePc.unsized : FirePc ι → Nat
  | .take pc => pc.unsized
  | _ => 0

/-- What an `AwaitSuspend` knows of the queue. -/
def AwaitOk (q : Queue ι) (f : ι) : AwaitPc → Prop
  | .put pc => PutOk q pc ∧ ∀ n, pc.priv = some n → (q.nodes n).value = some f
  | _ => True

/-- What the `Fire` knows of the queue. -/
def FireOk (q : Queue ι) : FirePc ι → Prop
  | .unlock isEmpty => isEmpty = true ↔ q.values.length ≤ q.taken
  | .take pc => TakeOk q pc ∧ pc ≠ .done none ∧ ((FirePc.take pc).hands = 0 → q.taken < q.values.length)
  | .value fiber isEmpty => (∃ f, fiber = some f ∧ q.values[q.taken - 1]? = some f) ∧
      (isEmpty = true ↔ q.values.length ≤ q.taken)
  | .schedule f isEmpty => q.values[q.taken - 1]? = some f ∧ (isEmpty = true ↔ q.values.length ≤ q.taken)
  | .returned => q.values.length ≤ q.taken
  | .thrown => False
  | _ => True

/-- Who is in the section: a fiber's `AwaitSuspend`, or the `Fire`. -/
def State.inside (s : State ι) : Option ι → Bool
  | some f => (s.await f).inside
  | none => s.fire.inside

structure Locks (s : State ι) : Prop extends Lock.Guards s.locked fun x => s.inside x = true where
  holder : s.locked = true → ∃ x, s.inside x = true

/-- The fibers in `wait_q_` and in the hands of the `Fire`. -/
def State.left (s : State ι) : List ι := s.q.values.drop (s.q.taken - s.fire.hands)

/-- The queue and its histories. -/
structure Flow (s : State ι) : Prop where
  q : QInv s.q
  await : ∀ f, AwaitOk s.q f (s.await f)
  fire : FireOk s.q s.fire
  counted : (∀ f, (s.await f).uncounted = false) → s.q.values.length = s.q.added
  uncounted : ∀ f, (s.await f).uncounted = true → s.q.values.length = s.q.added + 1
  removed : s.q.taken = s.q.removed + s.fire.unsized
  hands : s.fire.hands ≤ s.q.taken

structure Inv (s : State ι) : Prop where
  locks : Locks s
  flow : Flow s
  fired : s.fired = s.fire.fired
  parks : s.fired = true → ∀ f, (s.await f).parks = false
  late : ∀ f, (s.await f).late = true → s.fire.early = false
  nodup : s.left.Nodup
  left : ∀ f, f ∈ s.left ↔ s.fiber f = .suspended ∧ (s.await f).linked = true
  suspended : ∀ f, s.await f ≠ .off → s.fiber f = .suspended

section steps

variable {s s' : State ι} {f : ι}

/-! ### The lock -/

omit [DecidableEq ι] in
theorem Locks.stay (hl : Locks s) (hb : s'.locked = s.locked) (hx : ∀ x, s'.inside x = s.inside x) : Locks s' := by
  have hf : s'.inside = s.inside := funext hx
  constructor
  · rw [hb, hf]
    exact hl.toGuards
  · rw [hb, hf]
    exact hl.holder

theorem Locks.enter (hl : Locks s) {x : Option ι} (hfree : s.locked = false) (hb : s'.locked = true)
    (hx : s'.inside x = true) (hy : ∀ y, y ≠ x → s'.inside y = s.inside y) : Locks s' := by
  refine ⟨?_, fun _ => ⟨x, hx⟩⟩
  rw [hb]
  refine hl.toGuards.acquire hfree (x := x) fun y h => ?_
  by_cases hxy : y = x
  · exact .inr hxy
  · exact .inl (hy y hxy ▸ h)

omit [DecidableEq ι] in
theorem Locks.leave (hl : Locks s) {x : Option ι} (hin : s.inside x = true) (hb : s'.locked = false)
    (hx : s'.inside x = false) (hy : ∀ y, y ≠ x → s'.inside y = s.inside y) : Locks s' := by
  refine ⟨hl.toGuards.release (x := x) hin (fun y h => ?_) _, fun h => ?_⟩
  · have hxy : y ≠ x := by
      rintro rfl
      rw [hx] at h
      cases h
    exact ⟨hy y hxy ▸ h, hxy⟩
  · rw [hb] at h
    cases h

omit [DecidableEq ι] in
/-- Nobody else is in the section. -/
theorem Locks.alone (hl : Locks s) {x y : Option ι} (hx : s.inside x = true) (hne : y ≠ x) : s.inside y = false := by
  by_contra h
  exact hne (hl.unique y x (Bool.not_eq_false _ ▸ h) hx)

/-- The `AwaitSuspend` of `f` moves. -/
theorem inside_await {p : AwaitPc} (ha : s'.await = update s.await f p) (hf : s'.fire = s.fire) :
    s'.inside (some f) = p.inside ∧ ∀ y, y ≠ some f → s'.inside y = s.inside y := by
  constructor
  · simp only [State.inside, ha, update_self]
  · intro y hy
    cases y with
    | none => simp only [State.inside, hf]
    | some g =>
      have hg : g ≠ f := fun h => hy (congrArg some h)
      simp only [State.inside, ha, update_of_ne hg]

omit [DecidableEq ι] in
/-- The `Fire` moves. -/
theorem inside_fire (ha : s'.await = s.await) {y : Option ι} (hy : y ≠ none) : s'.inside y = s.inside y := by
  cases y with
  | none => exact absurd rfl hy
  | some g => simp only [State.inside, ha]

omit [DecidableEq ι] in
/-- `Fire` takes or leaves the lock. -/
theorem inside_lockFire {b : Bool} {p : FirePc ι} (y : Option ι) (hy : y ≠ none) :
    ((s.setLocked b).setFire p).inside y = s.inside y := by
  cases y with
  | none => exact absurd rfl hy
  | some g => rfl

theorem Locks.await (hl : Locks s) {p : AwaitPc} (ha : s'.await = update s.await f p) (hf : s'.fire = s.fire)
    (hb : s'.locked = s.locked) (hp : p.inside = (s.await f).inside) : Locks s' := by
  obtain ⟨hself, hother⟩ := inside_await ha hf
  refine hl.stay hb fun x => ?_
  by_cases hx : x = some f
  · rw [hx, hself, hp]
    rfl
  · exact hother x hx

theorem Locks.await_enter (hl : Locks s) {p : AwaitPc} (ha : s'.await = update s.await f p) (hf : s'.fire = s.fire)
    (hfree : s.locked = false) (hb : s'.locked = true) (hp : p.inside = true) : Locks s' := by
  obtain ⟨hself, hother⟩ := inside_await ha hf
  exact hl.enter hfree hb (hself.trans hp) hother

theorem Locks.await_leave (hl : Locks s) {p : AwaitPc} (ha : s'.await = update s.await f p) (hf : s'.fire = s.fire)
    (hin : (s.await f).inside = true) (hb : s'.locked = false) (hp : p.inside = false) : Locks s' := by
  obtain ⟨hself, hother⟩ := inside_await ha hf
  exact hl.leave (x := some f) hin hb (hself.trans hp) hother

omit [DecidableEq ι] in
theorem Locks.fire (hl : Locks s) (ha : s'.await = s.await) (hb : s'.locked = s.locked)
    (hp : s'.fire.inside = s.fire.inside) : Locks s' := by
  refine hl.stay hb fun x => ?_
  cases x with
  | none => exact hp
  | some g => exact inside_fire ha nofun

theorem AwaitPc.inside_of_parks {p : AwaitPc} (h : p.parks = true) : p.inside = true := by
  cases p <;> first | rfl | cases h

/-! ### The `AwaitSuspend` of `f` moves to `p`, and leaves the queue alone -/

theorem forall_await {P : ι → AwaitPc → Prop} {p : AwaitPc} (ha : s'.await = update s.await f p) (hf : P f p)
    (ho : ∀ g, g ≠ f → P g (s.await g)) (g : ι) : P g (s'.await g) := by
  rw [ha]
  rcases eq_or_ne g f with rfl | hg
  · rwa [update_self]
  · rw [update_of_ne hg]
    exact ho g hg

theorem Flow.await_stay (hi : Flow s) {p : AwaitPc} (hq : s'.q = s.q) (hfire : s'.fire = s.fire)
    (ha : s'.await = update s.await f p) (hok : AwaitOk s.q f p) (hun : p.uncounted = (s.await f).uncounted) :
    Flow s' := by
  have hsame : ∀ g, (s'.await g).uncounted = (s.await g).uncounted :=
    forall_await ha (P := fun g p => p.uncounted = (s.await g).uncounted) hun fun _ _ => rfl
  constructor
  · rw [hq]
    exact hi.q
  · rw [hq]
    exact forall_await ha hok fun g _ => hi.await g
  · rw [hq, hfire]
    exact hi.fire
  · rw [hq]
    exact fun h => hi.counted fun g => (hsame g).symm.trans (h g)
  · rw [hq]
    exact fun g h => hi.uncounted g ((hsame g).symm.trans h)
  · rw [hq, hfire]
    exact hi.removed
  · rw [hq, hfire]
    exact hi.hands

/-- What is not about the queue, after a move to `p`. -/
structure Moved (s s' : State ι) (f : ι) (p : AwaitPc) : Prop where
  await : s'.await = update s.await f p
  fire : s'.fire = s.fire
  fired : s'.fired = s.fired
  fiber : s'.fiber = s.fiber
  suspended : s.fiber f = .suspended
  parks : s.fired = true → p.parks = false
  late : p.late = true → s.fire.early = false

theorem Inv.moved (hi : Inv s) {p : AwaitPc} (hm : Moved s s' f p) (hlocks : Locks s') (hflow : Flow s')
    (hnodup : s'.left.Nodup) (hleft : ∀ g, g ∈ s'.left ↔ s.fiber g = .suspended ∧ (s'.await g).linked = true) :
    Inv s' where
  locks := hlocks
  flow := hflow
  fired := by rw [hm.fired, hm.fire]; exact hi.fired
  parks h := by
    rw [hm.fired] at h
    exact forall_await hm.await (P := fun _ p => p.parks = false) (hm.parks h) fun g _ => hi.parks h g
  late := by
    rw [hm.fire]
    exact forall_await hm.await (P := fun _ p => p.late = true → s.fire.early = false) hm.late fun g _ => hi.late g
  nodup := hnodup
  left g := by rw [hm.fiber]; exact hleft g
  suspended := by
    rw [hm.fiber]
    exact forall_await hm.await (P := fun g p => p ≠ .off → s.fiber g = .suspended) (fun _ => hm.suspended)
      fun g _ => hi.suspended g

theorem Inv.await_stay (hi : Inv s) {p : AwaitPc} (hm : Moved s s' f p) (hlocks : Locks s') (hq : s'.q = s.q)
    (hok : AwaitOk s.q f p) (hun : p.uncounted = (s.await f).uncounted)
    (hlink : p.linked = (s.await f).linked) : Inv s' := by
  have hleft : s'.left = s.left := by rw [State.left, hq, hm.fire]; rfl
  have hsame : ∀ g, (s'.await g).linked = (s.await g).linked :=
    forall_await hm.await (P := fun g p => p.linked = (s.await g).linked) hlink fun _ _ => rfl
  refine hi.moved hm hlocks (hi.flow.await_stay hq hm.fire hm.await hok hun) (hleft ▸ hi.nodup) fun g => ?_
  rw [hleft, hsame]
  exact hi.left g

/-! ### A step of a `Put` -/

omit [DecidableEq ι] in
theorem Inv.unfired (hi : Inv s) (hp : (s.await f).parks = true) : s.fired = false := by
  by_contra h
  rw [hi.parks (Bool.not_eq_false _ ▸ h) f] at hp
  cases hp

omit [DecidableEq ι] in
/-- While a fiber is in the section and `is_fired_` is not set, the `Fire` has not come to the section. -/
theorem Inv.fire_before (hi : Inv s) (hin : (s.await f).inside = true) (hf : s.fired = false) :
    s.fire = .idle ∨ s.fire = .lock := by
  have hout : s.fire.inside = false := hi.locks.alone (x := some f) hin (y := none) nofun
  have hnot : s.fire.fired = false := hi.fired ▸ hf
  cases hfire : s.fire with
  | idle => exact .inl rfl
  | lock => exact .inr rfl
  | storeFired =>
    rw [hfire] at hout
    cases hout
  | _ =>
    rw [hfire] at hnot
    cases hnot

omit [DecidableEq ι] in
theorem Inv.others_out (hi : Inv s) (hin : (s.await f).inside = true) {g : ι} (hg : g ≠ f) :
    (s.await g).inside = false :=
  hi.locks.alone (x := some f) (y := some g) hin fun h => hg (Option.some.inj h)

omit [DecidableEq ι] in
theorem AwaitPc.of_outside {p : AwaitPc} (h : p.inside = false) : p.uncounted = false ∧ ∀ q g, AwaitOk (ι := ι) q g p := by
  cases p <;> first | exact ⟨rfl, fun _ _ => trivial⟩ | cases h

/-- Who else is in the section does not count. -/
theorem Inv.length_values (hi : Inv s) (hin : (s.await f).inside = true) :
    s.q.values.length = s.q.added + (s.await f).uncounted.toNat := by
  cases hun : (s.await f).uncounted with
  | true => exact hi.flow.uncounted f hun
  | false =>
    refine hi.flow.counted fun g => ?_
    by_cases hg : g = f
    · rw [hg, hun]
    · exact (AwaitPc.of_outside (ι := ι) (hi.others_out hin hg)).1

/-- The one in `Put` changes the queue. -/
theorem Flow.put (hi : Inv s) {p : AwaitPc} {q : Queue ι} (hin : (s.await f).inside = true) (hf : s.fired = false)
    (hqi : QInv q) (hok : AwaitOk q f p) (htaken : q.taken = s.q.taken) (hremoved : q.removed = s.q.removed)
    (hcount : q.values.length = q.added + p.uncounted.toNat) : Flow ((s.setQ q).setAwait f p) := by
  have hno : s.fire.hands = 0 ∧ s.fire.unsized = 0 ∧ FireOk q s.fire := by
    rcases hi.fire_before hin hf with h | h <;> rw [h] <;> exact ⟨rfl, rfl, trivial⟩
  have hothers : ∀ g, g ≠ f → (s.await g).uncounted = false := fun g hg =>
    (AwaitPc.of_outside (ι := ι) (hi.others_out hin hg)).1
  have hself : ((s.setQ q).setAwait f p).await f = p := update_self ..
  constructor
  · exact hqi
  · exact forall_await (s := s) (f := f) (p := p) rfl (P := fun g p => AwaitOk q g p) hok
      fun g hg => (AwaitPc.of_outside (hi.others_out hin hg)).2 q g
  · exact hno.2.2
  · intro h
    have hpu := h f
    rw [hself] at hpu
    rw [hpu] at hcount
    exact hcount
  · intro g h
    by_cases hg : g = f
    · subst hg
      rw [hself] at h
      rw [h] at hcount
      exact hcount
    · rw [show ((s.setQ q).setAwait f p).await g = s.await g from update_of_ne hg .., hothers g hg] at h
      cases h
  · have hr := hi.flow.removed
    change q.taken = q.removed + s.fire.unsized
    rw [htaken, hremoved]
    exact hr
  · change s.fire.hands ≤ q.taken
    rw [hno.1]
    exact Nat.zero_le _

theorem Inv.put_moved (hi : Inv s) {p : AwaitPc} {q : Queue ι} (hin : (s.await f).inside = true) (hf : s.fired = false)
    (hlate : p.late = false) : Moved s ((s.setQ q).setAwait f p) f p := by
  refine ⟨rfl, rfl, rfl, rfl, hi.suspended f ?_, fun h => absurd h (by rw [hf]; nofun), fun h => ?_⟩
  · intro h
    rw [h] at hin
    cases hin
  · rw [hlate] at h
    cases h

/-- Nothing is linked. -/
theorem Inv.put_keep (hi : Inv s) {p : AwaitPc} {q : Queue ι} (hin : (s.await f).inside = true) (hf : s.fired = false)
    (hqi : QInv q) (hok : AwaitOk q f p) (hv : q.values = s.q.values) (htaken : q.taken = s.q.taken)
    (hremoved : q.removed = s.q.removed) (hcount : q.values.length = q.added + p.uncounted.toNat)
    (hp : p.inside = true) (hlate : p.late = false) (hlink : p.linked = (s.await f).linked) :
    Inv ((s.setQ q).setAwait f p) := by
  have hleft : ((s.setQ q).setAwait f p).left = s.left := by
    change q.values.drop (q.taken - s.fire.hands) = _
    rw [hv, htaken]
    rfl
  refine hi.moved (hi.put_moved hin hf hlate) (hi.locks.await rfl rfl rfl (hp.trans hin.symm))
    (Flow.put hi hin hf hqi hok htaken hremoved hcount) (hleft ▸ hi.nodup) fun g => ?_
  rw [hleft, hi.left g]
  refine and_congr_right fun _ => ?_
  refine forall_await (s := s) (f := f) (p := p) rfl
    (P := fun g p => (s.await g).linked = true ↔ p.linked = true) ?_ (fun _ _ => Iff.rfl) g
  rw [hlink]

/-- The node of `f` is linked. -/
theorem Inv.link (hi : Inv s) {n t : Nat} (hpc : s.await f = .put (.link n t)) (hq : QInv (s.q.link t n)) :
    Inv ((s.setQ (s.q.link t n)).setAwait f (.put (.swing n))) := by
  have hin : (s.await f).inside = true := by rw [hpc]; rfl
  have hf : s.fired = false := hi.unfired (f := f) (by rw [hpc]; rfl)
  have hval : (s.q.nodes n).value = some f := by
    have := hi.flow.await f
    rw [hpc] at this
    exact this.2 n rfl
  have hvals : (s.q.link t n).values = s.q.values ++ [f] := by
    rw [Queue.link, hval]
    rfl
  have hput : PutOk (s.q.link t n) (.swing n) := List.mem_append_right _ (List.mem_singleton.2 rfl)
  have hhands : s.fire.hands = 0 := by
    rcases hi.fire_before hin hf with h | h <;> rw [h] <;> rfl
  have hleft : ((s.setQ (s.q.link t n)).setAwait f (.put (.swing n))).left = s.left ++ [f] := by
    change (s.q.link t n).values.drop (s.q.taken - s.fire.hands) = _
    rw [hvals, State.left, hhands, Nat.sub_zero, List.drop_append_of_le_length hi.flow.q.taken_le]
  have hnew : f ∉ s.left := by
    rw [hi.left f, hpc]
    exact fun h => Bool.noConfusion h.2
  have hlen : (s.q.link t n).values.length = s.q.added + 1 := by
    have h := hi.length_values hin
    rw [hpc] at h
    rw [hvals, List.length_append, h]
    rfl
  refine hi.moved (hi.put_moved hin hf rfl) (hi.locks.await rfl rfl rfl (by rw [hpc]; rfl))
    (Flow.put hi hin hf hq ⟨hput, (by rintro _ ⟨⟩)⟩ rfl rfl hlen) ?_ fun g => ?_
  · rw [hleft]
    exact List.nodup_append.2 ⟨hi.nodup, List.nodup_singleton f, fun a ha b hb => by
      rw [List.mem_singleton] at hb
      rintro rfl
      exact hnew (hb ▸ ha)⟩
  · rw [hleft, List.mem_append, List.mem_singleton, hi.left g]
    change _ ↔ _ ∧ (update s.await f (.put (.swing n)) g).linked = true
    by_cases hg : g = f
    · subst hg
      rw [update_self]
      exact iff_of_true (.inr rfl) ⟨hi.suspended g (by rw [hpc]; rintro ⟨⟩), rfl⟩
    · rw [update_of_ne hg]
      simp only [hg, or_false]

theorem Inv.put_step (hi : Inv s) {pc pc' : PutPc} {q : Queue ι} {sp : Bool} {o : Ptr} (hpc : s.await f = .put pc)
    (hs : putStep s.q sp o pc = some (q, pc')) : Inv ((s.setQ q).setAwait f (.put pc')) := by
  have hok : AwaitOk s.q f (.put pc) := hpc ▸ hi.flow.await f
  have hin : (s.await f).inside = true := by rw [hpc]; rfl
  have hf : s.fired = false := hi.unfired (f := f) (by rw [hpc]; rfl)
  have hput := putStep_ok hi.flow.q hok.1 hs
  have hlen := hi.length_values hin
  rw [hpc] at hlen
  cases putStep_effect hi.flow.q hok.1 hs with
  | @move _ _ t mem priv phase =>
    refine hi.put_keep hin hf (hi.flow.q.setTail mem) ⟨hput, ?_⟩ rfl rfl rfl ?_ rfl rfl ?_
    · rw [priv]
      exact hok.2
    · simp only [AwaitPc.uncounted, phase]
      exact hlen
    · rw [hpc]
      simp only [AwaitPc.linked, priv]
  | link mem last new => exact hi.link hpc (hi.flow.q.link mem last new)
  | bump => exact hi.put_keep hin hf hi.flow.q.addSize ⟨trivial, nofun⟩ rfl rfl rfl hlen rfl rfl (by rw [hpc]; rfl)

/-- `Put` begins with a new node. -/
theorem Inv.beginPut (hi : Inv s) (hpc : s.await f = .loadFired) (hf : s.fired = false) :
    Inv ((s.setQ (s.q.newNode f)).setAwait f (.put (.loadTail s.q.allocs))) := by
  have hin : (s.await f).inside = true := by rw [hpc]; rfl
  have hlen := hi.length_values hin
  rw [hpc] at hlen
  refine hi.put_keep hin hf (hi.flow.q.newNode f) ⟨private_newNode hi.flow.q f, fun n hn => ?_⟩ rfl rfl rfl hlen rfl rfl
    (by rw [hpc]; rfl)
  obtain rfl := Option.some.inj hn
  simp only [Queue.newNode, update_self]

/-! ### The `Fire` moves to `p` -/

omit [DecidableEq ι] in
theorem AwaitPc.of_parks {p : AwaitPc} (h : p.parks = false) : p.uncounted = false ∧ ∀ q g, AwaitOk (ι := ι) q g p := by
  cases p <;> first | exact ⟨rfl, fun _ _ => trivial⟩ | cases h

omit [DecidableEq ι] in
/-- It leaves the queue and the fibers alone. -/
theorem Inv.fire_stay (hi : Inv s) {p : FirePc ι} (hq : s'.q = s.q) (ha : s'.await = s.await) (hfib : s'.fiber = s.fiber)
    (hfire : s'.fire = p) (hlocks : Locks s') (hok : FireOk s.q p) (hu : p.unsized = s.fire.unsized)
    (hh : p.hands = s.fire.hands) (hfired : s'.fired = p.fired) (hparks : p.fired = true → ∀ f, (s.await f).parks = false)
    (hlate : ∀ f, (s.await f).late = true → p.early = false) : Inv s' := by
  have hleft : s'.left = s.left := by rw [State.left, hq, hfire, hh]; rfl
  refine ⟨hlocks, ?_, by rw [hfired, hfire], fun h => ?_, ?_, hleft ▸ hi.nodup, ?_, ?_⟩
  · refine ⟨?_, ?_, ?_, ?_, ?_, ?_, ?_⟩
    · rw [hq]; exact hi.flow.q
    · rw [hq, ha]; exact hi.flow.await
    · rw [hq, hfire]; exact hok
    · rw [hq, ha]; exact hi.flow.counted
    · rw [hq, ha]; exact hi.flow.uncounted
    · rw [hq, hfire, hu]; exact hi.flow.removed
    · rw [hq, hfire, hh]; exact hi.flow.hands
  · rw [ha]
    exact hparks (hfired ▸ h)
  · rw [ha, hfire]; exact hlate
  · rw [hleft, ha, hfib]; exact hi.left
  · rw [ha, hfib]; exact hi.suspended

omit [DecidableEq ι] in
/-- After `is_fired_` was set nobody is in `Put`. -/
theorem Inv.settled (hi : Inv s) (hf : s.fire.fired = true) :
    s.q.values.length = s.q.added ∧ ∀ q g, AwaitOk q g (s.await g) := by
  have hparks := hi.parks (hi.fired.trans hf)
  exact ⟨hi.flow.counted fun g => (AwaitPc.of_parks (ι := ι) (hparks g)).1, fun q g => (AwaitPc.of_parks (hparks g)).2 q g⟩

omit [DecidableEq ι] in
/-- What `IsEmpty` reads: a `Fiber*` has 64 bits, and so has `size_`. -/
theorem Inv.isEmpty_iff [Fintype ι] (hi : Inv s) (hfew : Fintype.card ι < 2 ^ 64) (hf : s.fire.fired = true)
    (hu : s.fire.unsized = 0) : s.q.isEmpty = true ↔ s.q.values.length ≤ s.q.taken := by
  have hadded := (hi.settled hf).1
  have hremoved := hi.flow.removed
  have hsize := hi.flow.q.size
  have hbound := s.q.size.toNat_lt
  have hle := hi.flow.q.taken_le
  have hcard := hi.nodup.length_le_card
  have hlen : s.left.length = s.q.values.length - (s.q.taken - s.fire.hands) := List.length_drop ..
  have htoNat : s.q.size.toNat = s.q.values.length - s.q.taken := by omega
  have hzero : s.q.isEmpty = true ↔ s.q.size.toNat = 0 := by
    rw [Queue.isEmpty, beq_iff_eq, ← UInt64.toNat_inj]
    rfl
  rw [hzero]
  omega

omit [DecidableEq ι] in
/-- A step of `Take`. -/
theorem Inv.take_step (hi : Inv s) {pc pc' : TakePc ι} {q : Queue ι} {sp : Bool} (hpc : s.fire = .take pc)
    (hs : takeStep s.q sp pc = some (q, pc')) : Inv ((s.setQ q).setFire (.take pc')) := by
  have hfired : s.fire.fired = true := by rw [hpc]; rfl
  obtain ⟨hadded, hawait⟩ := hi.settled hfired
  have hparks := hi.parks (hi.fired.trans hfired)
  have hfok : FireOk s.q (.take pc) := hpc ▸ hi.flow.fire
  obtain ⟨hok, -, hlt⟩ := hfok
  obtain ⟨he, htake⟩ := takeStep_effect hi.flow.q hok hs
  have hd : pc.isDone = false := by cases pc <;> first | rfl | cases hs
  have hhands : (FirePc.take pc).hands = pc.unsized := by cases pc <;> first | rfl | cases hd
  have hremoved := hi.flow.removed
  have hle := hi.flow.hands
  rw [hpc] at hremoved hle
  rw [hhands] at hlt hle
  -- `taken` grows as the hands are filled, `removed` as `size_` falls
  have hkey : q.values = s.q.values ∧ q.added = s.q.added ∧ pc' ≠ .done none ∧
      q.taken + pc.unsized = s.q.taken + (FirePc.take pc').hands ∧ q.taken = q.removed + pc'.unsized ∧
      ((FirePc.take pc').hands = 0 → q.taken = s.q.taken ∧ pc.unsized = 0) := by
    cases he with
    | stay retired sized done =>
      have hnot : pc' ≠ .done none := by
        intro h
        obtain ⟨-, hge⟩ := done (by rw [h]; rfl)
        have hzero : pc.unsized = 0 := by
          rw [← sized, h]
          rfl
        exact absurd (hlt hzero) (Nat.not_lt.2 hge)
      have hd' : pc'.isDone = false := by
        by_contra h
        exact hnot (done (by simpa using h)).1
      have hhands' : (FirePc.take pc').hands = pc'.unsized := by cases pc' <;> first | rfl | cases hd'
      refine ⟨rfl, rfl, hnot, by rw [hhands', sized], by rw [sized]; exact hremoved, fun h => ⟨rfl, ?_⟩⟩
      rw [← sized, ← hhands']
      exact h
    | advance head next => exact ⟨rfl, rfl, nofun, rfl, congrArg (· + 1) hremoved, nofun⟩
    | moveOut mem => exact ⟨rfl, rfl, nofun, rfl, hremoved, nofun⟩
    | @retire h item =>
      obtain ⟨h1, h2, h3, h4⟩ := retire_histories s.q h
      exact ⟨h1, h3, nofun, by rw [h2]; rfl, by rw [h2, h4]; exact hremoved, nofun⟩
    | subSize => exact ⟨rfl, rfl, nofun, rfl, hremoved, nofun⟩
  obtain ⟨hv, ha, hnot, htaken, hrem, hzero⟩ := hkey
  have hleft : ((s.setQ q).setFire (.take pc')).left = s.left := by
    change q.values.drop (q.taken - (FirePc.take pc').hands) = s.q.values.drop (s.q.taken - s.fire.hands)
    rw [hv, hpc, hhands]
    congr 1
    omega
  refine ⟨hi.locks.fire rfl rfl (by rw [hpc]; rfl), ?_, hi.fired.trans hfired, fun _ => hparks, fun _ _ => rfl,
    hleft ▸ hi.nodup, fun g => ?_, hi.suspended⟩
  · refine ⟨he.inv hi.flow.q, fun g => hawait q g, ⟨htake, hnot, fun h => ?_⟩, fun _ => ?_, fun g hg => ?_, hrem, ?_⟩
    · obtain ⟨h1, h2⟩ := hzero h
      change q.taken < q.values.length
      rw [hv, h1]
      exact hlt h2
    · change q.values.length = q.added
      rw [hv, ha]
      exact hadded
    · have hout := (AwaitPc.of_parks (ι := ι) (hparks g)).1
      rw [show ((s.setQ q).setFire (.take pc')).await g = s.await g from rfl, hout] at hg
      cases hg
    · change (FirePc.take pc').hands ≤ q.taken
      omega
  · rw [hleft]
    exact hi.left g

omit [DecidableEq ι] in
/-- The fiber in the hands of the `Fire` is suspended, and its `AwaitSuspend` is over. -/
theorem Inv.handed (hi : Inv s) {isEmpty : Bool} (hpc : s.fire = .schedule f isEmpty) :
    s.left = f :: s.q.values.drop s.q.taken ∧ s.fiber f = .suspended ∧ s.await f = .off := by
  have hfok : FireOk s.q (.schedule f isEmpty) := hpc ▸ hi.flow.fire
  have hhands := hi.flow.hands
  rw [hpc] at hhands
  have hpos : 1 ≤ s.q.taken := hhands
  have hleft : s.left = f :: s.q.values.drop s.q.taken := by
    obtain ⟨hlt, hget⟩ := List.getElem?_eq_some_iff.1 hfok.1
    change s.q.values.drop (s.q.taken - s.fire.hands) = _
    rw [hpc]
    change s.q.values.drop (s.q.taken - 1) = _
    rw [List.drop_eq_getElem_cons hlt, hget, Nat.sub_add_cancel hpos]
  have hmem : f ∈ s.left := by
    rw [hleft]
    exact List.mem_cons_self
  obtain ⟨hsusp, hlink⟩ := (hi.left f).1 hmem
  have hparks := hi.parks (hi.fired.trans (by rw [hpc]; rfl)) f
  refine ⟨hleft, hsusp, ?_⟩
  cases ha : s.await f with
  | off => rfl
  | put _ | unlockParked =>
    rw [ha] at hparks
    cases hparks
  | _ =>
    rw [ha] at hlink
    cases hlink

/-- `fiber->Schedule()` by the `Fire`. -/
theorem Inv.schedule (hi : Inv s) {isEmpty : Bool} (hpc : s.fire = .schedule f isEmpty) :
    Inv ((s.setFiber f .runnable).setFire (if isEmpty then .returned else .take .loadHead)) := by
  have hfok : FireOk s.q (.schedule f isEmpty) := hpc ▸ hi.flow.fire
  have hfired : s.fired = true := hi.fired.trans (by rw [hpc]; rfl)
  obtain ⟨hleft, hsusp, hoff⟩ := hi.handed hpc
  have hremoved := hi.flow.removed
  rw [hpc] at hremoved
  have hnew : ((s.setFiber f .runnable).setFire (if isEmpty then .returned else .take .loadHead)).left =
      s.q.values.drop s.q.taken := by
    cases isEmpty <;> rfl
  have hnodup := hi.nodup
  rw [hleft] at hnodup
  obtain ⟨hnot, hrest⟩ := List.nodup_cons.1 hnodup
  refine ⟨hi.locks.fire rfl rfl ?_, ?_, ?_, hi.parks, fun g hg => ?_, hnew ▸ hrest, fun g => ?_, fun g hg => ?_⟩
  · rw [hpc]
    cases isEmpty <;> rfl
  · refine ⟨hi.flow.q, hi.flow.await, ?_, hi.flow.counted, hi.flow.uncounted, ?_, ?_⟩
    · cases isEmpty with
      | true => exact hfok.2.1 rfl
      | false => exact ⟨trivial, nofun, fun _ => Nat.lt_of_not_le fun h => Bool.noConfusion (hfok.2.2 h)⟩
    · cases isEmpty <;> exact hremoved
    · cases isEmpty <;> exact Nat.zero_le _
  · cases isEmpty <;> exact hfired
  · cases isEmpty <;> rfl
  · rw [hnew]
    change _ ↔ update s.fiber f .runnable g = .suspended ∧ (s.await g).linked = true
    by_cases hg : g = f
    · subst hg
      rw [update_self]
      exact iff_of_false hnot nofun
    · rw [update_of_ne hg, ← hi.left g, hleft, List.mem_cons]
      simp only [hg, false_or]
  · change update s.fiber f .runnable g = .suspended
    have hne : g ≠ f := by
      rintro rfl
      exact hg hoff
    rw [update_of_ne hne]
    exact hi.suspended g hg

theorem Inv.fire_step [Fintype ι] (hi : Inv s) (hfew : Fintype.card ι < 2 ^ 64) {sp : Bool}
    (hs : fireStep s sp = some s') : Inv s' := by
  have hfok := hi.flow.fire
  have hparks : s.fire.fired = true → ∀ f, (s.await f).parks = false := fun h => hi.parks (hi.fired.trans h)
  unfold fireStep at hs
  cases hpc : s.fire with
  | idle | returned | thrown =>
    rw [hpc] at hs
    cases hs
  | lock =>
    simp only [hpc] at hs
    split at hs
    · cases hs
    · next hfree =>
      obtain rfl := Option.some.inj hs
      refine hi.fire_stay rfl rfl rfl rfl ?_ trivial (by rw [hpc]; rfl) (by rw [hpc]; rfl)
        (hi.fired.trans (by rw [hpc]; rfl)) nofun fun g hg => ?_
      · exact hi.locks.enter (x := none) (by simpa using hfree) rfl rfl inside_lockFire
      · exact absurd (hi.late g hg) (by rw [hpc]; nofun)
  | storeFired =>
    simp only [hpc] at hs
    obtain rfl := Option.some.inj hs
    have hin : s.inside none = true := by simp only [State.inside, hpc, FirePc.inside]
    refine hi.fire_stay rfl rfl rfl rfl (hi.locks.fire rfl rfl (by rw [hpc]; rfl)) trivial (by rw [hpc]; rfl)
      (by rw [hpc]; rfl) rfl (fun _ g => ?_) fun g hg => ?_
    · by_contra h
      have hg : s.inside (some g) = true := AwaitPc.inside_of_parks (by simpa using h)
      rw [hi.locks.alone hin (y := some g) nofun] at hg
      cases hg
    · exact absurd (hi.late g hg) (by rw [hpc]; nofun)
  | readEmpty =>
    simp only [hpc] at hs
    obtain rfl := Option.some.inj hs
    refine hi.fire_stay rfl rfl rfl rfl (hi.locks.fire rfl rfl (by rw [hpc]; rfl)) ?_ (by rw [hpc]; rfl)
      (by rw [hpc]; rfl) (hi.fired.trans (by rw [hpc]; rfl)) (fun _ => hparks (by rw [hpc]; rfl)) fun g hg => ?_
    · exact hi.isEmpty_iff hfew (by rw [hpc]; rfl) (by rw [hpc]; rfl)
    · exact absurd (hi.late g hg) (by rw [hpc]; nofun)
  | unlock isEmpty =>
    simp only [hpc] at hs
    obtain rfl := Option.some.inj hs
    rw [hpc] at hfok
    have hin : s.inside none = true := by simp only [State.inside, hpc, FirePc.inside]
    have hfired : s.fired = true := hi.fired.trans (by rw [hpc]; rfl)
    refine hi.fire_stay rfl rfl rfl rfl (hi.locks.leave hin rfl ?_ inside_lockFire) ?_ ?_ ?_ ?_
      (fun _ => hparks (by rw [hpc]; rfl)) fun g _ => ?_
    · cases isEmpty <;> rfl
    · cases isEmpty with
      | true => exact hfok.1 rfl
      | false => exact ⟨trivial, nofun, fun _ => Nat.lt_of_not_le fun h => Bool.noConfusion (hfok.2 h)⟩
    · rw [hpc]
      cases isEmpty <;> rfl
    · rw [hpc]
      cases isEmpty <;> rfl
    · cases isEmpty <;> exact hfired
    · cases isEmpty <;> rfl
  | take pc =>
    have hfired : s.fired = true := hi.fired.trans (by rw [hpc]; rfl)
    cases pc with
    | done fiber =>
      simp only [hpc] at hs
      obtain rfl := Option.some.inj hs
      rw [hpc] at hfok
      obtain ⟨hok, hnot, -⟩ := hfok
      cases fiber with
      | none => exact absurd rfl hnot
      | some f =>
        obtain ⟨j, htaken, hget⟩ := hok
        refine hi.fire_stay rfl rfl rfl rfl (hi.locks.fire rfl rfl (by rw [hpc]; rfl)) ⟨⟨f, rfl, ?_⟩, ?_⟩ (by rw [hpc]; rfl)
          (by rw [hpc]; rfl) hfired (fun _ => hparks (by rw [hpc]; rfl)) fun _ _ => rfl
        · rw [htaken]
          exact hget
        · exact hi.isEmpty_iff hfew (by rw [hpc]; rfl) (by rw [hpc]; rfl)
    | _ =>
      simp only [hpc] at hs
      obtain ⟨⟨q, pc'⟩, hr, rfl⟩ := Option.map_eq_some_iff.1 hs
      exact hi.take_step hpc hr
  | value fiber isEmpty =>
    rw [hpc] at hfok
    obtain ⟨⟨f, rfl, hget⟩, hempty⟩ := hfok
    simp only [hpc] at hs
    obtain rfl := Option.some.inj hs
    exact hi.fire_stay rfl rfl rfl rfl (hi.locks.fire rfl rfl (by rw [hpc]; rfl)) ⟨hget, hempty⟩ (by rw [hpc]; rfl)
      (by rw [hpc]; rfl) (hi.fired.trans (by rw [hpc]; rfl)) (fun _ => hparks (by rw [hpc]; rfl)) fun _ _ => rfl
  | schedule f isEmpty =>
    simp only [hpc] at hs
    obtain rfl := Option.some.inj hs
    exact hi.schedule hpc

/-- The fiber is suspended, scheduled or run. -/
theorem Inv.fiber_move (hi : Inv s) {p : AwaitPc} {fp : FiberPc} (hq : s'.q = s.q) (hfire : s'.fire = s.fire)
    (hfired : s'.fired = s.fired) (hb : s'.locked = s.locked) (ha : s'.await = update s.await f p)
    (hfib : s'.fiber = update s.fiber f fp) (hin : (s.await f).inside = false)
    (hp : p = .lock ∧ fp = .suspended ∨ p = .off ∧ fp ≠ .suspended) (hnot : f ∉ s.left) : Inv s' := by
  have hout : p.inside = false ∧ p.parks = false ∧ p.late = false ∧ ¬ (fp = .suspended ∧ p.linked = true) ∧
      (p ≠ .off → fp = .suspended) := by
    rcases hp with ⟨rfl, rfl⟩ | ⟨rfl, hfp⟩
    · exact ⟨rfl, rfl, rfl, nofun, fun _ => rfl⟩
    · exact ⟨rfl, rfl, rfl, fun h => hfp h.1, fun h => absurd rfl h⟩
  have hleft : s'.left = s.left := by rw [State.left, hq, hfire]; rfl
  refine ⟨hi.locks.await ha hfire hb (hout.1.trans hin.symm),
    hi.flow.await_stay hq hfire ha ((AwaitPc.of_outside hout.1).2 _ _)
      ((AwaitPc.of_outside (ι := ι) hout.1).1.trans (AwaitPc.of_outside (ι := ι) hin).1.symm),
    by rw [hfired, hfire]; exact hi.fired, fun h => ?_, ?_, hleft ▸ hi.nodup, fun g => ?_, fun g => ?_⟩
  · exact forall_await ha (P := fun _ p => p.parks = false) hout.2.1 fun g _ => hi.parks (hfired ▸ h) g
  · rw [hfire]
    refine forall_await ha (P := fun _ p => p.late = true → s.fire.early = false) (fun h => ?_) fun g _ => hi.late g
    rw [hout.2.2.1] at h
    cases h
  · rw [hleft, ha, hfib]
    by_cases hg : g = f
    · subst hg
      rw [update_self, update_self]
      exact iff_of_false hnot hout.2.2.2.1
    · rw [update_of_ne hg, update_of_ne hg]
      exact hi.left g
  · rw [ha, hfib]
    by_cases hg : g = f
    · subst hg
      rw [update_self, update_self]
      exact hout.2.2.2.2
    · rw [update_of_ne hg, update_of_ne hg]
      exact hi.suspended g

theorem Inv.await_step (hi : Inv s) {sp : Bool} {o : Ptr} (hs : awaitStep s f sp o = some s') : Inv s' := by
  unfold awaitStep at hs
  cases hpc : s.await f with
  | off =>
    rw [hpc] at hs
    cases hs
  | lock =>
    simp only [hpc] at hs
    split at hs
    · cases hs
    · next hfree =>
      obtain rfl := Option.some.inj hs
      have hsusp : s.fiber f = .suspended := hi.suspended f (by rw [hpc]; nofun)
      exact hi.await_stay ⟨rfl, rfl, rfl, rfl, hsusp, fun _ => rfl, nofun⟩
        (hi.locks.await_enter rfl rfl (by simpa using hfree) rfl rfl) rfl trivial (by rw [hpc]; rfl) (by rw [hpc]; rfl)
  | loadFired =>
    simp only [hpc] at hs
    have hsusp : s.fiber f = .suspended := hi.suspended f (by rw [hpc]; nofun)
    split at hs
    · next hf =>
      obtain rfl := Option.some.inj hs
      refine hi.await_stay ⟨rfl, rfl, rfl, rfl, hsusp, fun _ => rfl, fun _ => ?_⟩
        (hi.locks.await rfl rfl rfl (by rw [hpc]; rfl)) rfl trivial (by rw [hpc]; rfl) (by rw [hpc]; rfl)
      -- the `Fire` is not in the section, and `is_fired_` is set
      have hout : s.fire.inside = false := hi.locks.alone (x := some f) (y := none)
        (by simp only [State.inside, hpc, AwaitPc.inside]) nofun
      have hfired : s.fire.fired = true := hi.fired ▸ hf
      cases hfire : s.fire <;> rw [hfire] at hout hfired <;> first | rfl | cases hout <;> cases hfired
    · next hf =>
      obtain rfl := Option.some.inj hs
      exact hi.beginPut hpc (by simpa using hf)
  | put pc =>
    have hparks : (s.await f).parks = true := by rw [hpc]; rfl
    have hunfired := hi.unfired hparks
    cases pc with
    | done =>
      simp only [hpc] at hs
      obtain rfl := Option.some.inj hs
      have hsusp : s.fiber f = .suspended := hi.suspended f (by rw [hpc]; nofun)
      exact hi.await_stay ⟨rfl, rfl, rfl, rfl, hsusp, fun h => absurd h (by rw [hunfired]; nofun), nofun⟩
        (hi.locks.await rfl rfl rfl (by rw [hpc]; rfl)) rfl trivial (by rw [hpc]; rfl) (by rw [hpc]; rfl)
    | _ =>
      simp only [hpc] at hs
      obtain ⟨⟨q, pc'⟩, hr, rfl⟩ := Option.map_eq_some_iff.1 hs
      exact hi.put_step hpc hr
  | unlockParked =>
    simp only [hpc] at hs
    obtain rfl := Option.some.inj hs
    have hsusp : s.fiber f = .suspended := hi.suspended f (by rw [hpc]; nofun)
    exact hi.await_stay ⟨rfl, rfl, rfl, rfl, hsusp, fun _ => rfl, nofun⟩
      (hi.locks.await_leave rfl rfl (by rw [hpc]; rfl) rfl rfl) rfl trivial (by rw [hpc]; rfl) (by rw [hpc]; rfl)
  | unlockFired =>
    simp only [hpc] at hs
    obtain rfl := Option.some.inj hs
    have hsusp : s.fiber f = .suspended := hi.suspended f (by rw [hpc]; nofun)
    exact hi.await_stay ⟨rfl, rfl, rfl, rfl, hsusp, fun _ => rfl, fun _ => hi.late f (by rw [hpc]; rfl)⟩
      (hi.locks.await_leave rfl rfl (by rw [hpc]; rfl) rfl rfl) rfl trivial (by rw [hpc]; rfl) (by rw [hpc]; rfl)
  | schedule =>
    simp only [hpc] at hs
    obtain rfl := Option.some.inj hs
    refine hi.fiber_move (f := f) rfl rfl rfl rfl rfl rfl (by rw [hpc]; rfl) (.inr ⟨rfl, nofun⟩) ?_
    rw [hi.left f, hpc]
    exact fun h => Bool.noConfusion h.2

omit [DecidableEq ι] in
theorem Inv.off (hi : Inv s) (hf : s.fiber f ≠ .suspended) : s.await f = .off ∧ f ∉ s.left := by
  constructor
  · by_contra h
    exact hf (hi.suspended f h)
  · rw [hi.left f]
    exact fun h => hf h.1

theorem Inv.step [Fintype ι] (hi : Inv s) (hfew : Fintype.card ι < 2 ^ 64) {a : Act ι} (hs : step s a = some s') :
    Inv s' := by
  cases a with
  | wait f =>
    simp only [Event.step] at hs
    split at hs
    · next hrun =>
      obtain rfl := Option.some.inj hs
      obtain ⟨hoff, hnot⟩ := hi.off (f := f) (by rw [hrun]; nofun)
      exact hi.fiber_move (f := f) rfl rfl rfl rfl rfl rfl (by rw [hoff]; rfl) (.inl ⟨rfl, rfl⟩) hnot
    · cases hs
  | callFire =>
    simp only [Event.step] at hs
    split at hs
    · next hpc =>
      obtain rfl := Option.some.inj hs
      refine hi.fire_stay rfl rfl rfl rfl (hi.locks.fire rfl rfl (by rw [hpc]; rfl)) trivial (by rw [hpc]; rfl)
        (by rw [hpc]; rfl) (hi.fired.trans (by rw [hpc]; rfl)) nofun fun g hg => ?_
      exact absurd (hi.late g hg) (by rw [hpc]; nofun)
    · cases hs
  | await f sp o => exact hi.await_step hs
  | fire sp => exact hi.fire_step hfew hs
  | resume f =>
    simp only [Event.step] at hs
    split at hs
    · next hrun =>
      obtain rfl := Option.some.inj hs
      obtain ⟨hoff, hnot⟩ := hi.off (f := f) (by rw [hrun]; nofun)
      refine hi.fiber_move (f := f) (p := .off) rfl rfl rfl rfl ?_ rfl (by rw [hoff]; rfl) (.inr ⟨rfl, nofun⟩) hnot
      rw [← hoff, update_eq_self]
      rfl
    · cases hs

omit [DecidableEq ι] in
theorem inside_init (x : Option ι) : (init : State ι).inside x ≠ true := by
  cases x <;> nofun

omit [DecidableEq ι] in
theorem inv_init : Inv (init : State ι) where
  locks := ⟨⟨fun x hx => absurd hx (inside_init x), fun x _ hx => absurd hx (inside_init x)⟩, nofun⟩
  flow := ⟨.empty, fun _ => trivial, trivial, fun _ => rfl, nofun, rfl, Nat.le_refl _⟩
  fired := rfl
  parks := nofun
  late := nofun
  nodup := List.nodup_nil
  left _ := iff_of_false List.not_mem_nil nofun
  suspended _ h := absurd rfl h

/-! ### Who is scheduled, and when -/

omit [DecidableEq ι] in
theorem Inv.scheduled (hi : Inv s) {a : Act ι} (ha : scheduled s a = some f) :
    s.fired = true ∧ s.fire.early = false ∧ s.fiber f = .suspended := by
  cases a with
  | await g sp o =>
    simp only [Event.scheduled] at ha
    split at ha
    · next hpc =>
      obtain rfl := Option.some.inj ha
      have hearly := hi.late g (by rw [hpc]; rfl)
      refine ⟨hi.fired.trans ?_, hearly, hi.suspended g (by rw [hpc]; nofun)⟩
      cases hfire : s.fire <;> rw [hfire] at hearly <;> first | rfl | cases hearly
    · cases ha
  | fire sp =>
    simp only [Event.scheduled] at ha
    split at ha
    · next g isEmpty hpc =>
      obtain rfl := Option.some.inj ha
      exact ⟨hi.fired.trans (by rw [hpc]; rfl), by rw [hpc]; rfl, (hi.handed hpc).2.1⟩
    · cases ha
  | _ => cases ha

/-- What a step does to a fiber. -/
inductive FiberMove (s : State ι) (a : Act ι) (f : ι) : FiberPc → FiberPc → Prop where
  | schedule : Event.scheduled s a = some f → waits? f a = false → FiberMove s a f .suspended .runnable
  | wait : waits? f a = true → Event.scheduled s a = none → FiberMove s a f .running .suspended
  | other {p p' : FiberPc} : Event.scheduled s a ≠ some f → waits? f a = false →
      (p' = .suspended ↔ p = .suspended) → FiberMove s a f p p'

/-- Every step of an `AwaitSuspend` but the last leaves the fibers alone. -/
theorem awaitStep_frame {sp : Bool} {o : Ptr} (hs : awaitStep s f sp o = some s') :
    s'.fire = s.fire ∧ (s.await f ≠ .schedule → s'.fiber = s.fiber) := by
  unfold awaitStep at hs
  split at hs
  case h_8 h =>
    obtain rfl := Option.some.inj hs
    exact ⟨rfl, fun h' => absurd h h'⟩
  case h_1 => cases hs
  case h_5 =>
    obtain ⟨r, -, rfl⟩ := Option.map_eq_some_iff.1 hs
    exact ⟨rfl, fun _ => rfl⟩
  case h_2 =>
    split at hs
    · cases hs
    · obtain rfl := Option.some.inj hs
      exact ⟨rfl, fun _ => rfl⟩
  case h_3 =>
    split at hs
    all_goals
      obtain rfl := Option.some.inj hs
      exact ⟨rfl, fun _ => rfl⟩
  all_goals
    obtain rfl := Option.some.inj hs
    exact ⟨rfl, fun _ => rfl⟩

theorem fireStep_fiber {sp : Bool} (hs : fireStep s sp = some s') (hpc : ∀ f e, s.fire ≠ .schedule f e) :
    s'.fiber = s.fiber := by
  unfold fireStep at hs
  split at hs
  case h_1 | h_2 | h_3 => cases hs
  case h_4 =>
    split at hs
    · cases hs
    · obtain rfl := Option.some.inj hs
      rfl
  case h_9 =>
    obtain ⟨r, -, rfl⟩ := Option.map_eq_some_iff.1 hs
    rfl
  case h_12 h => exact absurd h (hpc _ _)
  all_goals
    obtain rfl := Option.some.inj hs
    rfl

/-- Fiber `f` is scheduled. -/
theorem FiberMove.of_scheduled {a : Act ι} (hi : Inv s) (ha : Event.scheduled s a = some f)
    (hs : s'.fiber = update s.fiber f .runnable) (g : ι) : FiberMove s a g (s.fiber g) (s'.fiber g) := by
  have hw : waits? g a = false := by cases a <;> first | rfl | cases ha
  rw [hs]
  by_cases hg : g = f
  · subst hg
    rw [(hi.scheduled ha).2.2, update_self]
    exact .schedule ha hw
  · rw [update_of_ne hg]
    exact .other (fun h => hg (Option.some.inj (h.symm.trans ha))) hw Iff.rfl

theorem Inv.fiber_step (hi : Inv s) {a : Act ι} (hs : Event.step s a = some s') (g : ι) :
    FiberMove s a g (s.fiber g) (s'.fiber g) := by
  cases a with
  | wait f =>
    simp only [Event.step] at hs
    split at hs
    · next hrun =>
      obtain rfl := Option.some.inj hs
      change FiberMove s _ g (s.fiber g) (update s.fiber f .suspended g)
      by_cases hg : g = f
      · subst hg
        rw [hrun, update_self]
        exact .wait (decide_eq_true rfl) rfl
      · rw [update_of_ne hg]
        exact .other nofun (decide_eq_false (Ne.symm hg)) Iff.rfl
    · cases hs
  | callFire =>
    simp only [Event.step] at hs
    split at hs
    · obtain rfl := Option.some.inj hs
      exact .other nofun rfl Iff.rfl
    · cases hs
  | resume f =>
    simp only [Event.step] at hs
    split at hs
    · next hrun =>
      obtain rfl := Option.some.inj hs
      change FiberMove s _ g (s.fiber g) (update s.fiber f .running g)
      refine .other nofun rfl ?_
      by_cases hg : g = f
      · subst hg
        rw [hrun, update_self]
        exact iff_of_false nofun nofun
      · rw [update_of_ne hg]
    · cases hs
  | await f sp o =>
    by_cases hpc : s.await f = .schedule
    · have hsch : Event.scheduled s (.await f sp o) = some f := by simp only [Event.scheduled, hpc]
      simp only [Event.step, awaitStep, hpc] at hs
      obtain rfl := Option.some.inj hs
      exact .of_scheduled hi hsch rfl g
    · rw [(awaitStep_frame hs).2 hpc]
      refine .other ?_ rfl Iff.rfl
      simp only [Event.scheduled]
      nofun
  | fire sp =>
    by_cases hpc : ∃ f e, s.fire = .schedule f e
    · obtain ⟨f, e, hpc⟩ := hpc
      have hsch : Event.scheduled s (.fire sp) = some f := by simp only [Event.scheduled, hpc]
      simp only [Event.step, fireStep, hpc] at hs
      obtain rfl := Option.some.inj hs
      exact .of_scheduled hi hsch rfl g
    · have hno : ∀ f e, s.fire ≠ .schedule f e := fun f e h => hpc ⟨f, e, h⟩
      rw [fireStep_fiber hs hno]
      refine .other ?_ rfl Iff.rfl
      simp only [Event.scheduled]
      nofun

/-- The `Fire` does not go back to its section. -/
theorem fireStep_early {sp : Bool} (hs : fireStep s sp = some s') (he : s.fire.early = false) :
    s'.fire.early = false := by
  unfold fireStep at hs
  split at hs
  case h_1 | h_2 | h_3 => cases hs
  case h_4 h | h_5 h | h_6 h | h_7 h =>
    rw [h] at he
    cases he
  case h_9 =>
    obtain ⟨r, -, rfl⟩ := Option.map_eq_some_iff.1 hs
    rfl
  case h_12 =>
    obtain rfl := Option.some.inj hs
    simp only [State.setFire]
    split <;> rfl
  all_goals
    obtain rfl := Option.some.inj hs
    rfl

theorem early_step {a : Act ι} (hs : Event.step s a = some s') (he : s'.fire.early = true) : s.fire.early = true := by
  cases a with
  | await f sp o => exact (awaitStep_frame hs).1 ▸ he
  | fire sp =>
    by_contra h
    rw [fireStep_early hs (by simpa using h)] at he
    cases he
  | callFire =>
    simp only [Event.step] at hs
    split at hs
    · next hpc =>
      rw [hpc]
      rfl
    · cases hs
  | wait f | resume f =>
    simp only [Event.step] at hs
    split at hs
    · obtain rfl := Option.some.inj hs
      exact he
    · cases hs

end steps

/-! ### Every run -/

section run

variable {h : History (State ι) (Act ι)} {s s' : State ι} {f : ι}

/-- The history, as it is tied to the state. -/
structure Told (h : History (State ι) (Act ι)) (s : State ι) : Prop where
  inv : Inv s
  once : ∀ f, schedules f h + (if s.fiber f = .suspended then 1 else 0) = waits f h
  fired : ∀ a s₀ f, (a, s₀) ∈ h → scheduled s₀ a = some f → s₀.fired = true ∧ s₀.fiber f = .suspended
  early : s.fire.early = true → ∀ f, schedules f h = 0

theorem schedules_cons {a : Act ι} : schedules f ((a, s) :: h) =
    schedules f h + if scheduled s a = some f then 1 else 0 := by
  simp only [schedules, List.countP_cons, decide_eq_true_eq]

omit h in
theorem waits_cons {h : History (State ι) (Act ι)} {a : Act ι} : waits f ((a, s) :: h) =
    waits f h + if waits? f a = true then 1 else 0 := by
  simp only [waits, List.countP_cons]

theorem told_init : Told [] (init : State ι) where
  inv := inv_init
  once _ := rfl
  fired _ _ _ hmem := absurd hmem List.not_mem_nil
  early _ _ := rfl

theorem Told.step [Fintype ι] (hi : Told h s) (hfew : Fintype.card ι < 2 ^ 64) {a : Act ι} (hs : step s a = some s') :
    Told ((a, s) :: h) s' := by
  refine ⟨hi.inv.step hfew hs, fun f => ?_, fun b s₀ f hmem hb => ?_, fun he f => ?_⟩
  · have honce := hi.once f
    rw [schedules_cons, waits_cons, ← honce]
    have hmove := hi.inv.fiber_step hs f
    generalize s.fiber f = p at hmove ⊢
    generalize s'.fiber f = p' at hmove ⊢
    cases hmove with
    | schedule hsch hw =>
      rw [if_pos hsch, hw]
      rfl
    | wait hw hsch =>
      rw [hsch, hw]
      rfl
    | other hsch hw hp =>
      rw [if_neg hsch, hw, if_congr hp rfl rfl]
      rfl
  · rcases List.mem_cons.1 hmem with heq | hmem
    · cases heq
      obtain ⟨h1, -, h2⟩ := hi.inv.scheduled hb
      exact ⟨h1, h2⟩
    · exact hi.fired b s₀ f hmem hb
  · have hearly := early_step hs he
    rw [schedules_cons, hi.early hearly f, if_neg]
    intro hsch
    rw [(hi.inv.scheduled hsch).2.1] at hearly
    cases hearly

/-! ### Nobody is left behind -/

/-- The fibers in `wait_q_`. -/
def State.waiting (s : State ι) : List ι := s.q.values.drop s.q.taken

omit [DecidableEq ι] in
/-- As long as the loop of the `Fire` runs there is a fiber that it has not scheduled. -/
theorem Inv.left_ne (hi : Inv s) (hlate : s.fire.early = false) (hret : s.fire ≠ .returned) : s.left ≠ [] := by
  have hfok := hi.flow.fire
  have hhands := hi.flow.hands
  have hle := hi.flow.q.taken_le
  have hlen : s.left.length = s.q.values.length - (s.q.taken - s.fire.hands) := List.length_drop ..
  have hkey : s.fire.hands = 0 → s.q.taken < s.q.values.length := by
    intro h0
    cases hpc : s.fire <;> rw [hpc] at hlate hfok h0
    case take pc => exact hfok.2.2 h0
    case returned => exact absurd hpc hret
    case thrown => exact absurd hfok id
    case value | schedule => cases h0
    all_goals cases hlate
  intro h
  rw [h] at hlen
  have hlen : 0 = s.q.values.length - (s.q.taken - s.fire.hands) := hlen
  rcases Nat.eq_zero_or_pos s.fire.hands with h0 | h0
  · have := hkey h0
    omega
  · omega

/-- Only the lock is waited for. -/
theorem Inv.fire_enabled (hi : Inv s) (hidle : s.fire ≠ .idle) (hret : s.fire ≠ .returned)
    (hlock : s.fire = .lock → s.locked = false) : (fireStep s false).isSome = true := by
  have hfok := hi.flow.fire
  unfold fireStep
  cases hpc : s.fire <;> rw [hpc] at hidle hret hlock hfok
  case idle => exact absurd rfl hidle
  case returned => exact absurd rfl hret
  case thrown => exact absurd hfok id
  case lock =>
    simp only [hlock rfl]
    rfl
  case take pc =>
    cases pc with
    | done r => rfl
    | _ =>
      simp only [Option.isSome_map]
      exact takeStep_isSome hi.flow.q hfok.1 rfl
  case value fiber isEmpty => cases fiber <;> rfl
  all_goals rfl

theorem Inv.await_enabled (hi : Inv s) (hoff : s.await f ≠ .off) (hlock : s.await f = .lock → s.locked = false) :
    (awaitStep s f false none).isSome = true := by
  unfold awaitStep
  cases hpc : s.await f <;> rw [hpc] at hoff hlock
  case off => exact absurd rfl hoff
  case lock =>
    simp only [hlock rfl]
    rfl
  case loadFired =>
    simp only
    split <;> rfl
  case put pc =>
    cases pc with
    | done => rfl
    | _ =>
      simp only [Option.isSome_map]
      exact putStep_isSome hi.flow.q nofun
  all_goals rfl

/-- Whoever has the lock can go on. -/
theorem Inv.unlocked (hi : Inv s) (hfire : (fireStep s false).isSome = false)
    (hawait : ∀ f, (awaitStep s f false none).isSome = false) : s.locked = false := by
  by_contra h
  obtain ⟨x, hx⟩ := hi.locks.holder (by simpa using h)
  cases x with
  | none =>
    have hx : s.fire.inside = true := hx
    refine Bool.noConfusion (hfire.symm.trans (hi.fire_enabled ?_ ?_ ?_)) <;> intro hpc <;> rw [hpc] at hx <;> cases hx
  | some f =>
    have hx : (s.await f).inside = true := hx
    refine Bool.noConfusion ((hawait f).symm.trans (hi.await_enabled ?_ ?_)) <;> intro hpc <;> rw [hpc] at hx <;> cases hx

/-- When nothing moves any more after `Fire` was called, all have been scheduled and run. -/
theorem Inv.settles (hi : Inv s) (hidle : s.fire ≠ .idle) (hrest : ∀ a, (∀ f, a ≠ .wait f) → Event.step s a = none) :
    s.fire = .returned ∧ ∀ f, s.fiber f = .running := by
  have hfire : (fireStep s false).isSome = false := by
    rw [show fireStep s false = none from hrest (.fire false) nofun]
    rfl
  have hawait : ∀ f, (awaitStep s f false none).isSome = false := by
    intro f
    rw [show awaitStep s f false none = none from hrest (.await f false none) nofun]
    rfl
  have hfree := hi.unlocked hfire hawait
  have hret : s.fire = .returned := by
    by_contra h
    exact Bool.noConfusion (hfire.symm.trans (hi.fire_enabled hidle h fun _ => hfree))
  refine ⟨hret, fun f => ?_⟩
  cases hf : s.fiber f with
  | running => rfl
  | runnable =>
    have hres := hrest (.resume f) nofun
    simp only [Event.step, if_pos hf] at hres
    cases hres
  | suspended =>
    have hoff : s.await f = .off := by
      by_contra h
      exact Bool.noConfusion ((hawait f).symm.trans (hi.await_enabled h fun _ => hfree))
    have hmem : f ∈ s.left := (hi.left f).2 ⟨hf, by rw [hoff]; rfl⟩
    have hge := hi.flow.fire
    rw [hret] at hge
    have hnil : s.left = [] := by
      refine List.drop_eq_nil_of_le ?_
      rw [hret]
      exact hge
    rw [hnil] at hmem
    cases hmem

/-- In a state that a run with history `h` led to. -/
structure Correct (h : History (State ι) (Act ι)) (s : State ι) : Prop where
  /-- A fiber has been scheduled once for each `Wait` it has called, but for the one it is suspended in. -/
  once : ∀ f, schedules f h + (if s.fiber f = .suspended then 1 else 0) = waits f h
  /-- And when it was, `is_fired_` was set and the fiber suspended. -/
  fired : ∀ a s₀ f, (a, s₀) ∈ h → scheduled s₀ a = some f → s₀.fired = true ∧ s₀.fiber f = .suspended
  /-- `Take` returns a fiber. -/
  value : (∀ isEmpty, s.fire ≠ .value none isEmpty) ∧ s.fire ≠ .thrown
  drained : s.fire = .returned → s.waiting = []
  /-- When a `Wait` has been called and all have returned, neither the `Fire` nor an `AwaitSuspend` has a step left. -/
  last : (∃ f, 0 < waits f h) → (∀ f, s.fiber f = .running) → s.fire = .returned ∧ ∀ f, s.await f = .off
  /-- After `Fire` was called somebody can go on until it has returned and every `Wait` has. -/
  goesOn : s.fire ≠ .idle → (∀ a, (∀ f, a ≠ .wait f) → step s a = none) →
    s.fire = .returned ∧ ∀ f, s.fiber f = .running

theorem Told.correct (hi : Told h s) : Correct h s where
  once := hi.once
  fired := hi.fired
  value := by
    have hfok := hi.inv.flow.fire
    constructor
    · intro isEmpty hpc
      rw [hpc] at hfok
      obtain ⟨⟨f, hf, -⟩, -⟩ := hfok
      cases hf
    · intro hpc
      rw [hpc] at hfok
      exact hfok
  drained hpc := by
    have hfok := hi.inv.flow.fire
    rw [hpc] at hfok
    exact List.drop_eq_nil_of_le hfok
  last := by
    rintro ⟨f, hf⟩ hall
    have honce := hi.once f
    rw [hall f] at honce
    have honce : schedules f h + 0 = waits f h := honce
    have hearly : s.fire.early = false := by
      by_contra h
      have hzero := hi.early (by simpa using h) f
      omega
    have hoff : ∀ f, s.await f = .off := fun g => (hi.inv.off (f := g) (by rw [hall g]; nofun)).1
    refine ⟨?_, hoff⟩
    by_contra hret
    refine hi.inv.left_ne hearly hret (List.eq_nil_iff_forall_not_mem.2 fun g hg => ?_)
    have hsusp := ((hi.inv.left g).1 hg).1
    rw [hall g] at hsusp
    cases hsusp
  goesOn := hi.inv.settles

end run

end Fibers.Event
