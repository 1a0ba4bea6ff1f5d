import ConcurrencyCourse.Lib.Places
import ConcurrencyCourse.SleepFor.Fiber
import Mathlib.Data.List.Nodup

/-!
# A fiber that sleeps is in one place (tasks/fibers/sleep_for/exe/fibers)

`SleepFor` gives the fiber away while it is still being executed: but the handler that it defers is queued only when
the handler of `Run` has returned, and by then `Run` has seen `Sleeping` in `status_` and left the fiber alone.
So the two continuations of a fiber, `Schedule` and the wait on the timer, exclude each other (`Left`).
-/

namespace SleepFor

open Function Transition Places

variable {φ τ : Type}

/-- The routine has not begun, or is in its own `Yield`. -/
def Rests (s : State φ τ) (f : φ) : Prop := s.coro f = .suspended .entry ∨ s.coro f = .suspended .yield

/-- The routine is in `SleepFor`, with the timer `k` in this state. -/
structure Sleeps (s : State φ τ) (f : φ) (k : Nat) (st : TimerState φ) : Prop where
  coro : s.coro f = .suspended (.sleepFor k)
  timer : s.timer k = some ⟨f, st⟩

def Ready (s : State φ τ) (f : φ) : Prop := Rests s f ∨ ∃ k, Sleeps s f k .fired

/-- Thread `t` executes the routine. -/
structure Runs (s : State φ τ) (t : τ) (f : φ) (st : Status) : Prop where
  coro : s.coro f = .running
  current : s.currentFiber t = some f
  status : s.status f = st

/-- The routine has suspended: what it suspended on can be read off `status_`. -/
def Left (s : State φ τ) (t : τ) (f : φ) : Prop :=
  (s.coro f = .suspended .yield ∧ s.status f = .running ∧ s.deferred t = []) ∨
    ∃ k, Sleeps s f k .idle ∧ s.status f = .sleeping ∧ s.deferred t = [.asyncWait f k]

def SleepOk (s : State φ τ) (t : τ) (f : φ) : SleepPc → Prop
  | .mark => Runs s t f .running ∧ s.deferred t = []
  | .timer => Runs s t f .sleeping ∧ s.deferred t = []
  | .defer k => Runs s t f .sleeping ∧ s.timer k = some ⟨f, .idle⟩ ∧ s.deferred t = []
  | .yield k => Runs s t f .sleeping ∧ s.timer k = some ⟨f, .idle⟩ ∧ s.deferred t = [.asyncWait f k]

/-- What a thread knows about its fiber, and what it has deferred. -/
def PcOk (s : State φ τ) (t : τ) : Pc φ → Prop
  | .idle | .asyncWait _ _ => s.deferred t = []
  | .returned => s.deferred t = [] ∨ ∃ f k, s.deferred t = [.asyncWait f k]
  | .wakeAndRun f => (∃ k, Sleeps s f k .fired) ∧ s.deferred t = []
  | .run f => Ready s f ∧ s.deferred t = []
  | .resume f => Ready s f ∧ s.currentFiber t = some f ∧ s.status f = .running ∧ s.deferred t = []
  | .routine f => Runs s t f .running ∧ s.deferred t = []
  | .sleepFor f fiber pc => fiber = f ∧ SleepOk s t f pc
  | .awoken f k => Runs s t f .running ∧ s.timer k = some ⟨f, .fired⟩ ∧ s.deferred t = []
  | .resumed f => (s.coro f = .completed ∧ s.deferred t = []) ∨ Left s t f
  | .delete f => s.coro f = .completed ∧ s.deferred t = []
  | .check f => Left s t f
  | .schedule f => s.coro f = .suspended .yield ∧ s.deferred t = []

/-- A fiber that no thread runs. -/
def Asleep (s : State φ τ) (f : φ) : Place τ → Prop
  | .runs _ => True
  | .posted => Rests s f
  | .holds _ k | .queued k => Sleeps s f k .idle
  | .waits k => Sleeps s f k (.waiting f)
  | .fired k => Sleeps s f k .fired

structure Inv (s : State φ τ) : Prop where
  exclusive : Exclusive s.isAt
  live : ∀ f, s.live f ↔ ∃ p, s.isAt f p
  once : s.queue.Nodup
  thread : ∀ t, PcOk s t (s.pc t)
  asleep : ∀ f p, s.isAt f p → Asleep s f p
  fresh : ∀ k, s.made ≤ k → s.timer k = none
  nodup : s.deleted.Nodup
  completed : ∀ f ∈ s.deleted, s.coro f = .completed

section inv

variable {s s' s₁ : State φ τ} {t v : τ} {f g x y : φ} {k : Nat} {st : TimerState φ} {p p' : Pc φ}

/-- `Resume` finds the routine suspended. -/
theorem Ready.suspended (h : Ready s f) : ∃ at_, s.coro f = .suspended at_ := by
  rcases h with (h | h) | ⟨k, h⟩
  · exact ⟨_, h⟩
  · exact ⟨_, h⟩
  · exact ⟨_, h.coro⟩

theorem Ready.born (h : Ready s f) : s.coro f ≠ .unborn := by
  rcases h with (h | h) | ⟨k, h⟩
  · rw [h]; nofun
  · rw [h]; nofun
  · rw [h.coro]; nofun

theorem Runs.born {st : Status} (h : Runs s t f st) : s.coro f ≠ .unborn := by
  rw [h.coro]
  nofun

theorem Runs.self {st : Status} (h : Runs s t f st) (hc : s.currentFiber t = some g) : g = f :=
  Option.some.inj (hc.symm.trans h.current)

theorem Left.coro_ne (h : Left s t f) : s.coro f ≠ .completed ∧ s.coro f ≠ .unborn := by
  rcases h with ⟨h, -, -⟩ | ⟨k, h, -, -⟩
  · rw [h]; exact ⟨nofun, nofun⟩
  · rw [h.coro]; exact ⟨nofun, nofun⟩

/-! ### What does not change -/

/-- Nothing of the fiber changes. -/
structure Keeps (s s' : State φ τ) (f : φ) : Prop where
  coro : s'.coro f = s.coro f
  status : s'.status f = s.status f
  timer : ∀ k st, s.timer k = some ⟨f, st⟩ → s'.timer k = some ⟨f, st⟩

theorem Sleeps.keep (h : Sleeps s f k st) (hk : Keeps s s' f) : Sleeps s' f k st :=
  ⟨hk.coro.trans h.coro, hk.timer k st h.timer⟩

theorem Rests.keep (h : Rests s f) (hk : Keeps s s' f) : Rests s' f := by
  unfold Rests
  rw [hk.coro]
  exact h

theorem Ready.keep (h : Ready s f) (hk : Keeps s s' f) : Ready s' f :=
  h.imp (·.keep hk) fun ⟨k, hs⟩ => ⟨k, hs.keep hk⟩

theorem Runs.keep {st : Status} (h : Runs s t f st) (hk : Keeps s s' f)
    (hc : s'.currentFiber t = s.currentFiber t) : Runs s' t f st :=
  ⟨hk.coro.trans h.coro, hc.trans h.current, hk.status.trans h.status⟩

theorem Left.keep (h : Left s t f) (hk : Keeps s s' f) (hd : s'.deferred t = s.deferred t) : Left s' t f := by
  rcases h with ⟨h1, h2, h3⟩ | ⟨k, h1, h2, h3⟩
  · exact .inl ⟨hk.coro.trans h1, hk.status.trans h2, hd.trans h3⟩
  · exact .inr ⟨k, h1.keep hk, hk.status.trans h2, hd.trans h3⟩

theorem SleepOk.keep {pc : SleepPc} (h : SleepOk s t f pc) (hk : Keeps s s' f)
    (hc : s'.currentFiber t = s.currentFiber t) (hd : s'.deferred t = s.deferred t) : SleepOk s' t f pc := by
  cases pc with
  | mark => exact ⟨h.1.keep hk hc, hd.trans h.2⟩
  | timer => exact ⟨h.1.keep hk hc, hd.trans h.2⟩
  | defer k => exact ⟨h.1.keep hk hc, hk.timer k _ h.2.1, hd.trans h.2.2⟩
  | yield k => exact ⟨h.1.keep hk hc, hk.timer k _ h.2.1, hd.trans h.2.2⟩

/-- A thread is not concerned by what happens to other fibers. -/
theorem PcOk.keep (h : PcOk s t p) (hk : ∀ f, p.runs = some f → Keeps s s' f)
    (hc : s'.currentFiber t = s.currentFiber t) (hd : s'.deferred t = s.deferred t) : PcOk s' t p := by
  cases p with
  | idle => exact hd.trans h
  | asyncWait f k => exact hd.trans h
  | returned => exact h.imp hd.trans fun ⟨f, k, h⟩ => ⟨f, k, hd.trans h⟩
  | wakeAndRun f => exact ⟨h.1.imp fun k hs => hs.keep (hk f rfl), hd.trans h.2⟩
  | run f => exact ⟨h.1.keep (hk f rfl), hd.trans h.2⟩
  | resume f => exact ⟨h.1.keep (hk f rfl), hc.trans h.2.1, (hk f rfl).status.trans h.2.2.1, hd.trans h.2.2.2⟩
  | routine f => exact ⟨h.1.keep (hk f rfl) hc, hd.trans h.2⟩
  | sleepFor f fiber pc => exact ⟨h.1, h.2.keep (hk f rfl) hc hd⟩
  | awoken f k => exact ⟨h.1.keep (hk f rfl) hc, (hk f rfl).timer k _ h.2.1, hd.trans h.2.2⟩
  | resumed f => exact h.imp (fun h => ⟨(hk f rfl).coro.trans h.1, hd.trans h.2⟩) (·.keep (hk f rfl) hd)
  | delete f => exact ⟨(hk f rfl).coro.trans h.1, hd.trans h.2⟩
  | check f => exact Left.keep h (hk f rfl) hd
  | schedule f => exact ⟨(hk f rfl).coro.trans h.1, hd.trans h.2⟩

theorem Asleep.keep {r : Place τ} (h : Asleep s f r) (hk : Keeps s s' f) : Asleep s' f r := by
  cases r with
  | runs t => trivial
  | posted => exact Rests.keep h hk
  | holds t k => exact Sleeps.keep h hk
  | queued k => exact Sleeps.keep h hk
  | waits k => exact Sleeps.keep h hk
  | fired k => exact Sleeps.keep h hk

theorem Keeps.refl : Keeps s s x := ⟨rfl, rfl, fun _ _ h => h⟩

/-- Nothing of any fiber changes. -/
theorem keeps_of (hc : s'.coro = s.coro) (hs : s'.status = s.status) (ht : s'.timer = s.timer) : Keeps s s' y :=
  ⟨congrFun hc y, congrFun hs y, fun k _ h => (congrFun ht k).trans h⟩

/-- Only thread `t`, if any, and the fiber `x` are concerned by the step. -/
structure Local (s s' : State φ τ) (x : φ) (t : Option τ) : Prop where
  fiber : ∀ y, y ≠ x → Keeps s s' y
  pc : ∀ v, t ≠ some v → s'.pc v = s.pc v
  current : ∀ v, t ≠ some v → s'.currentFiber v = s.currentFiber v
  deferred : ∀ v, t ≠ some v → s'.deferred v = s.deferred v

theorem Local.refl {o : Option τ} : Local s s x o :=
  ⟨fun _ _ => .refl, fun _ _ => rfl, fun _ _ => rfl, fun _ _ => rfl⟩

theorem ne_of_some_ne {v : τ} (h : some t ≠ some v) : v ≠ t := fun heq => h (congrArg some heq.symm)

theorem Local.setPc [DecidableEq τ] (h : Local s s₁ x (some t)) (p : Pc φ) : Local s (s₁.setPc t p) x (some t) :=
  ⟨fun y hy => ⟨(h.fiber y hy).coro, (h.fiber y hy).status, (h.fiber y hy).timer⟩,
    fun v hv => (update_of_ne (ne_of_some_ne hv) ..).trans (h.pc v hv), h.current, h.deferred⟩

theorem Local.post {a : Handler φ} {o : Option τ} (h : Local s s₁ x o) : Local s (s₁.post a) x o :=
  ⟨fun y hy => ⟨(h.fiber y hy).coro, (h.fiber y hy).status, (h.fiber y hy).timer⟩, h.pc, h.current, h.deferred⟩

/-! ### A fiber goes from one place to another -/

def Place.thread : Place τ → Option τ
  | .runs t | .holds t _ => some t
  | .posted | .queued _ | .waits _ | .fired _ => none

/-- The place of the fiber of a handler. -/
def Handler.place : Handler φ → Place τ
  | .run _ => .posted
  | .asyncWait _ k => .queued k
  | .wakeAndRun _ k => .fired k

theorem isAt_place {h : Handler φ} : s.isAt h.fiber h.place ↔ h ∈ s.queue := by
  cases h <;> rfl

theorem handler_eq {h h' : Handler φ} (hf : h.fiber = h'.fiber) (hp : (h.place : Place τ) = h'.place) : h = h' := by
  cases h <;> cases h' <;> cases hf <;> cases hp <;> rfl

theorem thread_place (h : Handler φ) : (h.place : Place τ).thread = none := by
  cases h <;> rfl

theorem run_place (t : τ) (h : Handler φ) : some (.runs t) ≠ some (h.place : Place τ) := by
  cases h <;> nofun

/-- Where the fiber of a handler is when thread `t` executes it. -/
def Handler.taken (t : τ) : Handler φ → Place τ
  | .run _ | .wakeAndRun _ _ => .runs t
  | .asyncWait _ k => .holds t k

theorem taken_place (t : τ) (h h' : Handler φ) : some (h.taken t) ≠ some (h'.place : Place τ) := by
  cases h <;> cases h' <;> nofun

section moves

variable {P Q : Option (Place τ)} {o : Option τ}

/-- A place that does not change. -/
theorem iff_moved {A B : Prop} {r : Place τ} (h : A ↔ B) (hP : P ≠ some r) (hQ : Q ≠ some r) :
    A ↔ (B ∧ ¬ (y = x ∧ P = some r)) ∨ (y = x ∧ Q = some r) := by
  rw [h]
  constructor
  · exact fun h => .inl ⟨h, fun hx => hP hx.2⟩
  · rintro (⟨h, -⟩ | ⟨-, h⟩)
    · exact h
    · exact absurd h hQ

/-- The fiber `x` goes from `P` to `Q`, in a step of the thread in `o`. -/
theorem moves_of (hl : Local s s' x o)
    (hP : ∀ v, P.bind Place.thread = some v → o = some v) (hQ : ∀ v, Q.bind Place.thread = some v → o = some v)
    (hnear : ∀ v y r, o = some v → r.thread = some v →
      (s.isAt y r ↔ y = x ∧ P = some r) ∧ (s'.isAt y r ↔ y = x ∧ Q = some r))
    (hqueue : ∀ h, h ∈ s'.queue ↔
      (h ∈ s.queue ∧ ¬ (h.fiber = x ∧ P = some h.place)) ∨ (h.fiber = x ∧ Q = some h.place))
    (hwaits : ∀ y k, s'.isAt y (.waits k) ↔
      (s.isAt y (.waits k) ∧ ¬ (y = x ∧ P = some (.waits k))) ∨ (y = x ∧ Q = some (.waits k))) :
    Moves s.isAt s'.isAt x P Q := by
  have hthread : ∀ v y r, r.thread = some v →
      (s'.isAt y r ↔ (s.isAt y r ∧ ¬ (y = x ∧ P = some r)) ∨ (y = x ∧ Q = some r)) := by
    intro v y r hr
    by_cases hv : o = some v
    · obtain ⟨h, h'⟩ := hnear v y r hv hr
      rw [h, h', and_not_self_iff, false_or]
    · have hP' : P ≠ some r := fun h => hv (hP v (h ▸ hr))
      have hQ' : Q ≠ some r := fun h => hv (hQ v (h ▸ hr))
      have hsame : s'.isAt y r ↔ s.isAt y r := by
        cases r with
        | runs u =>
          obtain rfl := Option.some.inj hr
          simp only [State.isAt, hl.pc u hv]
        | holds u k =>
          obtain rfl := Option.some.inj hr
          simp only [State.isAt, hl.pc u hv, hl.deferred u hv]
        | _ => cases hr
      exact iff_moved hsame hP' hQ'
  intro y r
  cases r with
  | runs v => exact hthread v y _ rfl
  | holds v k => exact hthread v y _ rfl
  | posted => exact hqueue (.run y)
  | queued k => exact hqueue (.asyncWait y k)
  | fired k => exact hqueue (.wakeAndRun y k)
  | waits k => exact hwaits y k

theorem mem_posted {h h' : Handler φ} (hP : ∀ h : Handler φ, P ≠ some h.place) :
    h' ∈ s.queue ++ [h] ↔ (h' ∈ s.queue ∧ ¬ (h'.fiber = h.fiber ∧ P = some h'.place)) ∨
      (h'.fiber = h.fiber ∧ some (h.place : Place τ) = some h'.place) := by
  rw [List.mem_append, List.mem_singleton]
  constructor
  · rintro (hm | rfl)
    · exact .inl ⟨hm, fun hx => hP h' hx.2⟩
    · exact .inr ⟨rfl, rfl⟩
  · rintro (⟨hm, -⟩ | ⟨hf, hp⟩)
    · exact .inl hm
    · exact .inr (handler_eq hf (Option.some.inj hp).symm)

end moves

/-! ### What is with a thread -/

/-- The fiber that it runs. -/
theorem isAt_runs {r : Place τ} (h : (s.pc t).runs = some x) (hr : r.thread = some t) :
    s.isAt y r ↔ y = x ∧ some (.runs t) = some r := by
  cases r with
  | runs u =>
    obtain rfl := Option.some.inj hr
    simp only [State.isAt, h, Option.some.injEq, and_true, eq_comm]
  | holds u j =>
    obtain rfl := Option.some.inj hr
    have hne : s.pc u ≠ .asyncWait y j ∧ s.pc u ≠ .returned := by
      constructor <;> intro heq <;> rw [heq] at h <;> cases h
    simp only [State.isAt, hne, false_and, or_self, Option.some.injEq, reduceCtorEq, and_false]
  | _ => cases hr

/-- The one whose timer it is about to use. -/
theorem isAt_asyncWait {r : Place τ} (h : s.pc t = .asyncWait x k) (hr : r.thread = some t) :
    s.isAt y r ↔ y = x ∧ some (.holds t k) = some r := by
  cases r with
  | runs u =>
    obtain rfl := Option.some.inj hr
    simp only [State.isAt, h, Pc.runs, Option.some.injEq, reduceCtorEq, and_false]
  | holds u j =>
    obtain rfl := Option.some.inj hr
    simp only [State.isAt, h, Pc.asyncWait.injEq, reduceCtorEq, false_and, or_false, Option.some.injEq,
      Place.holds.injEq, true_and, eq_comm]
  | _ => cases hr

/-- When the handler has returned, the one that it deferred. -/
theorem isAt_deferred {r : Place τ} (h : s.pc t = .returned) (hd : s.deferred t = [.asyncWait x k])
    (hr : r.thread = some t) : s.isAt y r ↔ y = x ∧ some (.holds t k) = some r := by
  cases r with
  | runs u =>
    obtain rfl := Option.some.inj hr
    simp only [State.isAt, h, Pc.runs, Option.some.injEq, reduceCtorEq, and_false]
  | holds u j =>
    obtain rfl := Option.some.inj hr
    simp only [State.isAt, h, hd, reduceCtorEq, true_and, false_or, List.mem_singleton, Handler.asyncWait.injEq,
      Option.some.injEq, Place.holds.injEq, eq_comm]
  | _ => cases hr

/-- Or none. -/
theorem not_isAt {r : Place τ} (h : s.pc t = .idle ∨ s.pc t = .returned) (hd : s.deferred t = [])
    (hr : r.thread = some t) : ¬ s.isAt y r := by
  cases r with
  | runs u =>
    obtain rfl := Option.some.inj hr
    rcases h with h | h <;> simp only [State.isAt, h, Pc.runs, reduceCtorEq, not_false_eq_true]
  | holds u j =>
    obtain rfl := Option.some.inj hr
    rcases h with h | h
    · simp only [State.isAt, h, reduceCtorEq, false_and, or_self, not_false_eq_true]
    · simp only [State.isAt, h, hd, List.not_mem_nil, reduceCtorEq, and_false, or_self, not_false_eq_true]
  | _ => cases hr

theorem not_isAt_iff {r : Place τ} {P : Option (Place τ)} (h : s.pc t = .idle ∨ s.pc t = .returned)
    (hd : s.deferred t = []) (hr : r.thread = some t) (hP : ∀ v, P.bind Place.thread ≠ some v) :
    s.isAt y r ↔ y = x ∧ P = some r :=
  iff_of_false (not_isAt h hd hr) fun hy => hP t (hy.2 ▸ hr)

/-! ### One step -/

theorem Inv.pcOk (hi : Inv s) (h : s.pc t = p) : PcOk s t p := h ▸ hi.thread t

theorem Inv.born (hi : Inv s) {r : Place τ} (h : s.isAt f r) : s.coro f ≠ .unborn := ((hi.live f).2 ⟨r, h⟩).1

/-- The handler of a fiber that is elsewhere is not queued. -/
theorem Inv.not_queued (hi : Inv s) {a : Handler φ} {r : Place τ} (hr : s.isAt a.fiber r) (hne : r ≠ a.place) :
    a ∉ s.queue :=
  fun ha => hne (hi.exclusive _ _ _ hr (isAt_place.2 ha))

/-- The fiber `x` goes from `P` to `Q`. -/
theorem Inv.moved {P Q : Option (Place τ)} {o : Option τ} (hi : Inv s) (hl : Local s s' x o)
    (hm : Moves s.isAt s'.isAt x P Q) (hP : From s.isAt x P) (hfar : ∀ v, P = some (.runs v) → o = some v)
    (hpc : ∀ v, o = some v → PcOk s' v (s'.pc v)) (hasleep : ∀ q, Q = some q → Asleep s' x q)
    (hlive : s'.live x ↔ ∃ q, Q = some q) (honce : s'.queue.Nodup) (hfresh : ∀ k, s'.made ≤ k → s'.timer k = none)
    (hother : ∀ y, y ≠ x → (y ∈ s'.deleted ↔ y ∈ s.deleted)) (hnodup : s'.deleted.Nodup)
    (hcompleted : x ∈ s'.deleted → s'.coro x = .completed) : Inv s' where
  exclusive := hi.exclusive.moves hm hP
  live f := by
    rcases eq_or_ne f x with rfl | hf
    · rw [hlive]
      exact exists_congr fun q => (hm.self hi.exclusive hP q).symm
    · unfold State.live
      rw [(hl.fiber f hf).coro, hother f hf]
      exact (hi.live f).trans (exists_congr fun r => (hm.other hf r).symm)
  once := honce
  thread v := by
    by_cases hv : o = some v
    · exact hpc v hv
    · rw [hl.pc v hv]
      refine (hi.thread v).keep (fun f hf => hl.fiber f ?_) (hl.current v hv) (hl.deferred v hv)
      rintro rfl
      have hat : s.isAt f (.runs v) := hf
      cases P with
      | none => exact hP _ hat
      | some p => exact hv (hfar v (congrArg some (hi.exclusive f p _ hP hat)))
  asleep f r hr := by
    rcases eq_or_ne f x with rfl | hf
    · exact hasleep r ((hm.self hi.exclusive hP r).1 hr)
    · exact (hi.asleep f r ((hm.other hf r).1 hr)).keep (hl.fiber f hf)
  fresh := hfresh
  nodup := hnodup
  completed f hf := by
    rcases eq_or_ne f x with rfl | hne
    · exact hcompleted hf
    · rw [(hl.fiber f hne).coro]
      exact hi.completed f ((hother f hne).1 hf)

/-- A live fiber goes from one place to another. -/
theorem Inv.goes {P Q : Place τ} {o : Option τ} (hi : Inv s) (hl : Local s s' x o)
    (hm : Moves s.isAt s'.isAt x (some P) (some Q)) (hP : s.isAt x P) (hfar : ∀ v, P = .runs v → o = some v)
    (hpc : ∀ v, o = some v → PcOk s' v (s'.pc v)) (hasleep : Asleep s' x Q) (hborn : s'.coro x ≠ .unborn)
    (honce : s'.queue.Nodup) (hfresh : ∀ k, s'.made ≤ k → s'.timer k = none) (hdel : s'.deleted = s.deleted) :
    Inv s' := by
  have hnot : x ∉ s.deleted := ((hi.live x).2 ⟨P, hP⟩).2
  refine hi.moved hl hm hP (fun v hv => hfar v (Option.some.inj hv)) hpc (fun q hq => Option.some.inj hq ▸ hasleep)
    ⟨fun _ => ⟨Q, rfl⟩, fun _ => ⟨hborn, ?_⟩⟩ honce hfresh (fun y _ => ?_) ?_ fun hx => ?_
  · rwa [hdel]
  · rw [hdel]
  · rw [hdel]
    exact hi.nodup
  · rw [hdel] at hx
    exact absurd hx hnot

/-! ### The thread goes on with its fiber -/

/-- What thread `t` writes while it runs `x`. -/
structure Stays (s s' : State φ τ) (x : φ) (t : τ) : Prop where
  loc : Local s s' x (some t)
  pc : s'.pc = s.pc
  queue : s'.queue = s.queue
  deleted : s'.deleted = s.deleted
  waits : ∀ y k, s'.isAt y (.waits k) ↔ s.isAt y (.waits k)
  fresh : ∀ k, s'.made ≤ k → s'.timer k = none

theorem Stays.refl (hi : Inv s) : Stays s s x t := ⟨.refl, rfl, rfl, rfl, fun _ _ => Iff.rfl, hi.fresh⟩

variable [DecidableEq φ] [DecidableEq τ]

omit [DecidableEq τ] in
theorem Stays.setStatus (h : Stays s s₁ x t) (st : Status) : Stays s (s₁.setStatus x st) x t :=
  { h with
    loc.fiber := fun y hy => ⟨(h.loc.fiber y hy).coro, (update_of_ne hy ..).trans (h.loc.fiber y hy).status,
      (h.loc.fiber y hy).timer⟩
    loc.current := h.loc.current
    loc.deferred := h.loc.deferred
    loc.pc := h.loc.pc }

omit [DecidableEq τ] in
theorem Stays.setCoro (h : Stays s s₁ x t) (c : Coro) : Stays s (s₁.setCoro x c) x t :=
  { h with
    loc.fiber := fun y hy => ⟨(update_of_ne hy ..).trans (h.loc.fiber y hy).coro, (h.loc.fiber y hy).status,
      (h.loc.fiber y hy).timer⟩
    loc.current := h.loc.current
    loc.deferred := h.loc.deferred
    loc.pc := h.loc.pc }

omit [DecidableEq φ] in
theorem Stays.setCurrent (h : Stays s s₁ x t) (f : φ) : Stays s (s₁.setCurrent t f) x t :=
  { h with
    loc.fiber := fun y hy => ⟨(h.loc.fiber y hy).coro, (h.loc.fiber y hy).status, (h.loc.fiber y hy).timer⟩
    loc.current := fun v hv => (update_of_ne (ne_of_some_ne hv) ..).trans (h.loc.current v hv)
    loc.deferred := h.loc.deferred
    loc.pc := h.loc.pc }

omit [DecidableEq φ] in
theorem Stays.defer (h : Stays s s₁ x t) (a : Handler φ) : Stays s (s₁.defer t a) x t :=
  { h with
    loc.fiber := fun y hy => ⟨(h.loc.fiber y hy).coro, (h.loc.fiber y hy).status, (h.loc.fiber y hy).timer⟩
    loc.current := h.loc.current
    loc.deferred := fun v hv => (update_of_ne (ne_of_some_ne hv) ..).trans (h.loc.deferred v hv)
    loc.pc := h.loc.pc }

omit [DecidableEq φ] [DecidableEq τ] in
/-- The timer `k` of the fiber changes its state, and no wait begins or ends. -/
theorem keeps_setTimer {tm : Timer φ} (hk : ∀ st, s.timer k ≠ some ⟨y, st⟩) : Keeps s (s.setTimer k tm) y := by
  refine ⟨rfl, rfl, fun j st hj => ?_⟩
  refine (update_of_ne ?_ ..).trans hj
  rintro rfl
  exact hk st hj

omit [DecidableEq φ] [DecidableEq τ] in
theorem isAt_setTimer {tm : Timer φ} (hold : ∀ g y, s.timer k ≠ some ⟨g, .waiting y⟩)
    (hnew : ∀ g y, tm ≠ ⟨g, .waiting y⟩) (j : Nat) :
    (s.setTimer k tm).isAt y (.waits j) ↔ s.isAt y (.waits j) := by
  simp only [State.isAt, State.setTimer]
  rcases eq_or_ne j k with rfl | hj
  · rw [update_self]
    constructor
    · rintro ⟨g, hg⟩
      exact absurd (Option.some.inj hg) (hnew g y)
    · rintro ⟨g, hg⟩
      exact absurd hg (hold g y)
  · rw [update_of_ne hj]

omit [DecidableEq φ] [DecidableEq τ] in
theorem stays_setTimer (hi : Inv s) {tm : Timer φ} {n : Nat}
    (hnew : ∀ g y, tm ≠ ⟨g, .waiting y⟩) (hold : ∀ g st, s.timer k = some ⟨g, st⟩ → g = x ∧ ∀ y, st ≠ .waiting y)
    (hn : ∀ j, n ≤ j → s.made ≤ j ∧ j ≠ k) : Stays s { s.setTimer k tm with made := n } x t where
  loc.fiber y hy := ⟨rfl, rfl, (keeps_setTimer fun st h => hy (hold y st h).1).timer⟩
  loc.pc _ _ := rfl
  loc.current _ _ := rfl
  loc.deferred _ _ := rfl
  pc := rfl
  queue := rfl
  deleted := rfl
  waits _ := isAt_setTimer (fun g y h => (hold g _ h).2 y rfl) hnew
  fresh j hj := (update_of_ne (hn j hj).2 ..).trans (hi.fresh j (hn j hj).1)

omit [DecidableEq φ] in
/-- Thread `t` goes on with the fiber that it runs. -/
theorem Inv.stay (hi : Inv s) (h : Stays s s₁ x t) (hx : (s.pc t).runs = some x) (hp : p.runs = some x)
    (hok : PcOk s₁ t p) (hborn : s₁.coro x ≠ .unborn) : Inv (s₁.setPc t p) := by
  have hpc : (s₁.setPc t p).pc t = p := update_self ..
  have hl : Local s (s₁.setPc t p) x (some t) := h.loc.setPc p
  have hrun : s.isAt x (.runs t) := hx
  have hm : Moves s.isAt (s₁.setPc t p).isAt x (some (.runs t)) (some (.runs t)) := by
    refine moves_of hl (fun _ => id) (fun _ => id) (fun v y r hv hr => ?_) (fun a => ?_) fun y j => ?_
    · obtain rfl := Option.some.inj hv
      exact ⟨isAt_runs hx hr, isAt_runs (by rw [hpc]; exact hp) hr⟩
    · have hq : a ∈ (s₁.setPc t p).queue ↔ a ∈ s.queue := iff_of_eq (congrArg (a ∈ ·) h.queue)
      exact iff_moved hq (run_place t a) (run_place t a)
    · exact iff_moved (h.waits y j) nofun nofun
  refine hi.goes hl hm hrun (fun _ => congrArg Place.thread) (fun v hv => ?_) trivial hborn ?_ h.fresh h.deleted
  · cases hv
    rw [hpc]
    exact hok.keep (fun f hf => ⟨rfl, rfl, fun _ _ h => h⟩) rfl rfl
  · change s₁.queue.Nodup
    rw [h.queue]
    exact hi.once

theorem Inv.wakeAndRun (hi : Inv s) (h : s.pc t = .wakeAndRun f) :
    Inv ((s.setStatus f .runnable).setPc t (.run f)) := by
  obtain ⟨⟨k, hk⟩, hd⟩ := hi.pcOk h
  have hborn : s.coro f ≠ .unborn := Ready.born (.inr ⟨k, hk⟩)
  exact hi.stay ((Stays.refl hi).setStatus _) (by rw [h]; rfl) rfl ⟨.inr ⟨k, hk.coro, hk.timer⟩, hd⟩ hborn

theorem Inv.run (hi : Inv s) (h : s.pc t = .run f) :
    Inv (((s.setCurrent t f).setStatus f .running).setPc t (.resume f)) := by
  obtain ⟨hready, hd⟩ := hi.pcOk h
  have hready' : Ready ((s.setCurrent t f).setStatus f .running) f :=
    hready.imp id fun ⟨k, hk⟩ => ⟨k, hk.coro, hk.timer⟩
  exact hi.stay (((Stays.refl hi).setCurrent f).setStatus _) (by rw [h]; rfl) rfl
    ⟨hready', update_self .., update_self .., hd⟩ hready.born

theorem Inv.resume {at_ : Frame} (hi : Inv s) (h : s.pc t = .resume f) (hc : s.coro f = .suspended at_) :
    Inv ((s.setCoro f .running).setPc t (at_.pc f)) := by
  obtain ⟨hready, hcur, hst, hd⟩ := hi.pcOk h
  have hruns : Runs (s.setCoro f .running) t f .running := ⟨update_self .., hcur, hst⟩
  have hok : PcOk (s.setCoro f .running) t (at_.pc f) := by
    cases at_ with
    | entry => exact ⟨hruns, hd⟩
    | yield => exact ⟨hruns, hd⟩
    | sleepFor k =>
      rcases hready with (hr | hr) | ⟨j, hr⟩
      · cases hc.symm.trans hr
      · cases hc.symm.trans hr
      · cases hc.symm.trans hr.coro
        exact ⟨hruns, hr.timer, hd⟩
  refine hi.stay ((Stays.refl hi).setCoro _) (by rw [h]; rfl) (by cases at_ <;> rfl) hok ?_
  rw [hruns.coro]
  nofun

theorem Inv.sleepStep {pc : SleepPc} (hi : Inv s) (h : s.pc t = .sleepFor f g pc)
    (hs : sleepStep s t f g pc = some s') : Inv s' := by
  obtain ⟨rfl, hok⟩ := hi.pcOk h
  have hrun : (s.pc t).runs = some g := by rw [h]; rfl
  cases pc with
  | mark =>
    obtain rfl := Option.some.inj hs
    exact hi.stay ((Stays.refl hi).setStatus _) hrun rfl ⟨rfl, ⟨hok.1.coro, hok.1.current, update_self ..⟩, hok.2⟩
      hok.1.born
  | timer =>
    obtain rfl := Option.some.inj hs
    have hnone : s.timer s.made = none := hi.fresh _ (Nat.le_refl _)
    have hst : Stays s (s.makeTimer g) g t := by
      refine stays_setTimer hi (fun _ _ => nofun) (fun g st h => ?_) fun j hj =>
        ⟨Nat.le_of_succ_le hj, Nat.ne_of_gt hj⟩
      cases hnone.symm.trans h
    exact hi.stay hst hrun rfl ⟨rfl, ⟨hok.1.coro, hok.1.current, hok.1.status⟩, update_self .., hok.2⟩ hok.1.born
  | defer k =>
    obtain rfl := Option.some.inj hs
    obtain ⟨hr, htimer, hd⟩ := hok
    refine hi.stay ((Stays.refl hi).defer _) hrun rfl ⟨rfl, ⟨hr.coro, hr.current, hr.status⟩, htimer, ?_⟩ hr.born
    change update s.deferred t _ t = _
    rw [update_self, hd]
    rfl
  | yield k =>
    obtain ⟨hr, htimer, hd⟩ := hok
    obtain ⟨self, hself, rfl⟩ := Option.map_eq_some_iff.1 hs
    obtain rfl := hr.self hself
    have hc : (s.setCoro self (.suspended (.sleepFor k))).coro self = .suspended (.sleepFor k) := update_self ..
    refine hi.stay ((Stays.refl hi).setCoro _) hrun rfl (.inr (.inr ⟨k, ⟨hc, htimer⟩, hr.status, hd⟩)) ?_
    rw [hc]
    nofun

omit [DecidableEq φ] in
theorem Inv.awoken (hi : Inv s) (h : s.pc t = .awoken f k)
    (hs : (s.destroyTimer k).map (fun s' => s'.setPc t (.routine f)) = some s') : Inv s' := by
  obtain ⟨hr, htimer, hd⟩ := hi.pcOk h
  have hdestroy : s.destroyTimer k = some (s.setTimer k ⟨f, .destroyed⟩) := by
    unfold State.destroyTimer
    rw [htimer]
    rfl
  rw [hdestroy] at hs
  obtain rfl := Option.some.inj hs
  have hst : Stays s (s.setTimer k ⟨f, .destroyed⟩) f t := by
    refine stays_setTimer (n := s.made) hi (fun _ _ => nofun) (fun g st h => ?_) fun j hj => ⟨hj, ?_⟩
    · cases htimer.symm.trans h
      exact ⟨rfl, nofun⟩
    · rintro rfl
      cases htimer.symm.trans (hi.fresh _ hj)
  exact hi.stay hst (by rw [h]; rfl) rfl ⟨⟨hr.coro, hr.current, hr.status⟩, hd⟩ hr.born

omit [DecidableEq φ] in
/-- `IsCompleted` tells whether the routine has returned. -/
theorem Inv.resumed (hi : Inv s) (h : s.pc t = .resumed f) :
    Inv (s.setPc t (if s.coro f = .completed then .delete f else .check f)) := by
  have hrun : (s.pc t).runs = some f := by rw [h]; rfl
  rcases hi.pcOk h with ⟨hc, hd⟩ | hleft
  · rw [if_pos hc]
    refine hi.stay (Stays.refl hi) hrun rfl ⟨hc, hd⟩ ?_
    rw [hc]
    nofun
  · rw [if_neg hleft.coro_ne.1]
    exact hi.stay (Stays.refl hi) hrun rfl hleft hleft.coro_ne.2

/-- What the routine does next, if it does not return. -/
theorem Inv.yield (hi : Inv s) (h : s.pc t = .routine f) (hc : s.currentFiber t = some g) :
    Inv (s.suspend t g .yield) := by
  obtain ⟨hr, hd⟩ := hi.pcOk h
  obtain rfl := hr.self hc
  have hcoro : (s.setCoro g (.suspended .yield)).coro g = .suspended .yield := update_self ..
  refine hi.stay ((Stays.refl hi).setCoro _) (by rw [h]; rfl) rfl (.inr (.inl ⟨hcoro, hr.status, hd⟩)) ?_
  rw [hcoro]
  nofun

omit [DecidableEq φ] in
theorem Inv.sleepFor (hi : Inv s) (h : s.pc t = .routine f) (hc : s.currentFiber t = some g) :
    Inv (s.setPc t (.sleepFor f g .mark)) := by
  obtain ⟨hr, hd⟩ := hi.pcOk h
  exact hi.stay (Stays.refl hi) (by rw [h]; rfl) rfl ⟨hr.self hc, hr, hd⟩ hr.born

theorem Inv.complete (hi : Inv s) (h : s.pc t = .routine f) :
    Inv ((s.setCoro f .completed).setPc t (.resumed f)) := by
  obtain ⟨hr, hd⟩ := hi.pcOk h
  have hcoro : (s.setCoro f .completed).coro f = .completed := update_self ..
  refine hi.stay ((Stays.refl hi).setCoro _) (by rw [h]; rfl) rfl (.inl ⟨hcoro, hd⟩) ?_
  rw [hcoro]
  nofun

/-! ### The fiber changes hands -/

theorem Inv.take {a : Handler φ} (hi : Inv s) (h : s.pc t = .idle) (ha : a ∈ s.queue) :
    Inv ({ s with queue := s.queue.erase a }.setPc t a.pc) := by
  have hd : s.deferred t = [] := hi.pcOk h
  have hat : s.isAt a.fiber a.place := isAt_place.2 ha
  have hpc : ({ s with queue := s.queue.erase a }.setPc t a.pc).pc t = a.pc := update_self ..
  have herase : Local s { s with queue := s.queue.erase a } a.fiber (some t) :=
    ⟨fun _ _ => keeps_of rfl rfl rfl, fun _ _ => rfl, fun _ _ => rfl, fun _ _ => rfl⟩
  have hl : Local s ({ s with queue := s.queue.erase a }.setPc t a.pc) a.fiber (some t) := herase.setPc _
  have hm : Moves s.isAt ({ s with queue := s.queue.erase a }.setPc t a.pc).isAt a.fiber (some a.place)
      (some (a.taken t)) := by
    refine moves_of hl (fun v hv => ?_) (fun v hv => ?_) (fun v y r hv hr => ?_) (fun b => ?_) fun y j => ?_
    · cases (thread_place a).symm.trans hv
    · cases a <;> exact hv
    · obtain rfl := Option.some.inj hv
      refine ⟨not_isAt_iff (.inl h) hd hr fun v hv => ?_, ?_⟩
      · cases (thread_place a).symm.trans hv
      · cases a with
        | run f => exact isAt_runs (by rw [hpc]; rfl) hr
        | asyncWait f k => exact isAt_asyncWait hpc hr
        | wakeAndRun f k => exact isAt_runs (by rw [hpc]; rfl) hr
    · change b ∈ s.queue.erase a ↔ _
      rw [hi.once.mem_erase_iff]
      constructor
      · rintro ⟨hne, hb⟩
        exact .inl ⟨hb, fun hx => hne (handler_eq hx.1 (Option.some.inj hx.2).symm)⟩
      · rintro (⟨hb, hnot⟩ | ⟨-, hp⟩)
        · refine ⟨?_, hb⟩
          rintro rfl
          exact hnot ⟨rfl, rfl⟩
        · exact absurd hp (taken_place t a b)
    · refine iff_moved Iff.rfl ?_ ?_ <;> cases a <;> nofun
  have hasleep := hi.asleep _ _ hat
  refine hi.goes hl hm hat (fun v hv => ?_) (fun v hv => ?_) ?_ (hi.born hat) (hi.once.erase a) hi.fresh rfl
  · cases a <;> cases hv
  · obtain rfl := Option.some.inj hv
    rw [hpc]
    cases a with
    | run f => exact ⟨.inl hasleep, hd⟩
    | asyncWait f k => exact hd
    | wakeAndRun f k => exact ⟨⟨k, hasleep.coro, hasleep.timer⟩, hd⟩
  · cases a with
    | run f => trivial
    | asyncWait f k => exact ⟨hasleep.coro, hasleep.timer⟩
    | wakeAndRun f k => trivial

omit [DecidableEq φ] in
/-- `Run` returns: the fiber sleeps. -/
theorem Inv.checkSleeping (hi : Inv s) (h : s.pc t = .check f) (hs : s.status f = .sleeping) :
    Inv (s.setPc t .returned) := by
  have hrun : (s.pc t).runs = some f := by rw [h]; rfl
  have hat : s.isAt f (.runs t) := hrun
  rcases hi.pcOk h with ⟨-, hst, -⟩ | ⟨k, hk, -, hd⟩
  · cases hs.symm.trans hst
  have hl : Local s (s.setPc t .returned) f (some t) := Local.refl.setPc _
  have hpc : (s.setPc t .returned).pc t = .returned := update_self ..
  have hm : Moves s.isAt (s.setPc t .returned).isAt f (some (.runs t)) (some (.holds t k)) := by
    refine moves_of hl (fun _ => id) (fun _ => id) (fun v y r hv hr => ?_) (fun a => ?_) fun y j => ?_
    · obtain rfl := Option.some.inj hv
      exact ⟨isAt_runs hrun hr, isAt_deferred hpc hd hr⟩
    · refine iff_moved Iff.rfl (run_place t a) ?_
      cases a <;> nofun
    · exact iff_moved Iff.rfl nofun nofun
  refine hi.goes hl hm hat (fun _ => congrArg Place.thread) (fun v hv => ?_) ⟨hk.coro, hk.timer⟩ (hi.born hat)
    hi.once hi.fresh rfl
  obtain rfl := Option.some.inj hv
  rw [hpc]
  exact .inr ⟨f, k, hd⟩

omit [DecidableEq φ] [DecidableEq τ] in
theorem Inv.nodup_post (hi : Inv s) {a : Handler φ} (ha : a ∉ s.queue) : (s.queue ++ [a]).Nodup := by
  rw [← List.concat_eq_append]
  exact hi.once.concat ha

omit [DecidableEq φ] [DecidableEq τ] in
theorem local_setTimer {tm : Timer φ} {st : TimerState φ} {o : Option τ} (h : s.timer k = some ⟨x, st⟩) :
    Local s (s.setTimer k tm) x o := by
  refine ⟨fun y hy => keeps_setTimer fun st' h' => ?_, fun _ _ => rfl, fun _ _ => rfl, fun _ _ => rfl⟩
  cases h.symm.trans h'
  exact hy rfl

omit [DecidableEq φ] [DecidableEq τ] in
theorem Inv.fresh_setTimer (hi : Inv s) {tm tm' : Timer φ} (h : s.timer k = some tm) (j : Nat) (hj : s.made ≤ j) :
    (s.setTimer k tm').timer j = none := by
  refine (update_of_ne ?_ ..).trans (hi.fresh j hj)
  rintro rfl
  cases h.symm.trans (hi.fresh _ hj)

omit [DecidableEq φ] in
/-- The fiber has yielded. -/
theorem Inv.checkRunning (hi : Inv s) (h : s.pc t = .check f) (hs : s.status f ≠ .sleeping) :
    Inv (s.setPc t (.schedule f)) := by
  rcases hi.pcOk h with ⟨hc, -, hd⟩ | ⟨k, -, hst, -⟩
  · refine hi.stay (Stays.refl hi) (by rw [h]; rfl) rfl ⟨hc, hd⟩ ?_
    rw [hc]
    nofun
  · exact absurd hst hs

omit [DecidableEq φ] in
/-- `Run` returns: the fiber is posted. -/
theorem Inv.schedule (hi : Inv s) (h : s.pc t = .schedule f) : Inv ((s.post (.run f)).setPc t .returned) := by
  have hrun : (s.pc t).runs = some f := by rw [h]; rfl
  have hat : s.isAt f (.runs t) := hrun
  obtain ⟨hc, hd⟩ := hi.pcOk h
  have hpc : ((s.post (.run f)).setPc t .returned).pc t = .returned := update_self ..
  have hl : Local s ((s.post (.run f)).setPc t .returned) f (some t) := Local.refl.post.setPc _
  have hm : Moves s.isAt ((s.post (.run f)).setPc t .returned).isAt f (some (.runs t)) (some .posted) := by
    refine moves_of hl (fun _ => id) nofun (fun v y r hv hr => ?_) (fun a => ?_) fun y j => ?_
    · obtain rfl := Option.some.inj hv
      exact ⟨isAt_runs hrun hr, not_isAt_iff (.inr hpc) hd hr nofun⟩
    · exact mem_posted (h := Handler.run f) (run_place t)
    · exact iff_moved Iff.rfl nofun nofun
  refine hi.goes hl hm hat (fun _ => congrArg Place.thread) (fun v hv => ?_) (.inr hc) (hi.born hat)
    (hi.nodup_post (hi.not_queued (a := .run f) hat nofun)) hi.fresh rfl
  obtain rfl := Option.some.inj hv
  rw [hpc]
  exact .inl hd

omit [DecidableEq φ] in
/-- `delete this`. -/
theorem Inv.delete (hi : Inv s) (h : s.pc t = .delete f) : Inv ((s.delete f).setPc t .returned) := by
  have hrun : (s.pc t).runs = some f := by rw [h]; rfl
  have hat : s.isAt f (.runs t) := hrun
  obtain ⟨hc, hd⟩ := hi.pcOk h
  have hpc : ((s.delete f).setPc t .returned).pc t = .returned := update_self ..
  have hdelete : Local s (s.delete f) f (some t) :=
    ⟨fun _ _ => keeps_of rfl rfl rfl, fun _ _ => rfl, fun _ _ => rfl, fun _ _ => rfl⟩
  have hl : Local s ((s.delete f).setPc t .returned) f (some t) := hdelete.setPc _
  have hm : Moves s.isAt ((s.delete f).setPc t .returned).isAt f (some (.runs t)) none := by
    refine moves_of hl (fun _ => id) nofun (fun v y r hv hr => ?_) (fun a => ?_) fun y j => ?_
    · obtain rfl := Option.some.inj hv
      exact ⟨isAt_runs hrun hr, not_isAt_iff (.inr hpc) hd hr nofun⟩
    · exact iff_moved Iff.rfl (run_place t a) nofun
    · exact iff_moved Iff.rfl nofun nofun
  have hnot : f ∉ s.deleted := ((hi.live f).2 ⟨_, hat⟩).2
  refine hi.moved hl hm hat (fun v hv => ?_) (fun v hv => ?_) nofun ?_ hi.once hi.fresh (fun y hy => ?_) ?_ fun _ => hc
  · exact congrArg Place.thread (Option.some.inj hv)
  · obtain rfl := Option.some.inj hv
    rw [hpc]
    exact .inl hd
  · exact iff_of_false (fun hlive => hlive.2 List.mem_cons_self) nofun
  · exact List.mem_cons.trans (or_iff_right hy)
  · exact List.nodup_cons.2 ⟨hnot, hi.nodup⟩

omit [DecidableEq φ] in
/-- The handler has deferred nothing. -/
theorem Inv.quiet (hi : Inv s) (h : s.pc t = .returned) (hd : s.deferred t = []) : Inv (s.setPc t .idle) := by
  have hpc : (s.setPc t .idle).pc t = .idle := update_self ..
  have hat : ∀ y r, (s.setPc t .idle).isAt y r ↔ s.isAt y r := by
    intro y r
    by_cases hr : r.thread = some t
    · exact iff_of_false (not_isAt (.inl hpc) hd hr) (not_isAt (.inr h) hd hr)
    · cases r with
      | runs v => 
        have hv : v ≠ t := fun heq => hr (congrArg some heq)
        simp only [State.isAt, State.setPc, update_of_ne hv]
      | holds v k => 
        have hv : v ≠ t := fun heq => hr (congrArg some heq)
        simp only [State.isAt, State.setPc, update_of_ne hv]
      | _ => exact Iff.rfl
  exact {
    exclusive := fun y r r' hr hr' => hi.exclusive y r r' ((hat y r).1 hr) ((hat y r').1 hr')
    live := fun y => (hi.live y).trans (exists_congr fun r => (hat y r).symm)
    once := hi.once
    thread := fun v => by
      rcases eq_or_ne v t with rfl | hv
      · rw [hpc]
        exact hd
      · have hpc' : (s.setPc t .idle).pc v = s.pc v := update_of_ne hv ..
        rw [hpc']
        exact (hi.thread v).keep (fun f _ => keeps_of rfl rfl rfl) rfl rfl
    asleep := fun y r hr => (hi.asleep y r ((hat y r).1 hr)).keep (keeps_of rfl rfl rfl)
    fresh := hi.fresh
    nodup := hi.nodup
    completed := hi.completed }

omit [DecidableEq φ] in
/-- What the handler has deferred is queued. -/
theorem Inv.returned (hi : Inv s) (h : s.pc t = .returned) : Inv ((s.flush t).setPc t .idle) := by
  have hpc : ((s.flush t).setPc t .idle).pc t = .idle := update_self ..
  have hd' : ((s.flush t).setPc t .idle).deferred t = [] := update_self ..
  rcases hi.pcOk h with hd | ⟨f, k, hd⟩
  · have hflush : s.flush t = s := by
      unfold State.flush
      rw [hd, List.append_nil, ← hd, update_eq_self]
    rw [hflush] at hpc ⊢
    exact hi.quiet h hd
  · have hat : s.isAt f (.holds t k) := .inr ⟨h, by rw [hd]; exact List.mem_singleton_self _⟩
    have hsleeps : Sleeps s f k .idle := hi.asleep f _ hat
    have hqueue : (s.flush t).queue = s.queue ++ [.asyncWait f k] := congrArg (s.queue ++ ·) hd
    have hflush : Local s (s.flush t) f (some t) :=
      ⟨fun _ _ => keeps_of rfl rfl rfl, fun _ _ => rfl, fun _ _ => rfl, fun v hv => update_of_ne (ne_of_some_ne hv) ..⟩
    have hl : Local s ((s.flush t).setPc t .idle) f (some t) := hflush.setPc _
    have hm : Moves s.isAt ((s.flush t).setPc t .idle).isAt f (some (.holds t k)) (some (.queued k)) := by
      refine moves_of hl (fun _ => id) nofun (fun v y r hv hr => ?_) (fun a => ?_) fun y j => ?_
      · obtain rfl := Option.some.inj hv
        exact ⟨isAt_deferred h hd hr, not_isAt_iff (.inl hpc) hd' hr nofun⟩
      · change a ∈ (s.flush t).queue ↔ _
        rw [hqueue]
        exact mem_posted (h := .asyncWait f k) (fun b => by cases b <;> nofun)
      · exact iff_moved Iff.rfl nofun nofun
    refine hi.goes hl hm hat nofun (fun v hv => ?_) ⟨hsleeps.coro, hsleeps.timer⟩ (hi.born hat) ?_ hi.fresh rfl
    · obtain rfl := Option.some.inj hv
      rw [hpc]
      exact hd'
    · change (s.flush t).queue.Nodup
      rw [hqueue]
      exact hi.nodup_post (hi.not_queued (a := .asyncWait f k) hat nofun)

omit [DecidableEq φ] in
theorem Inv.asyncWait (hi : Inv s) (h : s.pc t = .asyncWait f k) (htimer : s.timer k = some ⟨g, .idle⟩) :
    Inv ((s.setTimer k ⟨g, .waiting f⟩).setPc t .returned) := by
  have hd : s.deferred t = [] := hi.pcOk h
  have hat : s.isAt f (.holds t k) := .inl h
  have hsleeps : Sleeps s f k .idle := hi.asleep f _ hat
  cases htimer.symm.trans hsleeps.timer
  have hpc : ((s.setTimer k ⟨f, .waiting f⟩).setPc t .returned).pc t = .returned := update_self ..
  have hl : Local s ((s.setTimer k ⟨f, .waiting f⟩).setPc t .returned) f (some t) :=
    (local_setTimer hsleeps.timer).setPc _
  have hm : Moves s.isAt ((s.setTimer k ⟨f, .waiting f⟩).setPc t .returned).isAt f (some (.holds t k))
      (some (.waits k)) := by
    refine moves_of hl (fun _ => id) nofun (fun v y r hv hr => ?_) (fun a => ?_) fun y j => ?_
    · obtain rfl := Option.some.inj hv
      exact ⟨isAt_asyncWait h hr, not_isAt_iff (.inr hpc) hd hr nofun⟩
    · refine iff_moved Iff.rfl ?_ ?_ <;> cases a <;> nofun
    · simp only [State.isAt, State.setTimer, State.setPc]
      rcases eq_or_ne j k with rfl | hj
      · simp only [update_self, hsleeps.timer, Option.some.injEq, Timer.mk.injEq, TimerState.waiting.injEq,
          exists_eq_left', reduceCtorEq, and_false, exists_false, false_and, and_true, false_or, eq_comm]
      · rw [update_of_ne hj]
        refine iff_moved Iff.rfl nofun ?_
        rintro ⟨⟩
        exact hj rfl
  refine hi.goes hl hm hat nofun (fun v hv => ?_) ⟨hsleeps.coro, update_self ..⟩ (hi.born hat) hi.once
    (hi.fresh_setTimer hsleeps.timer) rfl
  obtain rfl := Option.some.inj hv
  rw [hpc]
  exact .inl hd

omit [DecidableEq φ] [DecidableEq τ] in
/-- The timer fires. -/
theorem Inv.fire (hi : Inv s) (h : s.timer k = some ⟨g, .waiting f⟩) :
    Inv ((s.setTimer k ⟨g, .fired⟩).post (.wakeAndRun f k)) := by
  have hat : s.isAt f (.waits k) := ⟨g, h⟩
  have hsleeps : Sleeps s f k (.waiting f) := hi.asleep f _ hat
  cases h.symm.trans hsleeps.timer
  have hl : Local s ((s.setTimer k ⟨f, .fired⟩).post (.wakeAndRun f k)) f none :=
    (local_setTimer hsleeps.timer).post
  have hm : Moves s.isAt ((s.setTimer k ⟨f, .fired⟩).post (.wakeAndRun f k)).isAt f (some (.waits k))
      (some (.fired k)) := by
    refine moves_of hl nofun nofun nofun (fun a => ?_) fun y j => ?_
    · exact mem_posted (h := .wakeAndRun f k) (fun b => by cases b <;> nofun)
    · simp only [State.isAt, State.setTimer, State.post]
      rcases eq_or_ne j k with rfl | hj
      · simp only [update_self, hsleeps.timer, Option.some.injEq, Timer.mk.injEq, TimerState.waiting.injEq,
          exists_eq_left', reduceCtorEq, and_false, exists_false, and_true, or_false, eq_comm, and_not_self_iff]
      · rw [update_of_ne hj]
        refine iff_moved Iff.rfl ?_ nofun
        rintro ⟨⟩
        exact hj rfl
  exact hi.goes hl hm hat nofun nofun ⟨hsleeps.coro, update_self ..⟩ (hi.born hat)
    (hi.nodup_post (hi.not_queued (a := .wakeAndRun f k) hat nofun)) (hi.fresh_setTimer hsleeps.timer) rfl

omit [DecidableEq τ] in
theorem Inv.go (hi : Inv s) (h : s.coro f = .unborn) : Inv ((s.setCoro f (.suspended .entry)).post (.run f)) := by
  have hnot : ∀ r, ¬ s.isAt f r := fun r hr => hi.born hr h
  have hl : Local s ((s.setCoro f (.suspended .entry)).post (.run f)) f none :=
    Local.post ⟨fun y hy => ⟨update_of_ne hy .., rfl, fun _ _ h => h⟩, fun _ _ => rfl, fun _ _ => rfl, fun _ _ => rfl⟩
  have hm : Moves s.isAt ((s.setCoro f (.suspended .entry)).post (.run f)).isAt f none (some .posted) := by
    refine moves_of hl nofun nofun nofun (fun a => ?_) fun y j => ?_
    · exact mem_posted (h := Handler.run f) nofun
    · exact iff_moved Iff.rfl nofun nofun
  have hdel : f ∉ s.deleted := fun hf => by cases h.symm.trans (hi.completed f hf)
  have hcoro : ((s.setCoro f (.suspended .entry)).post (.run f)).coro f = .suspended .entry := update_self ..
  refine hi.moved hl hm hnot nofun nofun (fun q hq => ?_) ?_ ?_ hi.fresh (fun _ _ => Iff.rfl) hi.nodup
    fun hf => absurd hf hdel
  · obtain rfl := Option.some.inj hq
    exact .inl hcoro
  · refine iff_of_true ⟨?_, hdel⟩ ⟨_, rfl⟩
    rw [hcoro]
    nofun
  · exact hi.nodup_post (hnot .posted)

theorem Inv.threadStep (hi : Inv s) (hs : threadStep s t = some s') : Inv s' := by
  cases hp : s.pc t with
  | idle => simp only [SleepFor.threadStep, hp, reduceCtorEq] at hs
  | routine f => simp only [SleepFor.threadStep, hp, reduceCtorEq] at hs
  | wakeAndRun f =>
    simp only [SleepFor.threadStep, hp, Option.some.injEq] at hs
    exact hs ▸ hi.wakeAndRun hp
  | run f =>
    simp only [SleepFor.threadStep, hp, Option.some.injEq] at hs
    exact hs ▸ hi.run hp
  | resume f =>
    simp only [SleepFor.threadStep, hp] at hs
    split at hs
    · rename_i hc
      exact Option.some.inj hs ▸ hi.resume hp hc
    · cases hs
  | sleepFor f fiber pc =>
    simp only [SleepFor.threadStep, hp] at hs
    exact hi.sleepStep hp hs
  | awoken f k =>
    simp only [SleepFor.threadStep, hp] at hs
    exact hi.awoken hp hs
  | resumed f =>
    have h := hi.resumed hp
    simp only [SleepFor.threadStep, hp] at hs
    split at hs <;> rename_i hc
    · rw [if_pos hc] at h
      exact Option.some.inj hs ▸ h
    · rw [if_neg hc] at h
      exact Option.some.inj hs ▸ h
  | delete f =>
    simp only [SleepFor.threadStep, hp, Option.some.injEq] at hs
    exact hs ▸ hi.delete hp
  | check f =>
    simp only [SleepFor.threadStep, hp] at hs
    split at hs <;> rename_i hc
    · exact Option.some.inj hs ▸ hi.checkSleeping hp hc
    · exact Option.some.inj hs ▸ hi.checkRunning hp hc
  | schedule f =>
    simp only [SleepFor.threadStep, hp, Option.some.injEq] at hs
    exact hs ▸ hi.schedule hp
  | asyncWait f k =>
    simp only [SleepFor.threadStep, hp] at hs
    split at hs
    · rename_i htimer
      exact Option.some.inj hs ▸ hi.asyncWait hp htimer
    · cases hs
  | returned =>
    simp only [SleepFor.threadStep, hp, Option.some.injEq] at hs
    exact hs ▸ hi.returned hp

theorem Inv.step {a : Act φ τ} (hi : Inv s) (hs : step s a = some s') : Inv s' := by
  cases a with
  | go f =>
    obtain ⟨hc, rfl⟩ := Option.ite_some_none_eq_some.1 hs
    exact hi.go hc
  | take t h =>
    obtain ⟨hc, rfl⟩ := Option.ite_some_none_eq_some.1 hs
    exact hi.take hc.1 hc.2
  | fire k =>
    simp only [SleepFor.step] at hs
    split at hs
    · rename_i htimer
      exact Option.some.inj hs ▸ hi.fire htimer
    · cases hs
  | yield t =>
    simp only [SleepFor.step] at hs
    split at hs
    · rename_i hp
      obtain ⟨self, hself, rfl⟩ := Option.map_eq_some_iff.1 hs
      exact hi.yield hp hself
    · cases hs
  | sleepFor t =>
    simp only [SleepFor.step] at hs
    split at hs
    · rename_i hp
      obtain ⟨self, hself, rfl⟩ := Option.map_eq_some_iff.1 hs
      exact hi.sleepFor hp hself
    · cases hs
  | complete t =>
    simp only [SleepFor.step] at hs
    split at hs
    · rename_i hp
      exact Option.some.inj hs ▸ hi.complete hp
    · cases hs
  | step t => exact hi.threadStep hs

omit [DecidableEq φ] [DecidableEq τ] in
theorem not_isAt_init (r : Place τ) : ¬ (init : State φ τ).isAt f r := by
  cases r with
  | runs t => exact fun h => nomatch h
  | holds t k => exact fun h => h.elim nofun fun h => nomatch h.1
  | waits k => exact fun ⟨_, h⟩ => nomatch h
  | posted => exact List.not_mem_nil
  | queued k => exact List.not_mem_nil
  | fired k => exact List.not_mem_nil

omit [DecidableEq φ] [DecidableEq τ] in
theorem inv_init : Inv (init : State φ τ) where
  exclusive _ p _ hp := absurd hp (not_isAt_init p)
  live _ := iff_of_false (fun h => h.1 rfl) fun ⟨p, hp⟩ => not_isAt_init p hp
  once := List.nodup_nil
  thread _ := rfl
  asleep _ p hp := absurd hp (not_isAt_init p)
  fresh _ _ := rfl
  nodup := List.nodup_nil
  completed := nofun

theorem inv_reach (r : Reach (system φ τ) anyStep s) : Inv s :=
  r.invariant (fun _ h => h ▸ inv_init) fun _ _ _ hi _ hs => hi.step hs

/-! ### What follows -/

omit [DecidableEq φ] [DecidableEq τ]

/-- A fiber that is in no thread's hands is suspended. -/
theorem Asleep.suspended {r : Place τ} (h : Asleep s f r) :
    (∃ t, r = .runs t) ∨ ∃ at_, s.coro f = .suspended at_ := by
  cases r with
  | runs t => exact .inl ⟨t, rfl⟩
  | posted => exact .inr (Ready.suspended (.inl h))
  | holds t k => exact .inr ⟨_, Sleeps.coro h⟩
  | queued k => exact .inr ⟨_, Sleeps.coro h⟩
  | waits k => exact .inr ⟨_, Sleeps.coro h⟩
  | fired k => exact .inr ⟨_, Sleeps.coro h⟩

theorem Asleep.timer {r : Place τ} (h : Asleep s f r) (hr : r.timer = some k) :
    ∃ st, s.timer k = some ⟨f, st⟩ ∧ st ≠ .destroyed := by
  cases r with
  | runs t => cases hr
  | posted => cases hr
  | holds t j => cases hr; exact ⟨_, Sleeps.timer h, nofun⟩
  | queued j => cases hr; exact ⟨_, Sleeps.timer h, nofun⟩
  | waits j => cases hr; exact ⟨_, Sleeps.timer h, nofun⟩
  | fired j => cases hr; exact ⟨_, Sleeps.timer h, nofun⟩

/-- A live fiber that is not suspended is with a thread. -/
theorem Inv.awake (hi : Inv s) (hlive : s.live f) (hnot : ∀ at_, s.coro f ≠ .suspended at_) :
    ∃ t, (s.pc t).runs = some f := by
  obtain ⟨r, hr⟩ := (hi.live f).1 hlive
  rcases (hi.asleep f r hr).suspended with ⟨t, rfl⟩ | ⟨at_, h⟩
  · exact ⟨t, hr⟩
  · exact absurd h (hnot at_)

theorem SleepOk.running {pc : SleepPc} (h : SleepOk s t f pc) : s.coro f = .running := by
  cases pc with
  | mark => exact h.1.coro
  | timer => exact h.1.coro
  | defer k => exact h.1.coro
  | yield k => exact h.1.coro

/-- When the routine has completed, the thread has not much left to do. -/
theorem PcOk.completed (h : PcOk s t p) (hp : p.runs = some f) (hc : s.coro f = .completed) :
    p = .resumed f ∨ p = .delete f := by
  have hready : ¬ Ready s f := fun hr => by
    obtain ⟨at_, hat⟩ := hr.suspended
    cases hc.symm.trans hat
  have hruns : s.coro f ≠ .running := fun hr => by cases hc.symm.trans hr
  cases p with
  | idle => cases hp
  | asyncWait f k => cases hp
  | returned => cases hp
  | wakeAndRun f => cases hp; exact absurd (.inr h.1) hready
  | run f => cases hp; exact absurd h.1 hready
  | resume f => cases hp; exact absurd h.1 hready
  | routine f => cases hp; exact absurd h.1.coro hruns
  | sleepFor f fiber pc => cases hp; exact absurd h.2.running hruns
  | awoken f k => cases hp; exact absurd h.1.coro hruns
  | resumed f => cases hp; exact .inl rfl
  | delete f => cases hp; exact .inr rfl
  | check f => cases hp; exact absurd hc (Left.coro_ne h).1
  | schedule f => cases hp; cases hc.symm.trans h.1

/-- A thread has pointers to the fiber that it runs, or whose timer it is about to use. -/
theorem PcOk.refers (h : PcOk s t p) (hp : p.refers f) : p.runs = some f ∨ ∃ k, p = .asyncWait f k := by
  cases p with
  | idle => exact hp.elim
  | returned => exact hp.elim
  | asyncWait g k => exact .inr ⟨k, congrArg (Pc.asyncWait · k) hp⟩
  | sleepFor g fiber pc =>
    obtain rfl := h.1
    exact .inl (congrArg some (or_self_iff.1 hp))
  | _ => exact .inl (congrArg some hp)

/-- And what it has deferred belongs to the fiber that it runs, or ran. -/
theorem PcOk.deferred {a : Handler φ} (h : PcOk s t p) (ha : a ∈ s.deferred t) :
    ∃ f k, a = .asyncWait f k ∧ (p.runs = some f ∨ p = .returned) := by
  have hnil : s.deferred t ≠ [] := List.ne_nil_of_mem ha
  have hleft : ∀ f, Left s t f → ∃ k, a = .asyncWait f k := by
    rintro f (⟨-, -, hd⟩ | ⟨k, -, -, hd⟩)
    · exact absurd hd hnil
    · rw [hd, List.mem_singleton] at ha
      exact ⟨k, ha⟩
  cases p with
  | idle => exact absurd h hnil
  | asyncWait f k => exact absurd h hnil
  | returned =>
    rcases h with hd | ⟨f, k, hd⟩
    · exact absurd hd hnil
    · rw [hd, List.mem_singleton] at ha
      exact ⟨f, k, ha, .inr rfl⟩
  | wakeAndRun f => exact absurd h.2 hnil
  | run f => exact absurd h.2 hnil
  | resume f => exact absurd h.2.2.2 hnil
  | routine f => exact absurd h.2 hnil
  | sleepFor f fiber pc =>
    obtain ⟨-, hok⟩ := h
    cases pc with
    | mark => exact absurd hok.2 hnil
    | timer => exact absurd hok.2 hnil
    | defer k => exact absurd hok.2.2 hnil
    | yield k =>
      rw [hok.2.2, List.mem_singleton] at ha
      exact ⟨f, k, ha, .inl rfl⟩
  | awoken f k => exact absurd h.2.2 hnil
  | resumed f =>
    rcases h with ⟨-, hd⟩ | h
    · exact absurd hd hnil
    · obtain ⟨k, hk⟩ := hleft f h
      exact ⟨f, k, hk, .inl rfl⟩
  | delete f => exact absurd h.2 hnil
  | check f =>
    obtain ⟨k, hk⟩ := hleft f h
    exact ⟨f, k, hk, .inl rfl⟩
  | schedule f => exact absurd h.2 hnil

theorem Inv.gone (hi : Inv s) (hf : f ∈ s.deleted) :
    (∀ t, ¬ (s.pc t).refers f ∧ ∀ h ∈ s.deferred t, h.fiber ≠ f) ∧
    (∀ h ∈ s.queue, h.fiber ≠ f) ∧ ∀ k g, s.timer k ≠ some ⟨g, .waiting f⟩ := by
  have hnot : ∀ r, ¬ s.isAt f r := fun r hr => ((hi.live f).2 ⟨r, hr⟩).2 hf
  refine ⟨fun t => ⟨fun h => ?_, ?_⟩, ?_, fun k g h => hnot (.waits k) ⟨g, h⟩⟩
  · rcases (hi.thread t).refers h with h | ⟨k, h⟩
    · exact hnot (.runs t) h
    · exact hnot (.holds t k) (.inl h)
  · rintro a ha rfl
    obtain ⟨f, k, rfl, h | h⟩ := (hi.thread t).deferred ha
    · exact hnot (.runs t) h
    · exact hnot (.holds t k) (.inr ⟨h, ha⟩)
  · rintro a ha rfl
    exact hnot a.place (isAt_place.2 ha)

variable [DecidableEq φ] [DecidableEq τ]

theorem Inv.goesOn (hi : Inv s) (h1 : s.pc t ≠ .idle) (h2 : ∀ f, s.pc t ≠ .routine f) :
    ∃ s', SleepFor.step s (.step t) = some s' := by
  simp only [SleepFor.step, SleepFor.threadStep]
  have hok := hi.thread t
  cases hp : s.pc t with
  | idle => exact absurd hp h1
  | routine f => exact absurd hp (h2 f)
  | resume f =>
    rw [hp] at hok
    obtain ⟨at_, hat⟩ := hok.1.suspended
    simp only [hat]
    exact ⟨_, rfl⟩
  | sleepFor f fiber pc =>
    rw [hp] at hok
    cases pc with
    | yield k =>
      simp only [SleepFor.sleepStep, hok.2.1.current]
      exact ⟨_, rfl⟩
    | _ => exact ⟨_, rfl⟩
  | awoken f k =>
    rw [hp] at hok
    simp only [State.destroyTimer, hok.2.1]
    exact ⟨_, rfl⟩
  | asyncWait f k =>
    have hsleeps : Sleeps s f k .idle := hi.asleep f (.holds t k) (.inl hp)
    simp only [hsleeps.timer]
    exact ⟨_, rfl⟩
  | resumed f => simp only; split <;> exact ⟨_, rfl⟩
  | check f => simp only; split <;> exact ⟨_, rfl⟩
  | _ => exact ⟨_, rfl⟩

theorem Inv.isLinear (hi : Inv s) : Linear s where
  place f hf := by
    obtain ⟨r, hr⟩ := (hi.live f).1 hf
    exact ⟨r, hr, fun r' hr' => hi.exclusive f r' r hr' hr⟩
  once := hi.once
  resumes t f h := (hi.pcOk h).1.suspended
  executes f h := by
    refine hi.awake ⟨by rw [h]; nofun, fun hf => ?_⟩ (by rw [h]; nofun)
    cases h.symm.trans (hi.completed f hf)
  timer f r k hr hk := (hi.asleep f r hr).timer hk
  destroys t f k h := (hi.pcOk h).2.1
  deleted := ⟨hi.nodup, hi.completed⟩
  deletes f h := by
    by_cases hf : f ∈ s.deleted
    · exact .inl hf
    · obtain ⟨t, ht⟩ := hi.awake (f := f) ⟨by rw [h]; nofun, hf⟩ (by rw [h]; nofun)
      exact .inr ⟨t, (hi.thread t).completed ht h⟩
  gone f hf := hi.gone hf
  goesOn t := hi.goesOn
  calls t f h := by
    obtain ⟨hr, -⟩ := hi.pcOk h
    simp only [SleepFor.step, h, hr.current]
    exact ⟨⟨_, rfl⟩, _, rfl⟩

end inv

/-- **Linearity.** In every run, with any number of fibers that yield, sleep and return, and any number of threads. -/
theorem sleepers_linear [DecidableEq φ] [DecidableEq τ] {s : State φ τ} (r : Reach (system φ τ) anyStep s) :
    Linear s :=
  (inv_reach r).isLinear

/-- Fiber 0 has slept and goes on on thread 1; fiber 1 has gone to sleep on thread 0, which still holds it. -/
theorem sleepers_linear_awake : ∃ s : State (Fin 2) (Fin 2),
    (s.isAt 0 (.runs 1) ∧ s.coro 0 = .running ∧ s.isAt 1 (.holds 0 1)) ∧ Linear s := by
  obtain ⟨s, hr, hs⟩ := Reach.of_exec_any (system (Fin 2) (Fin 2))
    [.go 0, .go 1, .take 0 (.run 0), .step 0, .step 0, .sleepFor 0, .step 0, .step 0, .step 0, .step 0, .step 0, .step 0,
      .step 0, .take 0 (.run 1), .take 1 (.asyncWait 0 0), .step 0, .step 1, .fire 0, .step 1, .step 0,
      .take 1 (.wakeAndRun 0 0), .step 1, .sleepFor 0, .step 1, .step 0, .step 0, .step 1, .step 0, .step 0, .step 0,
      .step 0]
    (fun s => decide ((s.pc 1).runs = some 0 ∧ s.coro 0 = .running ∧ s.pc 0 = .returned ∧
      Handler.asyncWait 1 1 ∈ s.deferred 0)) rfl (by decide)
  obtain ⟨h1, h2, h3, h4⟩ := of_decide_eq_true hs
  exact ⟨s, ⟨h1, h2, .inr ⟨h3, h4⟩⟩, sleepers_linear hr⟩

end SleepFor
