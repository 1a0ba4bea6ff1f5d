import ConcurrencyCourse.Futures.Chain

/-!
# `FlatMap`, `Flatten` and the monad laws

The readme (345-367) has `Value` and `FlatMap` for a monad. With `m`, `f(v)` and `g(w)` completed, the laws say what
each of the pipelines below completes with, and that it does (`Laws`).

| here | there |
| --- | --- |
| `Gives` | the last future is completed with this, whatever the timing, and no callback throws |
| `Fut.pipe` | a pipeline on an inner future, as a future of its own |
| `bind` | `m`'s error, or else the result of `f(v)` |

The callback on the inner future passes on `result.value()` (flat_map.hpp:49, flatten.hpp:17): with an error there it
throws, and the promise of the outer future is never set. So the laws hold as long as the inner futures that are
subscribed to complete with values (`laws_iff`).
-/

namespace Futures.Pipeline

open Function Transition

variable {V E : Type}

/-- The last future of the pipeline is completed with `x`, and no callback throws. -/
def Gives (stages : List (Stage V E)) (m : Option (Result V E)) (x : Result V E) : Prop :=
  ∀ s, Reach (system stages m) anyStep s → (∀ i, s.tasks i ≠ .thrown) ∧
    ((∀ a, step m s a = none) → (s.cells (links stages).length).result = some x)

/-- After a future that is never completed, none is. -/
theorem value_eq_none {stages : List (Stage V E)} {m : Option (Result V E)} {i j : Nat} (hij : i ≤ j)
    (h : value stages m i = none) : value stages m j = none := by
  induction j, hij using Nat.le_induction with
  | base => exact h
  | succ j _ ih => rw [value, ih]; rfl

/-- What the pipeline gives is its outcome. -/
theorem gives_iff (stages : List (Stage V E)) (m : Option (Result V E)) (x : Result V E) :
    Gives stages m x ↔ outcome stages m = some x := by
  constructor
  · intro h
    obtain ⟨s, r, hstuck⟩ := exists_end (Reach.init (M := system stages m) rfl)
    exact ((inv_of_reach r).result hstuck le_rfl).symm.trans ((h s r).2 hstuck)
  · intro hx s r
    have hi := inv_of_reach r
    refine ⟨fun i ht => ?_, fun hstuck => (hi.result hstuck le_rfl).trans hx⟩
    -- a callback that throws leaves every later future without a result
    have htask := (hi.link i).task
    have hlt := (hi.link i).lt (by change (s.tasks i).started = true; rw [ht]; rfl)
    change TaskOk stages m i (s.inners i) (s.innerSet i) (s.tasks i) at htask
    rw [ht] at htask
    obtain ⟨fut, e, hsub, hr⟩ := htask
    have hnone : value stages m (i + 1) = none := by
      rw [hsub.value_succ, Next.outcome, hr]
    rw [outcome, value_eq_none hlt hnone] at hx
    cases hx

/-! ### The laws -/

/-- A future with this executor that is completed with this result. -/
def Fut.of (p : Result V E × Executor) : Fut V E := ⟨some p.1, p.2⟩

/-- `fut | stages`. -/
def Fut.pipe (fut : Fut V E) (stages : List (Stage V E)) : Fut V E :=
  ⟨outcome stages fut.result, stages.foldl (fun e st => st.keep e) fut.executor⟩

def bind (m : Result V E) (f : V → Result V E × Executor) : Result V E :=
  match m with
  | .ok v => (f v).1
  | .error e => err e

/-- `Value`. -/
def value₁ (v : V) : Result V E × Executor := (ok v, .inline)

/-- The inner future that `FlatMap(f)` subscribes to, if it does, completes with a value. -/
def InnerOk (m : Result V E) (f : V → Result V E × Executor) : Prop := ∀ v, m = ok v → ∃ w, (f v).1 = ok w

/-- What the readme promises, for one future and two functions. -/
structure Laws (m : Result V E) (f g : V → Result V E × Executor) : Prop where
  /-- `m | FlatMap(f)`; with `m` a `Value(v)`, it is `f(v)`. -/
  bind : Gives [.flatMap fun v => .of (f v)] (some m) (bind m f)
  /-- `m | FlatMap(Value)`. -/
  value : Gives [.flatMap fun v => .of (value₁ v)] (some m) m
  /-- `(m | FlatMap(f)) | FlatMap(g)`. -/
  left : Gives [.flatMap fun v => .of (f v), .flatMap fun w => .of (g w)] (some m) (Pipeline.bind (Pipeline.bind m f) g)
  /-- `m | FlatMap(v -> f(v) | FlatMap(g))`. -/
  right : Gives [.flatMap fun v => (Fut.of (f v)).pipe [.flatMap fun w => .of (g w)]] (some m)
    (Pipeline.bind (Pipeline.bind m f) g)
  /-- `mm | Flatten()`, where the value of `mm` is the future `f(v)`. -/
  flatten : Gives [.flatten fun v => .of (f v)] (some m) (Pipeline.bind m f)

theorem outcome_flatMap (m : Result V E) (f : V → Fut V E) :
    outcome [.flatMap f] (some m) = ((Stage.flatMap f).run m).outcome := rfl

/-- A subscription passes on the value of the inner future. -/
theorem outcome_subscribe {fut : Fut V E} {x : Result V E} :
    (Next.subscribe fut).outcome = some x ↔ ∃ v, fut.result = some (ok v) ∧ ok v = x := by
  simp only [Next.outcome]
  constructor
  · intro h
    split at h
    · next v hv => exact ⟨v, hv, Option.some.inj h⟩
    · cases h
  · rintro ⟨v, hv, rfl⟩
    rw [hv]

/-- One subscription to an inner future that completes with `p`. -/
theorem subscribe_outcome (p : Result V E × Executor) (x : Result V E) :
    (Next.subscribe (Fut.of p)).outcome = some x ↔ p.1 = x ∧ ∃ w, p.1 = ok w := by
  have hp : (Fut.of p).result = some p.1 := rfl
  rw [outcome_subscribe, hp]
  constructor
  · rintro ⟨v, hv, rfl⟩
    obtain hv := Option.some.inj hv
    exact ⟨hv, v, hv⟩
  · rintro ⟨rfl, v, hv⟩
    exact ⟨v, congrArg some hv, hv.symm⟩

theorem run_flatMap_outcome (m : Result V E) (f : V → Result V E × Executor) :
    ((Stage.flatMap fun v => Fut.of (f v)).run m).outcome = some (bind m f) ↔ InnerOk m f := by
  cases m with
  | error e => exact ⟨fun _ => nofun, fun _ => rfl⟩
  | ok v =>
    refine (subscribe_outcome (f v) (bind (ok v) f)).trans ⟨?_, fun h => ⟨rfl, h v rfl⟩⟩
    rintro ⟨-, hw⟩ _ ⟨⟩
    exact hw

/-- `Flatten` does with the value of the future what `FlatMap(identity)` does. -/
theorem run_flatten (m : Result V E) (f : V → Fut V E) : (Stage.flatten f).run m = (Stage.flatMap f).run m := by
  cases m <;> rfl

theorem outcome_flatMap_flatMap (m : Result V E) (f g : V → Fut V E) : outcome [.flatMap f, .flatMap g] (some m) =
    ((Stage.flatMap f).run m).outcome.bind fun r => ((Stage.flatMap g).run r).outcome := rfl

section laws

variable (m : Result V E) (f g : V → Result V E × Executor)

theorem gives_bind : Gives [.flatMap fun v => .of (f v)] (some m) (bind m f) ↔ InnerOk m f := by
  rw [gives_iff, outcome_flatMap]
  exact run_flatMap_outcome m f

theorem gives_flatten : Gives [.flatten fun v => .of (f v)] (some m) (bind m f) ↔ InnerOk m f := by
  have hrun : outcome [.flatten fun v => .of (f v)] (some m) = ((Stage.flatMap fun v => Fut.of (f v)).run m).outcome :=
    congrArg Next.outcome (run_flatten m _)
  rw [gives_iff, hrun]
  exact run_flatMap_outcome m f

theorem gives_value : Gives [.flatMap fun v => .of (value₁ v)] (some m) m := by
  rw [gives_iff, outcome_flatMap]
  cases m <;> rfl

theorem gives_left : Gives [.flatMap fun v => .of (f v), .flatMap fun w => .of (g w)] (some m) (bind (bind m f) g) ↔
    InnerOk m f ∧ InnerOk (bind m f) g := by
  rw [gives_iff, outcome_flatMap_flatMap]
  by_cases hf : InnerOk m f
  · rw [(run_flatMap_outcome m f).2 hf, Option.bind_some, run_flatMap_outcome]
    exact ⟨fun hg => ⟨hf, hg⟩, And.right⟩
  · -- the first of them throws
    refine ⟨fun h => absurd ?_ hf, fun h => absurd h.1 hf⟩
    cases m with
    | error e => nofun
    | ok v =>
      obtain ⟨y, hy, -⟩ := Option.bind_eq_some_iff.1 h
      rintro _ ⟨⟩
      exact ((subscribe_outcome (f v) y).1 hy).2

theorem gives_right : Gives [.flatMap fun v => (Fut.of (f v)).pipe [.flatMap fun w => .of (g w)]] (some m)
    (bind (bind m f) g) ↔ InnerOk m f ∧ InnerOk (bind m f) g := by
  rw [gives_iff, outcome_flatMap]
  cases m with
  | error e => exact ⟨fun _ => ⟨(by rintro _ ⟨⟩), (by rintro _ ⟨⟩)⟩, fun _ => rfl⟩
  | ok v =>
    have hinner : ((Fut.of (f v)).pipe [.flatMap fun w => .of (g w)]).result =
        ((Stage.flatMap fun w => Fut.of (g w)).run (f v).1).outcome := rfl
    change (Next.subscribe ((Fut.of (f v)).pipe [.flatMap fun w => .of (g w)])).outcome = some (bind (f v).1 g) ↔
      _ ∧ InnerOk (f v).1 g
    rw [outcome_subscribe, hinner]
    cases hf : (f v).1 with
    | error e =>
      -- the inner pipeline passes the error of `f(v)` on, and the outer callback throws
      constructor
      · rintro ⟨x, -, hx⟩
        cases hx
      · intro h
        obtain ⟨w, hw⟩ := h.1 v rfl
        rw [hf] at hw
        cases hw
    | ok w =>
      constructor
      · rintro ⟨x, hx, -⟩
        obtain ⟨hg, -⟩ := (subscribe_outcome (g w) (ok x)).1 hx
        constructor
        · rintro _ ⟨⟩
          exact ⟨w, hf⟩
        · rintro _ ⟨⟩
          exact ⟨x, hg⟩
      · rintro ⟨-, h⟩
        obtain ⟨x, hx⟩ := h w rfl
        exact ⟨x, (subscribe_outcome (g w) (ok x)).2 ⟨hx, x, hx⟩, hx.symm⟩

end laws

/-- The laws hold for `m`, `f` and `g` if and only if the inner futures that are subscribed to complete with
values: `f(v)` when `m` is `v`, and `g(w)` when `f(v)` is `w`. -/
theorem laws_iff (m : Result V E) (f g : V → Result V E × Executor) :
    Laws m f g ↔ InnerOk m f ∧ InnerOk (bind m f) g :=
  ⟨fun h => (gives_left m f g).1 h.left, fun h => ⟨(gives_bind m f).2 h.1, gives_value m, (gives_left m f g).2 h,
    (gives_right m f g).2 h, (gives_flatten m f).2 h.1⟩⟩

/-- `Value(5) | FlatMap(v -> Failure(7))`. -/
def failing : List (Stage Nat Nat) := [.flatMap fun _ => .of (err 7, .inline)]

/-- It throws, and it never completes. -/
theorem flatMap_throws : (∃ s, Reach (system failing (some (ok 5))) anyStep s ∧ s.tasks 0 = .thrown) ∧
    ¬ ∀ (m : Result Nat Nat) (f g : Nat → Result Nat Nat × Executor), Laws m f g := by
  constructor
  · obtain ⟨s, r, hp⟩ := Reach.of_exec_any (system failing (some (ok 5)))
      ([Act.promise, Act.promise] ++ List.replicate 4 Act.pipe ++ List.replicate 2 (Act.task 0) ++
        [Act.inner 0, Act.inner 0] ++ List.replicate 2 (Act.task 0))
      (fun s => match s.tasks 0 with | .thrown => true | _ => false) rfl (by decide)
    refine ⟨s, r, ?_⟩
    cases ht : s.tasks 0 <;> rw [ht] at hp <;> first | rfl | cases hp
  · intro h
    obtain ⟨w, hw⟩ := ((gives_bind (ok 5) fun _ => (err 7, .inline)).1
      (h (ok 5) (fun _ => (err 7, .inline)) fun _ => (err 7, .inline)).bind) 5 rfl
    cases hw

end Futures.Pipeline
