import ConcurrencyCourse.Futures.Chain

/-!
# Which executor a stage runs on

| here | there |
| --- | --- |
| `inherited` | readme 309-325: the executor set by `Via` is inherited along the chain, till the next `Via` |
| `kept` | `Via(input_future.GetExecutor())` at the end of `Pipe` (map.hpp:33, and_then.hpp:42, or_else.hpp:28, flat_map.hpp:55) |
| `Stage.keep` of `Flatten` | flatten.hpp:24: the new future is returned as it is, with `Inline` |

So a stage runs where the readme says unless it comes after a `Flatten`, with no `Via` in between, and there is
another executor than `Inline` to inherit (`lost`). Of such a stage nothing is noticed if its function is not called.
-/

namespace Futures.Pipeline

open Function Transition

variable {V E : Type}

/-- The executors of the links as the readme has them, after a `Via(e)`. -/
def inherited : Executor → List (Stage V E) → List Executor
  | _, [] => []
  | _, .via e' :: rest => inherited e' rest
  | e, _ :: rest => e :: inherited e rest

/-- Which links come after a `Flatten`, with no `Via` in between, and have another executor than `Inline` to
inherit; `flat` is whether there was a `Flatten` since the `Via(e)`. -/
def lost : Executor → Bool → List (Stage V E) → List Bool
  | _, _, [] => []
  | _, _, .via e' :: rest => lost e' false rest
  | e, flat, st :: rest => (flat && e != .inline) :: lost e (flat || st.isFlatten) rest

theorem inherited_cons {st : Stage V E} (h : st.isVia = false) (e : Executor) (rest : List (Stage V E)) :
    inherited e (st :: rest) = e :: inherited e rest := by
  cases st with
  | via e' => cases h
  | _ => rfl

theorem lost_cons {st : Stage V E} (h : st.isVia = false) (e : Executor) (flat : Bool) (rest : List (Stage V E)) :
    lost e flat (st :: rest) = (flat && e != .inline) :: lost e (flat || st.isFlatten) rest := by
  cases st with
  | via e' => cases h
  | _ => rfl

theorem keep_eq {st : Stage V E} (h : st.isVia = false) (e : Executor) (flat : Bool) :
    st.keep (if flat then .inline else e) = if flat || st.isFlatten then .inline else e := by
  cases st with
  | via e' => cases h
  | flatten f => cases flat <;> rfl
  | _ => cases flat <;> rfl

/-- The executor is the inherited one exactly where it is not lost. -/
theorem kept_eq_inherited (stages : List (Stage V E)) (e : Executor) (flat : Bool) (i : Nat) :
    (kept (if flat then .inline else e) stages)[i]? = (inherited e stages)[i]? ↔ (lost e flat stages)[i]? ≠ some true := by
  induction stages generalizing e flat i with
  | nil => simp [kept, inherited, lost]
  | cons st rest ih =>
    cases h : st.isVia with
    | true =>
      cases st with
      | via e' => exact ih e' false i
      | _ => cases h
    | false =>
      rw [kept_cons h, inherited_cons h, lost_cons h, keep_eq h]
      cases i with
      | succ i => exact ih e (flat || st.isFlatten) i
      | zero =>
        rw [List.getElem?_cons_zero, List.getElem?_cons_zero, List.getElem?_cons_zero]
        cases flat with
        | false => exact ⟨fun _ => nofun, fun _ => rfl⟩
        | true =>
          constructor
          · intro he hl
            have he : Executor.inline = e := Option.some.inj he
            rw [← he] at hl
            cases hl
          · intro hl
            by_contra he
            refine hl (congrArg some ?_)
            rw [Bool.true_and, bne_iff_ne]
            rintro rfl
            exact he rfl

variable {stages : List (Stage V E)} {m : Option (Result V E)} {i : Nat}

/-- Every function that is called runs as a task submitted to the executor of the nearest `Via` before it. -/
def Inherits (stages : List (Stage V E)) (m : Option (Result V E)) : Prop :=
  ∀ s, Reach (system stages m) anyStep s → ∀ i e, e ∈ s.calls i → (inherited .inline stages)[i]? = some e

/-- The function of the `i`-th link is to be called: its kind matches what comes in. -/
def Called (stages : List (Stage V E)) (m : Option (Result V E)) (i : Nat) : Prop :=
  ∃ st r, (links stages)[i]? = some st ∧ value stages m i = some r ∧ st.calls r = true

theorem mem_called {e : Executor} :
    e ∈ called stages m i ↔ Called stages m i ∧ (kept .inline stages)[i]? = some e := by
  unfold called
  constructor
  · intro h
    split at h
    · next st r hst hr =>
      split at h
      · next hc => exact ⟨⟨st, r, hst, hr, hc⟩, Option.mem_toList.1 h⟩
      · cases h
    · cases h
  · rintro ⟨⟨st, r, hst, hr, hc⟩, hk⟩
    rw [hst, hr]
    change e ∈ if st.calls r = true then _ else _
    rw [if_pos hc]
    exact Option.mem_toList.2 hk

/-- For every pipeline, and for every timing: the functions run where the readme says if and only if none of the
stages whose functions are called has lost its executor to a `Flatten`. -/
theorem inherits_iff (stages : List (Stage V E)) (m : Option (Result V E)) :
    Inherits stages m ↔ ∀ i, Called stages m i → (lost .inline false stages)[i]? ≠ some true := by
  have heq := kept_eq_inherited stages .inline false
  constructor
  · intro h i hi
    obtain ⟨s, r, hstuck⟩ := exists_end (Reach.init (M := system stages m) rfl)
    obtain ⟨st, v, hst, hv, hc⟩ := hi
    have hlt := (List.getElem?_eq_some_iff.1 hst).1
    obtain ⟨e, hk⟩ : ∃ e, (kept .inline stages)[i]? = some e :=
      ⟨_, List.getElem?_eq_getElem (by rw [length_kept]; exact hlt)⟩
    have hcalls := ((inv_of_reach r).ran hstuck hlt (by rw [hv]; rfl)).2
    have hmem := h s r i e (hcalls ▸ mem_called.2 ⟨⟨st, v, hst, hv, hc⟩, hk⟩)
    exact (heq i).1 (hk.trans hmem.symm)
  · intro h s r i e he
    rcases ((inv_of_reach r).at_most_once i).2 with hc | hc
    · rw [hc] at he
      cases he
    · rw [hc] at he
      obtain ⟨hcalled, hk⟩ := mem_called.1 he
      exact ((heq i).2 (h i hcalled)).symm.trans hk

/-- `Via(e) | Flatten() | Map(f)`: the value of the first future, and of the inner one, is a number. -/
def viaFlattenMap : List (Stage Nat Nat) := [.via (.other 1), .flatten fun v => ⟨some (ok v), .inline⟩, .map (· + 1)]

/-- The mapper runs inline. -/
theorem flatten_loses : ¬ Inherits viaFlattenMap (some (ok 5)) := by
  intro h
  obtain ⟨s, r, hp⟩ := Reach.of_exec_any (system viaFlattenMap (some (ok 5)))
    ([Act.promise, Act.promise] ++ List.replicate 8 Act.pipe ++ List.replicate 3 (Act.task 0) ++
      [Act.inner 0, Act.inner 0] ++ List.replicate 3 (Act.task 0) ++ [Act.task 1])
    (fun s => decide (s.calls 1 = [.inline])) rfl (by decide)
  have hcalls := of_decide_eq_true hp
  have he := h s r 1 .inline (by rw [hcalls]; exact List.mem_singleton_self _)
  cases he

end Futures.Pipeline
