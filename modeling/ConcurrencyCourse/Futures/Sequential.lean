import ConcurrencyCourse.Futures.Chain

/-!
# `Map`, `AndThen`, `OrElse` and `Via`: a pipeline is a fold

| here | there |
| --- | --- |
| `Stage.eval` | readme 241-291: `Map` and `AndThen` are for values, `OrElse` is for errors, everything else passes through |
| `fold` | the stages from left to right |
| `(s.cells n).result` | what `GetResult` on the last future returns, and it waits until there is something |

None of these stages subscribes to an inner future, so each of them gives a result (`run_outcome`), and the values
along the chain are the fold over its first stages (`value_eq_fold`).
-/

namespace Futures.Pipeline

open Function Transition

variable {V E : Type}

def Stage.plain : Stage V E → Bool
  | .via _ | .map _ | .andThen _ | .orElse _ => true
  | .flatMap _ | .flatten _ => false

/-- What the stage is for. -/
def Stage.eval : Stage V E → Result V E → Result V E
  | .map f, .ok v => ok (f v)
  | .andThen f, .ok v => f v
  | .orElse f, .error e => f e
  | _, r => r

def fold (stages : List (Stage V E)) (r : Result V E) : Result V E := stages.foldl (fun r st => st.eval r) r

theorem run_outcome {st : Stage V E} (h : st.plain = true) (r : Result V E) : (st.run r).outcome = some (st.eval r) := by
  cases st with
  | via e => rfl
  | map f => cases r <;> rfl
  | andThen f => cases r <;> rfl
  | orElse f => cases r <;> rfl
  | flatMap f => cases h
  | flatten f => cases h

/-- `Via` does nothing to the result. -/
theorem fold_links (stages : List (Stage V E)) (r : Result V E) : fold (links stages) r = fold stages r := by
  induction stages generalizing r with
  | nil => rfl
  | cons st rest ih =>
    cases h : st.isVia with
    | false =>
      rw [links_cons h]
      exact ih (st.eval r)
    | true =>
      cases st with
      | via e =>
        rw [links_via]
        exact ih r
      | _ => cases h

variable {stages : List (Stage V E)} {r₀ : Result V E} {s : State V E}

/-- The value at a link is the fold over the links before it. -/
theorem value_eq_fold (hplain : ∀ st ∈ stages, st.plain = true) (i : Nat) (hi : i ≤ (links stages).length) :
    value stages (some r₀) i = some (fold ((links stages).take i) r₀) := by
  induction i with
  | zero => rfl
  | succ i ih =>
    have hlt : i < (links stages).length := hi
    have hp : (links stages)[i].plain = true := hplain _ (List.mem_of_mem_filter (List.getElem_mem hlt))
    rw [value_succ (List.getElem?_eq_getElem hlt) (ih hlt.le), run_outcome hp, List.take_succ_eq_append_getElem hlt, fold,
      fold, List.foldl_append]
    rfl

theorem length_called {m : Option (Result V E)} {i : Nat} {st : Stage V E} {r : Result V E}
    (hst : (links stages)[i]? = some st) (hv : value stages m i = some r) :
    (called stages m i).length = if st.calls r then 1 else 0 := by
  have hlt : i < (kept .inline stages).length := by
    rw [length_kept]
    exact (List.getElem?_eq_some_iff.1 hst).1
  rw [called, hst, hv]
  change (if st.calls r then (kept .inline stages)[i]?.toList else []).length = _
  rw [List.getElem?_eq_getElem hlt]
  split <;> rfl

/-- A pipeline of `Map`, `AndThen`, `OrElse` and `Via` on a future whose promise is set to `r₀`, under any
interleaving: the last future is completed with nothing but the fold of the stages over `r₀`; each cell submits its
callback at most once, and each function is called at most once, and only if its kind matches the incoming result;
every step leaves less to do; and when nobody can take a step any more, the last future has its result, each cell has
submitted its callback, and each function whose kind matches has been called. -/
theorem pipeline_computes (hplain : ∀ st ∈ stages, st.plain = true) (r : Reach (system stages (some r₀)) anyStep s) :
    (∀ x, (s.cells (links stages).length).result = some x → x = fold stages r₀) ∧
    (∀ i st, (links stages)[i]? = some st → s.submits i ≤ 1 ∧
      (s.calls i).length ≤ if st.calls (fold ((links stages).take i) r₀) then 1 else 0) ∧
    (∀ a s', step (some r₀) s a = some s' → s'.left stages < s.left stages) ∧
    ((∀ a, step (some r₀) s a = none) →
      (s.cells (links stages).length).result = some (fold stages r₀) ∧
      ∀ i st, (links stages)[i]? = some st → s.submits i = 1 ∧
        (s.calls i).length = if st.calls (fold ((links stages).take i) r₀) then 1 else 0) := by
  have h := inv_of_reach r
  have hlast : value stages (some r₀) (links stages).length = some (fold stages r₀) := by
    rw [value_eq_fold hplain _ le_rfl, List.take_length, fold_links]
  have hvalue : ∀ i st, (links stages)[i]? = some st →
      i < (links stages).length ∧ value stages (some r₀) i = some (fold ((links stages).take i) r₀) := by
    intro i st hst
    have hlt := (List.getElem?_eq_some_iff.1 hst).1
    exact ⟨hlt, value_eq_fold hplain i hlt.le⟩
  refine ⟨fun x hx => ?_, fun i st hst => ?_, fun a s' hs => (inv_step h hs).2, fun hstuck => ⟨?_, fun i st hst => ?_⟩⟩
  · exact Option.some.inj ((h.result_eq hx).symm.trans hlast)
  · obtain ⟨-, hv⟩ := hvalue i st hst
    obtain ⟨hsub, hcalls⟩ := h.at_most_once i
    refine ⟨hsub, ?_⟩
    rcases hcalls with hc | hc
    · rw [hc]
      exact Nat.zero_le _
    · rw [hc, length_called hst hv]
  · rw [h.result hstuck le_rfl, hlast]
  · obtain ⟨hlt, hv⟩ := hvalue i st hst
    obtain ⟨hsub, hcalls⟩ := h.ran hstuck hlt (by rw [hv]; rfl)
    exact ⟨hsub, by rw [hcalls, length_called hst hv]⟩

/-- Add one, on errors fall back to zero. -/
def addOne : List (Stage Nat Nat) := [.map (· + 1), .via (.other 1), .orElse fun _ => ok 0]

/-- The promise is set before the first stage is there, and the chain is built before the first callback runs. -/
theorem pipeline_computes_addOne : ∃ s : State Nat Nat, Reach (system addOne (some (ok 5))) anyStep s ∧
    (s.cells 2).result = some (ok 6) ∧ fold addOne (ok 5) = ok 6 := by
  obtain ⟨s, r, hp⟩ := Reach.of_exec_any (system addOne (some (ok 5)))
    ([Act.promise, Act.promise] ++ List.replicate 9 Act.pipe ++ List.replicate 3 (Act.task 0) ++ List.replicate 3 (Act.task 1))
    (fun s => decide ((s.cells 2).result = some (ok 6))) rfl (by decide)
  have hres := of_decide_eq_true hp
  exact ⟨s, r, hres, ((pipeline_computes (by decide) r).1 _ hres).symm⟩

end Futures.Pipeline
