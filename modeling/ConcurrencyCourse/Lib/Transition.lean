/-!
# Transition systems, runs and what a run remembers

Every component of the repository is a set of threads that take atomic steps on a shared
state. This file is the part that is the same for all of them:

* `System`: the initial states and a partial step function. The action names the thread
  that moves and everything the environment decides (which operation is called, whether a
  weak CAS fails spuriously, which address the allocator returns).
* `Run ok`: a finite run, newest step first, every step of which satisfies `ok`. A theorem
  about `Run M (fun _ _ => True)` is a theorem about every interleaving.
* `Run.invariant`: the induction rule, over states and their history.
* `Reach.exists_end`: a measure that every step makes less brings every run to an end.
* `During begins P`: `P` held at some moment since the last action that satisfies `begins`.
  It says "at some moment of the call" without a ghost flag in the state.
* `exec`: running a list of actions, for witnesses and counterexamples.
-/

namespace Transition

universe u v

/-- A system: initial states, and the state an action leads to (`none`: not enabled). -/
structure System (σ : Type u) (α : Type v) where
  init : σ → Prop
  step : σ → α → Option σ

variable {σ : Type u} {α : Type v}

/-- The steps of a run with the states they were taken in, newest first. -/
abbrev History (σ : Type u) (α : Type v) := List (α × σ)

/-- A run whose steps all satisfy `ok`, with its history and its last state. -/
inductive Run (M : System σ α) (ok : σ → α → Prop) : History σ α → σ → Prop where
  | init {s : σ} : M.init s → Run M ok [] s
  | step {h : History σ α} {s s' : σ} {a : α} :
      Run M ok h s → ok s a → M.step s a = some s' → Run M ok ((a, s) :: h) s'

/-- No restriction on the steps. -/
def anyStep : σ → α → Prop := fun _ _ => True

/-- States that some run, all of whose steps satisfy `ok`, ends in. -/
def Reach (M : System σ α) (ok : σ → α → Prop) (s : σ) : Prop := ∃ h, Run M ok h s

variable {M : System σ α} {ok ok' : σ → α → Prop}

/-- Induction over a run, for statements about the state and its history. -/
theorem Run.invariant {I : History σ α → σ → Prop} (h0 : ∀ s, M.init s → I [] s)
    (hs : ∀ h s a s', I h s → ok s a → M.step s a = some s' → I ((a, s) :: h) s')
    {h : History σ α} {s : σ} (r : Run M ok h s) : I h s := by
  induction r with
  | init hi => exact h0 _ hi
  | step _ ha hst ih => exact hs _ _ _ _ ih ha hst

theorem Run.mono (hok : ∀ s a, ok s a → ok' s a) {h : History σ α} {s : σ}
    (r : Run M ok h s) : Run M ok' h s := by
  induction r with
  | init hi => exact .init hi
  | step _ ha hst ih => exact .step ih (hok _ _ ha) hst

/-- Every step of a run satisfies `ok`. -/
theorem Run.step_ok {h : History σ α} {s s₀ : σ} {a : α} (r : Run M ok h s) (hmem : (a, s₀) ∈ h) : ok s₀ a := by
  induction r with
  | init _ => cases hmem
  | step _ ha _ ih =>
    rcases List.mem_cons.1 hmem with heq | hmem
    · obtain ⟨rfl, rfl⟩ := Prod.mk.inj heq
      exact ha
    · exact ih hmem

namespace Reach

theorem init {s : σ} (h : M.init s) : Reach M ok s := ⟨[], .init h⟩

theorem step {s s' : σ} {a : α} (r : Reach M ok s) (ha : ok s a) (h : M.step s a = some s') :
    Reach M ok s' := by
  obtain ⟨h', r⟩ := r
  exact ⟨_, .step r ha h⟩

/-- Induction over the reachable states. -/
theorem invariant {I : σ → Prop} (h0 : ∀ s, M.init s → I s)
    (hs : ∀ s a s', I s → ok s a → M.step s a = some s' → I s') {s : σ} (r : Reach M ok s) :
    I s := by
  obtain ⟨h, r⟩ := r
  exact Run.invariant (I := fun _ s => I s) h0 (fun _ => hs) r

theorem mono (hok : ∀ s a, ok s a → ok' s a) {s : σ} (r : Reach M ok s) : Reach M ok' s := by
  obtain ⟨h, r⟩ := r
  exact ⟨h, r.mono hok⟩

/-- When every step leaves less to do, every run comes to an end. -/
theorem exists_end (left : σ → Nat)
    (hs : ∀ s a s', Reach M ok s → ok s a → M.step s a = some s' → left s' < left s) {s : σ} (r : Reach M ok s) :
    ∃ s', Reach M ok s' ∧ ∀ a, ok s' a → M.step s' a = none := by
  induction hn : left s using Nat.strongRecOn generalizing s with
  | ind n ih =>
    by_cases h : ∃ a s', ok s a ∧ M.step s a = some s'
    · obtain ⟨a, s', ha, hst⟩ := h
      exact ih (left s') (hn ▸ hs s a s' r ha hst) (r.step ha hst) rfl
    · refine ⟨s, r, fun a ha => ?_⟩
      cases hst : M.step s a with
      | none => rfl
      | some s' => exact absurd ⟨a, s', ha, hst⟩ h

end Reach

/-! ## What held during a call -/

/-- `P` holds now, or held at an earlier moment after the last action satisfying `begins`. -/
def During (begins : α → Prop) (P : σ → Prop) : History σ α → σ → Prop
  | [], s => P s
  | (a, s₀) :: h, s => P s ∨ (¬ begins a ∧ During begins P h s₀)

theorem During.now {begins : α → Prop} {P : σ → Prop} {h : History σ α} {s : σ} (hp : P s) :
    During begins P h s := by
  cases h with
  | nil => exact hp
  | cons => exact .inl hp

/-- A step that does not begin a new call keeps what held during the current one. -/
theorem During.later {begins : α → Prop} {P : σ → Prop} {h : History σ α} {s s' : σ} {a : α}
    (hd : During begins P h s) (ha : ¬ begins a) : During begins P ((a, s) :: h) s' :=
  .inr ⟨ha, hd⟩

/-! ## Running a list of actions -/

/-! The numerals of `Fin 1`, `Fin 2` and `Fin 3` name the threads of such a list. -/

instance (priority := 2000) neZeroOne : @NeZero Nat Zero.ofOfNat0 1 := ⟨Nat.succ_ne_zero 0⟩

instance (priority := 2000) neZeroTwo : @NeZero Nat Zero.ofOfNat0 2 := ⟨Nat.succ_ne_zero 1⟩

instance (priority := 2000) neZeroThree : @NeZero Nat Zero.ofOfNat0 3 := ⟨Nat.succ_ne_zero 2⟩

/-- Take the actions in order; `none` when one is not enabled or fails the check. -/
def exec (M : System σ α) (check : σ → α → Bool) : σ → List α → Option σ
  | s, [] => some s
  | s, a :: as => if check s a then (M.step s a).bind (exec M check · as) else none

theorem exec_nil (M : System σ α) (check : σ → α → Bool) (s : σ) : exec M check s [] = some s := rfl

/-- As a match: `simp` runs the actions in their order, and no action before its state is known. -/
theorem exec_cons (M : System σ α) (check : σ → α → Bool) (s : σ) (a : α) (as : List α) :
    exec M check s (a :: as) = if check s a then
      match M.step s a with
      | some s' => exec M check s' as
      | none => none
    else none := by
  rw [exec]
  cases M.step s a <;> rfl

/-- Every state that checked actions lead to from a reachable state is reachable. -/
theorem Reach.exec {check : σ → α → Bool} (hc : ∀ s a, check s a = true → ok s a) {s s' : σ}
    {as : List α} (r : Reach M ok s) (h : exec M check s as = some s') : Reach M ok s' := by
  induction as generalizing s with
  | nil => simp only [Transition.exec, Option.some.injEq] at h; exact h ▸ r
  | cons a as ih =>
    simp only [Transition.exec] at h
    split at h
    · rename_i ha
      cases hs : M.step s a with
      | none => simp [hs] at h
      | some s₁ =>
        rw [hs, Option.bind_some] at h
        exact ih (r.step (hc _ _ ha) hs) h
    · cases h

/-- A list of actions that ends in a state where `p` holds, found by evaluation. -/
theorem Reach.of_exec (M : System σ α) (as : List α) (p : σ → Bool) {check : σ → α → Bool}
    (hc : ∀ s a, check s a = true → ok s a) {s : σ} (hs : M.init s)
    (h : (Transition.exec M check s as).any p = true) : ∃ s', Reach M ok s' ∧ p s' = true := by
  cases he : Transition.exec M check s as with
  | none => simp [he] at h
  | some s' => exact ⟨s', (Reach.init hs).exec hc he, by simpa [he] using h⟩

/-- The check that lets every action through. -/
def noCheck : σ → α → Bool := fun _ _ => true

/-- The same without a restriction on the steps. -/
theorem Reach.of_exec_any (M : System σ α) (as : List α) (p : σ → Bool) {s : σ} (hs : M.init s)
    (h : (Transition.exec M noCheck s as).any p = true) : ∃ s', Reach M anyStep s' ∧ p s' = true :=
  Reach.of_exec M as p (fun _ _ _ => trivial) hs h

end Transition
