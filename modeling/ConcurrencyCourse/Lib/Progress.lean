import ConcurrencyCourse.Lib.Transition
import Mathlib.Algebra.Order.BigOperators.Group.Finset
import Mathlib.Data.Fintype.BigOperators
import Mathlib.Order.WellFounded
import Mathlib.Data.Prod.Lex

/-!
# Lock-freedom

Threads that retry a CAS are lock-free when somebody completes an operation again and again, whoever takes the steps:
the one who fails may fail forever, but only because the others do not.

* `Infinite`: an infinite run. No fairness is assumed.
* `LockFree done fails`: when only finitely many steps are failures of the environment (`fails`: a weak CAS that fails
  although the values are equal), infinitely many steps satisfy `done`.
* `Potential`: how to prove it. A step that neither completes an operation nor fails lowers what is left to do to the
  shared words (`shared`), after which every thread may have to begin again; or it leaves that alone, brings its own
  thread nearer to its CAS (`rank`) and sets no other thread back.
* `Infinite.of_rounds`, `Infinite.repeat`: how to disprove it, by actions that lead to where they began.
-/

namespace Transition

universe u v

variable {σ : Type u} {α : Type v} {M : System σ α}

/-- What follows a reachable state in an infinite run. -/
structure Infinite (M : System σ α) where
  state : ℕ → σ
  act : ℕ → α
  start : Reach M anyStep (state 0)
  step : ∀ n, M.step (state n) (act n) = some (state (n + 1))

theorem Infinite.reach (r : Infinite M) (n : ℕ) : Reach M anyStep (r.state n) := by
  induction n with
  | zero => exact r.start
  | succ n ih => exact ih.step trivial (r.step n)

/-- In every infinite run with finitely many failures of the environment, infinitely many steps are `done`. -/
def LockFree (M : System σ α) (done fails : σ → α → Prop) : Prop :=
  ∀ r : Infinite M, (∃ n, ∀ m, n ≤ m → ¬ fails (r.state m) (r.act m)) →
    ∀ n, ∃ m, n ≤ m ∧ done (r.state m) (r.act m)

/-- What the steps that satisfy `quiet` use up. -/
structure Potential (M : System σ α) (quiet : σ → α → Prop) (ι : Type*) where
  shared : σ → ℕ
  rank : σ → ι → ℕ
  step : ∀ s a s', Reach M anyStep s → quiet s a → M.step s a = some s' → shared s' < shared s ∨
    shared s' = shared s ∧ ∃ i, rank s' i < rank s i ∧ ∀ j, j ≠ i → rank s' j ≤ rank s j

namespace Potential

variable {quiet : σ → α → Prop} {ι : Type*} [Fintype ι]

/-- The ranks count only while nothing happens to the shared words. -/
def total (p : Potential M quiet ι) (s : σ) : ℕ ×ₗ ℕ := toLex (p.shared s, ∑ i, p.rank s i)

theorem total_lt (p : Potential M quiet ι) {s s' : σ} {a : α} (r : Reach M anyStep s) (hq : quiet s a)
    (hs : M.step s a = some s') : p.total s' < p.total s := by
  refine Prod.Lex.toLex_lt_toLex.2 ?_
  rcases p.step s a s' r hq hs with h | ⟨h, i, hi, hothers⟩
  · exact .inl h
  · refine .inr ⟨h, Finset.sum_lt_sum (fun j _ => ?_) ⟨i, Finset.mem_univ i, hi⟩⟩
    rcases eq_or_ne j i with rfl | hj
    · exact hi.le
    · exact hothers j hj

theorem lockFree {done fails : σ → α → Prop} (p : Potential M (fun s a => ¬ done s a ∧ ¬ fails s a) ι) :
    LockFree M done fails := by
  rintro r ⟨n₀, hfails⟩ n
  by_contra hdone
  -- from `max n n₀` on every step is quiet
  have hlt : ∀ k, p.total (r.state (max n n₀ + (k + 1))) < p.total (r.state (max n n₀ + k)) := by
    intro k
    have hn : n ≤ max n n₀ + k := (le_max_left ..).trans (Nat.le_add_right ..)
    have hn₀ : n₀ ≤ max n n₀ + k := (le_max_right ..).trans (Nat.le_add_right ..)
    exact p.total_lt (r.reach _) ⟨fun h => hdone ⟨_, hn, h⟩, hfails _ hn₀⟩ (r.step _)
  obtain ⟨k, hk⟩ := WellFounded.not_rel_apply_succ (r := (· < ·)) fun k => p.total (r.state (max n n₀ + k))
  exact hk (hlt k)

end Potential

/-! ### Runs whose steps satisfy a condition -/

open Classical in
/-- The steps of `M` that satisfy `ok`. -/
noncomputable def System.restrict (M : System σ α) (ok : σ → α → Prop) : System σ α :=
  ⟨M.init, fun s a => if ok s a then M.step s a else none⟩

section restrict

variable {ok : σ → α → Prop} {s : σ}

theorem reach_restrict : Reach (M.restrict ok) anyStep s ↔ Reach M ok s := by
  constructor
  · rintro ⟨h, r⟩
    induction r with
    | init h0 => exact .init h0
    | @step h s s' a _ _ hs ih =>
      by_cases hok : ok s a
      · exact ih.step hok ((if_pos hok).symm.trans hs)
      · cases (if_neg hok).symm.trans hs
  · rintro ⟨h, r⟩
    induction r with
    | init h0 => exact .init h0
    | step _ hok hs ih => exact ih.step trivial ((if_pos hok).trans hs)

/-- An infinite run whose steps satisfy `ok`. -/
def Infinite.restrict (r : Infinite M) (h0 : Reach M ok (r.state 0)) (h : ∀ n, ok (r.state n) (r.act n)) :
    Infinite (M.restrict ok) where
  state := r.state
  act := r.act
  start := reach_restrict.2 h0
  step n := (if_pos (h n)).trans (r.step n)

end restrict

/-! ### Runs in a circle -/

theorem exec_append {check : σ → α → Bool} (s : σ) (as bs : List α) :
    exec M check s (as ++ bs) = (exec M check s as).bind (exec M check · bs) := by
  induction as generalizing s with
  | nil => rfl
  | cons a as ih =>
    rw [List.cons_append, exec_cons, exec_cons]
    split
    · cases M.step s a with
      | none => rfl
      | some s' => exact ih s'
    · rfl

theorem exec_step {check : σ → α → Bool} {s s' : σ} {a : α} {as : List α} (hc : check s a = true)
    (hs : M.step s a = some s') : exec M check s (a :: as) = exec M check s' as := by
  rw [exec_cons, if_pos hc, hs]

theorem exec_noCheck {check : σ → α → Bool} {s s' : σ} {as : List α} (h : exec M check s as = some s') :
    exec M noCheck s as = some s' := by
  induction as generalizing s with
  | nil => exact h
  | cons a as ih =>
    rw [exec_cons] at h ⊢
    simp only [noCheck, if_true]
    split at h
    · cases hs : M.step s a with
      | none =>
        rw [hs] at h
        cases h
      | some s₁ =>
        rw [hs] at h
        exact ih h
    · cases h

/-- One after the other, when each of them leads back. -/
theorem exec_flatMap {check : σ → α → Bool} {s : σ} {β : Type*} {l : List β} {f : β → List α}
    (h : ∀ b ∈ l, exec M check s (f b) = some s) : exec M check s (l.flatMap f) = some s := by
  induction l with
  | nil => rfl
  | cons b l ih =>
    rw [List.flatMap_cons, exec_append, h b List.mem_cons_self]
    exact ih fun b' hb' => h b' (List.mem_cons_of_mem _ hb')

section rounds

variable {check : σ → α → Bool} {P Q I : σ → Prop} {s s₁ : σ} {a : α}

/-- Some actions, at least one, lead from `s` to `P`. -/
def Leads (M : System σ α) (check : σ → α → Bool) (s : σ) (P : σ → Prop) : Prop :=
  ∃ as s', as ≠ [] ∧ exec M check s as = some s' ∧ P s'

theorem Leads.one (hc : check s a = true) (hs : M.step s a = some s₁) (hP : P s₁) : Leads M check s P :=
  ⟨[a], s₁, List.cons_ne_nil _ _, by rw [exec_step hc hs, exec_nil], hP⟩

theorem Leads.trans (h : Leads M check s P) (hPQ : ∀ s', P s' → Leads M check s' Q) : Leads M check s Q := by
  obtain ⟨as, s', hne, hs, hP⟩ := h
  obtain ⟨bs, s'', -, hs', hQ⟩ := hPQ s' hP
  exact ⟨as ++ bs, s'', by simp [hne], by rw [exec_append, hs, Option.bind_some, hs'], hQ⟩

theorem Leads.mono (h : Leads M check s P) (hPQ : ∀ s', P s' → Q s') : Leads M check s Q := by
  obtain ⟨as, s', hne, hs, hP⟩ := h
  exact ⟨as, s', hne, hs, hPQ s' hP⟩

/-- In the middle of a round: what is left of it. -/
structure Round (M : System σ α) (check : σ → α → Bool) (I : σ → Prop) where
  state : σ
  rest : List α
  ne : rest ≠ []
  ends : ∃ s', exec M check state rest = some s' ∧ I s'

theorem Round.next (hI : ∀ s, I s → Leads M check s I) (p : Round M check I) :
    ∃ (q : Round M check I) (a : α), check p.state a = true ∧ M.step p.state a = some q.state := by
  obtain ⟨s, rest, hne, s', hs, hs'⟩ := p
  cases rest with
  | nil => exact absurd rfl hne
  | cons a rest =>
    rw [exec_cons] at hs
    by_cases hc : check s a = true
    · rw [if_pos hc] at hs
      cases hst : M.step s a with
      | none =>
        rw [hst] at hs
        cases hs
      | some s₁ =>
        rw [hst] at hs
        by_cases hrest : rest = []
        · -- the round is over
          subst hrest
          obtain rfl := Option.some.inj hs
          obtain ⟨as, s₂, has, hexec, hs₂⟩ := hI s₁ hs'
          exact ⟨⟨s₁, as, has, s₂, hexec, hs₂⟩, a, hc, hst⟩
        · exact ⟨⟨s₁, rest, hrest, s', hs, hs'⟩, a, hc, hst⟩
    · rw [if_neg hc] at hs
      cases hs

/-- Rounds that can follow one another forever. -/
theorem Infinite.of_rounds (hI : ∀ s, I s → Leads M check s I) (r : Reach M anyStep s) (hs : I s) :
    ∃ r : Infinite M, r.state 0 = s ∧ ∀ n, check (r.state n) (r.act n) = true := by
  obtain ⟨as, s', has, hexec, hs'⟩ := hI s hs
  choose next act hnext using Round.next hI
  let start : Round M check I := ⟨s, as, has, s', hexec, hs'⟩
  refine ⟨⟨fun n => (next^[n] start).state, fun n => act (next^[n] start), r, fun n => ?_⟩, rfl, fun n => (hnext _).1⟩
  rw [Function.iterate_succ_apply']
  exact (hnext _).2

end rounds

section cycle

variable {s : σ} {as : List α}

/-- The state after the first `n` actions of a list that is repeated. -/
def around (M : System σ α) (s : σ) (as : List α) (n : ℕ) : σ := (exec M noCheck s (as.take (n % as.length))).getD s

/-- Actions that lead from `s` back to `s` are all enabled, one after the other. -/
theorem around_step (h : exec M noCheck s as = some s) (hpos : 0 < as.length) (n : ℕ) :
    ∃ hk : n % as.length < as.length, M.step (around M s as n) as[n % as.length] = some (around M s as (n + 1)) := by
  have hk : n % as.length < as.length := Nat.mod_lt _ hpos
  refine ⟨hk, ?_⟩
  generalize hkn : n % as.length = k at hk
  -- the list is what was done so far, the next action, and the rest
  have hsplit : as.take k ++ as[k] :: as.drop (k + 1) = as := by
    rw [List.getElem_cons_drop, List.take_append_drop]
  have hprefix : (exec M noCheck s (as.take k)).bind (exec M noCheck · (as[k] :: as.drop (k + 1))) = some s := by
    rw [← exec_append, hsplit, h]
  obtain ⟨t, ht, hrest⟩ := Option.bind_eq_some_iff.1 hprefix
  have ht' : around M s as n = t := by rw [around, hkn, ht, Option.getD_some]
  rw [exec_cons] at hrest
  simp only [noCheck, if_true] at hrest
  cases hst : M.step t as[k] with
  | none =>
    rw [hst] at hrest
    cases hrest
  | some t' =>
    rw [ht', hst]
    have hone : exec M noCheck s (as.take k ++ [as[k]]) = some t' := by
      rw [exec_append, ht, Option.bind_some, exec_cons]
      simp only [noCheck, if_true, hst, exec_nil]
    rw [List.take_concat_get' _ _ hk] at hone
    rcases Nat.lt_or_ge (k + 1) as.length with hlt | hge
    · have hmod : (n + 1) % as.length = k + 1 := by rw [← Nat.mod_add_mod, hkn, Nat.mod_eq_of_lt hlt]
      rw [around, hmod, hone, Option.getD_some]
    · -- once around
      have hlast : k + 1 = as.length := Nat.le_antisymm hk hge
      have hmod : (n + 1) % as.length = 0 := by rw [← Nat.mod_add_mod, hkn, hlast, Nat.mod_self]
      rw [List.take_of_length_le hge, h] at hone
      rw [around, hmod, List.take_zero, exec_nil, Option.getD_some, Option.some.inj hone]

/-- The actions also pass their check every time around. -/
theorem around_check {check : σ → α → Bool} (h : exec M check s as = some s) {n : ℕ} {a : α}
    (ha : as[n % as.length]? = some a) : check (around M s as n) a = true := by
  obtain ⟨hk, rfl⟩ := List.getElem?_eq_some_iff.1 ha
  have hsplit : as.take (n % as.length) ++ as[n % as.length] :: as.drop (n % as.length + 1) = as := by
    rw [List.getElem_cons_drop, List.take_append_drop]
  have hprefix : (exec M check s (as.take (n % as.length))).bind
      (exec M check · (as[n % as.length] :: as.drop (n % as.length + 1))) = some s := by
    rw [← exec_append, hsplit, h]
  obtain ⟨t, ht, hrest⟩ := Option.bind_eq_some_iff.1 hprefix
  rw [around, exec_noCheck ht, Option.getD_some]
  rw [exec_cons] at hrest
  by_contra hc
  rw [if_neg hc] at hrest
  cases hrest

/-- Repeating such actions is an infinite run. -/
def Infinite.repeat (r : Reach M anyStep s) (h : exec M noCheck s as = some s) (hpos : 0 < as.length) : Infinite M where
  state := around M s as
  act n := as.get ⟨n % as.length, Nat.mod_lt _ hpos⟩
  start := by rwa [around, Nat.zero_mod, List.take_zero, exec_nil, Option.getD_some]
  step n := (around_step h hpos n).2

theorem Infinite.repeat_zero (r : Reach M anyStep s) (h : exec M noCheck s as = some s) (hpos : 0 < as.length) :
    (Infinite.repeat r h hpos).state 0 = s := by
  change around M s as 0 = s
  rw [around, Nat.zero_mod, List.take_zero, exec_nil, Option.getD_some]

/-- Every one of the actions is taken again and again. -/
theorem Infinite.repeat_often (r : Reach M anyStep s) (h : exec M noCheck s as = some s) (hpos : 0 < as.length) {a : α}
    (ha : a ∈ as) (n : ℕ) : ∃ m, n ≤ m ∧ (Infinite.repeat r h hpos).act m = a := by
  obtain ⟨k, hk, rfl⟩ := List.getElem_of_mem ha
  refine ⟨n * as.length + k, (Nat.le_mul_of_pos_right n hpos).trans (Nat.le_add_right ..), ?_⟩
  have hmod : (n * as.length + k) % as.length = k := by rw [Nat.mul_add_mod', Nat.mod_eq_of_lt hk]
  exact congrArg as.get (Fin.ext hmod)

end cycle

end Transition
