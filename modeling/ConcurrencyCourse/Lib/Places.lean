import Mathlib.Logic.Basic
import Mathlib.Data.Option.Basic

/-!
# Tokens and places

`At x p` says that the token `x` is at the place `p`. A step takes at most one token from one place to
another; `none` as the place it comes from is a new token, `none` as the place it goes to one that is gone.
-/

namespace Places

universe u v

variable {α : Type u} {π : Type v} {At At' : α → π → Prop} {x y : α} {p q : Option π}

/-- No token is at two places. -/
def Exclusive (At : α → π → Prop) : Prop := ∀ x p q, At x p → At x q → p = q

/-- `x` goes from `p` to `q`, and nothing else moves. -/
def Moves (At At' : α → π → Prop) (x : α) (p q : Option π) : Prop :=
  ∀ y r, At' y r ↔ (At y r ∧ ¬ (y = x ∧ p = some r)) ∨ (y = x ∧ q = some r)

/-- `x` is at `p`, or nowhere when it is new. -/
def From (At : α → π → Prop) (x : α) : Option π → Prop
  | some p => At x p
  | none => ∀ p, ¬ At x p

theorem Moves.other (h : Moves At At' x p q) (hy : y ≠ x) (r : π) : At' y r ↔ At y r := by
  rw [h y r]
  constructor
  · rintro (⟨hr, -⟩ | ⟨rfl, -⟩)
    · exact hr
    · exact absurd rfl hy
  · intro hr
    exact .inl ⟨hr, fun hx => hy hx.1⟩

theorem Moves.self (h : Moves At At' x p q) (he : Exclusive At) (hp : From At x p) (r : π) :
    At' x r ↔ q = some r := by
  rw [h x r]
  constructor
  · rintro (⟨hr, hne⟩ | ⟨-, hq⟩)
    · cases p with
      | none => exact absurd hr (hp r)
      | some p => exact absurd ⟨rfl, congrArg some (he x p r hp hr)⟩ hne
    · exact hq
  · intro hq
    exact .inr ⟨rfl, hq⟩

/-- A token that stays where it is. -/
theorem Moves.stay {r : π} (h : ∀ y r, At' y r ↔ At y r) (hr : At x r) : Moves At At' x (some r) (some r) := by
  intro y r'
  rw [h y r']
  constructor
  · intro hy
    by_cases heq : y = x ∧ some r = some r'
    · exact .inr heq
    · exact .inl ⟨hy, heq⟩
  · rintro (⟨hy, -⟩ | ⟨rfl, heq⟩)
    · exact hy
    · exact Option.some.inj heq ▸ hr

theorem Exclusive.moves (he : Exclusive At) (h : Moves At At' x p q) (hp : From At x p) :
    Exclusive At' := by
  intro y r r' hr hr'
  by_cases hy : y = x
  · subst hy
    rw [h.self he hp] at hr hr'
    exact Option.some.inj (hr.symm.trans hr')
  · rw [h.other hy] at hr hr'
    exact he y r r' hr hr'

end Places
