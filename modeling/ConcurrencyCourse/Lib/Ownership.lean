import Mathlib.Logic.Basic

/-!
# What goes when a reference goes

Objects hold references to objects. When references are counted, and some of them are dropped, an object goes
as soon as every reference to it that is kept is inside of an object that has gone. `Dies` is the least such
set: objects that refer to each other in a circle stay.

`ref l` is what the place `l` refers to, `inside l` the object that `l` is a part of, `Kept l` says that the
reference at `l` is not one of those dropped.
-/

namespace Ownership

universe u v

variable {L : Type u} {B : Type v}

/-- The place is inside of an object that goes. -/
inductive Lost (ref inside : L → Option B) (Kept : L → Prop) : L → Prop where
  | intro (l : L) (d : B) (hd : inside l = some d)
    (h : ∀ l', Kept l' → ref l' = some d → Lost ref inside Kept l') : Lost ref inside Kept l

/-- The object goes. -/
def Dies (ref inside : L → Option B) (Kept : L → Prop) (c : B) : Prop :=
  ∀ l, Kept l → ref l = some c → Lost ref inside Kept l

variable {ref ref' inside : L → Option B} {Kept Kept' : L → Prop} {l : L} {c : B}

theorem lost_iff : Lost ref inside Kept l ↔ ∃ d, inside l = some d ∧ Dies ref inside Kept d := by
  constructor
  · rintro ⟨_, d, hd, h⟩
    exact ⟨d, hd, h⟩
  · rintro ⟨d, hd, h⟩
    exact .intro l d hd h

theorem not_lost_of_outside (h : inside l = none) : ¬ Lost ref inside Kept l := by
  rintro ⟨_, d, hd, -⟩
  rw [h] at hd
  cases hd

/-- A set of places that holds all places inside of objects that go, when it holds them by one step. -/
theorem Lost.rule {P : L → Prop}
    (h : ∀ l d, inside l = some d → (∀ l', Kept l' → ref l' = some d → P l') → P l)
    (hl : Lost ref inside Kept l) : P l := by
  induction hl with
  | intro l d hd _ ih => exact h l d hd ih

/-- With other references the same goes, and maybe more, when what they keep is kept by the first ones. -/
theorem Lost.mono (h : ∀ l c, Kept' l → ref' l = some c → Lost ref' inside Kept' l ∨
      ∃ l₁, Kept l₁ ∧ ref l₁ = some c ∧ (Lost ref' inside Kept' l₁ → Lost ref' inside Kept' l))
    (hl : Lost ref inside Kept l) : Lost ref' inside Kept' l := by
  refine hl.rule fun l d hd ih => .intro l d hd fun l' hk hl' => ?_
  rcases h l' d hk hl' with hlost | ⟨l₁, hk₁, hl₁, himp⟩
  · exact hlost
  · exact himp (ih l₁ hk₁ hl₁)

end Ownership
