import Mathlib.Algebra.BigOperators.Group.Finset.Basic
import Mathlib.Data.Fintype.BigOperators
import Mathlib.Algebra.Order.BigOperators.Group.Finset

/-!
# Counting over threads

The local states of the threads are a function `l : ι → β`. A step of thread `i` replaces
`l i` by `x` (`Function.update l i x`), and the invariants count what the threads hold:
`∑ j, f (l j)`. One step changes such a count by `f x - f (l i)`.
-/

namespace Threads

open Finset Function

variable {ι : Type*} [Fintype ι] [DecidableEq ι] {β : Type*} {M : Type*}

omit [Fintype ι] in
/-- Replacing one of the values that are counted, in any commutative monoid. -/
theorem sum_update_add_of_mem [AddCommMonoid M] {s : Finset ι} (f : β → M) (l : ι → β) {i : ι}
    (hi : i ∈ s) (x : β) :
    (∑ j ∈ s, f (update l i x j)) + f (l i) = (∑ j ∈ s, f (l j)) + f x := by
  have h : ∀ j, f (update l i x j) = update (fun j => f (l j)) i (f x) j :=
    fun j => apply_update (fun _ => f) l i x j
  simp only [h]
  rw [sum_update_of_mem hi, sdiff_singleton_eq_erase,
    ← add_sum_erase s (fun j => f (l j)) hi]
  ac_rfl

/-- A step of thread `i`. -/
theorem sum_update_add [AddCommMonoid M] (f : β → M) (l : ι → β) (i : ι) (x : β) :
    (∑ j, f (update l i x j)) + f (l i) = (∑ j, f (l j)) + f x :=
  sum_update_add_of_mem f l (mem_univ i) x

/-- A step of thread `i` that changes its count by `d`. -/
theorem sum_update_of_eq [AddCommGroup M] (f : β → M) (l : ι → β) (i : ι) (x : β) (d : M)
    (h : f x = f (l i) + d) : ∑ j, f (update l i x j) = (∑ j, f (l j)) + d := by
  have := sum_update_add f l i x
  rw [h, ← add_assoc, add_right_comm] at this
  exact add_right_cancel this

/-- A step that leaves the count of thread `i` alone leaves the total alone. -/
theorem sum_update_same [AddCommMonoid M] (f : β → M) (l : ι → β) (i : ι) (x : β)
    (h : f x = f (l i)) : ∑ j, f (update l i x j) = ∑ j, f (l j) := by
  refine sum_congr rfl fun j _ => ?_
  by_cases hj : j = i
  · subst hj; rw [update_self, h]
  · rw [update_of_ne hj]

/-- Two threads' counts, next to each other, are below the total. -/
theorem add_le_sum (f : ι → ℕ) {i j : ι} (h : i ≠ j) : f i + f j ≤ ∑ k, f k := by
  have h2 : ∑ k ∈ ({i, j} : Finset ι), f k = f i + f j := sum_pair h
  rw [← h2]
  exact sum_le_sum_of_subset (subset_univ _)

omit [DecidableEq ι] in
theorem le_sum (f : ι → ℕ) (i : ι) : f i ≤ ∑ k, f k :=
  single_le_sum (fun _ _ => Nat.zero_le _) (mem_univ i)

/-! ### How many threads are there -/

section count

variable {p : β → Prop} [DecidablePred p] {l : ι → β} {i : ι} {x : β}

omit [DecidableEq ι] in
variable (p l) in
/-- The number of threads with such a local state. -/
def count : ℕ := ∑ j, if p (l j) then 1 else 0

theorem count_update_add : count p (update l i x) + (if p (l i) then 1 else 0) =
    count p l + if p x then 1 else 0 :=
  sum_update_add (fun y => if p y then 1 else 0) l i x

theorem count_update_same (h : p x ↔ p (l i)) : count p (update l i x) = count p l :=
  sum_update_same (fun y => if p y then 1 else 0) l i x (if_congr h rfl rfl)

theorem count_update_enter (hi : ¬ p (l i)) (hx : p x) : count p (update l i x) = count p l + 1 := by
  have h := count_update_add (p := p) (l := l) (i := i) (x := x)
  rwa [if_neg hi, if_pos hx, add_zero] at h

theorem count_update_leave (hi : p (l i)) (hx : ¬ p x) : count p (update l i x) + 1 = count p l := by
  have h := count_update_add (p := p) (l := l) (i := i) (x := x)
  rwa [if_pos hi, if_neg hx, add_zero] at h

/-- The same for a test, in one equation. -/
theorem count_toNat (f : β → Bool) : count (fun y => f y = true) (update l i x) + (f (l i)).toNat =
    count (fun y => f y = true) l + (f x).toNat := by
  have h := count_update_add (p := fun y => f y = true) (l := l) (i := i) (x := x)
  have hn : ∀ b : Bool, (if b = true then 1 else 0) = b.toNat := by decide
  rwa [hn, hn] at h

omit [DecidableEq ι]

theorem count_congr {q : β → Prop} [DecidablePred q] {l' : ι → β} (h : ∀ j, q (l' j) ↔ p (l j)) :
    count q l' = count p l :=
  sum_congr rfl fun j _ => if_congr (h j) rfl rfl

theorem count_eq_card_filter : count p l = #{j | p (l j)} := (card_filter _ _).symm

theorem count_le_card : count p l ≤ Fintype.card ι := by
  rw [count_eq_card_filter]
  exact card_le_univ _

theorem count_eq_zero : count p l = 0 ↔ ∀ j, ¬ p (l j) := by
  rw [count_eq_card_filter, card_eq_zero, filter_eq_empty_iff]
  exact ⟨fun h j => h (mem_univ j), fun h j _ => h j⟩

theorem count_pos (h : p (l i)) : 0 < count p l :=
  Nat.pos_of_ne_zero fun h0 => count_eq_zero.1 h0 i h

theorem count_eq_card : count p l = Fintype.card ι ↔ ∀ j, p (l j) := by
  rw [count_eq_card_filter, ← card_univ, card_filter_eq_iff]
  exact ⟨fun h j => h j (mem_univ j), fun h j _ => h j⟩

theorem count_lt_card (h : ¬ p (l i)) : count p l < Fintype.card ι :=
  lt_of_le_of_ne count_le_card fun he => h (count_eq_card.1 he i)

/-- Two kinds of threads that are both of a third kind, and that no thread is of both. -/
theorem count_add_le {q r : β → Prop} [DecidablePred q] [DecidablePred r] (hp : ∀ y, p y → r y)
    (hq : ∀ y, q y → r y) (hpq : ∀ y, p y → ¬ q y) : count p l + count q l ≤ count r l := by
  unfold count
  rw [← sum_add_distrib]
  refine sum_le_sum fun j _ => ?_
  by_cases h1 : p (l j)
  · rw [if_pos h1, if_neg (hpq _ h1), if_pos (hp _ h1)]
  · rw [if_neg h1, zero_add]
    split
    · next h2 => rw [if_pos (hq _ h2)]
    · exact Nat.zero_le _

/-- At most one thread. -/
theorem count_unique (h : count p l ≤ 1) {j : ι} (hi : p (l i)) (hj : p (l j)) : i = j := by
  classical
  by_contra hne
  have h2 : _ ≤ count p l := add_le_sum (fun j => if p (l j) then 1 else 0) hne
  rw [if_pos hi, if_pos hj] at h2
  omega

end count

/-! ### What at most one thread holds -/

omit [Fintype ι]

/-- No two threads hold the same: `f` is what a thread with this local state holds. -/
def Unique {α : Type*} (f : β → Option α) (l : ι → β) : Prop :=
  ∀ i j a, f (l i) = some a → f (l j) = some a → i = j

/-- A step of thread `i` that does not take what another thread holds. -/
theorem Unique.update {α : Type*} {f : β → Option α} {l : ι → β} (h : Unique f l) {i : ι} {x : β}
    (hx : ∀ j a, j ≠ i → f (l j) = some a → f x ≠ some a) : Unique f (Function.update l i x) := by
  intro j k a hj hk
  rcases eq_or_ne j i with rfl | hji
  · rcases eq_or_ne k j with hkj | hkj
    · exact hkj.symm
    · rw [update_self] at hj
      rw [update_of_ne hkj] at hk
      exact absurd hj (hx k a hkj hk)
  · rw [update_of_ne hji] at hj
    rcases eq_or_ne k i with rfl | hki
    · rw [update_self] at hk
      exact absurd hk (hx j a hji hj)
    · rw [update_of_ne hki] at hk
      exact h j k a hj hk

end Threads
