import ConcurrencyCourse.Lib.Transition
import Mathlib.Data.List.Basic

/-!
# Critical sections one after the other

A lock, as far as critical sections are concerned: which thread an action belongs to, and which threads are inside
(`Exclusion`). Accesses that are made inside are numbered by critical sections, in the order in which these began; when
the numbers never fall, the accesses are those of the first section, then those of the second one, and so on
(`eq_flatMap_filter`), and what they do to a value is what the sections do one after the other (`foldl_sections`).
-/

namespace Serial

open Transition

universe u v w

/-- A lock: only the thread that acts enters or leaves, and one at most is inside. -/
structure Exclusion {σ : Type u} {α : Type v} (M : System σ α) (ι : Type w) where
  thread : α → ι
  inside : σ → ι → Bool
  outside : ∀ s, M.init s → ∀ i, inside s i = false
  own : ∀ s a s', M.step s a = some s' → ∀ j, j ≠ thread a → inside s' j = inside s j
  exclusive : ∀ s, Reach M anyStep s → ∀ i j, inside s i = true → inside s j = true → i = j

section sections

variable {α : Type u} {β : Type v} {key : α → Nat} {l : List α} {n : Nat}

theorem eq_filter_append_filter (h : l.Pairwise fun a b => key a ≤ key b) (n : Nat) :
    l = l.filter (key · < n) ++ l.filter (n ≤ key ·) := by
  induction l with
  | nil => rfl
  | cons a l ih =>
    obtain ⟨ha, hl⟩ := List.pairwise_cons.1 h
    rcases Nat.lt_or_ge (key a) n with hlt | hge
    · have hin : decide (key a < n) = true := decide_eq_true hlt
      have hout : decide (n ≤ key a) = false := decide_eq_false (Nat.not_le.2 hlt)
      simp only [List.filter_cons, hin, hout, if_true, Bool.false_eq_true, if_false, List.cons_append]
      exact congrArg (a :: ·) (ih hl)
    · -- nothing is below `n` from here on
      have hnone : (a :: l).filter (key · < n) = [] := by
        refine List.filter_eq_nil_iff.2 fun b hb hlt => ?_
        have hlt := of_decide_eq_true hlt
        rcases List.mem_cons.1 hb with rfl | hb
        · omega
        · have := ha b hb
          omega
      have hall : (a :: l).filter (n ≤ key ·) = a :: l := by
        refine List.filter_eq_self.2 fun b hb => decide_eq_true ?_
        rcases List.mem_cons.1 hb with rfl | hb
        · exact hge
        · exact Nat.le_trans hge (ha b hb)
      rw [hnone, hall, List.nil_append]

/-- A list whose keys do not fall is the first part, then the second one, and so on. -/
theorem eq_flatMap_filter (h : l.Pairwise fun a b => key a ≤ key b) (hn : ∀ a ∈ l, key a < n) :
    l = (List.range n).flatMap fun k => l.filter (key · = k) := by
  induction n generalizing l with
  | zero =>
    cases l with
    | nil => rfl
    | cons a l => exact absurd (hn a List.mem_cons_self) (Nat.not_lt_zero _)
  | succ n ih =>
    have hlow := ih (h.filter (key · < n)) fun a ha => of_decide_eq_true (List.mem_filter.1 ha).2
    have hhigh : l.filter (n ≤ key ·) = l.filter (key · = n) := by
      refine List.filter_congr fun a ha => decide_eq_decide.2 ?_
      have := hn a ha
      omega
    have hparts : ((List.range n).flatMap fun k => (l.filter (key · < n)).filter (key · = k)) =
        (List.range n).flatMap fun k => l.filter (key · = k) := by
      refine List.flatMap_congr fun k hk => ?_
      rw [List.filter_filter]
      refine List.filter_congr fun a _ => ?_
      have hk := List.mem_range.1 hk
      rw [← Bool.decide_and]
      refine decide_eq_decide.2 ?_
      omega
    rw [hparts] at hlow
    rw [List.range_succ, List.flatMap_append, ← hlow, List.flatMap_singleton, ← hhigh]
    exact eq_filter_append_filter h n

/-- What the accesses do, one section after the other. -/
theorem foldl_sections {f : β → α → β} (h : l.Pairwise fun a b => key a ≤ key b) (hn : ∀ a ∈ l, key a < n) (b : β) :
    l.foldl f b = (List.range n).foldl (fun b k => (l.filter (key · = k)).foldl f b) b := by
  conv_lhs => rw [eq_flatMap_filter h hn]
  rw [List.foldl_flatMap]

end sections

end Serial
