import ConcurrencyCourse.Lib.Threads
import Mathlib.Data.List.Nodup

/-!
# Numbered things, each in somebody's hands or counted

Things get the numbers `0, 1, 2, …` when threads take them. A thread holds at most one of them (`l i`), and hands it
in: then it is in the list `done`. `Tally` says that every number is with at most one thread, or in the list once.
-/

namespace Threads

open Function

variable {ι : Type*} [DecidableEq ι]

/-- The numbers below `bound` are taken. -/
structure Tally (l : ι → Option ℕ) (done : List ℕ) (bound : ℕ) : Prop where
  nodup : done.Nodup
  lt : ∀ p ∈ done, p < bound
  held : ∀ i p, l i = some p → p < bound ∧ p ∉ done
  unique : Unique id l

variable {l : ι → Option ℕ} {done : List ℕ} {bound : ℕ} {i : ι} {p : ℕ}

omit [DecidableEq ι] in
theorem Tally.empty : Tally (fun _ : ι => none) [] bound :=
  ⟨List.nodup_nil, nofun, nofun, nofun⟩

/-- Thread `i` takes the next number. -/
theorem Tally.take (h : Tally l done bound) : Tally (update l i (some bound)) done (bound + 1) := by
  refine ⟨h.nodup, fun p hp => Nat.lt_succ_of_lt (h.lt p hp), fun j p hj => ?_, h.unique.update fun j p _ hj hp => ?_⟩
  · rcases eq_or_ne j i with rfl | hji
    · rw [update_self] at hj
      obtain rfl := Option.some.inj hj
      exact ⟨Nat.lt_succ_self _, fun hp => Nat.lt_irrefl _ (h.lt _ hp)⟩
    · rw [update_of_ne hji] at hj
      obtain ⟨hlt, hnot⟩ := h.held j p hj
      exact ⟨Nat.lt_succ_of_lt hlt, hnot⟩
  · obtain rfl := Option.some.inj hp
    exact Nat.lt_irrefl _ (h.held j _ hj).1

/-- Thread `i` hands in what it holds. -/
theorem Tally.hand (h : Tally l done bound) (hi : l i = some p) : Tally (update l i none) (p :: done) bound := by
  refine ⟨List.nodup_cons.2 ⟨(h.held i p hi).2, h.nodup⟩, fun q hq => ?_, fun j q hj => ?_,
    h.unique.update fun _ _ _ _ => nofun⟩
  · rcases List.mem_cons.1 hq with rfl | hq
    · exact (h.held i q hi).1
    · exact h.lt q hq
  · rcases eq_or_ne j i with rfl | hji
    · rw [update_self] at hj
      cases hj
    · rw [update_of_ne hji] at hj
      obtain ⟨hlt, hnot⟩ := h.held j q hj
      refine ⟨hlt, fun hmem => ?_⟩
      rcases List.mem_cons.1 hmem with rfl | hmem
      · exact hji (h.unique j i q hj hi)
      · exact hnot hmem

omit [DecidableEq ι] in
/-- No more are handed in than were taken. -/
theorem Tally.length_le (h : Tally l done bound) : done.length ≤ bound := by
  have hsub : done ⊆ List.range bound := fun p hp => List.mem_range.2 (h.lt p hp)
  simpa using (h.nodup.subperm hsub).length_le

omit [DecidableEq ι] in
/-- When everything in `done` is in another list, that is as long only if it has nothing else. -/
theorem Tally.subset_of_length {done' : List ℕ} (h : Tally l done bound) (hsub : done ⊆ done')
    (hlen : done'.length ≤ done.length) : done' ⊆ done :=
  ((h.nodup.subperm hsub).perm_of_length_le hlen).symm.subset

end Threads
