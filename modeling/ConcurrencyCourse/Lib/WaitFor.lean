import Mathlib.Data.Set.Basic

/-!
# Who waits for whom

`holds a l` and `waits a l` say that an agent holds a lock and that it waits for one. A deadlock is a
non-empty set of agents each of which waits for a lock that one of the set holds. There is none when the
locks have ranks below some bound, and whoever waits for a lock holds only locks of smaller rank.
-/

namespace WaitFor

universe u v

variable {α : Type u} {κ : Type v} {holds waits : α → κ → Prop} {S : Set α}

structure Deadlock (holds waits : α → κ → Prop) (S : Set α) : Prop where
  nonempty : S.Nonempty
  waits : ∀ a, a ∈ S → ∃ b, b ∈ S ∧ ∃ l, waits a l ∧ holds b l

/-- Along a deadlock the ranks grow for ever. -/
theorem Deadlock.holds_above {rank : κ → Nat} (horder : ∀ a k l, holds a k → waits a l → rank k < rank l)
    (hd : Deadlock holds waits S) (n : Nat) : ∃ a, a ∈ S ∧ ∃ l, holds a l ∧ n ≤ rank l := by
  induction n with
  | zero =>
    obtain ⟨a, ha⟩ := hd.nonempty
    obtain ⟨b, hb, l, -, hl⟩ := hd.waits a ha
    exact ⟨b, hb, l, hl, Nat.zero_le _⟩
  | succ n ih =>
    obtain ⟨a, ha, k, hk, hn⟩ := ih
    obtain ⟨b, hb, l, hwait, hl⟩ := hd.waits a ha
    exact ⟨b, hb, l, hl, Nat.lt_of_le_of_lt hn (horder a k l hk hwait)⟩

/-- Locks taken in the order of their ranks. -/
theorem no_deadlock {rank : κ → Nat} {n : Nat} (hbound : ∀ l, rank l < n)
    (horder : ∀ a k l, holds a k → waits a l → rank k < rank l) : ¬ Deadlock holds waits S := by
  intro hd
  obtain ⟨a, -, l, -, hn⟩ := hd.holds_above horder n
  exact Nat.not_le_of_lt (hbound l) hn

end WaitFor
