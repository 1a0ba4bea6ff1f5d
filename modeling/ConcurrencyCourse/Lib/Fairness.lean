import ConcurrencyCourse.Lib.Progress

/-!
# What happens in every fair run

`LeadsTo r P Q`: whenever `P` holds in the infinite run `r`, `Q` holds then or later. No step is a promise by itself:
what promises something is that a thread which can go on from some moment on does go on (`WeaklyFair`).

`Response` is how to prove it. While `P` holds and `Q` does not, there is a thread that helps, at some distance, and it
can go on. A step leads to `Q`; or it makes the distance less, and another thread may help from then on; or it is not
a step of the thread that helps, which helps as before.
-/

namespace Transition

universe u v w

variable {σ : Type u} {α : Type v} {M : System σ α} {P Q R : σ → Prop}

/-- If one of the actions `mine` can be taken at any time from some moment on, one of them is taken. -/
def WeaklyFair (r : Infinite M) (mine : α → Prop) : Prop :=
  ∀ n, (∀ m, n ≤ m → ∃ a s', mine a ∧ M.step (r.state m) a = some s') → ∃ m, n ≤ m ∧ mine (r.act m)

/-- Again and again it is the turn of `mine`. -/
theorem WeaklyFair.of_turns {r : Infinite M} {mine : α → Prop} (h : ∀ n, ∃ m, n ≤ m ∧
    ((∃ a s', mine a ∧ M.step (r.state m) a = some s') → mine (r.act m))) : WeaklyFair r mine := by
  intro n hen
  obtain ⟨m, hm, hmine⟩ := h n
  exact ⟨m, hm, hmine (hen m hm)⟩

/-- If one of the actions `mine` can be taken again and again, one of them is taken. -/
def StronglyFair (r : Infinite M) (mine : α → Prop) : Prop :=
  ∀ n, (∀ k, n ≤ k → ∃ m, k ≤ m ∧ ∃ a s', mine a ∧ M.step (r.state m) a = some s') → ∃ m, n ≤ m ∧ mine (r.act m)

/-- Whoever never gets a turn can not go on any more from some moment on. -/
theorem StronglyFair.disabled {r : Infinite M} {mine : α → Prop} (fair : StronglyFair r mine) {n : ℕ}
    (h : ∀ m, n ≤ m → ¬ mine (r.act m)) :
    ∃ k, n ≤ k ∧ ∀ m, k ≤ m → ∀ a s', mine a → M.step (r.state m) a ≠ some s' := by
  by_contra hno
  obtain ⟨m, hm, hmine⟩ := fair n fun k hk => by
    by_contra hen
    exact hno ⟨k, hk, fun m hm a s' ha hs => hen ⟨m, hm, a, s', ha, hs⟩⟩
  exact h m hm hmine

def LeadsTo (r : Infinite M) (P Q : σ → Prop) : Prop := ∀ n, P (r.state n) → ∃ m, n ≤ m ∧ Q (r.state m)

theorem LeadsTo.trans {r : Infinite M} (hPQ : LeadsTo r P Q) (hQR : LeadsTo r Q R) : LeadsTo r P R := by
  intro n hP
  obtain ⟨m, hm, hQ⟩ := hPQ n hP
  obtain ⟨k, hk, hR⟩ := hQR m hQ
  exact ⟨k, hm.trans hk, hR⟩

theorem LeadsTo.or {r : Infinite M} (hP : LeadsTo r P R) (hQ : LeadsTo r Q R) :
    LeadsTo r (fun s => P s ∨ Q s) R := by
  rintro n (h | h)
  · exact hP n h
  · exact hQ n h

/-- Who helps to get from `P` to `Q`, and how far it is. -/
structure Response (M : System σ α) {κ : Type w} (mine : κ → α → Prop) (P Q : σ → Prop) where
  helps : σ → κ → ℕ → Prop
  someone : ∀ s, Reach M anyStep s → P s → ∃ k n, helps s k n
  enabled : ∀ s k n, Reach M anyStep s → P s → helps s k n → ∃ a s', mine k a ∧ M.step s a = some s'
  step : ∀ s k n a s', Reach M anyStep s → P s → helps s k n → M.step s a = some s' →
    Q s' ∨ P s' ∧ ((∃ k' n', n' < n ∧ helps s' k' n') ∨ ¬ mine k a ∧ helps s' k n)

namespace Response

variable {κ : Type w} {mine : κ → α → Prop}

/-- Until it is less far the same thread helps, and takes no step. -/
theorem waits (p : Response M mine P Q) (r : Infinite M) {n x : ℕ} {k : κ} (hP : P (r.state n))
    (hk : p.helps (r.state n) k x) (hQ : ∀ m, n ≤ m → ¬ Q (r.state m))
    (hlow : ∀ m k' x', n ≤ m → P (r.state m) → x' < x → ¬ p.helps (r.state m) k' x') (d : ℕ) :
    P (r.state (n + d)) ∧ p.helps (r.state (n + d)) k x ∧ (0 < d → ¬ mine k (r.act (n + d - 1))) := by
  induction d with
  | zero => exact ⟨hP, hk, fun h => absurd h (Nat.lt_irrefl 0)⟩
  | succ d ih =>
    obtain ⟨hPd, hkd, -⟩ := ih
    have hle : n ≤ n + (d + 1) := Nat.le_add_right ..
    rcases p.step _ _ _ _ _ (r.reach _) hPd hkd (r.step (n + d)) with h | ⟨hP', ⟨k', x', hlt, hk'⟩ | ⟨hnot, hk'⟩⟩
    · exact absurd h (hQ _ hle)
    · exact absurd hk' (hlow _ _ _ hle hP' hlt)
    · exact ⟨hP', hk', fun _ => hnot⟩

theorem leadsTo (p : Response M mine P Q) (r : Infinite M) (fair : ∀ k, WeaklyFair r (mine k)) : LeadsTo r P Q := by
  intro n hP
  obtain ⟨k, x, hk⟩ := p.someone _ (r.reach n) hP
  -- on how far it is: as long as that stays, `k` helps, and does not go on although it can
  induction x using Nat.strongRecOn generalizing n k with
  | ind x ih =>
    by_contra hQ
    have hQ : ∀ m, n ≤ m → ¬ Q (r.state m) := fun m hm h => hQ ⟨m, hm, h⟩
    have hlow : ∀ m k' x', n ≤ m → P (r.state m) → x' < x → ¬ p.helps (r.state m) k' x' := by
      intro m k' x' hm hPm hlt hk'
      obtain ⟨l, hl, h⟩ := ih x' hlt m hPm k' hk'
      exact hQ l (hm.trans hl) h
    have hwaits := p.waits r hP hk hQ hlow
    obtain ⟨m, hm, hmine⟩ := fair k n fun m hm => by
      obtain ⟨d, rfl⟩ := Nat.exists_eq_add_of_le hm
      exact p.enabled _ _ _ (r.reach _) (hwaits d).1 (hwaits d).2.1
    obtain ⟨d, rfl⟩ := Nat.exists_eq_add_of_le hm
    exact (hwaits (d + 1)).2.2 (Nat.succ_pos d) hmine

end Response

/-- One thread helps, and its next step leads to `Q`. -/
theorem LeadsTo.next {r : Infinite M} {mine : α → Prop} (fair : WeaklyFair r mine)
    (enabled : ∀ s, Reach M anyStep s → P s → ∃ a s', mine a ∧ M.step s a = some s')
    (step : ∀ s a s', Reach M anyStep s → P s → M.step s a = some s' → Q s' ∨ P s' ∧ ¬ mine a) : LeadsTo r P Q := by
  let p : Response M (fun _ : Unit => mine) P Q :=
    { helps := fun _ _ n => n = 0
      someone := fun _ _ _ => ⟨(), 0, rfl⟩
      enabled := fun s _ _ hr hP _ => enabled s hr hP
      step := fun s _ n a s' hr hP hn hs => (step s a s' hr hP hs).imp_right fun h => ⟨h.1, .inr ⟨h.2, hn⟩⟩ }
  exact p.leadsTo r fun _ => fair

/-! ### Runs of a scheduler -/

section follow

variable {s : σ} {I : σ → Prop} {next : σ → α}

/-- The state that `next` leads to. -/
def follow (M : System σ α) (next : σ → α) (s : σ) : σ := (M.step s (next s)).getD s

/-- The scheduler `next` chooses every action by the state alone. -/
def Infinite.follow (next : σ → α) (r : Reach M anyStep s) (hI : I s)
    (h : ∀ s, Reach M anyStep s → I s → ∃ s', M.step s (next s) = some s' ∧ I s') : Infinite M where
  state n := (Transition.follow M next)^[n] s
  act n := next ((Transition.follow M next)^[n] s)
  start := r
  step n := by
    have hn : Reach M anyStep ((Transition.follow M next)^[n] s) ∧ I ((Transition.follow M next)^[n] s) := by
      induction n with
      | zero => exact ⟨r, hI⟩
      | succ n ih =>
        obtain ⟨s', hs', hI'⟩ := h _ ih.1 ih.2
        rw [Function.iterate_succ_apply', Transition.follow, hs', Option.getD_some]
        exact ⟨ih.1.step trivial hs', hI'⟩
    obtain ⟨s', hs', -⟩ := h _ hn.1 hn.2
    rw [Function.iterate_succ_apply', Transition.follow, hs', Option.getD_some]

end follow

end Transition
