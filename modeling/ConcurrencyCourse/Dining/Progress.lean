import ConcurrencyCourse.Dining.Philosopher
import ConcurrencyCourse.Lib.Fairness
import ConcurrencyCourse.Lib.Threads
import Mathlib.Algebra.Group.Action.Defs
import Mathlib.Algebra.Ring.Nat

/-!
# Who eats (tasks/mutex/dining)

A philosopher goes around in `Eat`, one step after the other (`Pc.next`); only the two locks make it wait. A step that
is not a meal brings its philosopher nearer to the next one, so there can not be many of them in a row. Who eats is
another question: `std::mutex` does not say which of the threads that wait for it comes next.

Main theorem `philosophers_eat`: somebody eats again and again, and can go on at any time. When a mutex that is free
again and again is got by whoever waits for it (`StronglyFair`), every call of `Eat` eats and returns: a fork of the
highest rank is put down by its holder, hence a fork of the rank below, and so on. With mutexes that promise less
(`WeaklyFair`) every philosopher may wait forever, next to one who eats.
-/

namespace Dining

open Transition Function

variable {n : ℕ}

def Act.seat : Act n → Fin n
  | .callEat i | .step i => i

/-- Where a step leads. -/
def Pc.next : Pc → Pc
  | .think => .lockFirst
  | .lockFirst => .lockSecond
  | .lockSecond => .eat
  | .eat => .plate
  | .plate => .turnRight
  | .turnRight => .plateRight
  | .plateRight => .countMeal
  | .countMeal => .unlockRight
  | .unlockRight => .unlockLeft
  | .unlockLeft => .think

/-- Steps till the meal is counted. -/
def Pc.toMeal : Pc → ℕ
  | .countMeal => 0
  | .plateRight => 1
  | .turnRight => 2
  | .plate => 3
  | .eat => 4
  | .lockSecond => 5
  | .lockFirst => 6
  | .think => 7
  | .unlockLeft => 8
  | .unlockRight => 9

/-- Steps till `Eat` returns. -/
def Pc.toThink : Pc → ℕ
  | .think => 0
  | .unlockLeft => 1
  | .unlockRight => 2
  | .countMeal => 3
  | .plateRight => 4
  | .turnRight => 5
  | .plate => 6
  | .eat => 7
  | .lockSecond => 8
  | .lockFirst => 9

/-- Not before a lock, and in `Eat`. -/
def Pc.goesOn (p : Pc) : Prop := p ≠ .think ∧ p ≠ .lockFirst ∧ p ≠ .lockSecond

/-- The next step counts a meal. -/
def mealAt (r : Infinite (system n)) (m : ℕ) : Prop := ∃ i, (r.state m).pc i = .countMeal ∧ r.act m = .step i

def myStep (i : Fin n) (a : Act n) : Prop := a = .step i

variable (n) in
structure Eats : Prop where
  /-- While somebody is in `Eat`, somebody in `Eat` can go on. -/
  goesOn : ∀ s, Reach (system n) anyStep s → ∀ i, s.pc i ≠ .think →
    ∃ j s', s.pc j ≠ .think ∧ step s (.step j) = some s'
  /-- Among any `9 * n + 1` steps one counts a meal, whoever takes them. -/
  meals : ∀ (r : Infinite (system n)) (k : ℕ), ∃ m, k ≤ m ∧ m ≤ k + 9 * n ∧ mealAt r m
  /-- With strongly fair mutexes everybody who calls `Eat` eats. -/
  everybody : ∀ r : Infinite (system n), (∀ j, StronglyFair r (myStep j)) → ∀ i k,
    (r.state k).pc i = .lockFirst → ∃ m, k ≤ m ∧ (r.state m).pc i = .countMeal
  /-- And the call returns. -/
  returns : ∀ r : Infinite (system n), (∀ j, StronglyFair r (myStep j)) → ∀ i k,
    ∃ m, k ≤ m ∧ (r.state m).pc i = .think
  /-- With less than that anybody may wait forever. -/
  starves : ∀ i, ∃ r : Infinite (system n), (∀ j, WeaklyFair r (myStep j)) ∧ ∀ k, (r.state k).pc i = .lockFirst

/-! ### One step -/

section steps

variable {s s' : State n} {a : Act n} {i j f : Fin n}

theorem pc_step (hs : step s a = some s') : s'.pc = update s.pc a.seat (s.pc a.seat).next := by
  cases a with
  | callEat i =>
    simp only [step] at hs
    split at hs
    · next hp => cases hs; simp only [State.setPc, Act.seat, hp, Pc.next]
    · cases hs
  | step i =>
    simp only [step, philosopherStep] at hs
    split at hs
    · cases hs
    · next hp => obtain ⟨-, rfl⟩ := lock_spec hs; simp only [State.setPc, State.setFork, Act.seat, hp, Pc.next]
    · next hp => obtain ⟨-, rfl⟩ := lock_spec hs; simp only [State.setPc, State.setFork, Act.seat, hp, Pc.next]
    all_goals next hp => cases hs; simp only [State.setPc, State.setFork, Act.seat, hp, Pc.next]

/-- A fork is put down before somebody else takes it. -/
theorem fork_step (hs : step s a = some s') (hf : s.fork f = some i) : s'.fork f = some i ∨ s'.fork f = none := by
  have hlock : ∀ {j g p}, s.fork g = none → s' = (s.setFork g (some j)).setPc j p → s'.fork f = some i := by
    rintro j g p hg rfl
    have hne : f ≠ g := by
      rintro rfl
      rw [hg] at hf
      cases hf
    exact (update_of_ne hne ..).trans hf
  have hunlock : ∀ g, update s.fork g none f = some i ∨ update s.fork g none f = none := by
    intro g
    rcases eq_or_ne f g with rfl | hne
    · exact .inr (update_self ..)
    · exact .inl ((update_of_ne hne ..).trans hf)
  cases a with
  | callEat j =>
    simp only [step] at hs
    split at hs
    · cases hs
      exact .inl hf
    · cases hs
  | step j =>
    simp only [step, philosopherStep] at hs
    split at hs
    · cases hs
    · obtain ⟨hg, hs'⟩ := lock_spec hs
      exact .inl (hlock hg hs')
    · obtain ⟨hg, hs'⟩ := lock_spec hs
      exact .inl (hlock hg hs')
    · cases hs; exact .inl hf
    · cases hs; exact .inl hf
    · cases hs; exact .inl hf
    · cases hs; exact .inl hf
    · cases hs; exact .inl hf
    · cases hs; exact hunlock _
    · cases hs; exact hunlock _

theorem lock_enabled {p : Pc} (hf : s.fork f = none) : ∃ s', lock s i f p = some s' := by
  unfold lock
  rw [hf]
  exact ⟨_, rfl⟩

/-- Only a fork that is held makes a philosopher wait. -/
theorem step_enabled (hp : s.pc i ≠ .think) (hf : ∀ f, (s.pc i).waits i f → s.fork f = none) :
    ∃ s', step s (.step i) = some s' := by
  simp only [step, philosopherStep]
  cases hpc : s.pc i with
  | think => exact absurd hpc hp
  | lockFirst => exact lock_enabled (hf _ (by rw [hpc]; rfl))
  | lockSecond => exact lock_enabled (hf _ (by rw [hpc]; rfl))
  | _ => exact ⟨_, rfl⟩

theorem seat_of_think (hs : step s (.step i) = some s') : s.pc i ≠ .think := by
  intro hp
  simp only [step, philosopherStep, hp] at hs
  cases hs

theorem not_enabled (hw : (s.pc i).waits i f) (hf : s.fork f = some j) : step s (.step i) = none := by
  simp only [step, philosopherStep]
  cases hpc : s.pc i with
  | lockFirst =>
    rw [hpc] at hw
    cases hw
    simp only [lock, hf]
  | lockSecond =>
    rw [hpc] at hw
    cases hw
    simp only [lock, hf]
  | think => rfl
  | _ =>
    rw [hpc] at hw
    exact hw.elim

theorem waits_unique {p : Pc} {g : Fin n} (hg : p.waits i g) (hf : p.waits i f) : g = f := by
  cases p with
  | lockFirst => exact Eq.trans hg (Eq.symm hf)
  | lockSecond => exact Eq.trans hg (Eq.symm hf)
  | _ => exact hg.elim

theorem somebody_goesOn (hn : 2 ≤ n) (r : Reach (system n) anyStep s) (hp : s.pc i ≠ .think) :
    ∃ j s', s.pc j ≠ .think ∧ step s (.step j) = some s' := by
  have h := holds_of_reach hn r
  by_contra hno
  have hnone : ¬ WaitFor.Deadlock (fun i f => s.fork f = some i) (fun i f => (s.pc i).waits i f)
      (fun j => s.pc j ≠ .think) := by
    refine WaitFor.no_deadlock rank_lt fun i k l hk hl => ?_
    rw [h] at hk
    exact rank_of_waits hn hk hl
  -- those in `Eat` would wait for each other
  refine hnone ⟨⟨i, hp⟩, fun j hj => ?_⟩
  by_contra hfree
  obtain ⟨s', hs⟩ := step_enabled hj fun f hw => by
    cases hf : s.fork f with
    | none => rfl
    | some k =>
      refine absurd ⟨k, fun hk => ?_, f, hw, hf⟩ hfree
      have hhas := (h f k).1 hf
      rw [hk] at hhas
      exact hhas
  exact hno ⟨j, s', hj, hs⟩

end steps

/-! ### Meals -/

section meals

theorem toMeal_next {p : Pc} (hp : p ≠ .countMeal) : p.next.toMeal + 1 = p.toMeal := by
  cases p with
  | countMeal => exact absurd rfl hp
  | _ => rfl

theorem toMeal_le (p : Pc) : p.toMeal ≤ 9 := by
  cases p <;> decide

/-- Steps that are left when there is no meal. -/
def State.toMeal (s : State n) : ℕ := ∑ i, (s.pc i).toMeal

theorem State.toMeal_le (s : State n) : s.toMeal ≤ 9 * n := by
  have h := Finset.sum_le_card_nsmul Finset.univ (fun i => (s.pc i).toMeal) 9 fun i _ => Dining.toMeal_le _
  rw [Finset.card_univ, Fintype.card_fin, smul_eq_mul, mul_comm] at h
  exact h

theorem toMeal_step {s s' : State n} {a : Act n} (hs : step s a = some s') (ha : s.pc a.seat ≠ .countMeal) :
    s'.toMeal + 1 = s.toMeal := by
  have hsum := Threads.sum_update_add Pc.toMeal s.pc a.seat (s.pc a.seat).next
  have hnext := toMeal_next ha
  unfold State.toMeal
  rw [pc_step hs]
  omega

theorem meal_of_countMeal {s s' : State n} {a : Act n} (hs : step s a = some s')
    (ha : s.pc a.seat = .countMeal) : a = .step a.seat := by
  cases a with
  | callEat i =>
    simp only [Act.seat] at ha
    simp only [step, ha] at hs
    cases hs
  | step i => rfl

theorem meals_go_on (r : Infinite (system n)) (k : ℕ) : ∃ m, k ≤ m ∧ m ≤ k + 9 * n ∧ mealAt r m := by
  by_contra hno
  have hleft : ∀ d, d ≤ 9 * n + 1 → (r.state (k + d)).toMeal + d = (r.state k).toMeal := by
    intro d hd
    induction d with
    | zero => rfl
    | succ d ih =>
      have hstep := r.step (k + d)
      have hmeal : (r.state (k + d)).pc (r.act (k + d)).seat ≠ .countMeal := fun hp =>
        hno ⟨k + d, Nat.le_add_right .., by omega, _, hp, meal_of_countMeal hstep hp⟩
      have hlt := toMeal_step hstep hmeal
      have hd' := ih (by omega)
      change (r.state (k + d + 1)).toMeal + (d + 1) = _
      omega
  have hlast := hleft (9 * n + 1) le_rfl
  have hle := (r.state k).toMeal_le
  omega

end meals

/-! ### Turns in a run -/

section run

variable {r : Infinite (system n)} {i j f : Fin n} {k m : ℕ} {p : Pc}

/-- A philosopher stays where it is till it goes on. -/
theorem stays (hp : (r.state k).pc i = p) (hno : ∀ m, k ≤ m → (r.state m).pc i ≠ p.next) (d : ℕ) :
    (r.state (k + d)).pc i = p := by
  induction d with
  | zero => exact hp
  | succ d ih =>
    have hstep := pc_step (r.step (k + d))
    have hnext := hno (k + (d + 1)) (Nat.le_add_right ..)
    change (r.state (k + d + 1)).pc i ≠ _ at hnext
    change (r.state (k + d + 1)).pc i = _
    rw [hstep] at hnext ⊢
    rcases eq_or_ne i (r.act (k + d)).seat with hi | hi
    · rw [← hi, update_self, ih] at hnext
      exact absurd rfl hnext
    · rw [update_of_ne hi, ih]

/-- Without a turn of its own. -/
theorem no_turn (hp : (r.state k).pc i = p) (hno : ∀ m, k ≤ m → (r.state m).pc i ≠ p.next) (m : ℕ) (hm : k ≤ m) :
    ¬ myStep i (r.act m) := by
  intro hact
  obtain ⟨d, rfl⟩ := Nat.exists_eq_add_of_le hm
  have hstep := pc_step (r.step (k + d))
  refine hno (k + d + 1) (hm.trans (Nat.le_succ _)) ?_
  have hseat : (r.act (k + d)).seat = i := by rw [hact]; rfl
  rw [hstep, hseat, update_self, stays hp hno d]

/-- `d` turns. -/
theorem reaches {G : Pc → Prop} (hmove : ∀ k, G ((r.state k).pc i) →
      ∃ m, k ≤ m ∧ (r.state m).pc i = ((r.state k).pc i).next) (d : ℕ) :
    ∀ k p, (r.state k).pc i = p → (∀ e, e < d → G (Pc.next^[e] p)) →
      ∃ m, k ≤ m ∧ (r.state m).pc i = Pc.next^[d] p := by
  induction d with
  | zero => exact fun k p hp _ => ⟨k, le_rfl, hp⟩
  | succ d ih =>
    intro k p hp hG
    obtain ⟨m, hm, hpm⟩ := hmove k (hp ▸ hG 0 (Nat.succ_pos d))
    rw [hp] at hpm
    obtain ⟨l, hl, hpl⟩ := ih m p.next hpm fun e he => hG (e + 1) (Nat.succ_lt_succ he)
    exact ⟨l, hm.trans hl, hpl⟩

/-- A fork that is never free stays with its holder. -/
theorem holder_stays (h : ∀ d, ∃ j, (r.state (k + d)).fork f = some j) :
    ∃ j, ∀ d, (r.state (k + d)).fork f = some j := by
  obtain ⟨j, hj⟩ := h 0
  refine ⟨j, fun d => ?_⟩
  induction d with
  | zero => exact hj
  | succ d ih =>
    rcases fork_step (r.step (k + d)) ih with hf | hf
    · exact hf
    · obtain ⟨j', hj'⟩ := h (d + 1)
      cases hf.symm.trans hj'

theorem next_toThink (p : Pc) : Pc.next^[p.toThink] p = .think := by
  cases p <;> rfl

theorem next_ne_think (p : Pc) : ∀ e, e < p.toThink → Pc.next^[e] p ≠ .think := by
  cases p <;> decide

variable (hfair : ∀ j, StronglyFair r (myStep j))

include hfair

/-- A philosopher that need not wait for a lock goes on. -/
theorem goes_on (hp : ((r.state k).pc i).goesOn) : ∃ m, k ≤ m ∧ (r.state m).pc i = ((r.state k).pc i).next := by
  by_contra hno
  push Not at hno
  obtain ⟨m, hm, hdis⟩ := (hfair i).disabled (no_turn rfl hno)
  obtain ⟨d, rfl⟩ := Nat.exists_eq_add_of_le hm
  have hpc := stays rfl hno d
  obtain ⟨s', hs⟩ := step_enabled (s := r.state (k + d)) (i := i) (by rw [hpc]; exact hp.1) fun f hw => by
    rw [hpc] at hw
    generalize (r.state k).pc i = p at hp hw
    cases p with
    | lockFirst => exact absurd rfl hp.2.1
    | lockSecond => exact absurd rfl hp.2.2
    | _ => exact hw.elim
  exact hdis (k + d) le_rfl _ s' rfl hs

/-- Whoever has both forks puts them down. -/
theorem puts_down (hp : ((r.state k).pc i).goesOn) : ∃ m, k ≤ m ∧ (r.state m).pc i = .think := by
  have hgoes : ∀ e, e < ((r.state k).pc i).toThink → (Pc.next^[e] ((r.state k).pc i)).goesOn := by
    intro e he
    refine ⟨next_ne_think _ e he, ?_⟩
    generalize (r.state k).pc i = p at hp he
    revert e
    cases p with
    | think => exact absurd rfl hp.1
    | lockFirst => exact absurd rfl hp.2.1
    | lockSecond => exact absurd rfl hp.2.2
    | _ => decide
  obtain ⟨m, hm, hpm⟩ := reaches (fun k => goes_on hfair) _ k _ rfl hgoes
  exact ⟨m, hm, hpm.trans (next_toThink _)⟩

/-- Whoever waits for a fork gets it: nobody keeps it forever, as whoever has it gets the other one, which is of higher
rank. -/
theorem gets (hn : 2 ≤ n) : ∀ x f, n + 1 - rank f = x → ∀ i k, ((r.state k).pc i).waits i f →
    ∃ m, k ≤ m ∧ (r.state m).pc i = ((r.state k).pc i).next := by
  intro x
  induction x using Nat.strongRecOn with
  | ind x ih =>
    intro f hx i k hw
    by_contra hno
    push Not at hno
    obtain ⟨l, hl, hdis⟩ := (hfair i).disabled (no_turn rfl hno)
    have hthink : (r.state k).pc i ≠ .think := by
      intro hp
      rw [hp] at hw
      exact hw
    have hheld : ∀ d, ∃ j, (r.state (l + d)).fork f = some j := by
      intro d
      obtain ⟨e, he⟩ := Nat.exists_eq_add_of_le (hl.trans (Nat.le_add_right l d))
      have hpc := stays rfl hno e
      rw [← he] at hpc
      cases hf : (r.state (l + d)).fork f with
      | some j => exact ⟨j, rfl⟩
      | none =>
        obtain ⟨s', hs⟩ := step_enabled (s := r.state (l + d)) (i := i) (by rwa [hpc]) fun g hg => by
          rw [hpc] at hg
          rwa [waits_unique hg hw]
        exact absurd hs (hdis (l + d) (Nat.le_add_right ..) _ s' rfl)
    obtain ⟨j, hkeeps⟩ := holder_stays hheld
    have hhas : ∀ m, l ≤ m → ((r.state m).pc j).has j f := by
      intro m hm
      obtain ⟨d, rfl⟩ := Nat.exists_eq_add_of_le hm
      exact (holds_of_reach hn (r.reach _) f j).1 (hkeeps d)
    -- the holder has both forks at some moment, and has none later
    obtain ⟨m, hm, hgoes⟩ : ∃ m, l ≤ m ∧ ((r.state m).pc j).goesOn := by
      have hhl := hhas l le_rfl
      cases hp : (r.state l).pc j with
      | think => rw [hp] at hhl; exact hhl.elim
      | lockFirst => rw [hp] at hhl; exact hhl.elim
      | lockSecond =>
        have hsecond : ((r.state l).pc j).waits j (secondFork j) := by rw [hp]; rfl
        have hrank := rank_of_waits hn hhl hsecond
        have hlt := rank_lt (secondFork j)
        obtain ⟨m, hm, hpm⟩ := ih (n + 1 - rank (secondFork j)) (by omega) _ rfl j l hsecond
        rw [hp] at hpm
        exact ⟨m, hm, by rw [hpm]; exact ⟨by decide, by decide, by decide⟩⟩
      | _ => exact ⟨l, le_rfl, by rw [hp]; exact ⟨by decide, by decide, by decide⟩⟩
    obtain ⟨m', hm', hpm'⟩ := puts_down hfair hgoes
    have hlast := hhas m' (hm.trans hm')
    rw [hpm'] at hlast
    exact hlast

theorem moves_on (hn : 2 ≤ n) (hp : (r.state k).pc i ≠ .think) :
    ∃ m, k ≤ m ∧ (r.state m).pc i = ((r.state k).pc i).next := by
  cases hpc : (r.state k).pc i with
  | think => exact absurd hpc hp
  | lockFirst =>
    rw [← hpc]
    exact gets hfair hn _ (firstFork i) rfl i k (by rw [hpc]; rfl)
  | lockSecond =>
    rw [← hpc]
    exact gets hfair hn _ (secondFork i) rfl i k (by rw [hpc]; rfl)
  | _ =>
    rw [← hpc]
    exact goes_on hfair (by rw [hpc]; exact ⟨by decide, by decide, by decide⟩)

end run

/-! ### A philosopher who waits forever -/

section starvation

variable {s : State n} {i j f : Fin n}

theorem toRight_lt {seat : Fin n} (h : seat.val + 1 < n) : (toRight seat).val = seat.val + 1 := Nat.mod_eq_of_lt h

/-- The first fork is also a fork of somebody else. -/
theorem exists_neighbour (hn : 2 ≤ n) (i : Fin n) :
    ∃ j, j ≠ i ∧ (firstFork i = leftFork j ∨ firstFork i = rightFork j) := by
  have hi := i.isLt
  by_cases h0 : i.val = 0
  · refine ⟨toRight i, toRight_ne hn i, .inl ?_⟩
    unfold firstFork
    rw [if_pos h0]
    rfl
  · refine ⟨⟨i.val - 1, by omega⟩, fun h => ?_, .inr ?_⟩
    · have := congrArg Fin.val h
      change i.val - 1 = i.val at this
      omega
    · unfold firstFork
      rw [if_neg h0]
      refine Fin.ext ?_
      let seat : Fin n := ⟨i.val - 1, by omega⟩
      have hseat : seat.val + 1 = i.val := Nat.sub_add_cancel (by omega)
      have hright : (toRight seat).val = seat.val + 1 := toRight_lt (by omega)
      change i.val = (toRight seat).val
      rw [hright, hseat]

/-- `j` calls `Eat` again and again. -/
def eatsAlone (j : Fin n) (s : State n) : Act n := if s.pc j = .think then .callEat j else .step j

/-- `i` waits for its first fork, and all but `j` think. -/
def Alone (i j : Fin n) (s : State n) : Prop := s.pc i = .lockFirst ∧ ∀ k, k ≠ i → k ≠ j → s.pc k = .think

theorem seat_eatsAlone : (eatsAlone j s).seat = j := by
  unfold eatsAlone
  split <;> rfl

theorem alone_step (hn : 2 ≤ n) (hij : j ≠ i) (r : Reach (system n) anyStep s) (h : Alone i j s) :
    ∃ s', (system n).step s (eatsAlone j s) = some s' ∧ Alone i j s' := by
  have hkeep : ∀ s', (system n).step s (eatsAlone j s) = some s' → Alone i j s' := by
    intro s' hs
    have hpc := pc_step hs
    rw [seat_eatsAlone] at hpc
    refine ⟨?_, fun k hki hkj => ?_⟩
    · rw [hpc, update_of_ne hij.symm]
      exact h.1
    · rw [hpc, update_of_ne hkj]
      exact h.2 k hki hkj
  obtain ⟨s', hs⟩ : ∃ s', step s (eatsAlone j s) = some s' := by
    unfold eatsAlone
    by_cases hj : s.pc j = .think
    · rw [if_pos hj]
      simp only [step, hj]
      exact ⟨_, rfl⟩
    · rw [if_neg hj]
      refine step_enabled hj fun f hw => ?_
      -- nobody but `j` has a fork
      cases hf : s.fork f with
      | none => rfl
      | some k =>
        have hhas := (holds_of_reach hn r f k).1 hf
        rcases eq_or_ne k j with rfl | hkj
        · exact absurd (rank_of_waits hn hhas hw) (Nat.lt_irrefl _)
        · rcases eq_or_ne k i with rfl | hki
          · rw [h.1] at hhas
            exact hhas.elim
          · rw [h.2 k hki hkj] at hhas
            exact hhas.elim
  exact ⟨s', hs, hkeep s' hs⟩

theorem next_eat (p : Pc) : ∃ d, Pc.next^[d] p = .eat := by
  cases p with
  | think => exact ⟨3, rfl⟩
  | lockFirst => exact ⟨2, rfl⟩
  | lockSecond => exact ⟨1, rfl⟩
  | eat => exact ⟨0, rfl⟩
  | plate => exact ⟨9, rfl⟩
  | turnRight => exact ⟨8, rfl⟩
  | plateRight => exact ⟨7, rfl⟩
  | countMeal => exact ⟨6, rfl⟩
  | unlockRight => exact ⟨5, rfl⟩
  | unlockLeft => exact ⟨4, rfl⟩

/-- A run in which `j` eats alone. -/
theorem run_alone (hn : 2 ≤ n) (hij : j ≠ i) : ∃ r : Infinite (system n),
    (∀ m, Alone i j (r.state m)) ∧ (∀ m, r.act m = eatsAlone j (r.state m)) ∧
      ∀ m d, (r.state (m + d)).pc j = Pc.next^[d] ((r.state m).pc j) := by
  have h0 : Reach (system n) anyStep (init.setPc i .lockFirst) :=
    (Reach.init (M := system n) (s := init) rfl).step (a := .callEat i) trivial rfl
  have hstart : Alone i j (init.setPc i .lockFirst) := ⟨update_self .., fun k hk _ => update_of_ne hk ..⟩
  have halone : ∀ s, Reach (system n) anyStep s → Alone i j s →
      ∃ s', (system n).step s (eatsAlone j s) = some s' ∧ Alone i j s' := fun s r h => alone_step hn hij r h
  let r := Infinite.follow (eatsAlone j) h0 hstart halone
  have hact : ∀ m, r.act m = eatsAlone j (r.state m) := fun _ => rfl
  refine ⟨r, fun m => ?_, hact, fun m d => ?_⟩
  · induction m with
    | zero => exact hstart
    | succ m ih =>
      obtain ⟨s', hs, h⟩ := halone _ (r.reach m) ih
      rw [← hact] at hs
      cases (r.step m).symm.trans hs
      exact h
  · induction d with
    | zero => rfl
    | succ d ih =>
      have hstep := pc_step (r.step (m + d))
      rw [hact, seat_eatsAlone] at hstep
      change (r.state (m + d + 1)).pc j = _
      rw [hstep, update_self, ih, iterate_succ_apply']

theorem waits_forever (hn : 2 ≤ n) (i : Fin n) :
    ∃ r : Infinite (system n), (∀ j, WeaklyFair r (myStep j)) ∧ ∀ k, (r.state k).pc i = .lockFirst := by
  obtain ⟨j, hij, hfork⟩ := exists_neighbour hn i
  obtain ⟨r, halone, hact, hnext⟩ := run_alone hn hij
  refine ⟨r, fun k => .of_turns fun m => ?_, fun m => (halone m).1⟩
  rcases eq_or_ne k j with rfl | hkj
  · -- `j` has every turn, and calls `Eat` at most every other one
    have hturn : ∀ m, (r.state m).pc k ≠ .think → myStep k (r.act m) := by
      intro m hm
      rw [hact]
      exact if_neg hm
    by_cases hm : (r.state m).pc k = .think
    · refine ⟨m + 1, Nat.le_succ m, fun _ => hturn _ ?_⟩
      rw [hnext m 1, hm]
      decide
    · exact ⟨m, le_rfl, fun _ => hturn m hm⟩
  · rcases eq_or_ne k i with rfl | hki
    · -- whenever `j` eats it has the fork
      obtain ⟨d, hd⟩ := next_eat ((r.state m).pc j)
      refine ⟨m + d, Nat.le_add_right .., ?_⟩
      rintro ⟨a, s', rfl, hs⟩
      have hheld : (r.state (m + d)).fork (firstFork k) = some j := by
        refine (holds_of_reach hn (r.reach _) _ j).2 ?_
        rw [hnext, hd]
        exact hfork
      have hw : ((r.state (m + d)).pc k).waits k (firstFork k) := by
        rw [(halone (m + d)).1]
        rfl
      cases (not_enabled hw hheld).symm.trans hs
    · refine ⟨m, le_rfl, ?_⟩
      rintro ⟨a, s', rfl, hs⟩
      exact absurd ((halone m).2 k hki hkj) (seat_of_think hs)

end starvation

/-! ### Main theorem -/

theorem philosophers_eat (hn : 2 ≤ n) : Eats n where
  goesOn _ r _ hp := somebody_goesOn hn r hp
  meals := meals_go_on
  everybody r hfair i k hp := by
    obtain ⟨m, hm, hpm⟩ := reaches (G := fun p => p ≠ .think) (fun k => moves_on hfair hn) 6 k _ hp (by decide)
    exact ⟨m, hm, hpm⟩
  returns r hfair i k := by
    obtain ⟨m, hm, hpm⟩ := reaches (G := fun p => p ≠ .think) (fun k => moves_on hfair hn) _ k _ rfl
      (next_ne_think ((r.state k).pc i))
    exact ⟨m, hm, hpm.trans (next_toThink _)⟩
  starves := waits_forever hn

theorem philosophers_eat_two : Eats 2 := philosophers_eat le_rfl

end Dining
