import ConcurrencyCourse.Lib.Transition
import ConcurrencyCourse.Lib.WaitFor
import Mathlib.Logic.Function.Basic
import Mathlib.Order.Fin.Basic

/-!
# Dining philosophers (tasks/mutex/dining)

`n` seats, one philosopher each; every philosopher calls `Eat` as often as it likes.

| here | there |
| --- | --- |
| `toRight`, `leftFork`, `rightFork` | `Table::ToRight`, `LeftFork`, `RightFork` (table.hpp 27-37) |
| `firstFork`, `secondFork` | the order in `AcquireForks` (philosopher.cpp 22-30) |
| `Pc.plate`, `Pc.plateRight` | inside `AccessPlate` (32-37), which is not atomic |
| `State.fork` | the mutexes of the table, with their owner; `lock` of a held one does not move |

Main theorem `dines_safely`: the forks are taken in the order 1, 2, …, `n - 1`, 0, so nobody waits in a circle,
and the plates on both sides of a fork are touched by its holder only.
-/

namespace Dining

open Transition Function

variable {n : Nat}

def toRight (seat : Fin n) : Fin n := ⟨(seat.val + 1) % n, Nat.mod_lt _ seat.pos⟩

def leftFork (seat : Fin n) : Fin n := seat

def rightFork (seat : Fin n) : Fin n := toRight seat

def firstFork (seat : Fin n) : Fin n := if seat.val = 0 then rightFork seat else leftFork seat

def secondFork (seat : Fin n) : Fin n := if seat.val = 0 then leftFork seat else rightFork seat

inductive Pc where
  | think
  -- `AcquireForks`
  | lockFirst
  | lockSecond
  -- `EatWithForks`
  | eat
  | plate
  | turnRight
  | plateRight
  | countMeal
  -- `ReleaseForks`
  | unlockRight
  | unlockLeft
  deriving DecidableEq, Repr

structure State (n : Nat) where
  fork : Fin n → Option (Fin n)
  pc : Fin n → Pc
  meals : Fin n → Nat

inductive Act (n : Nat) where
  | callEat (seat : Fin n)
  | step (seat : Fin n)

def State.setPc (s : State n) (i : Fin n) (p : Pc) : State n := { s with pc := update s.pc i p }

def State.setFork (s : State n) (f : Fin n) (o : Option (Fin n)) : State n :=
  { s with fork := update s.fork f o }

/-- `lock()`. -/
def lock (s : State n) (i f : Fin n) (p : Pc) : Option (State n) :=
  match s.fork f with
  | none => some ((s.setFork f (some i)).setPc i p)
  | some _ => none

def philosopherStep (s : State n) (i : Fin n) : Option (State n) :=
  match s.pc i with
  | .think => none
  | .lockFirst => lock s i (firstFork i) .lockSecond
  | .lockSecond => lock s i (secondFork i) .eat
  | .eat => some (s.setPc i .plate)
  | .plate => some (s.setPc i .turnRight)
  | .turnRight => some (s.setPc i .plateRight)
  | .plateRight => some (s.setPc i .countMeal)
  | .countMeal => some ({ s with meals := update s.meals i (s.meals i + 1) }.setPc i .unlockRight)
  | .unlockRight => some ((s.setFork (rightFork i) none).setPc i .unlockLeft)
  | .unlockLeft => some ((s.setFork (leftFork i) none).setPc i .think)

def step (s : State n) : Act n → Option (State n)
  | .callEat i => match s.pc i with
    | .think => some (s.setPc i .lockFirst)
    | _ => none
  | .step i => philosopherStep s i

def init : State n := { fork := fun _ => none, pc := fun _ => .think, meals := fun _ => 0 }

variable (n) in
def system : System (State n) (Act n) := ⟨fun s => s = init, step⟩

/-! ### The forks of a philosopher -/

/-- Between `lock` and `unlock`. -/
def Pc.has (i : Fin n) : Pc → Fin n → Prop
  | .think, _ | .lockFirst, _ => False
  | .lockSecond, f => f = firstFork i
  | .eat, f | .plate, f | .turnRight, f | .plateRight, f | .countMeal, f | .unlockRight, f =>
    f = leftFork i ∨ f = rightFork i
  | .unlockLeft, f => f = leftFork i

def Pc.waits (i : Fin n) : Pc → Fin n → Prop
  | .lockFirst, f => f = firstFork i
  | .lockSecond, f => f = secondFork i
  | _, _ => False

/-- Inside `AccessPlate`. -/
def Pc.accesses (i : Fin n) : Pc → Fin n → Prop
  | .plate, p => p = i
  | .plateRight, p => p = toRight i
  | _, _ => False

/-- The fork that the next step unlocks. -/
def Pc.unlocks (i : Fin n) : Pc → Fin n → Prop
  | .unlockRight, f => f = rightFork i
  | .unlockLeft, f => f = leftFork i
  | _, _ => False

theorem toRight_ne (hn : 2 ≤ n) (i : Fin n) : toRight i ≠ i := by
  intro h
  have h := congrArg Fin.val h
  have hi := i.isLt
  rcases Nat.lt_or_ge (i.val + 1) n with hlt | hge
  · have hr : (i.val + 1) % n = i.val + 1 := Nat.mod_eq_of_lt hlt
    have : (i.val + 1) % n = i.val := h
    omega
  · have hlast : i.val + 1 = n := by omega
    have : (i.val + 1) % n = i.val := h
    rw [hlast, Nat.mod_self] at this
    omega

/-- The order of the forks: 1, 2, …, `n - 1`, 0. -/
def rank (f : Fin n) : Nat := if f.val = 0 then n else f.val

theorem rank_lt (f : Fin n) : rank f < n + 1 := by
  unfold rank
  split
  · exact Nat.lt_succ_self n
  · exact Nat.lt_succ_of_lt f.isLt

theorem rank_order (hn : 2 ≤ n) (i : Fin n) : rank (firstFork i) < rank (secondFork i) := by
  have hi := i.isLt
  unfold firstFork secondFork
  split
  · next h0 =>
    have hright : (rightFork i).val = 1 := by
      change (i.val + 1) % n = 1
      rw [h0]
      exact Nat.mod_eq_of_lt hn
    simp only [rank, leftFork, hright, h0, if_true]
    exact hn
  · next h0 =>
    have hleft : rank (leftFork i) = i.val := if_neg h0
    rw [hleft]
    rcases Nat.lt_or_ge (i.val + 1) n with hlt | hge
    · have hright : (rightFork i).val = i.val + 1 := Nat.mod_eq_of_lt hlt
      simp only [rank, hright, Nat.succ_ne_zero, if_false]
      exact Nat.lt_succ_self _
    · -- the last seat: its right fork is 0
      have hright : (rightFork i).val = 0 := by
        change (i.val + 1) % n = 0
        rw [show i.val + 1 = n by omega, Nat.mod_self]
      simp only [rank, hright, if_true]
      exact hi

theorem first_second (i f : Fin n) :
    (f = firstFork i ∨ f = secondFork i) ↔ (f = leftFork i ∨ f = rightFork i) := by
  unfold firstFork secondFork
  split
  · exact or_comm
  · exact Iff.rfl

/-! ### Who holds a fork is seen from where the philosophers are -/

def Holds (s : State n) : Prop := ∀ f i, s.fork f = some i ↔ (s.pc i).has i f

section holds

variable {s : State n} {i : Fin n} {p : Pc}

/-- A philosopher goes on with the same forks. -/
theorem Holds.move (h : Holds s) (hp : ∀ f, p.has i f ↔ (s.pc i).has i f) : Holds (s.setPc i p) := by
  intro f j
  change s.fork f = some j ↔ (update s.pc i p j).has j f
  rcases eq_or_ne j i with rfl | hj
  · rw [update_self, hp, h]
  · rw [update_of_ne hj, h]

theorem Holds.lock (h : Holds s) {f : Fin n} (hfree : s.fork f = none)
    (hp : ∀ g, p.has i g ↔ g = f ∨ (s.pc i).has i g) : Holds ((s.setFork f (some i)).setPc i p) := by
  intro g j
  change update s.fork f (some i) g = some j ↔ (update s.pc i p j).has j g
  have hnone : ∀ j, ¬ (s.pc j).has j f := by
    intro j hj
    rw [← h, hfree] at hj
    cases hj
  rcases eq_or_ne g f with rfl | hg
  · rw [update_self]
    rcases eq_or_ne j i with rfl | hj
    · rw [update_self, hp]
      simp
    · rw [update_of_ne hj]
      exact iff_of_false (fun hij => hj (Option.some.inj hij).symm) (hnone j)
  · rw [update_of_ne hg, h]
    rcases eq_or_ne j i with rfl | hj
    · rw [update_self, hp, or_iff_right hg]
    · rw [update_of_ne hj]

theorem Holds.unlock (h : Holds s) {f : Fin n} (hmine : (s.pc i).has i f)
    (hp : ∀ g, p.has i g ↔ g ≠ f ∧ (s.pc i).has i g) : Holds ((s.setFork f none).setPc i p) := by
  intro g j
  change update s.fork f none g = some j ↔ (update s.pc i p j).has j g
  rcases eq_or_ne g f with rfl | hg
  · rw [update_self]
    refine iff_of_false nofun ?_
    rcases eq_or_ne j i with rfl | hj
    · rw [update_self, hp]
      exact fun hg => hg.1 rfl
    · rw [update_of_ne hj, ← h, (h g i).2 hmine]
      exact fun hij => hj (Option.some.inj hij).symm
  · rw [update_of_ne hg, h]
    rcases eq_or_ne j i with rfl | hj
    · rw [update_self, hp, and_iff_right hg]
    · rw [update_of_ne hj]

theorem lock_spec {s' : State n} {f : Fin n} (h : lock s i f p = some s') :
    s.fork f = none ∧ s' = (s.setFork f (some i)).setPc i p := by
  unfold Dining.lock at h
  split at h
  · next hf => exact ⟨hf, (Option.some.inj h).symm⟩
  · cases h

theorem Holds.step (hn : 2 ≤ n) (h : Holds s) {s' : State n} (hs : philosopherStep s i = some s') :
    Holds s' := by
  have hdiff : leftFork i ≠ rightFork i := (toRight_ne hn i).symm
  unfold philosopherStep at hs
  split at hs
  · cases hs
  · next hp =>
    obtain ⟨hfree, rfl⟩ := lock_spec hs
    refine h.lock hfree fun g => ?_
    rw [hp]
    simp [Pc.has]
  · next hp =>
    obtain ⟨hfree, rfl⟩ := lock_spec hs
    refine h.lock hfree fun g => ?_
    rw [hp]
    exact (first_second i g).symm.trans or_comm
  · next hp => cases hs; exact h.move fun g => by rw [hp]; exact Iff.rfl
  · next hp => cases hs; exact h.move fun g => by rw [hp]; exact Iff.rfl
  · next hp => cases hs; exact h.move fun g => by rw [hp]; exact Iff.rfl
  · next hp => cases hs; exact h.move fun g => by rw [hp]; exact Iff.rfl
  · next hp =>
    cases hs
    exact Holds.move (s := { s with meals := _ }) h fun g => by rw [hp]; exact Iff.rfl
  · next hp =>
    cases hs
    refine h.unlock (by rw [hp]; exact .inr rfl) fun g => ?_
    rw [hp]
    change g = leftFork i ↔ g ≠ rightFork i ∧ (g = leftFork i ∨ g = rightFork i)
    constructor
    · rintro rfl
      exact ⟨hdiff, .inl rfl⟩
    · exact fun hg => hg.2.resolve_right hg.1
  · next hp =>
    cases hs
    refine h.unlock (by rw [hp]; exact rfl) fun g => ?_
    rw [hp]
    exact iff_of_false id fun hg => hg.1 hg.2

end holds

theorem holds_of_reach (hn : 2 ≤ n) {s : State n} (r : Reach (system n) anyStep s) : Holds s := by
  refine r.invariant ?_ ?_
  · rintro s rfl f i
    exact iff_of_false nofun id
  · intro s a s' h _ hstep
    cases a with
    | callEat i =>
      simp only [system, step] at hstep
      split at hstep
      · next hp => cases hstep; exact h.move fun g => by rw [hp]; exact Iff.rfl
      · cases hstep
    | step i => exact h.step hn hstep

/-! ### Main theorem -/

theorem has_of_accesses {i p : Fin n} {pc : Pc} (h : pc.accesses i p) : pc.has i p := by
  cases pc with
  | plate => exact .inl h
  | plateRight => exact .inr h
  | _ => exact h.elim

theorem has_of_unlocks {i f : Fin n} {pc : Pc} (h : pc.unlocks i f) : pc.has i f := by
  cases pc with
  | unlockRight => exact .inr h
  | unlockLeft => exact h
  | _ => exact h.elim

theorem rank_of_waits (hn : 2 ≤ n) {i k l : Fin n} {pc : Pc} (hk : pc.has i k) (hl : pc.waits i l) :
    rank k < rank l := by
  cases pc with
  | lockFirst => exact hk.elim
  | lockSecond =>
    cases hk
    cases hl
    exact rank_order hn i
  | _ => exact hl.elim

structure Safe (s : State n) : Prop where
  /-- No philosophers wait for each other's forks. -/
  deadlockFree : ∀ S : Set (Fin n),
    ¬ WaitFor.Deadlock (fun i f => s.fork f = some i) (fun i f => (s.pc i).waits i f) S
  /-- A plate is accessed by one philosopher at a time. -/
  plates : ∀ i j p, (s.pc i).accesses i p → (s.pc j).accesses j p → i = j
  /-- A fork is unlocked by its holder. -/
  unlocks : ∀ i f, (s.pc i).unlocks i f → s.fork f = some i

theorem dines_safely (hn : 2 ≤ n) {s : State n} (r : Reach (system n) anyStep s) : Safe s := by
  have h := holds_of_reach hn r
  refine ⟨fun S => ?_, fun i j p hi hj => ?_, fun i f hi => (h f i).2 (has_of_unlocks hi)⟩
  · refine WaitFor.no_deadlock rank_lt fun i k l hk hl => ?_
    rw [h] at hk
    exact rank_of_waits hn hk hl
  · have h1 := (h p i).2 (has_of_accesses hi)
    have h2 := (h p j).2 (has_of_accesses hj)
    exact Option.some.inj (h1.symm.trans h2)

/-- Three seats: 1 and 2 hold a fork each and wait, and 0 waits for its first. -/
theorem dines_safely_three : ∃ s : State 3,
    s.fork 1 = some 1 ∧ s.fork 2 = some 2 ∧ s.pc 0 = .lockFirst ∧ Safe s := by
  obtain ⟨s, hr, hs⟩ := Reach.of_exec_any (system 3) [.callEat 1, .callEat 2, .callEat 0, .step 1, .step 2]
    (fun s => decide (s.fork 1 = some 1 ∧ s.fork 2 = some 2 ∧ s.pc 0 = .lockFirst)) rfl (by decide)
  obtain ⟨h1, h2, h3⟩ := of_decide_eq_true hs
  exact ⟨s, h1, h2, h3, dines_safely (by decide) hr⟩

end Dining
