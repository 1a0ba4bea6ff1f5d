import ConcurrencyCourse.Lib.Lock
import ConcurrencyCourse.Lib.Transition
import Mathlib.Data.Nat.ModEq

/-!
# `Semaphore` (tasks/cond/semaphore/semaphore.hpp)

| here | there |
| --- | --- |
| `tokens` | `tokens_` (41), a `size_t` |
| `.lock` … `.unlock` of `AcquirePc` | `Acquire` (23-29) |
| `.lock` … `.unlock` of `ReleasePc` | `Release` (31-37) |

A wait releases the mutex and goes to sleep in one step; whoever is woken, spuriously too, takes the mutex and tests
again. `acquires` and `releases` count the calls from their change of `tokens_` on: what is left of them is the
notification and the unlock.

Only the `Release` that finds no token notifies, but it wakes everybody, and nobody goes to sleep while there are
tokens: sleepers and tokens are there together only until that `Release` comes to its `notify_all` (`Inv.awake`).

`semaphore_correct` is the main theorem.
-/

namespace Cond.Semaphore

open Transition Function

inductive AcquirePc where
  | lock
  -- `tokens_ != 0` of the wait, `--tokens_`
  | test
  | asleep
  | take
  | unlock
  deriving DecidableEq, Repr

inductive ReleasePc where
  | lock
  -- `++tokens_`, `tokens_ == 1`
  | add
  | test
  | notifyAll
  | unlock
  deriving DecidableEq, Repr

inductive Pc where
  | idle
  | acquire (p : AcquirePc)
  | release (p : ReleasePc)
  deriving DecidableEq, Repr

structure State (ι : Type) where
  tokens : Nat
  /-- Who has locked `wait_mtx_`. -/
  owner : Option ι
  pc : ι → Pc
  acquires : Nat
  releases : Nat

inductive Act (ι : Type) where
  | acquire (i : ι)
  | release (i : ι)
  | step (i : ι)
  /-- The wait returns without a notification. -/
  | spurious (i : ι)

/-- The values of a `size_t`. -/
def size : Nat := 2 ^ 64

section model

variable {ι : Type} [DecidableEq ι]

def State.setPc (s : State ι) (i : ι) (p : Pc) : State ι := { s with pc := update s.pc i p }

def State.setOwner (s : State ι) (o : Option ι) : State ι := { s with owner := o }

/-- `--tokens_`. -/
def State.take (s : State ι) : State ι :=
  { s with tokens := if s.tokens = 0 then size - 1 else s.tokens - 1, acquires := s.acquires + 1 }

/-- `++tokens_`. -/
def State.add (s : State ι) : State ι := { s with tokens := (s.tokens + 1) % size, releases := s.releases + 1 }

def Pc.woken : Pc → Pc
  | .acquire .asleep => .acquire .lock
  | p => p

/-- `wait_cv_.notify_all()`. -/
def State.wake (s : State ι) : State ι := { s with pc := fun i => (s.pc i).woken }

def acquireStep (s : State ι) (i : ι) : AcquirePc → Option (State ι)
  | .lock => if s.owner = none then some ((s.setOwner (some i)).setPc i (.acquire .test)) else none
  | .test =>
    if s.tokens ≠ 0 then some (s.setPc i (.acquire .take))
    else some ((s.setOwner none).setPc i (.acquire .asleep))
  | .asleep => none
  | .take => some (s.take.setPc i (.acquire .unlock))
  | .unlock => some ((s.setOwner none).setPc i .idle)

def releaseStep (s : State ι) (i : ι) : ReleasePc → Option (State ι)
  | .lock => if s.owner = none then some ((s.setOwner (some i)).setPc i (.release .add)) else none
  | .add => some (s.add.setPc i (.release .test))
  | .test => some (s.setPc i (.release (if s.tokens = 1 then .notifyAll else .unlock)))
  | .notifyAll => some (s.wake.setPc i (.release .unlock))
  | .unlock => some ((s.setOwner none).setPc i .idle)

def threadStep (s : State ι) (i : ι) : Option (State ι) :=
  match s.pc i with
  | .idle => none
  | .acquire p => acquireStep s i p
  | .release p => releaseStep s i p

def step (s : State ι) : Act ι → Option (State ι)
  | .acquire i => match s.pc i with
    | .idle => some (s.setPc i (.acquire .lock))
    | _ => none
  | .release i => match s.pc i with
    | .idle => some (s.setPc i (.release .lock))
    | _ => none
  | .step i => threadStep s i
  | .spurious i => match s.pc i with
    | .acquire .asleep => some (s.setPc i (.acquire .lock))
    | _ => none

def init (tokens : Nat) : State ι := ⟨tokens, none, fun _ => .idle, 0, 0⟩

variable (ι) in
def system (tokens : Nat) : System (State ι) (Act ι) := ⟨fun s => s = init tokens, step⟩

end model

/-- The thread has locked `wait_mtx_`. -/
def Pc.inside : Pc → Bool
  | .acquire .test | .acquire .take | .acquire .unlock => true
  | .release .add | .release .test | .release .notifyAll | .release .unlock => true
  | _ => false

/-- A `Release` that will wake all sleepers, or is about to find out whether it has to. -/
def Pc.wakes (tokens : Nat) : Pc → Bool
  | .release .notifyAll => true
  | .release .test => tokens = 1
  | _ => false

structure Inv {ι : Type} (n : Nat) (s : State ι) : Prop where
  owned : Lock.Owned (fun p : Pc => p.inside = true) s.owner s.pc
  lt : s.tokens < size
  le : s.acquires ≤ n + s.releases
  total : s.tokens = (n + s.releases - s.acquires) % size
  take : ∀ i, s.pc i = .acquire .take → s.tokens ≠ 0
  awake : (∃ i, s.pc i = .acquire .asleep) → s.tokens ≠ 0 → ∃ i, (s.pc i).wakes s.tokens = true

section steps

variable {ι : Type} [DecidableEq ι] {n : Nat} {s s' : State ι} {a : Act ι} {i : ι} {q : Pc}

omit [DecidableEq ι] in
theorem inside_of_wakes {p : Pc} {k : Nat} (h : p.wakes k = true) : p.inside = true := by
  cases p with
  | release p => cases p <;> first | rfl | cases h
  | _ => cases h

omit [DecidableEq ι] in
/-- Nobody else has the mutex. -/
theorem Inv.alone (hi : Inv n s) (hin : (s.pc i).inside = true) {j : ι} (hj : j ≠ i) : (s.pc j).inside = false := by
  by_contra h
  rw [Bool.not_eq_false] at h
  have h1 := (hi.owned i).1 hin
  have h2 := (hi.owned j).1 h
  exact hj (Option.some.inj (h2.symm.trans h1))

/-- A step that leaves `tokens_` alone, and does not go to sleep while there are tokens. -/
theorem Inv.move {o : Option ι} (hi : Inv n s)
    (howned : Lock.Owned (fun p : Pc => p.inside = true) o (update s.pc i q))
    (htake : q = .acquire .take → s.tokens ≠ 0) (hsleep : q = .acquire .asleep → s.tokens = 0)
    (hwakes : (s.pc i).wakes s.tokens = true → q.wakes s.tokens = true) :
    Inv n ((s.setOwner o).setPc i q) where
  owned := howned
  lt := hi.lt
  le := hi.le
  total := hi.total
  take j hj := by
    change update s.pc i q j = _ at hj
    rcases eq_or_ne j i with rfl | hji
    · rw [update_self] at hj
      exact htake hj
    · rw [update_of_ne hji] at hj
      exact hi.take j hj
  awake := by
    rintro ⟨j, hj⟩ hne
    change update s.pc i q j = _ at hj
    have hasleep : ∃ j, s.pc j = .acquire .asleep := by
      rcases eq_or_ne j i with rfl | hji
      · rw [update_self] at hj
        exact absurd (hsleep hj) hne
      · rw [update_of_ne hji] at hj
        exact ⟨j, hj⟩
    obtain ⟨k, hk⟩ := hi.awake hasleep hne
    refine ⟨k, ?_⟩
    change (update s.pc i q k).wakes s.tokens = true
    rcases eq_or_ne k i with rfl | hki
    · rw [update_self]
      exact hwakes hk
    · rwa [update_of_ne hki]

omit [DecidableEq ι] in
theorem total_take {a b t : Nat} (h : t = (b - a) % size) (hle : a ≤ b) (ht : t ≠ 0) :
    a + 1 ≤ b ∧ t - 1 = (b - (a + 1)) % size := by
  unfold size at *
  omega

omit [DecidableEq ι] in
theorem total_add {a b t : Nat} (h : t = (b - a) % size) (hle : a ≤ b) : (t + 1) % size = (b + 1 - a) % size := by
  unfold size at *
  omega

/-- `--tokens_`. -/
theorem Inv.takeToken (hi : Inv n s) (hpc : s.pc i = .acquire .take) :
    Inv n (s.take.setPc i (.acquire .unlock)) := by
  have hin : (s.pc i).inside = true := by rw [hpc]; rfl
  obtain ⟨hle, htotal⟩ := total_take hi.total hi.le (hi.take i hpc)
  have hlt := hi.lt
  have hdec : s.take.tokens = s.tokens - 1 := if_neg (hi.take i hpc)
  refine ⟨hi.owned.stay (by rw [hpc]; decide), ?_, hle, hdec.trans htotal, fun j hj => ?_, ?_⟩
  · exact hdec.trans_lt (by omega)
  · change update s.pc i (.acquire .unlock) j = _ at hj
    rcases eq_or_ne j i with rfl | hji
    · rw [update_self] at hj
      cases hj
    · rw [update_of_ne hji] at hj
      have h := hi.alone hin hji
      rw [hj] at h
      cases h
  · -- while there were tokens nobody slept, for the `Release` that wakes has the mutex
    rintro ⟨j, hj⟩ -
    change update s.pc i (.acquire .unlock) j = _ at hj
    have hji : j ≠ i := by
      rintro rfl
      rw [update_self] at hj
      cases hj
    rw [update_of_ne hji] at hj
    obtain ⟨k, hk⟩ := hi.awake ⟨j, hj⟩ (hi.take i hpc)
    rcases eq_or_ne k i with rfl | hki
    · rw [hpc] at hk
      cases hk
    · have h := hi.alone hin hki
      rw [inside_of_wakes hk] at h
      cases h

/-- `++tokens_`. -/
theorem Inv.addToken (hi : Inv n s) (hpc : s.pc i = .release .add) : Inv n (s.add.setPc i (.release .test)) := by
  have hin : (s.pc i).inside = true := by rw [hpc]; rfl
  have hself : (s.add.setPc i (.release .test)).pc i = .release .test := update_self ..
  have htotal := total_add hi.total hi.le
  have hle := hi.le
  refine ⟨hi.owned.stay (by rw [hpc]; decide), Nat.mod_lt _ (by decide), Nat.le_succ_of_le hle, htotal,
    fun j hj => ?_, ?_⟩
  · change update s.pc i (.release .test) j = _ at hj
    rcases eq_or_ne j i with rfl | hji
    · rw [update_self] at hj
      cases hj
    · rw [update_of_ne hji] at hj
      have h := hi.alone hin hji
      rw [hj] at h
      cases h
  · rintro ⟨j, hj⟩ hne
    change update s.pc i (.release .test) j = _ at hj
    have hji : j ≠ i := by
      rintro rfl
      rw [update_self] at hj
      cases hj
    rw [update_of_ne hji] at hj
    have hzero : s.tokens = 0 := by
      by_contra hne
      obtain ⟨k, hk⟩ := hi.awake ⟨j, hj⟩ hne
      rcases eq_or_ne k i with rfl | hki
      · rw [hpc] at hk
        cases hk
      · have h := hi.alone hin hki
        rw [inside_of_wakes hk] at h
        cases h
    refine ⟨i, ?_⟩
    rw [hself]
    change decide ((s.tokens + 1) % size = 1) = true
    rw [hzero]
    exact decide_eq_true (Nat.mod_eq_of_lt (by unfold size; omega))

/-- `notify_all` leaves nobody asleep. -/
theorem Inv.notifyAll (hi : Inv n s) (hpc : s.pc i = .release .notifyAll) :
    Inv n (s.wake.setPc i (.release .unlock)) := by
  have hwoken : ∀ p : Pc, (p.woken.inside = true ↔ p.inside = true) ∧ p.woken ≠ .acquire .asleep ∧
      (p.woken = .acquire .take → p = .acquire .take) := by
    intro p
    cases p with
    | idle => decide
    | acquire p | release p => cases p <;> decide
  have howned : Lock.Owned (fun p : Pc => p.inside = true) s.owner s.wake.pc :=
    hi.owned.congr fun z => (hwoken (s.pc z)).1
  have hi' : (s.wake.pc i).inside = true := (hwoken _).1.2 (by rw [hpc]; rfl)
  refine ⟨howned.stay (iff_of_true rfl hi'), hi.lt, hi.le, hi.total, fun j hj => ?_, ?_⟩
  · change update s.wake.pc i (.release .unlock) j = _ at hj
    rcases eq_or_ne j i with rfl | hji
    · rw [update_self] at hj
      cases hj
    · rw [update_of_ne hji] at hj
      exact hi.take j ((hwoken _).2.2 hj)
  · rintro ⟨j, hj⟩ -
    change update s.wake.pc i (.release .unlock) j = _ at hj
    rcases eq_or_ne j i with rfl | hji
    · rw [update_self] at hj
      cases hj
    · rw [update_of_ne hji] at hj
      exact absurd hj (hwoken _).2.1

omit [DecidableEq ι] in
theorem inv_init (hn : n < size) : Inv n (init n : State ι) where
  owned _ := iff_of_false nofun nofun
  lt := hn
  le := Nat.zero_le _
  total := (Nat.mod_eq_of_lt hn).symm
  take _ h := nomatch h
  awake := fun ⟨_, h⟩ => nomatch h

theorem Inv.acquireStep {p : AcquirePc} (hi : Inv n s) (hpc : s.pc i = .acquire p)
    (hs : acquireStep s i p = some s') : Inv n s' := by
  cases p with
  | lock =>
    simp only [Semaphore.acquireStep] at hs
    split at hs
    · next hfree =>
      obtain rfl := Option.some.inj hs
      have howned := hi.owned
      rw [hfree] at howned
      exact hi.move (howned.take rfl) nofun nofun (by rw [hpc]; nofun)
    · cases hs
  | test =>
    simp only [Semaphore.acquireStep] at hs
    split at hs
    · next hne =>
      obtain rfl := Option.some.inj hs
      exact hi.move (o := s.owner) (hi.owned.stay (by rw [hpc]; decide)) (fun _ => hne) nofun (by rw [hpc]; nofun)
    · next hzero =>
      obtain rfl := Option.some.inj hs
      exact hi.move (hi.owned.drop (by rw [hpc]; rfl) nofun) nofun (fun _ => not_not.1 hzero) (by rw [hpc]; nofun)
  | asleep => cases hs
  | take =>
    obtain rfl := Option.some.inj hs
    exact hi.takeToken hpc
  | unlock =>
    obtain rfl := Option.some.inj hs
    exact hi.move (hi.owned.drop (by rw [hpc]; rfl) nofun) nofun nofun (by rw [hpc]; nofun)

theorem Inv.releaseStep {p : ReleasePc} (hi : Inv n s) (hpc : s.pc i = .release p)
    (hs : releaseStep s i p = some s') : Inv n s' := by
  cases p with
  | lock =>
    simp only [Semaphore.releaseStep] at hs
    split at hs
    · next hfree =>
      obtain rfl := Option.some.inj hs
      have howned := hi.owned
      rw [hfree] at howned
      exact hi.move (howned.take rfl) nofun nofun (by rw [hpc]; nofun)
    · cases hs
  | add =>
    obtain rfl := Option.some.inj hs
    exact hi.addToken hpc
  | test =>
    obtain rfl := Option.some.inj hs
    have hin : (s.pc i).inside = true := by rw [hpc]; rfl
    by_cases hone : s.tokens = 1
    · rw [if_pos hone]
      exact hi.move (o := s.owner) (hi.owned.stay (iff_of_true rfl hin)) nofun nofun fun _ => rfl
    · rw [if_neg hone]
      refine hi.move (o := s.owner) (hi.owned.stay (iff_of_true rfl hin)) nofun nofun ?_
      rw [hpc]
      intro h
      exact absurd (of_decide_eq_true h) hone
  | notifyAll =>
    obtain rfl := Option.some.inj hs
    exact hi.notifyAll hpc
  | unlock =>
    obtain rfl := Option.some.inj hs
    exact hi.move (hi.owned.drop (by rw [hpc]; rfl) nofun) nofun nofun (by rw [hpc]; nofun)

theorem Inv.step (hi : Inv n s) (hs : step s a = some s') : Inv n s' := by
  cases a with
  | acquire i | release i =>
    simp only [Semaphore.step] at hs
    split at hs
    · next hpc =>
      obtain rfl := Option.some.inj hs
      exact hi.move (o := s.owner) (hi.owned.stay (by rw [hpc]; decide)) nofun nofun (by rw [hpc]; nofun)
    · cases hs
  | step i =>
    simp only [Semaphore.step, threadStep] at hs
    split at hs
    · cases hs
    · next hpc => exact hi.acquireStep hpc hs
    · next hpc => exact hi.releaseStep hpc hs
  | spurious i =>
    simp only [Semaphore.step] at hs
    split at hs
    · next hpc =>
      obtain rfl := Option.some.inj hs
      exact hi.move (o := s.owner) (hi.owned.stay (by rw [hpc]; decide)) nofun nofun (by rw [hpc]; nofun)
    · cases hs

end steps

section main

variable {ι : Type} [DecidableEq ι]

/-- The semaphore, made with `n` tokens, after a run: `tokens_` is what was there and came in, less what was taken, as
long as a `size_t` holds that number; a token is taken only when there is one; and nobody sleeps while there are tokens
unless a `Release` that has the mutex is on its way to `notify_all`. -/
structure Correct (n : Nat) (s : State ι) : Prop where
  enough : s.acquires ≤ n + s.releases
  tokens : n + s.releases - s.acquires < size → s.tokens = n + s.releases - s.acquires
  wraps : s.tokens = (n + s.releases - s.acquires) % size
  take : ∀ i, s.pc i = .acquire .take → 0 < s.tokens
  awake : (∃ i, s.pc i = .acquire .asleep) → 0 < s.tokens →
    ∃ i, s.pc i = .release .notifyAll ∨ s.pc i = .release .test ∧ s.tokens = 1

/-- In every run, with any number of threads, from any number of tokens. -/
theorem semaphore_correct {n : Nat} (hn : n < size) {s : State ι} (r : Reach (system ι n) anyStep s) :
    Correct n s := by
  have hi : Inv n s := r.invariant (fun _ hs => hs ▸ inv_init hn) fun _ _ _ hi _ hs => hi.step hs
  refine ⟨hi.le, fun hlt => ?_, hi.total, fun i hpc => Nat.pos_of_ne_zero (hi.take i hpc), fun hsleep hpos => ?_⟩
  · rw [hi.total, Nat.mod_eq_of_lt hlt]
  · obtain ⟨i, hwakes⟩ := hi.awake hsleep (Nat.ne_of_gt hpos)
    refine ⟨i, ?_⟩
    generalize s.pc i = p at hwakes ⊢
    cases p with
    | release p =>
      cases p with
      | notifyAll => exact .inl rfl
      | test => exact .inr ⟨rfl, of_decide_eq_true hwakes⟩
      | _ => cases hwakes
    | _ => cases hwakes

/-- Thread 0 sleeps, and thread 1 releases a token: it is about to notify. -/
def sleepAndRelease : List (Act (Fin 3)) :=
  [.acquire 0, .step 0, .step 0, .release 1, .step 1, .step 1, .step 1]

theorem semaphore_correct_waking : ∃ s : State (Fin 3), Reach (system (Fin 3) 0) anyStep s ∧
    (s.pc 0 = .acquire .asleep ∧ s.tokens = 1) ∧ Correct 0 s := by
  obtain ⟨s, r, hp⟩ := Reach.of_exec_any (system (Fin 3) 0) sleepAndRelease
    (fun s => decide (s.pc 0 = .acquire .asleep ∧ s.tokens = 1)) (s := init 0) rfl (by decide)
  exact ⟨s, r, of_decide_eq_true hp, semaphore_correct (by decide) r⟩

/-- With as many tokens as a `size_t` can count, one more is none. -/
theorem release_wraps : ¬ ∀ n < size, ∀ s : State Unit, Reach (system Unit n) anyStep s →
    s.tokens = n + s.releases - s.acquires := by
  intro hall
  obtain ⟨s, r, hp⟩ := Reach.of_exec_any (system Unit (size - 1)) [.release (), .step (), .step ()]
    (fun s => decide (s.tokens = 0 ∧ s.releases = 1 ∧ s.acquires = 0)) (s := init (size - 1)) rfl (by decide +kernel)
  obtain ⟨h1, h2, h3⟩ := of_decide_eq_true hp
  have h := hall (size - 1) (by decide) s r
  rw [h1, h2, h3] at h
  exact absurd h (by decide)

end main

end Cond.Semaphore
