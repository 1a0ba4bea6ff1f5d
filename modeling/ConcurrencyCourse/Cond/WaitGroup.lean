import ConcurrencyCourse.Lib.Transition
import Mathlib.Logic.Function.Basic

/-!
# `WaitGroup` for threads (tasks/cond/wait_group/wait_group.hpp)

Any number of threads call `Add`, `Done` and `Wait`. A `Done` is called for something that an `Add` that has
returned has added.

| here | there |
| --- | --- |
| `State.counter`, `State.done` | `counter_`, `done_` (48-49) |
| `Pc.fetchAdd`, `Pc.storeZero` | `Add` (20-24); the count is cut to the 32 bits of `counter_` |
| `Pc.fetchSub` … `Pc.wakeAll` | `Done` (27-33) |
| `Pc.load`, `Pc.futexWait`, `Pc.asleep` | `Wait` (37-46); `futex::Wait` checks and goes to sleep in one step, and may wake up for no reason |

`Wait` looks at `done_` only, and `done_` is 1 until the `Add` that found the counter at 0 stores 0. Another
`Add` may return before that, and a `Wait` after it goes through (`waits_for_nothing`). In runs in which no
such `Wait` reads `done_` at that time, `Wait` waits (`wait_after_zero`).
-/

namespace Cond.WaitGroup

open Transition Function

inductive Pc where
  | idle
  -- `counter_.fetch_add(count)`, `done_.store(0)`
  | fetchAdd (count : UInt64)
  | storeZero (count : UInt64)
  -- `counter_.fetch_sub(1)`, `done_.store(1)`, `futex::WakeAll`
  | fetchSub
  | storeOne
  | wakeAll
  -- `done_.load() == 0`, `futex::Wait(done_, 0)`; `early`: see `State.early`
  | load (early : Bool)
  | futexWait (early : Bool)
  | asleep (early : Bool)
  -- `Wait` has returned
  | waited (early : Bool)
  deriving DecidableEq, Repr

structure State (ι : Type) where
  counter : UInt32
  done : UInt32
  pc : ι → Pc
  /-- What was added by calls that have returned, less the calls of `Done`. -/
  owed : Nat
  /-- Some `Add` of at least 1 has returned. -/
  added : Bool
  /-- The counter has come down, or round, to 0. -/
  zeroed : Bool

inductive Act (ι : Type) where
  | add (i : ι) (count : UInt64)
  | done (i : ι)
  | wait (i : ι)
  | leave (i : ι)
  | step (i : ι)
  /-- `futex::Wait` returns. -/
  | spurious (i : ι)

variable {ι : Type} [DecidableEq ι]

/-- `Wait` called now is called after an `Add` and before the counter is at zero. -/
def State.early (s : State ι) : Bool := s.added && !s.zeroed

def State.setPc (s : State ι) (i : ι) (p : Pc) : State ι := { s with pc := update s.pc i p }

def State.setDone (s : State ι) (x : UInt32) : State ι := { s with done := x }

/-- The counter goes to `x`. -/
def State.setCounter (s : State ι) (x : UInt32) : State ι :=
  { s with counter := x, zeroed := s.zeroed || (x == 0 && s.counter != 0) }

/-- `Add(count)` returns. -/
def State.addReturns (s : State ι) (count : UInt64) : State ι :=
  { s with owed := s.owed + count.toNat, added := s.added || count != 0 }

def Pc.woken : Pc → Pc
  | .asleep early => .load early
  | p => p

def State.wake (s : State ι) : State ι := { s with pc := fun i => (s.pc i).woken }

def threadStep (s : State ι) (i : ι) : Option (State ι) :=
  match s.pc i with
  | .idle | .waited _ | .asleep _ => none
  | .fetchAdd count =>
    let s' := s.setCounter (s.counter + count.toUInt32)
    if s.counter = 0 then some (s'.setPc i (.storeZero count))
    else some ((s'.addReturns count).setPc i .idle)
  | .storeZero count => some (((s.setDone 0).addReturns count).setPc i .idle)
  | .fetchSub =>
    let s' := s.setCounter (s.counter - 1)
    if s.counter - 1 = 0 then some (s'.setPc i .storeOne) else some (s'.setPc i .idle)
  | .storeOne => some ((s.setDone 1).setPc i .wakeAll)
  | .wakeAll => some (s.wake.setPc i .idle)
  | .load early => some (s.setPc i (if s.done = 0 then .futexWait early else .waited early))
  | .futexWait early => some (s.setPc i (if s.done = 0 then .asleep early else .load early))

def step (s : State ι) : Act ι → Option (State ι)
  | .add i count => match s.pc i with
    | .idle => some (s.setPc i (.fetchAdd count))
    | _ => none
  | .done i => match s.pc i with
    | .idle => if 0 < s.owed then some ({ s with owed := s.owed - 1 }.setPc i .fetchSub) else none
    | _ => none
  | .wait i => match s.pc i with
    | .idle => some (s.setPc i (.load s.early))
    | _ => none
  | .leave i => match s.pc i with
    | .waited _ => some (s.setPc i .idle)
    | _ => none
  | .step i => threadStep s i
  | .spurious i => match s.pc i with
    | .asleep early => some (s.setPc i (.load early))
    | _ => none

def init : State ι :=
  { counter := 0, done := 1, pc := fun _ => .idle, owed := 0, added := false, zeroed := false }

variable (ι) in
def system : System (State ι) (Act ι) := ⟨fun s => s = init, step⟩

/-! ### Until the counter is at zero -/

/-- Some `Add` has found the counter at zero, and has not stored yet. -/
def State.pending (s : State ι) : Prop := ∃ i count, s.pc i = .storeZero count

/-- In a `Wait` that is to wait. -/
def Pc.early : Pc → Bool
  | .load early | .futexWait early | .asleep early | .waited early => early
  | _ => false

/-- What is so as long as the counter has not come to zero. -/
structure Before (s : State ι) : Prop where
  /-- Nobody stores 1. -/
  noStore : ∀ i, s.pc i ≠ .storeOne
  /-- Nobody calls `Done` before an `Add` has returned. -/
  owed : 0 < s.owed → s.added = true
  sub : ∀ i, s.pc i = .fetchSub → s.added = true
  early : ∀ i, (s.pc i).early = true → s.added = true
  /-- Once something is added, `done_` is 0, or is about to be. -/
  done : s.counter ≠ 0 ∨ s.added = true → s.done = 0 ∨ s.pending
  /-- A `Wait` that counts has not returned. -/
  waits : ∀ i, s.pc i ≠ .waited true

/-- A `Wait` that is to wait reads `done_` while an `Add` that has found the counter at zero is still before
its store. -/
def readsTooSoon (s : State ι) : Act ι → Prop
  | .step i => s.pc i = .load true ∧ s.zeroed = false ∧ s.pending
  | _ => False

/-- The steps that are not such a read. -/
def careful (s : State ι) (a : Act ι) : Prop := ¬ readsTooSoon s a

section before

variable {s s' : State ι} {i : ι} {p : Pc}

/-- What holds of the place of `i`, and of the others, holds of all. -/
theorem forall_pc {P : ι → Pc → Prop} (hpc : s'.pc = update s.pc i p) (hp : P i p)
    (ho : ∀ j, j ≠ i → P j (s.pc j)) (j : ι) : P j (s'.pc j) := by
  rw [hpc]
  rcases eq_or_ne j i with rfl | hj
  · rwa [update_self]
  · rw [update_of_ne hj]
    exact ho j hj

/-- A step that adds nothing to what is pending, and stores nothing. -/
theorem Before.move (h : Before s) (hpc : s'.pc = update s.pc i p)
    (hadded : s.added = true → s'.added = true) (howed : 0 < s'.owed → s'.added = true)
    (hdone : s'.counter ≠ 0 ∨ s'.added = true → s'.done = 0 ∨ s'.pending) (h1 : p ≠ .storeOne)
    (h2 : p = .fetchSub → s'.added = true) (h3 : p.early = true → s'.added = true)
    (h4 : p ≠ .waited true) : Before s' where
  noStore := forall_pc (P := fun _ p => p ≠ .storeOne) hpc h1 fun j _ => h.noStore j
  owed := howed
  sub := forall_pc (P := fun _ p => p = .fetchSub → s'.added = true) hpc h2 fun j _ hj => hadded (h.sub j hj)
  early := forall_pc (P := fun _ p => p.early = true → s'.added = true) hpc h3
    fun j _ hj => hadded (h.early j hj)
  done := hdone
  waits := forall_pc (P := fun _ p => p ≠ .waited true) hpc h4 fun j _ => h.waits j

/-- Whoever is before its store stays there when another thread moves. -/
theorem pending_keep (hpc : s'.pc = update s.pc i p) (hi : ∀ count, s.pc i ≠ .storeZero count)
    (h : s.pending) : s'.pending := by
  obtain ⟨j, count, hj⟩ := h
  refine ⟨j, count, ?_⟩
  rw [hpc, update_of_ne]
  · exact hj
  · rintro rfl
    exact hi count hj

/-- A thread goes on, and nothing else changes. -/
theorem Before.setPc (h : Before s) (hi : ∀ count, s.pc i ≠ .storeZero count) (h1 : p ≠ .storeOne)
    (h2 : p = .fetchSub → s.added = true) (h3 : p.early = true → s.added = true) (h4 : p ≠ .waited true) :
    Before (s.setPc i p) :=
  h.move rfl id h.owed (fun hb => (h.done hb).imp_right (pending_keep rfl hi)) h1 h2 h3 h4

omit [DecidableEq ι] in
theorem Before.wake (h : Before s) : Before s.wake where
  noStore i hi := by
    refine h.noStore i ?_
    change (s.pc i).woken = _ at hi
    generalize s.pc i = p at hi
    cases p <;> first | exact hi | cases hi
  owed := h.owed
  sub i hi := by
    refine h.sub i ?_
    change (s.pc i).woken = _ at hi
    generalize s.pc i = p at hi
    cases p <;> first | exact hi | cases hi
  early i hi := by
    refine h.early i ?_
    change (s.pc i).woken.early = _ at hi
    generalize s.pc i = p at hi
    cases p <;> exact hi
  done hb := by
    refine (h.done hb).imp_right ?_
    rintro ⟨j, count, hj⟩
    exact ⟨j, count, by change (s.pc j).woken = _; rw [hj]; rfl⟩
  waits i hi := by
    refine h.waits i ?_
    change (s.pc i).woken = _ at hi
    generalize s.pc i = p at hi
    cases p <;> first | exact hi | cases hi

omit [DecidableEq ι] in
theorem Before.addReturns_owed (h : Before s) (count : UInt64) :
    0 < s.owed + count.toNat → (s.added || count != 0) = true := by
  intro hpos
  by_cases hc : count = 0
  · subst hc
    rw [h.owed hpos]
    rfl
  · rw [bne_iff_ne.2 hc, Bool.or_true]

/-- The step of a thread; while the counter has not come to zero after it, it had not before. -/
theorem Before.step (h : Before s) (hs : threadStep s i = some s') (hz : s'.zeroed = false)
    (hcareful : ¬ (s.pc i = .load true ∧ s.pending)) : Before s' := by
  unfold threadStep at hs
  split at hs
  · cases hs
  · cases hs
  · cases hs
  · next count hp =>
    dsimp only at hs
    split at hs
    · cases hs
      refine h.move rfl id h.owed (fun _ => .inr ⟨i, count, update_self ..⟩) nofun nofun nofun nofun
    · next hne =>
      cases hs
      have hi : ∀ count, s.pc i ≠ .storeZero count := by rw [hp]; nofun
      refine h.move rfl (fun ha => by simp [State.setPc, State.addReturns, State.setCounter, ha])
        (h.addReturns_owed count) (fun _ => ?_) nofun nofun nofun nofun
      exact (h.done (.inl hne)).imp_right (pending_keep rfl hi)
  · next count hp =>
    cases hs
    exact h.move rfl (fun ha => by simp [State.setPc, State.addReturns, State.setDone, ha])
      (h.addReturns_owed count) (fun _ => .inl rfl) nofun nofun nofun nofun
  · next hp =>
    have ha : s.added = true := h.sub i hp
    dsimp only at hs
    split at hs
    · next hzero =>
      -- the counter comes to zero
      cases hs
      have hne : s.counter ≠ 0 := by
        intro hc
        rw [hc] at hzero
        cases hzero
      simp [State.setPc, State.setCounter, hzero, hne] at hz
    · cases hs
      have hi : ∀ count, s.pc i ≠ .storeZero count := by rw [hp]; nofun
      refine h.move rfl (fun _ => ha) (fun _ => ha) (fun _ => ?_) nofun nofun nofun nofun
      exact (h.done (.inr ha)).imp_right (pending_keep rfl hi)
  · next hp => exact absurd hp (h.noStore i)
  · next hp =>
    cases hs
    refine h.wake.setPc (fun count => ?_) nofun nofun nofun nofun
    change (s.pc i).woken ≠ _
    rw [hp]
    nofun
  · next early hp =>
    cases hs
    have hi : ∀ count, s.pc i ≠ .storeZero count := by rw [hp]; nofun
    have hearly : early = true → s.added = true := fun he => h.early i (by rw [hp]; exact he)
    split
    · exact h.setPc hi nofun nofun hearly nofun
    · next hdone =>
      refine h.setPc hi nofun nofun hearly ?_
      rintro ⟨⟩
      have hd := h.done (.inr (hearly rfl))
      exact hcareful ⟨hp, hd.resolve_left hdone⟩
  · next early hp =>
    cases hs
    have hi : ∀ count, s.pc i ≠ .storeZero count := by rw [hp]; nofun
    have hearly : early = true → s.added = true := fun he => h.early i (by rw [hp]; exact he)
    split
    · exact h.setPc hi nofun nofun hearly nofun
    · exact h.setPc hi nofun nofun hearly nofun

theorem zeroed_mono (hs : threadStep s i = some s') (hz : s'.zeroed = false) : s.zeroed = false := by
  unfold threadStep at hs
  split at hs
  · cases hs
  · cases hs
  · cases hs
  · dsimp only at hs
    split at hs
    · cases hs; exact (Bool.or_eq_false_iff.1 hz).1
    · cases hs; exact (Bool.or_eq_false_iff.1 hz).1
  · cases hs; exact hz
  · dsimp only at hs
    split at hs
    · cases hs; exact (Bool.or_eq_false_iff.1 hz).1
    · cases hs; exact (Bool.or_eq_false_iff.1 hz).1
  · cases hs; exact hz
  · cases hs; exact hz
  · cases hs; exact hz
  · cases hs; exact hz

end before

omit [DecidableEq ι] in
theorem before_init : Before (init : State ι) where
  noStore := nofun
  owed := nofun
  sub := nofun
  early := nofun
  done h := h.elim (absurd rfl) nofun
  waits := nofun

/-- Until the counter comes to zero. -/
theorem before {s : State ι} (r : Reach (system ι) careful s) (hz : s.zeroed = false) : Before s := by
  refine r.invariant (I := fun s => s.zeroed = false → Before s) ?_ ?_ hz
  · rintro s rfl -
    exact before_init
  · intro s a s' h hok hstep hz
    cases a with
    | add i count =>
      simp only [system, step] at hstep
      split at hstep
      · next hp => cases hstep; exact (h hz).setPc (by rw [hp]; nofun) nofun nofun nofun nofun
      · cases hstep
    | done i =>
      simp only [system, step] at hstep
      split at hstep
      · next hp =>
        split at hstep
        · next hpos =>
          cases hstep
          have hb := h hz
          exact hb.move rfl id (fun _ => hb.owed hpos)
            (fun hd => (hb.done hd).imp_right (pending_keep rfl (by rw [hp]; nofun))) nofun
            (fun _ => hb.owed hpos) nofun nofun
        · cases hstep
      · cases hstep
    | wait i =>
      simp only [system, step] at hstep
      split at hstep
      · next hp =>
        cases hstep
        exact (h hz).setPc (by rw [hp]; nofun) nofun nofun (fun he => (Bool.and_eq_true_iff.1 he).1) nofun
      · cases hstep
    | leave i =>
      simp only [system, step] at hstep
      split at hstep
      · next hp => cases hstep; exact (h hz).setPc (by rw [hp]; nofun) nofun nofun nofun nofun
      · cases hstep
    | step i =>
      have hz' := zeroed_mono hstep hz
      exact (h hz').step hstep hz fun hc => hok ⟨hc.1, hz', hc.2⟩
    | spurious i =>
      simp only [system, step] at hstep
      split at hstep
      · next early hp =>
        cases hstep
        exact (h hz).setPc (by rw [hp]; nofun) nofun nofun
          (fun he => (h hz).early i (by rw [hp]; exact he)) nofun
      · cases hstep

/-! ### Main theorem -/

/-- A `Wait` called after an `Add` and before the counter is at zero returns after the counter has come to
zero, in every run in which no such `Wait` reads `done_` while the `Add` that found the counter at zero is
still before its store. -/
theorem wait_after_zero {s : State ι} (r : Reach (system ι) careful s) (i : ι)
    (hw : s.pc i = .waited true) : s.zeroed = true := by
  cases hz : s.zeroed with
  | true => rfl
  | false => exact absurd hw ((before r hz).waits i)

/-! ### Two runs -/

/-- While a thread is about to read `done_`, the other is idle, or is about to read it too. -/
def noneInAdd (s : State (Fin 2)) (_ : Act (Fin 2)) : Bool :=
  decide (∀ i, ∀ early, s.pc i = .load early → ∀ j, s.pc j = .idle ∨ s.pc j = .load early)

theorem careful_of_noneInAdd (s : State (Fin 2)) (a : Act (Fin 2)) (h : noneInAdd s a = true) :
    careful s a := by
  intro hsoon
  cases a with
  | step i =>
    obtain ⟨hi, -, j, count, hj⟩ := hsoon
    have hno := of_decide_eq_true h i true hi j
    rw [hj] at hno
    rcases hno with h | h <;> cases h
  | _ => exact hsoon

/-- A `Wait` goes to sleep after the `Add`, and the `Done` wakes it up. -/
theorem wait_after_zero_woken : ∃ s : State (Fin 2), s.pc 1 = .waited true ∧ s.zeroed = true := by
  obtain ⟨s, hr, hp⟩ := Reach.of_exec (system (Fin 2))
    [.add 0 1, .step 0, .step 0, .wait 1, .step 1, .step 1, .done 0, .step 0, .step 0, .step 0, .step 1]
    (fun s => s.pc 1 = .waited true) careful_of_noneInAdd (s := init) rfl (by decide)
  have hw : s.pc 1 = .waited true := of_decide_eq_true hp
  exact ⟨s, hw, wait_after_zero hr 1 hw⟩

/-- One thread's `Add` finds the counter at 0 and is paused; the other's `Add` returns, and its `Wait` finds
`done_` at 1. -/
theorem waits_for_nothing : ¬ ∀ s : State (Fin 2), Reach (system (Fin 2)) anyStep s →
    ∀ i, s.pc i = .waited true → s.zeroed = true := by
  intro hall
  obtain ⟨s, hr, hp⟩ := Reach.of_exec_any (system (Fin 2))
    [.add 0 1, .step 0, .add 1 1, .step 1, .wait 1, .step 1]
    (fun s => s.pc 1 = .waited true ∧ s.zeroed = false) (s := init) rfl (by decide)
  obtain ⟨hw, hz⟩ := of_decide_eq_true hp
  rw [hall s hr 1 hw] at hz
  cases hz

end Cond.WaitGroup
