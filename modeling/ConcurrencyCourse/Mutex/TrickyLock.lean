import ConcurrencyCourse.Lib.Progress
import ConcurrencyCourse.Lib.Threads

/-!
# `TrickyLock` (tasks/mutex/livelock/tricky_lock.hpp)

| here | there |
| --- | --- |
| `threadCount` | `thread_count_` (21), a `size_t`: `fetch_add` and `fetch_sub` are modulo `size` |
| `.add`, `.stepBack` | `Lock` (10-14) |
| `.unlock` | `Unlock` (16-18) |

`excludes_iff`: it excludes as long as the threads that count themselves at once do not make `thread_count_` wrap.
`livelocks_iff`: a free lock may stay free forever in spite of the threads in `Lock`, each of which takes step after
step: exactly when one of them is about to step back and is not the only one.
-/

namespace Mutex.TrickyLock

open Transition Threads Function

/-- The number of values of a `size_t`. -/
abbrev sizeT : Nat := 2 ^ 64

inductive Pc where
  | idle
  -- `thread_count_.fetch_add(1) > 0`, `thread_count_.fetch_sub(1)`
  | add
  | stepBack
  | critical
  -- `thread_count_.fetch_sub(1)`
  | unlock
  deriving DecidableEq, Repr

structure State (ι : Type) where
  threadCount : Nat
  pc : ι → Pc

inductive Act (ι : Type) where
  | lock (i : ι)
  | unlock (i : ι)
  | step (i : ι)
  deriving DecidableEq

section model

variable {ι : Type} [DecidableEq ι]

def State.setPc (s : State ι) (i : ι) (p : Pc) : State ι := { s with pc := update s.pc i p }

def State.fetchAdd (size : Nat) (s : State ι) : State ι := { s with threadCount := (s.threadCount + 1) % size }

def State.fetchSub (size : Nat) (s : State ι) : State ι := { s with threadCount := (s.threadCount + (size - 1)) % size }

def threadStep (size : Nat) (s : State ι) (i : ι) : Option (State ι) :=
  match s.pc i with
  | .idle | .critical => none
  | .add => some ((s.fetchAdd size).setPc i (if 0 < s.threadCount then .stepBack else .critical))
  | .stepBack => some ((s.fetchSub size).setPc i .add)
  | .unlock => some ((s.fetchSub size).setPc i .idle)

def step (size : Nat) (s : State ι) : Act ι → Option (State ι)
  | .lock i => match s.pc i with
    | .idle => some (s.setPc i .add)
    | _ => none
  | .unlock i => match s.pc i with
    | .critical => some (s.setPc i .unlock)
    | _ => none
  | .step i => threadStep size s i

def init : State ι := ⟨0, fun _ => .idle⟩

variable (ι) in
def system (size : Nat) : System (State ι) (Act ι) := ⟨fun s => s = init, step size⟩

end model

def Act.thread {ι : Type} : Act ι → ι
  | .lock i | .unlock i | .step i => i

/-- The thread counts in `thread_count_`. -/
def Pc.counted : Pc → Bool
  | .stepBack | .critical | .unlock => true
  | _ => false

/-- The thread has the lock. -/
def Pc.inside : Pc → Bool
  | .critical | .unlock => true
  | _ => false

/-- In `Lock`. -/
def Pc.contends : Pc → Bool
  | .add | .stepBack => true
  | _ => false

section invariant

variable {ι : Type} [DecidableEq ι] [Fintype ι] {size : Nat} {s s' : State ι} {a : Act ι} {i j : ι}

omit [DecidableEq ι] in
/-- How many threads count. -/
def State.counted (s : State ι) : Nat := count (fun p => p.counted = true) s.pc

theorem counted_setPc (p : Pc) : (s.setPc i p).counted + (s.pc i).counted.toNat = s.counted + p.counted.toNat :=
  count_toNat Pc.counted

/-- A counter that is what it should be, modulo `size`. -/
def Counts (size : Nat) (s : State ι) : Prop := s.threadCount = s.counted % size

theorem fetchSub_mod {c : Nat} (hsize : 0 < size) (hc : 0 < c) : (c % size + (size - 1)) % size = (c - 1) % size := by
  have hsplit : c + (size - 1) = c - 1 + size := by omega
  rw [Nat.mod_add_mod, hsplit, Nat.add_mod_right]

theorem Counts.setPc (h : Counts size s) {p : Pc} (hp : p.counted = (s.pc i).counted) : Counts size (s.setPc i p) := by
  have hcount := counted_setPc (s := s) (i := i) p
  rw [hp] at hcount
  exact h.trans (congrArg (· % size) (Nat.add_right_cancel hcount).symm)

theorem Counts.fetchAdd (h : Counts size s) {p : Pc} (hi : (s.pc i).counted = false) (hp : p.counted = true) :
    Counts size ((s.fetchAdd size).setPc i p) := by
  have hcount : ((s.fetchAdd size).setPc i p).counted + (s.pc i).counted.toNat = s.counted + p.counted.toNat :=
    counted_setPc (s := s.fetchAdd size) p
  rw [hi, hp] at hcount
  have hcount : ((s.fetchAdd size).setPc i p).counted = s.counted + 1 := hcount
  rw [Counts, hcount]
  change (s.threadCount + 1) % size = _
  rw [show s.threadCount = _ from h, Nat.mod_add_mod]

theorem Counts.fetchSub (h : Counts size s) (hsize : 0 < size) {p : Pc} (hi : (s.pc i).counted = true)
    (hp : p.counted = false) : Counts size ((s.fetchSub size).setPc i p) := by
  have hcount : ((s.fetchSub size).setPc i p).counted + (s.pc i).counted.toNat = s.counted + p.counted.toNat :=
    counted_setPc (s := s.fetchSub size) p
  rw [hi, hp] at hcount
  have hcount : ((s.fetchSub size).setPc i p).counted + 1 = s.counted := hcount
  rw [Counts]
  change (s.threadCount + (size - 1)) % size = _
  rw [show s.threadCount = _ from h, fetchSub_mod hsize (by omega), ← hcount, Nat.add_sub_cancel]

/-! ### Who is inside -/

omit [Fintype ι] in
theorem step_cases (hs : step size s a = some s') :
    (∃ i p, (s.pc i).counted = p.counted ∧ ((s.pc i).inside = p.inside) ∧ s' = s.setPc i p) ∨
    (∃ i, s.pc i = .add ∧ a = .step i ∧
      s' = (s.fetchAdd size).setPc i (if 0 < s.threadCount then .stepBack else .critical)) ∨
    (∃ i p, (s.pc i).counted = true ∧ p.counted = false ∧ p.inside = false ∧ s' = (s.fetchSub size).setPc i p) := by
  cases a with
  | lock i =>
    simp only [step] at hs
    split at hs
    · next hpc => exact .inl ⟨i, .add, by rw [hpc]; rfl, by rw [hpc]; rfl, (Option.some.inj hs).symm⟩
    · cases hs
  | unlock i =>
    simp only [step] at hs
    split at hs
    · next hpc => exact .inl ⟨i, .unlock, by rw [hpc]; rfl, by rw [hpc]; rfl, (Option.some.inj hs).symm⟩
    · cases hs
  | step i =>
    simp only [step, threadStep] at hs
    split at hs
    · cases hs
    · cases hs
    · next hpc => exact .inr (.inl ⟨i, hpc, rfl, (Option.some.inj hs).symm⟩)
    · next hpc => exact .inr (.inr ⟨i, .add, by rw [hpc]; rfl, rfl, rfl, (Option.some.inj hs).symm⟩)
    · next hpc => exact .inr (.inr ⟨i, .idle, by rw [hpc]; rfl, rfl, rfl, (Option.some.inj hs).symm⟩)

theorem Counts.step (h : Counts size s) (hsize : 0 < size) (hs : step size s a = some s') : Counts size s' := by
  rcases step_cases hs with ⟨i, p, hp, -, rfl⟩ | ⟨i, hpc, -, rfl⟩ | ⟨i, p, hi, hp, -, rfl⟩
  · exact h.setPc hp.symm
  · exact h.fetchAdd (by rw [hpc]; rfl) (by split <;> rfl)
  · exact h.fetchSub hsize hi hp

theorem counts_of_reach (hsize : 0 < size) (r : Reach (system ι size) anyStep s) : Counts size s := by
  refine r.invariant (fun s hs => ?_) fun _ _ _ h _ hs => h.step hsize hs
  rw [show s = init from hs]
  have hzero : (init : State ι).counted = 0 := count_eq_zero.2 fun _ => nofun
  rw [Counts, hzero, Nat.zero_mod]
  rfl

omit [Fintype ι] in
/-- The other threads stay where they are. -/
theorem pc_of_ne (hs : step size s a = some s') (hj : j ≠ a.thread) : s'.pc j = s.pc j := by
  cases a with
  | lock i =>
    simp only [TrickyLock.step] at hs
    split at hs
    · rw [← Option.some.inj hs]
      exact update_of_ne hj ..
    · cases hs
  | unlock i =>
    simp only [TrickyLock.step] at hs
    split at hs
    · rw [← Option.some.inj hs]
      exact update_of_ne hj ..
    · cases hs
  | step i =>
    simp only [TrickyLock.step, threadStep] at hs
    split at hs
    · cases hs
    · cases hs
    · rw [← Option.some.inj hs]
      exact update_of_ne hj ..
    · rw [← Option.some.inj hs]
      exact update_of_ne hj ..
    · rw [← Option.some.inj hs]
      exact update_of_ne hj ..

/-- One thread at most has the lock. -/
def Exclusive (s : State ι) : Prop := ∀ i j, (s.pc i).inside = true → (s.pc j).inside = true → i = j

omit [DecidableEq ι] [Fintype ι] in
theorem counted_of_inside {p : Pc} (h : p.inside = true) : p.counted = true := by
  cases p <;> first | rfl | cases h

omit [DecidableEq ι] in
/-- Somebody counts, and not everybody, so `thread_count_` is not 0. -/
theorem Counts.pos (h : Counts size s) (hcard : Fintype.card ι ≤ size) (hi : (s.pc i).counted = false)
    (hj : (s.pc j).counted = true) : 0 < s.threadCount := by
  have hpos : 0 < s.counted := count_pos (p := fun q : Pc => q.counted = true) (l := s.pc) hj
  have hlt : s.counted < Fintype.card ι :=
    count_lt_card (p := fun q : Pc => q.counted = true) (l := s.pc) (i := i) (by rw [hi]; exact Bool.false_ne_true)
  rw [h, Nat.mod_eq_of_lt (hlt.trans_le hcard)]
  exact hpos

omit [Fintype ι] in
/-- Nobody else enters. -/
theorem Exclusive.leave (h : Exclusive s) {p : Pc} (hpc : s'.pc = update s.pc i p)
    (hp : p.inside = true → (s.pc i).inside = true) : Exclusive s' := by
  have hback : ∀ j, (s'.pc j).inside = true → (s.pc j).inside = true := by
    intro j hj
    rw [hpc] at hj
    rcases eq_or_ne j i with rfl | hne
    · rw [update_self] at hj
      exact hp hj
    · rwa [update_of_ne hne] at hj
  exact fun j k hj hk => h j k (hback j hj) (hback k hk)

theorem Exclusive.step (h : Exclusive s) (hc : Counts size s) (hcard : Fintype.card ι ≤ size)
    (hs : step size s a = some s') : Exclusive s' := by
  rcases step_cases hs with ⟨i, p, -, hp, rfl⟩ | ⟨i, hpc, -, rfl⟩ | ⟨i, p, -, -, hp, rfl⟩
  · exact h.leave (i := i) rfl fun hin => hp.trans hin
  · split
    · exact h.leave (i := i) rfl nofun
    · next hzero =>
      -- nobody is inside
      have hnone : ∀ j, (s.pc j).inside = false := by
        intro j
        by_contra hin
        rw [Bool.not_eq_false] at hin
        exact hzero (hc.pos hcard (i := i) (by rw [hpc]; rfl) (counted_of_inside hin))
      have hself : ∀ j, (((s.fetchAdd size).setPc i .critical).pc j).inside = true → j = i := by
        intro j hj
        by_contra hne
        have hj : (update s.pc i .critical j).inside = true := hj
        rw [update_of_ne hne, hnone j] at hj
        cases hj
      exact fun j k hj hk => (hself j hj).trans (hself k hk).symm
  · refine h.leave (i := i) rfl fun hin => ?_
    rw [hp] at hin
    cases hin

theorem exclusive_of_reach (hsize : 0 < size) (hcard : Fintype.card ι ≤ size)
    (r : Reach (system ι size) anyStep s) : Exclusive s := by
  have h : Counts size s ∧ Exclusive s := by
    refine r.invariant (I := fun s => Counts size s ∧ Exclusive s) (fun s hs => ?_) fun _ _ _ h _ hs =>
      ⟨h.1.step hsize hs, h.2.step h.1 hcard hs⟩
    refine ⟨counts_of_reach hsize (.init hs), ?_⟩
    rw [show s = init from hs]
    exact nofun
  exact h.2

omit [Fintype ι] in
/-- A thread calls `Lock` and makes its first attempt. -/
theorem attempt (r : Reach (system ι size) anyStep s) (hi : s.pc i = .idle) :
    ∃ s', Reach (system ι size) anyStep s' ∧ s'.threadCount = (s.threadCount + 1) % size ∧
      s'.pc = update s.pc i (if 0 < s.threadCount then .stepBack else .critical) := by
  have hlock : (system ι size).step s (.lock i) = some (s.setPc i .add) := by
    change (match s.pc i with | .idle => some (s.setPc i .add) | _ => none) = _
    rw [hi]
  have hadd : (s.setPc i .add).pc i = .add := update_self ..
  have hstep : (system ι size).step (s.setPc i .add) (.step i) =
      some (((s.setPc i .add).fetchAdd size).setPc i (if 0 < s.threadCount then .stepBack else .critical)) := by
    change threadStep size (s.setPc i .add) i = _
    rw [threadStep, hadd]
    rfl
  exact ⟨_, (r.step trivial hlock).step trivial hstep, rfl, update_idem ..⟩

omit [Fintype ι] in
/-- One thread is inside, and `k` more have counted themselves. -/
theorem exists_crowded (e : Fin (size + 1) ↪ ι) {k : Nat} (hk : k < size) :
    ∃ s : State ι, Reach (system ι size) anyStep s ∧ s.threadCount = (k + 1) % size ∧ s.pc (e 0) = .critical ∧
      ∀ j : Fin (size + 1), k < j.val → s.pc (e j) = .idle := by
  induction k with
  | zero =>
    obtain ⟨s, hr, hcount, hpc⟩ := attempt (i := e 0) (Reach.init (M := system ι size) (s := init) rfl) rfl
    refine ⟨s, hr, hcount, by rw [hpc, update_self]; rfl, fun j hj => ?_⟩
    have hne : e j ≠ e 0 := fun h => Nat.ne_of_gt hj (congrArg Fin.val (e.injective h))
    rw [hpc, update_of_ne hne]
    rfl
  | succ k ih =>
    obtain ⟨s, hr, hcount, hinside, hidle⟩ := ih (Nat.lt_of_succ_lt hk)
    obtain ⟨s', hr', hcount', hpc⟩ := attempt (i := e ⟨k + 1, Nat.lt_succ_of_lt hk⟩) hr (hidle _ (Nat.lt_succ_self k))
    refine ⟨s', hr', by rw [hcount', hcount, Nat.mod_add_mod], ?_, fun j hj => ?_⟩
    · have hne : e 0 ≠ e ⟨k + 1, Nat.lt_succ_of_lt hk⟩ := fun h =>
        (Nat.succ_ne_zero k).symm (congrArg Fin.val (e.injective h))
      rw [hpc, update_of_ne hne, hinside]
    · have hne : e j ≠ e ⟨k + 1, Nat.lt_succ_of_lt hk⟩ := fun h =>
        Nat.ne_of_gt hj (congrArg Fin.val (e.injective h))
      rw [hpc, update_of_ne hne]
      exact hidle j (Nat.lt_of_succ_lt hj)

variable (ι) in
/-- With more threads than values, the counter comes back to 0 while a thread is inside. -/
theorem excludes_iff (hsize : 0 < size) :
    (∀ s : State ι, Reach (system ι size) anyStep s → Exclusive s) ↔ Fintype.card ι ≤ size := by
  refine ⟨fun h => ?_, fun hcard s r => exclusive_of_reach hsize hcard r⟩
  by_contra hcard
  obtain ⟨e⟩ : Nonempty (Fin (size + 1) ↪ ι) :=
    Function.Embedding.nonempty_of_card_le (by rw [Fintype.card_fin]; exact Nat.not_le.1 hcard)
  have hlast : size - 1 < size := Nat.sub_lt hsize Nat.one_pos
  obtain ⟨s, hr, hcount, hinside, hidle⟩ := exists_crowded e hlast
  obtain ⟨s', hr', -, hpc⟩ := attempt (i := e (Fin.last size)) hr (hidle _ hlast)
  have hzero : ¬ 0 < s.threadCount := by
    rw [hcount, Nat.sub_add_cancel hsize, Nat.mod_self]
    exact Nat.lt_irrefl 0
  rw [if_neg hzero] at hpc
  have hne : e 0 ≠ e (Fin.last size) := fun h => hsize.ne (congrArg Fin.val (e.injective h))
  refine hne (h s' hr' _ _ ?_ ?_)
  · rw [hpc, update_of_ne hne, hinside]
    rfl
  · rw [hpc, update_self]
    rfl

theorem excludes_iff_two : (∀ s : State (Fin 2), Reach (system (Fin 2) sizeT) anyStep s → Exclusive s) ∧
    ¬ ∀ s : State (Fin 2), Reach (system (Fin 2) 1) anyStep s → Exclusive s :=
  ⟨(excludes_iff (Fin 2) (by decide)).2 (by decide), fun h => absurd ((excludes_iff (Fin 2) (by decide)).1 h) (by decide)⟩

end invariant

/-! ### Livelock -/

section livelock

variable {ι : Type} [DecidableEq ι] [Fintype ι] {size : Nat} {s s' : State ι} {a : Act ι} {i j k : ι}

/-- Nobody has the lock. -/
def Free (s : State ι) : Prop := ∀ i, (s.pc i).inside = false

instance (s : State ι) : Decidable (Free s) := inferInstanceAs (Decidable (∀ i, (s.pc i).inside = false))

/-- The lock stays free forever although every thread in `Lock` takes step after step. -/
def LivesLocked (size : Nat) (s : State ι) : Prop :=
  ∃ r : Infinite (system ι size), r.state 0 = s ∧ (∀ n, Free (r.state n)) ∧ (∀ n, ∃ i, r.act n = .step i) ∧
    ∀ i, (s.pc i).contends = true → ∀ n, ∃ m, n ≤ m ∧ r.act m = .step i

/-- The lock is free, and the action does not take it. -/
def staysFree (s : State ι) : Act ι → Bool := fun _ => decide (Free s)

omit [Fintype ι] in
theorem step_add (hi : s.pc i = .add) (hpos : 0 < s.threadCount) :
    step size s (.step i) = some ((s.fetchAdd size).setPc i .stepBack) := by
  simp only [step, threadStep, hi, if_pos hpos]

omit [Fintype ι] in
theorem step_stepBack (hi : s.pc i = .stepBack) :
    step size s (.step i) = some ((s.fetchSub size).setPc i .add) := by
  simp only [step, threadStep, hi]

omit [DecidableEq ι] [Fintype ι] in
theorem contends_cases {p : Pc} (h : p.contends = true) : p = .add ∨ p = .stepBack := by
  cases p <;> first | exact .inl rfl | exact .inr rfl | cases h

omit [Fintype ι] in
theorem Free.update (h : Free s) {p : Pc} (hpc : s'.pc = Function.update s.pc i p) (hp : p.inside = false) :
    Free s' := by
  intro j
  rw [hpc]
  rcases eq_or_ne j i with rfl | hne
  · rwa [update_self]
  · rw [update_of_ne hne]
    exact h j

omit [DecidableEq ι] in
theorem Counts.lt (h : Counts size s) (hsize : 0 < size) : s.threadCount < size := by
  rw [h]
  exact Nat.mod_lt _ hsize

theorem exec_one (hfree : Free s) (h : step size s (.step k) = some s') :
    exec (system ι size) staysFree s [.step k] = some s' := by
  have hs : staysFree s (.step k) = true := decide_eq_true hfree
  rw [exec_step hs h, exec_nil]

theorem exec_two {s₁ : State ι} (hfree : Free s) (h1 : step size s (.step k) = some s₁) (hfree₁ : Free s₁)
    (h2 : step size s₁ (.step k) = some s') : exec (system ι size) staysFree s [.step k, .step k] = some s' := by
  change exec (system ι size) staysFree s ([.step k] ++ [.step k]) = some s'
  rw [exec_append, exec_one hfree h1, Option.bind_some, exec_one hfree₁ h2]

/-- While another one has counted itself, a thread in `Lock` steps back and forth. -/
theorem back_and_forth (hc : Counts size s) (hsize : 0 < size) (hcard : Fintype.card ι ≤ size) (hfree : Free s)
    (hj : (s.pc j).counted = true) (hne : k ≠ j) (hk : (s.pc k).contends = true) :
    exec (system ι size) staysFree s [.step k, .step k] = some s := by
  have hlt := hc.lt hsize
  rcases contends_cases hk with hk | hk
  · have h1 : step size s (.step k) = some ((s.fetchAdd size).setPc k .stepBack) :=
      step_add hk (hc.pos hcard (i := k) (by rw [hk]; rfl) hj)
    have hk₁ : ((s.fetchAdd size).setPc k .stepBack).pc k = .stepBack := update_self ..
    refine exec_two hfree h1 (hfree.update (i := k) rfl rfl) ((step_stepBack hk₁).trans (congrArg some ?_))
    have hcount : ((s.threadCount + 1) % size + (size - 1)) % size = s.threadCount := by
      rw [fetchSub_mod hsize (Nat.succ_pos _), Nat.succ_sub_one, Nat.mod_eq_of_lt hlt]
    have hpc : update (update s.pc k .stepBack) k .add = s.pc := by rw [update_idem, ← hk, update_eq_self]
    exact congrArg₂ State.mk hcount hpc
  · have h1 : step size s (.step k) = some ((s.fetchSub size).setPc k .add) := step_stepBack hk
    have hc₁ := hc.fetchSub hsize (i := k) (p := .add) (by rw [hk]; rfl) rfl
    have hk₁ : ((s.fetchSub size).setPc k .add).pc k = .add := update_self ..
    have hj₁ : (((s.fetchSub size).setPc k .add).pc j).counted = true :=
      (congrArg Pc.counted (update_of_ne hne.symm ..)).trans hj
    have hpos := hc₁.pos hcard (i := k) (by rw [hk₁]; rfl) hj₁
    refine exec_two hfree h1 (hfree.update (i := k) rfl rfl) ((step_add hk₁ hpos).trans (congrArg some ?_))
    have hcount : ((s.threadCount + (size - 1)) % size + 1) % size = s.threadCount := by
      rw [Nat.mod_add_mod, Nat.add_assoc, Nat.sub_add_cancel hsize, Nat.add_mod_right, Nat.mod_eq_of_lt hlt]
    have hpc : update (update s.pc k .add) k .stepBack = s.pc := by rw [update_idem, ← hk, update_eq_self]
    exact congrArg₂ State.mk hcount hpc

/-- What thread `k` does in its turn; `i` is about to step back, and `j` counts itself meanwhile. -/
def round (s : State ι) (i j k : ι) : List (Act ι) :=
  if k = i ∧ s.pc j = .add then [.step j, .step k, .step k, .step j] else [.step k, .step k]

theorem exec_round (hc : Counts size s) (hsize : 0 < size) (hcard : Fintype.card ι ≤ size) (hfree : Free s)
    (hi : s.pc i = .stepBack) (hne : i ≠ j) (hj : (s.pc j).contends = true) (hk : (s.pc k).contends = true) :
    exec (system ι size) staysFree s (round s i j k) = some s := by
  have hcounted : (s.pc i).counted = true := by rw [hi]; rfl
  rw [round]
  split
  · next h =>
    obtain ⟨rfl, hadd⟩ := h
    have h1 : step size s (.step j) = some ((s.fetchAdd size).setPc j .stepBack) :=
      step_add hadd (hc.pos hcard (i := j) (by rw [hadd]; rfl) hcounted)
    have hc₁ := hc.step hsize h1
    have hfree₁ : Free ((s.fetchAdd size).setPc j .stepBack) := hfree.update (i := j) rfl rfl
    have hj₁ : ((s.fetchAdd size).setPc j .stepBack).pc j = .stepBack := update_self ..
    have hk₁ : ((s.fetchAdd size).setPc j .stepBack).pc k = .stepBack := (update_of_ne hne ..).trans hi
    have hround := back_and_forth hc₁ hsize hcard hfree₁ (j := j) (by rw [hj₁]; rfl) hne (by rw [hk₁]; rfl)
    have hback := back_and_forth hc hsize hcard hfree hcounted hne.symm hj
    -- the attempts of `k` are between the two steps of `j`
    change exec (system ι size) staysFree s ([.step j] ++ ([.step k, .step k] ++ [.step j])) = some s
    change exec (system ι size) staysFree s ([.step j] ++ [.step j]) = some s at hback
    rw [exec_append, exec_one hfree h1, Option.bind_some] at hback ⊢
    rw [exec_append, hround, Option.bind_some, hback]
  · next h =>
    rcases eq_or_ne k i with rfl | hki
    · rcases contends_cases hj with hadd | hback
      · exact absurd ⟨rfl, hadd⟩ h
      · exact back_and_forth hc hsize hcard hfree (j := j) (by rw [hback]; rfl) hne hk
    · exact back_and_forth hc hsize hcard hfree hcounted hki hk

/-- All the threads in `Lock` in turn. -/
theorem livesLocked_of_two (r : Reach (system ι size) anyStep s) (hsize : 0 < size) (hcard : Fintype.card ι ≤ size)
    (hfree : Free s) (hi : s.pc i = .stepBack) (hne : i ≠ j) (hj : (s.pc j).contends = true) : LivesLocked size s := by
  have hc := counts_of_reach hsize r
  let contenders := (Finset.univ.filter fun k => (s.pc k).contends = true).toList
  have hmem : ∀ k, k ∈ contenders ↔ (s.pc k).contends = true := fun k => by
    rw [Finset.mem_toList, Finset.mem_filter]
    exact and_iff_right (Finset.mem_univ k)
  have hexec : exec (system ι size) staysFree s (contenders.flatMap (round s i j)) = some s :=
    exec_flatMap fun k hk => exec_round hc hsize hcard hfree hi hne hj ((hmem k).1 hk)
  have hstep : ∀ k, (s.pc k).contends = true → Act.step k ∈ contenders.flatMap (round s i j) := by
    intro k hk
    refine List.mem_flatMap.2 ⟨k, (hmem k).2 hk, ?_⟩
    rw [round]
    split
    · exact List.mem_cons_of_mem _ List.mem_cons_self
    · exact List.mem_cons_self
  have hpos := List.length_pos_of_mem (hstep j hj)
  have hrun := exec_noCheck hexec
  refine ⟨.repeat r hrun hpos, Infinite.repeat_zero r hrun hpos, fun n => ?_, fun n => ?_,
    fun k hk n => Infinite.repeat_often r hrun hpos (hstep k hk) n⟩
  · exact of_decide_eq_true (around_check hexec (List.getElem?_eq_getElem (Nat.mod_lt n hpos)))
  · have hall : ∀ a ∈ contenders.flatMap (round s i j), ∃ k, a = .step k := by
      intro a ha
      obtain ⟨k, -, hk⟩ := List.mem_flatMap.1 ha
      rw [round] at hk
      split at hk
      · simp only [List.mem_cons, List.not_mem_nil, or_false] at hk
        rcases hk with rfl | rfl | rfl | rfl
        · exact ⟨_, rfl⟩
        · exact ⟨_, rfl⟩
        · exact ⟨_, rfl⟩
        · exact ⟨_, rfl⟩
      · simp only [List.mem_cons, List.not_mem_nil, or_false] at hk
        rcases hk with rfl | rfl
        · exact ⟨_, rfl⟩
        · exact ⟨_, rfl⟩
    exact hall _ (List.getElem_mem _)

omit [Fintype ι] in
/-- In a free lock only a thread in `Lock` can go on. -/
theorem Free.step (hfree : Free s) (hs : step size s (.step k) = some s') (hfree' : Free s') :
    s.pc k = .stepBack ∧ s' = (s.fetchSub size).setPc k .add ∨
      s.pc k = .add ∧ 0 < s.threadCount ∧ s' = (s.fetchAdd size).setPc k .stepBack := by
  have hout := hfree k
  simp only [TrickyLock.step, threadStep] at hs
  split at hs
  · cases hs
  · cases hs
  · next hk =>
    split at hs
    · next hpos => exact .inr ⟨hk, hpos, (Option.some.inj hs).symm⟩
    · obtain rfl := Option.some.inj hs
      have hin := hfree' k
      have hself : ((s.fetchAdd size).setPc k .critical).pc k = .critical := update_self ..
      rw [hself] at hin
      cases hin
  · next hk => exact .inl ⟨hk, (Option.some.inj hs).symm⟩
  · next hk =>
    rw [hk] at hout
    cases hout

omit [DecidableEq ι] in
/-- In a free lock only the threads that are about to step back count. -/
theorem Free.stepBack (hfree : Free s) (hc : Counts size s) (hpos : 0 < s.threadCount) : ∃ i, s.pc i = .stepBack := by
  by_contra hno
  have hzero : s.counted = 0 := count_eq_zero.2 fun i hi => by
    have hout := hfree i
    cases hpc : s.pc i with
    | stepBack => exact hno ⟨i, hpc⟩
    | idle =>
      rw [hpc] at hi
      cases hi
    | add =>
      rw [hpc] at hi
      cases hi
    | critical =>
      rw [hpc] at hout
      cases hout
    | unlock =>
      rw [hpc] at hout
      cases hout
  rw [hc, hzero, Nat.zero_mod] at hpos
  exact Nat.lt_irrefl 0 hpos

/-- A free lock may stay free, although every thread in `Lock` takes step after step, if and only if one of them is
about to step back and there is another one. -/
theorem livelocks_iff (hsize : 0 < size) (hcard : Fintype.card ι ≤ size) (r : Reach (system ι size) anyStep s)
    (hfree : Free s) : LivesLocked size s ↔
      ∃ i j, i ≠ j ∧ s.pc i = .stepBack ∧ (s.pc j).contends = true := by
  refine ⟨?_, fun ⟨i, j, hne, hi, hj⟩ => livesLocked_of_two r hsize hcard hfree hi hne hj⟩
  rintro ⟨run, rfl, hfrees, hsteps, -⟩
  have hc := counts_of_reach hsize (run.reach 0)
  obtain ⟨k, hk⟩ := hsteps 0
  obtain ⟨k', hk'⟩ := hsteps 1
  have h0 : TrickyLock.step size (run.state 0) (.step k) = some (run.state 1) := hk ▸ run.step 0
  have h1 : TrickyLock.step size (run.state 1) (.step k') = some (run.state 2) := hk' ▸ run.step 1
  rcases (hfrees 0).step h0 (hfrees 1) with ⟨hback, hs₁⟩ | ⟨hadd, hpos, -⟩
  · by_contra hno
    have halone : ∀ j, j ≠ k → ((run.state 0).pc j).contends = false := by
      intro j hj
      by_contra hc
      exact hno ⟨k, j, hj.symm, hback, Bool.eq_true_of_not_eq_false hc⟩
    have hself : (run.state 1).pc k = .add := by rw [hs₁]; exact update_self ..
    have hothers : ∀ j, j ≠ k → (run.state 1).pc j = (run.state 0).pc j := by
      intro j hj
      rw [hs₁]
      exact update_of_ne hj ..
    have hfew : ∀ j, ((run.state 1).pc j).contends = true → j = k := by
      intro j hj
      by_contra hne
      rw [hothers j hne, halone j hne] at hj
      cases hj
    -- `k` makes the next step, too, and nobody counts
    rcases (hfrees 1).step h1 (hfrees 2) with ⟨hpc, -⟩ | ⟨-, hpos, -⟩
    · obtain rfl := hfew k' (by rw [hpc]; rfl)
      rw [hself] at hpc
      cases hpc
    · obtain ⟨i, hi⟩ := (hfrees 1).stepBack (hc.step hsize h0) hpos
      obtain rfl := hfew i (by rw [hi]; rfl)
      rw [hself] at hi
      cases hi
  · obtain ⟨i, hi⟩ := (hfrees 0).stepBack hc hpos
    refine ⟨i, k, ?_, hi, by rw [hadd]; rfl⟩
    rintro rfl
    rw [hi] at hadd
    cases hadd

/-- Thread 0 has the lock, thread 1 fails, thread 0 unlocks and is back. -/
def comeBack : List (Act (Fin 2)) := [.lock 0, .step 0, .lock 1, .step 1, .unlock 0, .step 0, .lock 0]

theorem livelocks_iff_two : ∃ s : State (Fin 2), (Free s ∧ s.pc 0 = .add ∧ s.pc 1 = .stepBack) ∧
    LivesLocked sizeT s := by
  obtain ⟨s, hr, hp⟩ := Reach.of_exec_any (system (Fin 2) sizeT) comeBack
    (fun s => decide (Free s ∧ s.pc 0 = .add ∧ s.pc 1 = .stepBack)) (s := init) rfl (by decide)
  obtain ⟨hfree, h0, h1⟩ := of_decide_eq_true hp
  exact ⟨s, ⟨hfree, h0, h1⟩, (livelocks_iff (by decide) (by decide) hr hfree).2
    ⟨1, 0, by decide, h1, by rw [h0]; rfl⟩⟩

end livelock

end Mutex.TrickyLock
