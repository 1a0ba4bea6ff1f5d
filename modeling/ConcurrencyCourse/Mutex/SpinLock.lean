import ConcurrencyCourse.Lib.Fairness
import ConcurrencyCourse.Lib.Lock

/-!
# `TASSpinLock` (tasks/mutex/spinlock/spinlock.hpp) and `SpinLock` (tasks/tasks/executors/exe/threads/spinlock.hpp)

| here | there |
| --- | --- |
| `locked` | `locked_`, a flag that is exchanged |
| `.lock` | `Lock`: an exchange that finds the flag set is repeated |
| `.tryLock`, `.failed` | `TryLock`: one exchange |
| `.unlock` | `Unlock`: the store |

Fairness to each thread is enough for the lock to be taken again and again, and not enough for every thread that waits
to get it (`taken_but_not_by_everybody`): compare `TicketLock`.
-/

namespace Mutex.SpinLock

open Transition Function Lock

inductive Pc where
  | idle
  | lock
  | tryLock
  -- `TryLock` has returned `false`
  | failed
  | holding
  | unlock
  deriving DecidableEq, Repr

structure State (ι : Type) where
  locked : Bool
  pc : ι → Pc

inductive Act (ι : Type) where
  | lock (i : ι)
  | tryLock (i : ι)
  | unlock (i : ι)
  | step (i : ι)

section model

variable {ι : Type} [DecidableEq ι]

def State.setPc (s : State ι) (i : ι) (p : Pc) : State ι := { s with pc := update s.pc i p }

def threadStep (s : State ι) (i : ι) : Option (State ι) :=
  match s.pc i with
  | .idle | .holding => none
  | .lock => some ({ s with locked := true }.setPc i (if s.locked then .lock else .holding))
  | .tryLock => some ({ s with locked := true }.setPc i (if s.locked then .failed else .holding))
  | .failed => some (s.setPc i .idle)
  | .unlock => some ({ s with locked := false }.setPc i .idle)

def step (s : State ι) : Act ι → Option (State ι)
  | .lock i => match s.pc i with
    | .idle => some (s.setPc i .lock)
    | _ => none
  | .tryLock i => match s.pc i with
    | .idle => some (s.setPc i .tryLock)
    | _ => none
  | .unlock i => match s.pc i with
    | .holding => some (s.setPc i .unlock)
    | _ => none
  | .step i => threadStep s i

def init : State ι := ⟨false, fun _ => .idle⟩

variable (ι) in
def system : System (State ι) (Act ι) := ⟨fun s => s = init, step⟩

end model

/-- The thread has the lock. -/
def Pc.inside : Pc → Bool
  | .holding | .unlock => true
  | _ => false

def Act.thread {ι : Type} : Act ι → ι
  | .lock i | .tryLock i | .unlock i | .step i => i

section invariant

variable {ι : Type} [DecidableEq ι] {s s' : State ι} {a : Act ι} {i j : ι}

/-- The flag is set exactly while somebody has the lock, and only one has it. -/
structure Inv (s : State ι) : Prop where
  guards : Guards s.locked fun i => (s.pc i).inside = true
  held : s.locked = true → ∃ i, (s.pc i).inside = true

/-- What a step does. -/
theorem step_cases (hs : step s a = some s') :
    (∃ p, p.inside = (s.pc a.thread).inside ∧ s' = s.setPc a.thread p) ∨
    ((s.pc a.thread).inside = false ∧ s.locked = false ∧ s' = { s with locked := true }.setPc a.thread .holding) ∨
    (s.pc a.thread = .unlock ∧ s' = { s with locked := false }.setPc a.thread .idle) := by
  have hlocked : s.locked = true → ({ s with locked := true } : State ι) = s := by
    intro h
    rw [← h]
  cases a with
  | lock i =>
    simp only [step] at hs
    split at hs
    · next hpc => exact .inl ⟨.lock, by rw [Act.thread, hpc]; rfl, (Option.some.inj hs).symm⟩
    · cases hs
  | tryLock i =>
    simp only [step] at hs
    split at hs
    · next hpc => exact .inl ⟨.tryLock, by rw [Act.thread, hpc]; rfl, (Option.some.inj hs).symm⟩
    · cases hs
  | unlock i =>
    simp only [step] at hs
    split at hs
    · next hpc => exact .inl ⟨.unlock, by rw [Act.thread, hpc]; rfl, (Option.some.inj hs).symm⟩
    · cases hs
  | step i =>
    simp only [step, threadStep] at hs
    split at hs
    · cases hs
    · cases hs
    · next hpc =>
      obtain rfl := Option.some.inj hs
      split
      · next h => exact .inl ⟨.lock, by rw [Act.thread, hpc], by rw [hlocked h]; rfl⟩
      · next h => exact .inr (.inl ⟨by rw [Act.thread, hpc]; rfl, Bool.eq_false_of_not_eq_true h, rfl⟩)
    · next hpc =>
      obtain rfl := Option.some.inj hs
      split
      · next h => exact .inl ⟨.failed, by rw [Act.thread, hpc]; rfl, by rw [hlocked h]; rfl⟩
      · next h => exact .inr (.inl ⟨by rw [Act.thread, hpc]; rfl, Bool.eq_false_of_not_eq_true h, rfl⟩)
    · next hpc => exact .inl ⟨.idle, by rw [Act.thread, hpc]; rfl, (Option.some.inj hs).symm⟩
    · next hpc => exact .inr (.inr ⟨hpc, (Option.some.inj hs).symm⟩)

theorem pc_setPc_self {p : Pc} : (s.setPc i p).pc i = p := update_self ..

theorem pc_setPc_of_ne {p : Pc} (h : j ≠ i) : (s.setPc i p).pc j = s.pc j := update_of_ne h ..

/-- Who is inside after a step of thread `i`. -/
theorem inside_setPc (s : State ι) (i : ι) (p : Pc) (j : ι) :
    j = i ∧ ((s.setPc i p).pc j).inside = p.inside ∨ j ≠ i ∧ ((s.setPc i p).pc j).inside = (s.pc j).inside := by
  rcases eq_or_ne j i with rfl | hne
  · exact .inl ⟨rfl, congrArg Pc.inside pc_setPc_self⟩
  · exact .inr ⟨hne, congrArg Pc.inside (pc_setPc_of_ne hne)⟩

theorem Inv.step (hi : Inv s) (hs : step s a = some s') : Inv s' := by
  rcases step_cases hs with ⟨p, hp, rfl⟩ | ⟨-, hfree, rfl⟩ | ⟨hpc, rfl⟩
  · have hsame : ∀ j, ((s.setPc a.thread p).pc j).inside = (s.pc j).inside := by
      intro j
      rcases inside_setPc s a.thread p j with ⟨rfl, hj⟩ | ⟨-, hj⟩
      · exact hj.trans hp
      · exact hj
    refine ⟨hi.guards.mono fun j hj => (hsame j).symm.trans hj, fun h => ?_⟩
    obtain ⟨j, hj⟩ := hi.held h
    exact ⟨j, (hsame j).trans hj⟩
  · refine ⟨hi.guards.acquire hfree (x := a.thread) fun j hj => ?_, fun _ => ⟨a.thread, ?_⟩⟩
    · rcases inside_setPc { s with locked := true } a.thread .holding j with ⟨rfl, -⟩ | ⟨-, hsame⟩
      · exact .inr rfl
      · exact .inl (hsame.symm.trans hj)
    · exact congrArg Pc.inside pc_setPc_self
  · refine ⟨hi.guards.release (x := a.thread) (by rw [hpc]; rfl) (fun j hj => ?_) false, nofun⟩
    rcases inside_setPc { s with locked := false } a.thread .idle j with ⟨rfl, hsame⟩ | ⟨hne, hsame⟩
    · exact absurd (hsame.symm.trans hj) Bool.false_ne_true
    · exact ⟨hsame.symm.trans hj, hne⟩

theorem reach_inv (r : Reach (system ι) anyStep s) : Inv s := by
  refine r.invariant (fun s hs => ?_) fun _ _ _ hi _ hs => hi.step hs
  rw [show s = init from hs]
  exact ⟨⟨nofun, nofun⟩, nofun⟩

end invariant

/-! ### Progress -/

section progress

variable {ι : Type} [DecidableEq ι] {s s' : State ι} {a : Act ι} {i j : ι}

/-- Thread `i` goes on with its call, or leaves the critical section. -/
def goesOn (i : ι) (a : Act ι) : Prop := a = .step i ∨ a = .unlock i

omit [DecidableEq ι] in
theorem thread_of_goesOn (h : goesOn j a) : a.thread = j := by
  rcases h with rfl | rfl <;> rfl

/-- The other threads stay where they are. -/
theorem pc_of_ne (hs : step s a = some s') (hj : j ≠ a.thread) : s'.pc j = s.pc j := by
  rcases step_cases hs with ⟨p, -, rfl⟩ | ⟨-, -, rfl⟩ | ⟨-, rfl⟩
  · exact update_of_ne hj ..
  · exact update_of_ne hj ..
  · exact update_of_ne hj ..

theorem step_lock (hpc : s.pc i = .lock) (hs : step s a = some s') (ha : a.thread = i) :
    s.locked = true ∧ s' = s ∨ s.locked = false ∧ s'.pc i = .holding := by
  cases a with
  | step k =>
    obtain rfl : k = i := ha
    simp only [step, threadStep, hpc, Option.some.injEq] at hs
    cases h : s.locked with
    | true =>
      have hsame : ({ s with locked := true } : State ι) = s := by rw [← h]
      rw [h, if_pos rfl, hsame] at hs
      refine .inl ⟨rfl, hs.symm.trans ?_⟩
      rw [State.setPc, ← hpc, update_eq_self]
    | false =>
      rw [h, if_neg Bool.false_ne_true] at hs
      rw [← hs]
      exact .inr ⟨rfl, update_self ..⟩
  | _ k =>
    obtain rfl : k = i := ha
    simp only [step, hpc] at hs
    cases hs

/-- A thread that waits stays, or the lock is taken by it. -/
theorem waits_step (hi : s.pc i = .lock) (hs : step s a = some s') :
    s'.pc i = .lock ∨ s.locked = false ∧ s'.pc i = .holding := by
  by_cases ha : a.thread = i
  · rcases step_lock hi hs ha with ⟨-, rfl⟩ | h
    · exact .inl hi
    · exact .inr h
  · exact .inl ((pc_of_ne hs (Ne.symm ha)).trans hi)

/-- The steps to the store in `Unlock`. -/
def Pc.left : Pc → Nat
  | .holding => 2
  | _ => 1

/-- What a thread that has the lock does next. -/
theorem inside_step (hj : (s.pc j).inside = true) (hs : step s a = some s') (ha : a.thread = j) :
    s.pc j = .holding ∧ s'.pc j = .unlock ∧ s'.locked = s.locked ∨ s.pc j = .unlock ∧ s'.locked = false := by
  subst ha
  cases hpc : s.pc a.thread with
  | holding =>
    cases a with
    | unlock k =>
      have hpc : s.pc k = .holding := hpc
      simp only [step, hpc, Option.some.injEq] at hs
      rw [← hs]
      exact .inl ⟨rfl, pc_setPc_self, rfl⟩
    | _ k =>
      have hpc : s.pc k = .holding := hpc
      simp only [step, threadStep, hpc] at hs
      cases hs
  | unlock =>
    cases a with
    | step k =>
      have hpc : s.pc k = .unlock := hpc
      simp only [step, threadStep, hpc, Option.some.injEq] at hs
      rw [← hs]
      exact .inr ⟨rfl, rfl⟩
    | _ k =>
      have hpc : s.pc k = .unlock := hpc
      simp only [step, hpc] at hs
      cases hs
  | _ =>
    rw [hpc] at hj
    cases hj

theorem inside_enabled (hj : (s.pc j).inside = true) : ∃ a s', goesOn j a ∧ step s a = some s' := by
  cases hpc : s.pc j with
  | holding => exact ⟨.unlock j, s.setPc j .unlock, .inr rfl, by simp only [step, hpc]⟩
  | unlock =>
    exact ⟨.step j, { s with locked := false }.setPc j .idle, .inl rfl, by simp only [step, threadStep, hpc]⟩
  | _ =>
    rw [hpc] at hj
    cases hj

/-- While the flag is set, only who has the lock clears it. -/
theorem locked_step (hi : Inv s) (hlocked : s.locked = true) (hj : (s.pc j).inside = true)
    (hs : step s a = some s') (ha : a.thread ≠ j) : s'.locked = true := by
  rcases step_cases hs with ⟨p, -, rfl⟩ | ⟨-, hfree, rfl⟩ | ⟨hpc, rfl⟩
  · exact hlocked
  · rw [hlocked] at hfree
    cases hfree
  · exact absurd (hi.guards.unique a.thread j (by rw [hpc]; rfl) hj) ha

/-- From a thread that waits while another one has the lock, to the end of that one's `Unlock`. -/
def response (i : ι) : Response (system ι) goesOn (fun s => s.pc i = .lock ∧ s.locked = true)
    (fun s => s.pc i = .lock ∧ s.locked = false) where
  helps s j d := (s.pc j).inside = true ∧ d = (s.pc j).left
  someone s r h := by
    obtain ⟨j, hj⟩ := (reach_inv r).held h.2
    exact ⟨j, _, hj, rfl⟩
  enabled s j d _ _ hj := inside_enabled hj.1
  step s j d a s' r h hj hs := by
    have hpc : s'.pc i = .lock := (waits_step h.1 hs).resolve_right fun hfree => by
      rw [h.2] at hfree
      cases hfree.1
    by_cases ha : a.thread = j
    · rcases inside_step hj.1 hs ha with ⟨hold, hnew, hlocked⟩ | ⟨-, hfree⟩
      · refine .inr ⟨⟨hpc, hlocked.trans h.2⟩, .inl ⟨j, 1, ?_, by rw [hnew]; rfl, by rw [hnew]; rfl⟩⟩
        rw [hj.2, hold]
        exact Nat.lt_succ_self 1
      · exact .inl ⟨hpc, hfree⟩
    · refine .inr ⟨⟨hpc, locked_step (reach_inv r) h.2 hj.1 hs ha⟩, .inr ⟨fun hg => ha (thread_of_goesOn hg), ?_⟩⟩
      rw [pc_of_ne hs (Ne.symm ha)]
      exact hj

/-- A lock for which somebody waits is taken. -/
theorem free_leadsTo {r : Infinite (system ι)} (fair : WeaklyFair r (goesOn i)) :
    LeadsTo r (fun s => s.pc i = .lock ∧ s.locked = false) fun s => ∃ j, (s.pc j).inside = true := by
  refine LeadsTo.next fair (fun s _ h => ?_) fun s a s' _ h hs => ?_
  · refine ⟨.step i, ?_⟩
    simp only [system, step, threadStep, h.1]
    exact ⟨_, .inl rfl, rfl⟩
  · by_cases ha : a.thread = i
    · rcases step_lock h.1 hs ha with ⟨hlocked, -⟩ | ⟨-, hholding⟩
      · rw [h.2] at hlocked
        cases hlocked
      · exact .inl ⟨i, by rw [hholding]; rfl⟩
    · have hpc : s'.pc i = .lock := (pc_of_ne hs (Ne.symm ha)).trans h.1
      rcases step_cases hs with ⟨p, -, rfl⟩ | ⟨-, -, rfl⟩ | ⟨-, rfl⟩
      · exact .inr ⟨⟨hpc, h.2⟩, fun hg => ha (thread_of_goesOn hg)⟩
      · exact .inl ⟨a.thread, congrArg Pc.inside pc_setPc_self⟩
      · exact .inr ⟨⟨hpc, rfl⟩, fun hg => ha (thread_of_goesOn hg)⟩

/-- Whenever somebody waits, the lock becomes free, and then somebody gets it. -/
theorem somebody_acquires (r : Infinite (system ι)) (fair : ∀ j, WeaklyFair r (goesOn j)) {n : Nat} {i : ι}
    (hi : (r.state n).pc i = .lock) : ∃ m k, n ≤ m ∧ m ≤ k ∧ (∀ j, ((r.state m).pc j).inside = false) ∧
      ∃ j, ((r.state k).pc j).inside = true := by
  obtain ⟨m, hm, hpc, hfree⟩ : ∃ m, n ≤ m ∧ (r.state m).pc i = .lock ∧ (r.state m).locked = false := by
    cases hlocked : (r.state n).locked with
    | true => exact (response i).leadsTo r fair n ⟨hi, hlocked⟩
    | false => exact ⟨n, le_rfl, hi, hlocked⟩
  obtain ⟨k, hk, hin⟩ := free_leadsTo (fair i) m ⟨hpc, hfree⟩
  exact ⟨m, k, hm, hk, fun j => Bool.eq_false_of_not_eq_true ((reach_inv (r.reach m)).guards.free hfree j), hin⟩

/-! Thread `j` takes the lock again and again, and thread `i` always tries while it has it. -/

def overtake (i j : ι) : List (Act ι) := [.lock j, .step j, .step i, .unlock j, .step j]

/-- Thread `i` waits. -/
def stillWaits (i : ι) (s : State ι) : Act ι → Bool := fun _ => decide (s.pc i = .lock)

omit [DecidableEq ι] in
theorem stillWaits_of (hi : s.pc i = .lock) : stillWaits i s a = true := decide_eq_true hi

def waiting (i : ι) : State ι := init.setPc i .lock

theorem exec_overtake (hij : i ≠ j) :
    exec (system ι) (stillWaits i) (waiting i) (overtake i j) = some (waiting i) := by
  have hi₀ : (waiting i).pc i = .lock := pc_setPc_self
  have hj₀ : (waiting i).pc j = .idle := pc_setPc_of_ne hij.symm
  generalize hs₁ : (waiting i).setPc j .lock = s₁
  have hi₁ : s₁.pc i = .lock := by rw [← hs₁, pc_setPc_of_ne hij, hi₀]
  have hj₁ : s₁.pc j = .lock := by rw [← hs₁, pc_setPc_self]
  generalize hs₂ : ({ s₁ with locked := true } : State ι).setPc j .holding = s₂
  have hi₂ : s₂.pc i = .lock := by rw [← hs₂]; exact (pc_setPc_of_ne hij).trans hi₁
  have hj₂ : s₂.pc j = .holding := by rw [← hs₂, pc_setPc_self]
  generalize hs₃ : s₂.setPc j .unlock = s₃
  have hi₃ : s₃.pc i = .lock := by rw [← hs₃, pc_setPc_of_ne hij, hi₂]
  have hj₃ : s₃.pc j = .unlock := by rw [← hs₃, pc_setPc_self]
  have hlast : ({ s₃ with locked := false } : State ι).setPc j .idle = waiting i := by
    subst hs₃ hs₂ hs₁
    refine congrArg (State.mk false) ?_
    change update (update (update (update (waiting i).pc j .lock) j .holding) j .unlock) j .idle = (waiting i).pc
    rw [update_idem, update_idem, update_idem, ← hj₀, update_eq_self]
  have hlock : (system ι).step (waiting i) (.lock j) = some s₁ := by
    simp only [system, step, hj₀, hs₁]
  have htake : (system ι).step s₁ (.step j) = some s₂ := by
    have hfree : s₁.locked = false := by rw [← hs₁]; rfl
    simp only [system, step, threadStep, hj₁, hfree, if_neg Bool.false_ne_true, hs₂]
  have htry : (system ι).step s₂ (.step i) = some s₂ := by
    have hlocked : s₂.locked = true := by rw [← hs₂]; rfl
    have hsame : ({ s₂ with locked := true } : State ι).setPc i .lock = s₂ := by
      rw [State.setPc, ← hi₂, update_eq_self, ← hlocked]
    simp only [system, step, threadStep, hi₂, hlocked, if_true]
    exact congrArg some hsame
  have hunlock : (system ι).step s₂ (.unlock j) = some s₃ := by
    simp only [system, step, hj₂, hs₃]
  have hstore : (system ι).step s₃ (.step j) = some (waiting i) := by
    simp only [system, step, threadStep, hj₃, hlast]
  rw [overtake, exec_step (stillWaits_of hi₀) hlock, exec_step (stillWaits_of hi₁) htake,
    exec_step (stillWaits_of hi₂) htry, exec_step (stillWaits_of hi₂) hunlock,
    exec_step (stillWaits_of hi₃) hstore, exec_nil]

/-- A fair run may starve a thread. -/
theorem waits_forever (hij : i ≠ j) : ∃ r : Infinite (system ι), (∀ k, WeaklyFair r (goesOn k)) ∧
    (∀ n, (r.state n).pc i = .lock) ∧ ∀ n, ∃ m, n ≤ m ∧ r.act m = .unlock j := by
  have hrun := exec_overtake hij
  have hpos : 0 < (overtake i j).length := Nat.succ_pos 4
  have hreach : Reach (system ι) anyStep (waiting i) := (Reach.init (M := system ι) (s := init) rfl).step
    (a := .lock i) trivial rfl
  let r := Infinite.repeat hreach (exec_noCheck hrun) hpos
  have hacts : ∀ a ∈ overtake i j, ∀ n, ∃ m, n ≤ m ∧ r.act m = a := fun a ha n =>
    Infinite.repeat_often hreach (exec_noCheck hrun) hpos ha n
  have hstep : ∀ k, k = i ∨ k = j → .step k ∈ overtake i j := by
    rintro k (rfl | rfl)
    · exact List.mem_cons_of_mem _ (List.mem_cons_of_mem _ List.mem_cons_self)
    · exact List.mem_cons_of_mem _ List.mem_cons_self
  have hothers : ∀ a ∈ overtake i j, a.thread = i ∨ a.thread = j := by
    intro a ha
    simp only [overtake, List.mem_cons, List.not_mem_nil, or_false] at ha
    rcases ha with rfl | rfl | rfl | rfl | rfl
    · exact .inr rfl
    · exact .inr rfl
    · exact .inl rfl
    · exact .inr rfl
    · exact .inr rfl
  refine ⟨r, fun k => ?_, fun n => ?_, hacts _ ?_⟩
  · by_cases hk : k = i ∨ k = j
    · refine .of_turns fun n => ?_
      obtain ⟨m, hm, hact⟩ := hacts _ (hstep k hk) n
      exact ⟨m, hm, fun _ => .inl hact⟩
    · -- a thread that never calls `Lock`
      have hidle : ∀ n, (r.state n).pc k = .idle := by
        intro n
        induction n with
        | zero =>
          rw [Infinite.repeat_zero]
          exact pc_setPc_of_ne fun h => hk (.inl h)
        | succ n ih =>
          refine (pc_of_ne (r.step n) fun h => hk ?_).trans ih
          rw [h]
          exact hothers _ (List.getElem_mem _)
      refine .of_turns fun n => ⟨n, le_rfl, fun hen => ?_⟩
      obtain ⟨a, s', rfl | rfl, hs⟩ := hen
      · simp only [system, step, threadStep, hidle] at hs
        cases hs
      · simp only [system, step, hidle] at hs
        cases hs
  · exact of_decide_eq_true (around_check hrun (List.getElem?_eq_getElem (Nat.mod_lt n hpos)))
  · exact List.mem_cons_of_mem _ (List.mem_cons_of_mem _ (List.mem_cons_of_mem _ List.mem_cons_self))

variable (ι) in
/-- In a fair run a lock for which somebody waits changes hands again and again; but one of two threads may get it every
time, and the other one wait forever. -/
theorem taken_but_not_by_everybody :
    (∀ r : Infinite (system ι), (∀ j, WeaklyFair r (goesOn j)) → ∀ n i, (r.state n).pc i = .lock →
      ∃ m k, n ≤ m ∧ m ≤ k ∧ (∀ j, ((r.state m).pc j).inside = false) ∧ ∃ j, ((r.state k).pc j).inside = true) ∧
    ∀ i j : ι, i ≠ j → ∃ r : Infinite (system ι), (∀ k, WeaklyFair r (goesOn k)) ∧
      (∀ n, (r.state n).pc i = .lock) ∧ ∀ n, ∃ m, n ≤ m ∧ r.act m = .unlock j :=
  ⟨fun r fair _ _ hi => somebody_acquires r fair hi, fun _ _ hij => waits_forever hij⟩

end progress

end Mutex.SpinLock
