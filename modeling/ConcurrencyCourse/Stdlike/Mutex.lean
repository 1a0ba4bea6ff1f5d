import ConcurrencyCourse.Lib.Transition
import Mathlib.Data.Fintype.Basic

/-!
# The futex mutex (tasks/mutex/mutex/mutex.hpp)

`Lock` and `Unlock` by any number of threads, as their atomic steps on the word `m_`.

| here | there |
| --- | --- |
| `cmpxchg` | `Cmpxchg`: the old value is returned, the new one written if `old_st` was there |
| `afterCmpxchg` | the loop test of `Lock` and the first half of the `if` in its body |
| `wait`, `parked` | `futex::Wait(m_, Sleeping)`: check the word and go to sleep, in one step |
| `wake` | `WakeOne`: some sleeper, if there is one |

A sleeper that is woken (or wakes up by itself) checks the word again: `futex::Wait` is a loop.
-/

namespace Stdlike.Mutex

/-- `Mutex::Status`. -/
inductive Status where
  | unlocked
  | locked
  | sleeping
  deriving DecidableEq, Repr

/-- Where a thread is. -/
inductive Pc where
  | idle
  -- `Lock`: `Cmpxchg(Unlocked, Locked)`
  | lock
  -- `Cmpxchg(Locked, Sleeping)`
  | mark
  | wait
  | parked
  -- `Cmpxchg(Unlocked, Sleeping)`
  | retry
  -- `Lock` has returned
  | critical
  -- `Unlock`: `m_.exchange(Unlocked)`
  | unlock
  | prepareWake
  | wakeOne
  deriving DecidableEq, Repr

structure State (ι : Type) where
  m : Status
  pc : ι → Pc

inductive Act (ι : Type) where
  /-- Thread `i` calls `Lock` or `Unlock`, whichever it can. -/
  | call (i : ι)
  /-- Its next step; `WakeOne` finds `sleeper`. -/
  | step (i : ι) (sleeper : Option ι)
  /-- Thread `i` wakes up by itself. -/
  | spurious (i : ι)

variable {ι : Type} [DecidableEq ι]

def State.setPc (s : State ι) (i : ι) (pc : Pc) : State ι :=
  { s with pc := Function.update s.pc i pc }

def State.setM (s : State ι) (m : Status) : State ι := { s with m := m }

/-- What `Cmpxchg(old_st, new_st)` writes; it returns `s.m`. -/
def State.cmpxchg (s : State ι) (old new : Status) : State ι :=
  if s.m = old then s.setM new else s

/-- Where `Lock` goes when a `Cmpxchg` that tries to take the lock returned `c`. -/
def afterCmpxchg (c : Status) : Pc :=
  if c = .unlocked then .critical else if c = .sleeping then .wait else .mark

/-- `WakeOne`. -/
def State.wake [Fintype ι] (s : State ι) : Option ι → Option (State ι)
  | some j => if s.pc j = .parked then some (s.setPc j .wait) else none
  | none => if ∀ j, s.pc j ≠ .parked then some s else none

/-- The next step of thread `i` in `Lock` or `Unlock`. -/
def State.next [Fintype ι] (s : State ι) (i : ι) (sleeper : Option ι) : Option (State ι) :=
  match s.pc i with
  | .idle | .critical | .parked => none
  | .lock => some ((s.cmpxchg .unlocked .locked).setPc i (afterCmpxchg s.m))
  | .mark =>
    some ((s.cmpxchg .locked .sleeping).setPc i (if s.m ≠ .unlocked then .wait else .retry))
  | .wait => some (s.setPc i (if s.m = .sleeping then .parked else .retry))
  | .retry => some ((s.cmpxchg .unlocked .sleeping).setPc i (afterCmpxchg s.m))
  | .unlock =>
    some ((s.setM .unlocked).setPc i (if s.m ≠ .locked then .prepareWake else .idle))
  | .prepareWake => some (s.setPc i .wakeOne)
  | .wakeOne => (s.wake sleeper).map fun s' => s'.setPc i .idle

def step [Fintype ι] (s : State ι) : Act ι → Option (State ι)
  | .call i => match s.pc i with
    | .idle => some (s.setPc i .lock)
    | .critical => some (s.setPc i .unlock)
    | _ => none
  | .step i sleeper => s.next i sleeper
  | .spurious i => if s.pc i = .parked then some (s.setPc i .wait) else none

def init : State ι := ⟨.unlocked, fun _ => .idle⟩

def system (ι : Type) [DecidableEq ι] [Fintype ι] : Transition.System (State ι) (Act ι) :=
  ⟨fun s => s = init, step⟩

/-! ### Who is responsible for the sleepers -/

/-- In the critical section, until `Unlock` has exchanged the word. -/
def Pc.inside : Pc → Bool
  | .critical | .unlock => true
  | _ => false

/-- Awake in the slow path of `Lock`, or about to wake somebody. -/
def Pc.helps : Pc → Bool
  | .mark | .wait | .retry | .prepareWake | .wakeOne => true
  | _ => false

/-- The word says whether the lock is held, at most one thread holds it, and a sleeper is
either announced by the word or somebody else's concern. -/
structure Inv (s : State ι) : Prop where
  unique : ∀ i j, (s.pc i).inside → (s.pc j).inside → i = j
  held : s.m ≠ .unlocked ↔ ∃ i, (s.pc i).inside
  sleeper : ∀ i, s.pc i = .parked → s.m = .sleeping ∨ ∃ j, (s.pc j).helps

section steps

variable {s : State ι} {i : ι} {pc : Pc}

@[simp] theorem setPc_m : (s.setPc i pc).m = s.m := rfl

omit [DecidableEq ι] in
@[simp] theorem setM_m {m : Status} : (s.setM m).m = m := rfl

omit [DecidableEq ι] in
@[simp] theorem setM_pc {m : Status} : (s.setM m).pc = s.pc := rfl

@[simp] theorem setPc_self : (s.setPc i pc).pc i = pc := Function.update_self ..

theorem setPc_of_ne {j : ι} (h : j ≠ i) : (s.setPc i pc).pc j = s.pc j :=
  Function.update_of_ne h ..

omit [DecidableEq ι] in
@[simp] theorem cmpxchg_pc {old new : Status} : (s.cmpxchg old new).pc = s.pc := by
  unfold State.cmpxchg
  split <;> rfl

/-- A step that neither enters nor leaves the critical section and keeps the word: what remains
to be said is who takes care of the sleepers. -/
theorem Inv.move (hi : Inv s) (hin : pc.inside = (s.pc i).inside)
    (hs : (∃ j, (s.setPc i pc).pc j = .parked) →
      s.m = .sleeping ∨ ∃ j, ((s.setPc i pc).pc j).helps) : Inv (s.setPc i pc) := by
  have hpc : ∀ j, ((s.setPc i pc).pc j).inside = (s.pc j).inside := by
    intro j
    rcases eq_or_ne j i with rfl | hj
    · rw [setPc_self, hin]
    · rw [setPc_of_ne hj]
  constructor
  · intro j k
    rw [hpc, hpc]
    exact hi.unique j k
  · simp only [hpc]
    exact hi.held
  · intro j hj
    exact hs ⟨j, hj⟩

/-- A thread that becomes a helper takes care of the sleepers. -/
theorem Inv.help (hi : Inv s) (hin : pc.inside = (s.pc i).inside) (hh : pc.helps) :
    Inv (s.setPc i pc) := by
  refine hi.move hin fun _ => .inr ⟨i, ?_⟩
  rwa [setPc_self]

omit [DecidableEq ι] in
/-- The word becomes `Sleeping`: whoever unlocks will wake somebody. -/
theorem Inv.announce (hi : Inv s) (hm : s.m ≠ .unlocked) : Inv (s.setM .sleeping) :=
  ⟨hi.unique, ⟨fun _ => hi.held.1 hm, fun _ => nofun⟩, fun _ _ => .inl rfl⟩

/-- A thread outside, neither a sleeper nor a helper, goes somewhere of the same kind. -/
theorem Inv.idle (hi : Inv s) (hpc : (s.pc i).inside = false ∧ (s.pc i).helps = false)
    (hin : pc.inside = false) (hp : pc ≠ .parked) : Inv (s.setPc i pc) := by
  refine hi.move (hin.trans hpc.1.symm) ?_
  rintro ⟨j, hj⟩
  rcases eq_or_ne j i with rfl | hji
  · exact absurd (setPc_self.symm.trans hj) hp
  · rw [setPc_of_ne hji] at hj
    refine (hi.sleeper j hj).imp_right ?_
    rintro ⟨k, hk⟩
    have hki : k ≠ i := by
      rintro rfl
      rw [hpc.2] at hk
      cases hk
    exact ⟨k, by rwa [setPc_of_ne hki]⟩

/-- A thread that finds the lock free takes it. -/
theorem Inv.enter (hi : Inv s) (hm : s.m = .unlocked) {m : Status} (hm' : m ≠ .unlocked)
    (hs : (∃ j, s.pc j = .parked) → m = .sleeping ∨ ∃ j, j ≠ i ∧ (s.pc j).helps) :
    Inv ((s.setM m).setPc i .critical) := by
  have hout : ∀ j, (s.pc j).inside = false := by
    intro j
    by_contra hj
    exact hi.held.2 ⟨j, by simpa using hj⟩ hm
  have hpc : ∀ j, (((s.setM m).setPc i .critical).pc j).inside → j = i := by
    intro j hj
    by_contra hji
    rw [setPc_of_ne hji, setM_pc, hout j] at hj
    cases hj
  constructor
  · intro j k hj hk
    rw [hpc j hj, hpc k hk]
  · exact ⟨fun _ => ⟨i, by rw [setPc_self]; rfl⟩, fun _ => hm'⟩
  · intro j hj
    have hji : j ≠ i := by
      rintro rfl
      rw [setPc_self] at hj
      cases hj
    rw [setPc_of_ne hji] at hj
    refine (hs ⟨j, hj⟩).imp_right ?_
    rintro ⟨k, hk, hh⟩
    exact ⟨k, by rwa [setPc_of_ne hk]⟩

/-- `m_.exchange(Unlocked)` by the holder. -/
theorem Inv.leave (hi : Inv s) (hin : (s.pc i).inside) :
    Inv ((s.setM .unlocked).setPc i (if s.m ≠ .locked then .prepareWake else .idle)) := by
  have hnot : (if s.m ≠ .locked then Pc.prepareWake else Pc.idle).inside = false := by
    split <;> rfl
  have hout : ∀ j,
      (((s.setM .unlocked).setPc i (if s.m ≠ .locked then .prepareWake else .idle)).pc j).inside =
        false := by
    intro j
    rcases eq_or_ne j i with rfl | hj
    · rw [setPc_self, hnot]
    · rw [setPc_of_ne hj, setM_pc]
      by_contra h
      exact hj (hi.unique j i (by simpa using h) hin)
  constructor
  · intro j k hj
    rw [hout] at hj
    cases hj
  · constructor
    · intro h
      exact absurd rfl h
    · rintro ⟨j, hj⟩
      rw [hout] at hj
      cases hj
  · intro j hj
    have hji : j ≠ i := by
      rintro rfl
      rw [setPc_self] at hj
      split at hj <;> cases hj
    rw [setPc_of_ne hji] at hj
    refine .inr ?_
    -- the word said `Sleeping`, and the holder goes on to wake somebody, or there is a helper
    rcases hi.sleeper j hj with hm | ⟨k, hk⟩
    · refine ⟨i, ?_⟩
      rw [setPc_self, hm]
      rfl
    · have hki : k ≠ i := by
        rintro rfl
        revert hk hin
        cases s.pc k <;> simp [Pc.helps, Pc.inside]
      exact ⟨k, by rwa [setPc_of_ne hki]⟩

/-- What a `Cmpxchg` that tries to take the lock does: enter, or go on in the slow path. -/
theorem Inv.acquire (hi : Inv s) {m : Status} (hm' : m ≠ .unlocked) (hin : (s.pc i).inside = false)
    (hs : s.m = .unlocked → (∃ j, s.pc j = .parked) →
      m = .sleeping ∨ ∃ j, j ≠ i ∧ (s.pc j).helps) :
    Inv ((s.cmpxchg .unlocked m).setPc i (afterCmpxchg s.m)) := by
  unfold State.cmpxchg afterCmpxchg
  split
  · next hm => exact hi.enter hm hm' (hs hm)
  · split
    · exact hi.help hin.symm rfl
    · exact hi.help hin.symm rfl

/-- `WakeOne` makes a sleeper a helper, or there is none. -/
theorem Inv.wake [Fintype ι] (hi : Inv s) {sleeper : Option ι} {s' : State ι}
    (hw : s.wake sleeper = some s') (hpc : s.pc i = .wakeOne) : Inv (s'.setPc i .idle) := by
  unfold State.wake at hw
  split at hw
  · next j =>
    split at hw
    · next hj =>
      obtain rfl := Option.some.inj hw
      have hji : j ≠ i := by
        rintro rfl
        rw [hj] at hpc
        cases hpc
      have hi' : Inv (s.setPc j .wait) := hi.help (by rw [hj]; rfl) rfl
      refine hi'.move ?_ fun _ => .inr ⟨j, ?_⟩
      · rw [setPc_of_ne hji.symm, hpc]
        rfl
      · rw [setPc_of_ne hji, setPc_self]
        rfl
    · cases hw
  · split at hw
    · next hno =>
      obtain rfl := Option.some.inj hw
      refine hi.move (by rw [hpc]; rfl) ?_
      rintro ⟨j, hj⟩
      rcases eq_or_ne j i with rfl | hji
      · rw [setPc_self] at hj
        cases hj
      · rw [setPc_of_ne hji] at hj
        exact absurd hj (hno j)
    · cases hw

end steps

/-! ### Every step keeps the invariant -/

section run

variable [Fintype ι] {s s' : State ι} {i : ι}

theorem inv_next (hi : Inv s) {sleeper : Option ι} (h : s.next i sleeper = some s') : Inv s' := by
  unfold State.next at h
  split at h
  · cases h
  · cases h
  · cases h
  · next hpc =>
    obtain rfl := Option.some.inj h
    refine hi.acquire (by decide) (by rw [hpc]; rfl) ?_
    rintro hm ⟨j, hj⟩
    -- the fast path announces nobody: somebody else must be awake
    rcases hi.sleeper j hj with h2 | ⟨k, hk⟩
    · rw [hm] at h2
      cases h2
    · refine .inr ⟨k, ?_, hk⟩
      rintro rfl
      rw [hpc] at hk
      cases hk
  · next hpc =>
    obtain rfl := Option.some.inj h
    have hin : (s.pc i).inside = false := by rw [hpc]; rfl
    unfold State.cmpxchg
    split
    · next hm =>
      refine (hi.announce (by rw [hm]; decide)).help ?_ ?_
      · rw [setM_pc, hin]
        split <;> rfl
      · split <;> rfl
    · refine hi.help ?_ ?_
      · rw [hin]
        split <;> rfl
      · split <;> rfl
  · next hpc =>
    obtain rfl := Option.some.inj h
    have hin : (s.pc i).inside = false := by rw [hpc]; rfl
    split
    · next hm => exact hi.move hin.symm fun _ => .inl hm
    · exact hi.help hin.symm rfl
  · next hpc =>
    obtain rfl := Option.some.inj h
    exact hi.acquire (by decide) (by rw [hpc]; rfl) fun _ _ => .inl rfl
  · next hpc =>
    obtain rfl := Option.some.inj h
    exact hi.leave (by rw [hpc]; rfl)
  · next hpc =>
    obtain rfl := Option.some.inj h
    exact hi.help (by rw [hpc]; rfl) rfl
  · next hpc =>
    obtain ⟨s₁, hw, rfl⟩ := Option.map_eq_some_iff.1 h
    exact hi.wake hw hpc

theorem inv_step (hi : Inv s) {a : Act ι} (h : step s a = some s') : Inv s' := by
  cases a with
  | call i =>
    simp only [step] at h
    split at h
    · next hpc =>
      obtain rfl := Option.some.inj h
      exact hi.idle ⟨by rw [hpc]; rfl, by rw [hpc]; rfl⟩ rfl (by decide)
    · next hpc =>
      obtain rfl := Option.some.inj h
      refine hi.move (by rw [hpc]; rfl) ?_
      rintro ⟨j, hj⟩
      rcases eq_or_ne j i with rfl | hji
      · rw [setPc_self] at hj
        cases hj
      · rw [setPc_of_ne hji] at hj
        refine (hi.sleeper j hj).imp_right ?_
        rintro ⟨k, hk⟩
        have hki : k ≠ i := by
          rintro rfl
          rw [hpc] at hk
          cases hk
        exact ⟨k, by rwa [setPc_of_ne hki]⟩
    · cases h
  | step i sleeper => exact inv_next hi h
  | spurious i =>
    simp only [step] at h
    split at h
    · next hpc =>
      obtain rfl := Option.some.inj h
      exact hi.help (by rw [hpc]; rfl) rfl
    · cases h

theorem inv_of_reach (h : Transition.Reach (system ι) Transition.anyStep s) : Inv s := by
  refine Transition.Reach.invariant (I := Inv) ?_ (fun s a s' hi _ hs => inv_step hi hs) h
  rintro s rfl
  exact ⟨nofun, ⟨fun h => absurd rfl h, nofun⟩, nofun⟩

/-- The next step of a helper: it helps on, the word announces the sleepers, or one of them is
woken (if there is one). -/
theorem helper_next (hh : (s.pc i).helps) {sleeper : Option ι} (h : s.next i sleeper = some s') :
    (s'.pc i).helps ∨ s'.m = .sleeping ∨ (∃ k, s.pc k = .parked ∧ s'.pc k = .wait) ∨
      ∀ k, s.pc k ≠ .parked := by
  unfold State.next at h
  split at h <;> rename_i hpc
  · rw [hpc] at hh; cases hh
  · rw [hpc] at hh; cases hh
  · rw [hpc] at hh; cases hh
  · rw [hpc] at hh; cases hh
  · obtain rfl := Option.some.inj h
    refine .inl ?_
    rw [setPc_self]
    split <;> rfl
  · obtain rfl := Option.some.inj h
    by_cases hm : s.m = .sleeping
    · exact .inr (.inl hm)
    · refine .inl ?_
      rw [setPc_self, if_neg hm]
      rfl
  · obtain rfl := Option.some.inj h
    unfold State.cmpxchg afterCmpxchg
    split
    · exact .inr (.inl rfl)
    · refine .inl ?_
      rw [setPc_self]
      split <;> rfl
  · rw [hpc] at hh; cases hh
  · obtain rfl := Option.some.inj h
    refine .inl ?_
    rw [setPc_self]
    rfl
  · obtain ⟨s₁, hw, rfl⟩ := Option.map_eq_some_iff.1 h
    unfold State.wake at hw
    split at hw
    · next j =>
      split at hw
      · next hj =>
        obtain rfl := Option.some.inj hw
        have hji : j ≠ i := by
          rintro rfl
          rw [hj] at hpc
          cases hpc
        refine .inr (.inr (.inl ⟨j, hj, ?_⟩))
        rw [setPc_of_ne hji, setPc_self]
      · cases hw
    · split at hw
      · next hno => exact .inr (.inr (.inr hno))
      · cases hw

/-- A helper is never blocked. -/
theorem helper_enabled (hh : (s.pc i).helps) : ∃ sleeper s', s.next i sleeper = some s' := by
  unfold State.next
  revert hh
  cases s.pc i <;> intro hh
  case wakeOne =>
    by_cases hno : ∀ j, s.pc j ≠ .parked
    · exact ⟨none, _, by simp only [State.wake, if_pos hno]; rfl⟩
    · simp only [not_forall, not_not] at hno
      obtain ⟨j, hj⟩ := hno
      exact ⟨some j, _, by simp only [State.wake, if_pos hj]; rfl⟩
  case idle => cases hh
  case lock => cases hh
  case parked => cases hh
  case critical => cases hh
  case unlock => cases hh
  all_goals exact ⟨none, _, rfl⟩

/-- The mutex excludes, and strands no sleeper: while a thread sleeps, the lock is held and the word
says that there are sleepers, or another thread is on its way to wake one or to say so. Such a thread can
always take its next step, and stays on its way until it has done one of the two. -/
theorem excludes_and_strands_nobody (h : Transition.Reach (system ι) Transition.anyStep s) :
    (∀ i j, (s.pc i).inside → (s.pc j).inside → i = j) ∧
    (∀ i, s.pc i = .parked →
      (s.m = .sleeping ∧ ∃ j, (s.pc j).inside) ∨ ∃ j, j ≠ i ∧ (s.pc j).helps) ∧
    (∀ j, (s.pc j).helps →
      (∃ sleeper s', s.next j sleeper = some s') ∧
      ∀ sleeper s', s.next j sleeper = some s' →
        (s'.pc j).helps ∨ s'.m = .sleeping ∨ (∃ k, s.pc k = .parked ∧ s'.pc k = .wait) ∨
          ∀ k, s.pc k ≠ .parked) := by
  have hi := inv_of_reach h
  refine ⟨hi.unique, fun i hp => ?_, fun j hh => ⟨helper_enabled hh, fun _ _ => helper_next hh⟩⟩
  rcases hi.sleeper i hp with hm | ⟨j, hj⟩
  · exact .inl ⟨hm, hi.held.1 (by rw [hm]; decide)⟩
  · refine .inr ⟨j, ?_, hj⟩
    rintro rfl
    rw [hp] at hj
    cases hj

/-- The second of two threads sleeps while the first holds the lock. -/
theorem sleeper_announced : ∃ s : State (Fin 2), s.pc 1 = .parked ∧
    ((s.m = .sleeping ∧ ∃ j, (s.pc j).inside) ∨ ∃ j, j ≠ 1 ∧ (s.pc j).helps) := by
  obtain ⟨s, hr, hp⟩ := Transition.Reach.of_exec_any (system (Fin 2))
    [.call 0, .step 0 none, .call 1, .step 1 none, .step 1 none, .step 1 none]
    (fun s => s.pc 1 = .parked) rfl (by decide)
  have hp := of_decide_eq_true hp
  exact ⟨s, hp, (excludes_and_strands_nobody hr).2.1 1 hp⟩

end run

end Stdlike.Mutex
