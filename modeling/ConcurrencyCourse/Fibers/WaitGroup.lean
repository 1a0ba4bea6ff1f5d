import ConcurrencyCourse.Lib.Lock
import ConcurrencyCourse.Lib.Threads
import ConcurrencyCourse.Lib.Transition

/-!
# The lifetime of `fibers::WaitGroup` (fibers/mutex/exe/fibers/sync/wait_group.hpp)

`Add`, `Done` and `Wait` by any number of callers, as their accesses to the members of the group. A fiber
that waits is suspended; the worker that ran it goes on in `AwaitSuspend`, so a fiber `w` and
its `AwaitSuspend` are two activities (`fiber w`, `await w`).

| here | there |
| --- | --- |
| `DonePc` | `Done` (31-58) |
| `AwaitPc` | `TryEnqueue` and `Reschedule` (84-120) |
| `FiberPc` | `Wait` (60-65) around the suspension |
| `resume` | `fiber->Schedule()`; somebody runs it later |

* `wait_q_` is a list: `Put` and `IsEmpty` are called with `mtx_` locked, and the only `Take`s are those
  of the last `Done`, when nobody puts any more (`Inv.settled`).
* `owed` counts the `Done`s to come, `zeroed` says that `done_calls_countdown_` was zero after a `Done`;
  both only serve to say how the group is to be used (`usage`).

A late waiter, who finds the countdown at zero, waits for `is_last_wait_completed_` only if it is the
only one in `Wait`. Two late waiters let each other through (`released_too_early`).
-/

namespace Fibers.WaitGroup

open Transition Function

inductive DonePc (ω : Type) where
  | idle
  | fetchSub
  -- the last `Done`: `mtx_.Lock()`, `wait_q_.IsEmpty()`, `mtx_.Unlock()`
  | lock
  | readEmpty
  | unlock (isEmpty : Bool)
  | storeEmpty
  -- the loop
  | take
  | readEmptyAfter (f : ω)
  | store (f : ω)
  | schedule (f : ω) (isEmpty : Bool)
  | returned
  deriving DecidableEq, Repr

inductive AwaitPc where
  | off
  -- `TryEnqueue`
  | lock
  | loadCountdown
  | put
  | unlockQueued
  | unlockLate
  -- `Reschedule`
  | loadSuspended
  | spin
  | schedule
  deriving DecidableEq, Repr

inductive FiberPc where
  | idle
  -- `suspended_waits_counter_++`
  | enter
  | suspended
  | runnable
  -- `suspended_waits_counter_--`
  | leave
  | returned
  deriving DecidableEq, Repr

structure State (δ ω : Type) where
  /-- `done_calls_countdown_`. -/
  countdown : Nat
  /-- `suspended_waits_counter_`. -/
  suspended : UInt32
  queue : List ω
  /-- `is_last_wait_completed_`. -/
  completed : Bool
  mtx : Bool
  done : δ → DonePc ω
  fiber : ω → FiberPc
  await : ω → AwaitPc
  owed : Nat
  zeroed : Bool

inductive Act (δ ω : Type) where
  | add (count : Nat)
  | callDone (d : δ)
  | done (d : δ)
  | callWait (w : ω)
  | fiber (w : ω)
  | await (w : ω)

variable {δ ω : Type} [DecidableEq δ] [DecidableEq ω]

/-! ### What a step writes -/

def State.setDone (s : State δ ω) (d : δ) (pc : DonePc ω) : State δ ω :=
  { s with done := update s.done d pc }

def State.setAwait (s : State δ ω) (w : ω) (pc : AwaitPc) : State δ ω :=
  { s with await := update s.await w pc }

def State.setFiber (s : State δ ω) (w : ω) (pc : FiberPc) : State δ ω :=
  { s with fiber := update s.fiber w pc }

def State.setMtx (s : State δ ω) (b : Bool) : State δ ω := { s with mtx := b }

def State.setQueue (s : State δ ω) (q : List ω) : State δ ω := { s with queue := q }

def State.complete (s : State δ ω) : State δ ω := { s with completed := true }

def State.setSuspended (s : State δ ω) (n : UInt32) : State δ ω := { s with suspended := n }

/-- `fiber->Schedule()`. -/
def State.resume (s : State δ ω) (w : ω) : State δ ω := s.setFiber w .runnable

/-- `done_calls_countdown_.fetch_sub(1)`. -/
def State.fetchSub (s : State δ ω) : State δ ω :=
  { s with countdown := s.countdown - 1, zeroed := s.zeroed || s.countdown == 1 }

/-! ### Steps -/

def doneStep (s : State δ ω) (d : δ) : Option (State δ ω) :=
  match s.done d with
  | .idle | .returned => none
  | .fetchSub => some (s.fetchSub.setDone d (if s.countdown = 1 then .lock else .returned))
  | .lock => if s.mtx then none else some ((s.setMtx true).setDone d .readEmpty)
  | .readEmpty => some (s.setDone d (.unlock s.queue.isEmpty))
  | .unlock isEmpty => some ((s.setMtx false).setDone d (if isEmpty then .storeEmpty else .take))
  | .storeEmpty => some (s.complete.setDone d .returned)
  | .take => match s.queue with
    | [] => none
    | f :: q => some ((s.setQueue q).setDone d (.readEmptyAfter f))
  | .readEmptyAfter f => some (s.setDone d (if s.queue.isEmpty then .store f else .schedule f false))
  | .store f => some (s.complete.setDone d (.schedule f true))
  | .schedule f isEmpty => some ((s.resume f).setDone d (if isEmpty then .returned else .take))

def awaitStep (s : State δ ω) (w : ω) : Option (State δ ω) :=
  match s.await w with
  | .off => none
  | .lock => if s.mtx then none else some ((s.setMtx true).setAwait w .loadCountdown)
  | .loadCountdown => some (s.setAwait w (if s.countdown ≠ 0 then .put else .unlockLate))
  | .put => some ((s.setQueue (s.queue ++ [w])).setAwait w .unlockQueued)
  | .unlockQueued => some ((s.setMtx false).setAwait w .off)
  | .unlockLate => some ((s.setMtx false).setAwait w .loadSuspended)
  | .loadSuspended => some (s.setAwait w (if s.suspended = 1 then .spin else .schedule))
  | .spin => if s.completed then some (s.setAwait w .schedule) else none
  | .schedule => some ((s.resume w).setAwait w .off)

def fiberStep (s : State δ ω) (w : ω) : Option (State δ ω) :=
  match s.fiber w with
  | .idle | .suspended | .returned => none
  | .enter =>
    some (((s.setSuspended (s.suspended + 1)).setFiber w .suspended).setAwait w .lock)
  | .runnable => some (s.setFiber w .leave)
  | .leave => some ((s.setSuspended (s.suspended - 1)).setFiber w .returned)

def step (s : State δ ω) : Act δ ω → Option (State δ ω)
  | .add count => some { s with countdown := s.countdown + count, owed := s.owed + count }
  | .callDone d =>
    if s.done d = .idle then some { s.setDone d .fetchSub with owed := s.owed - 1 } else none
  | .done d => doneStep s d
  | .callWait w => if s.fiber w = .idle then some (s.setFiber w .enter) else none
  | .fiber w => fiberStep s w
  | .await w => awaitStep s w

def init : State δ ω :=
  { countdown := 0, suspended := 0, queue := [], completed := false, mtx := false,
    done := fun _ => .idle, fiber := fun _ => .idle, await := fun _ => .off, owed := 0,
    zeroed := false }

def system (δ ω : Type) [DecidableEq δ] [DecidableEq ω] : System (State δ ω) (Act δ ω) :=
  ⟨fun s => s = init, step⟩

/-! ### The use of the group, and its end -/

/-- Every `Done` has its own `Add`, there is no `Add` when the counter has reached zero, and fewer than `2^32` `Done`s
are to come at a time. -/
def usage (s : State δ ω) : Act δ ω → Prop
  | .add count => s.zeroed = false ∧ s.countdown + count < 2 ^ 32
  | .callDone _ => 0 < s.owed
  | _ => True

/-- The next step accesses a member of the group. -/
def DonePc.accesses : DonePc ω → Bool
  | .idle | .returned | .schedule _ _ => false
  | _ => true

/-- Every access of an `AwaitSuspend` but the `Schedule` at the end. -/
def AwaitPc.accesses : AwaitPc → Bool
  | .off | .schedule => false
  | _ => true

/-- Every `Wait` that was called has returned; there was one. -/
def State.released (s : State δ ω) : Prop :=
  (∃ w, s.fiber w = .returned) ∧ ∀ w, s.fiber w = .idle ∨ s.fiber w = .returned

/-- No new call: the group is about to be destroyed. -/
def noCall (_ : State δ ω) : Act δ ω → Prop
  | .add _ | .callDone _ | .callWait _ => False
  | _ => True

/-- From `s` on, nobody who is still in `Done` or `AwaitSuspend` accesses the group. -/
def State.unused (s : State δ ω) : Prop :=
  ∀ s', Reach ⟨fun s₀ => s₀ = s, step⟩ noCall s' →
    (∀ d, (s'.done d).accesses = false) ∧ ∀ w, (s'.await w).accesses = false

/-! ### Who is held back -/

/-- The fiber that the last `Done` took and has not scheduled yet. -/
def DonePc.holding : DonePc ω → Option ω
  | .readEmptyAfter f | .store f | .schedule f _ => some f
  | _ => none

/-- `AwaitSuspend` has not yet decided to schedule the fiber. -/
def AwaitPc.undecided : AwaitPc → Bool
  | .lock | .loadCountdown | .put | .unlockQueued | .unlockLate | .loadSuspended | .spin => true
  | .off | .schedule => false

/-- The `Wait` of fiber `w` was called and cannot return before somebody else lets it go, or has
not yet decided to go. -/
def State.held (s : State δ ω) (w : ω) : Prop :=
  s.fiber w = .enter ∨ (s.await w).undecided ∨ w ∈ s.queue ∨ ∃ d, (s.done d).holding = some w

/-- A late waiter that does not wait for the last `Done` leaves only when that one is through with
the group, or another waiter is held back. -/
def leavesCompanion (s : State δ ω) : Act δ ω → Prop
  | .await w => s.await w = .loadSuspended → s.suspended ≠ 1 → s.completed = false →
      ∃ w', w' ≠ w ∧ s.held w'
  | _ => True

/-! ### The invariant -/

/-- The last `Done` is at work. -/
def DonePc.last : DonePc ω → Bool
  | .idle | .fetchSub | .returned => false
  | _ => true

/-- The last `Done` has locked `mtx_`: nobody else will come into the queue. -/
def DonePc.settled : DonePc ω → Bool
  | .idle | .fetchSub | .returned | .lock => false
  | _ => true

def DonePc.locked : DonePc ω → Bool
  | .readEmpty | .unlock _ => true
  | _ => false

def AwaitPc.locked : AwaitPc → Bool
  | .loadCountdown | .put | .unlockQueued | .unlockLate => true
  | _ => false

/-- Between the test of the countdown and the end of the critical section. -/
def AwaitPc.queueing : AwaitPc → Bool
  | .put | .unlockQueued => true
  | _ => false

/-- The last `Done` has found the queue not empty. -/
def DonePc.more : DonePc ω → Bool
  | .unlock false | .take | .schedule _ false => true
  | _ => false

/-- `1` for a `Done` before its `fetch_sub`. -/
def DonePc.owes : DonePc ω → Nat
  | .fetchSub => 1
  | _ => 0

/-- Who is in a critical section of `mtx_`. -/
def State.locks (s : State δ ω) : δ ⊕ ω → Prop
  | .inl d => (s.done d).locked
  | .inr w => (s.await w).locked

/-- The countdown, and where the `Done`s are. -/
structure CountInv [Fintype δ] (s : State δ ω) : Prop where
  count : s.countdown = s.owed + ∑ d, (s.done d).owes
  zero : s.zeroed = true → s.countdown = 0
  early : s.zeroed = false → s.completed = false ∧ ∀ d, (s.done d).last = false
  one : ∀ d d', (s.done d).last → (s.done d').last → d = d'
  late : s.completed = true → ∀ d, (s.done d).accesses = false ∧ (s.done d).more = false
  final : ∀ d f, s.done d = .schedule f true → s.completed = true

/-- Where the waiters are. -/
structure WaitInv (s : State δ ω) : Prop where
  settled : (s.completed ∨ ∃ d, (s.done d).settled) → ∀ w, (s.await w).queueing = false
  suspended : ∀ w, s.await w ≠ .off → s.fiber w = .suspended
  queued : ∀ w ∈ s.queue, s.fiber w = .suspended ∧ (s.await w = .off ∨ s.await w = .unlockQueued)
  inQueue : ∀ w, s.await w = .unlockQueued → w ∈ s.queue
  nodup : s.queue.Nodup
  taken : ∀ d f, (s.done d).holding = some f →
    s.fiber f = .suspended ∧ s.await f = .off ∧ f ∉ s.queue
  more : ∀ d, (s.done d).more → s.queue ≠ []

structure Inv [Fintype δ] (s : State δ ω) : Prop where
  lock : Lock.Guards s.mtx s.locks
  count : CountInv s
  wait : WaitInv s
  /-- Until the group is completed, somebody is held back. -/
  held : s.completed = false → (∃ w, s.fiber w ≠ .idle) → ∃ w, s.held w

section frames

variable {s : State δ ω} {d : δ} {w : ω}

omit [DecidableEq ω] in
@[simp] theorem setDone_self (pc : DonePc ω) : (s.setDone d pc).done d = pc := update_self ..

omit [DecidableEq ω] in
theorem setDone_of_ne {pc : DonePc ω} {d' : δ} (h : d' ≠ d) :
    (s.setDone d pc).done d' = s.done d' := update_of_ne h ..

omit [DecidableEq δ] in
@[simp] theorem setAwait_self (pc : AwaitPc) : (s.setAwait w pc).await w = pc := update_self ..

omit [DecidableEq δ] in
theorem setAwait_of_ne {pc : AwaitPc} {w' : ω} (h : w' ≠ w) :
    (s.setAwait w pc).await w' = s.await w' := update_of_ne h ..

omit [DecidableEq δ] in
@[simp] theorem setFiber_self (pc : FiberPc) : (s.setFiber w pc).fiber w = pc := update_self ..

omit [DecidableEq δ] in
theorem setFiber_of_ne {pc : FiberPc} {w' : ω} (h : w' ≠ w) :
    (s.setFiber w pc).fiber w' = s.fiber w' := update_of_ne h ..

omit [DecidableEq ω] in
/-- A place of `Done` that only thread `d` can have come to. -/
theorem setDone_cases {pc : DonePc ω} {p : DonePc ω → Prop} {d' : δ}
    (h : p ((s.setDone d pc).done d')) : (d' = d ∧ p pc) ∨ (d' ≠ d ∧ p (s.done d')) := by
  rcases eq_or_ne d' d with rfl | hd
  · exact .inl ⟨rfl, by rwa [setDone_self] at h⟩
  · exact .inr ⟨hd, by rwa [setDone_of_ne hd] at h⟩

omit [DecidableEq δ] in
theorem setAwait_cases {pc : AwaitPc} {p : AwaitPc → Prop} {w' : ω}
    (h : p ((s.setAwait w pc).await w')) : (w' = w ∧ p pc) ∨ (w' ≠ w ∧ p (s.await w')) := by
  rcases eq_or_ne w' w with rfl | hw
  · exact .inl ⟨rfl, by rwa [setAwait_self] at h⟩
  · exact .inr ⟨hw, by rwa [setAwait_of_ne hw] at h⟩

end frames

/-! ### `mtx_` -/

section lock

variable {s : State δ ω} {d : δ} {w : ω}

omit [DecidableEq ω] in
theorem locks_setDone {pc : DonePc ω} {x : δ ⊕ ω} (h : (s.setDone d pc).locks x) :
    (x = .inl d ∧ pc.locked) ∨ (x ≠ .inl d ∧ s.locks x) := by
  rcases x with d' | w
  · rcases setDone_cases (p := fun pc => pc.locked) h with ⟨hd, hp⟩ | ⟨hd, hp⟩
    · exact .inl ⟨congrArg _ hd, hp⟩
    · exact .inr ⟨fun he => hd (Sum.inl.inj he), hp⟩
  · exact .inr ⟨nofun, h⟩

omit [DecidableEq δ] in
theorem locks_setAwait {pc : AwaitPc} {x : δ ⊕ ω} (h : (s.setAwait w pc).locks x) :
    (x = .inr w ∧ pc.locked) ∨ (x ≠ .inr w ∧ s.locks x) := by
  rcases x with d | w'
  · exact .inr ⟨nofun, h⟩
  · rcases setAwait_cases (p := fun pc => pc.locked) h with ⟨hw, hp⟩ | ⟨hw, hp⟩
    · exact .inl ⟨congrArg _ hw, hp⟩
    · exact .inr ⟨fun he => hw (Sum.inr.inj he), hp⟩

omit [DecidableEq ω] in
/-- `Done` neither locks nor unlocks. -/
theorem guards_setDone (h : Lock.Guards s.mtx s.locks) {pc : DonePc ω}
    (hpc : pc.locked → (s.done d).locked) : Lock.Guards s.mtx (s.setDone d pc).locks := by
  refine h.mono fun x hx => ?_
  rcases locks_setDone hx with ⟨rfl, hp⟩ | ⟨-, hx⟩
  · exact hpc hp
  · exact hx

omit [DecidableEq δ] in
theorem guards_setAwait (h : Lock.Guards s.mtx s.locks) {pc : AwaitPc}
    (hpc : pc.locked → (s.await w).locked) : Lock.Guards s.mtx (s.setAwait w pc).locks := by
  refine h.mono fun x hx => ?_
  rcases locks_setAwait hx with ⟨rfl, hp⟩ | ⟨-, hx⟩
  · exact hpc hp
  · exact hx

omit [DecidableEq ω] in
theorem guards_lockDone (h : Lock.Guards s.mtx s.locks) (hm : s.mtx = false) (pc : DonePc ω) :
    Lock.Guards true (s.setDone d pc).locks :=
  h.acquire hm fun _ hx => (locks_setDone hx).symm.imp And.right And.left

omit [DecidableEq δ] in
theorem guards_lockAwait (h : Lock.Guards s.mtx s.locks) (hm : s.mtx = false) (pc : AwaitPc) :
    Lock.Guards true (s.setAwait w pc).locks :=
  h.acquire hm fun _ hx => (locks_setAwait hx).symm.imp And.right And.left

omit [DecidableEq ω] in
theorem guards_unlockDone (h : Lock.Guards s.mtx s.locks) (hd : (s.done d).locked) {pc : DonePc ω}
    (hpc : pc.locked = false) : Lock.Guards false (s.setDone d pc).locks := by
  refine h.release (x := .inl d) hd (fun x hx => ?_) _
  rcases locks_setDone hx with ⟨-, hp⟩ | ⟨hne, hx⟩
  · rw [hpc] at hp
    cases hp
  · exact ⟨hx, hne⟩

omit [DecidableEq δ] in
theorem guards_unlockAwait (h : Lock.Guards s.mtx s.locks) (hw : (s.await w).locked) {pc : AwaitPc}
    (hpc : pc.locked = false) : Lock.Guards false (s.setAwait w pc).locks := by
  refine h.release (x := .inr w) hw (fun x hx => ?_) _
  rcases locks_setAwait hx with ⟨-, hp⟩ | ⟨hne, hx⟩
  · rw [hpc] at hp
    cases hp
  · exact ⟨hx, hne⟩

end lock

/-! ### The countdown -/

section count

variable [Fintype δ] {s : State δ ω} {d : δ}

omit [DecidableEq δ] [DecidableEq ω] in
/-- When the countdown is zero no `Done` is before its `fetch_sub`. -/
theorem CountInv.not_fetchSub (hc : CountInv s) (h0 : s.countdown = 0) (d : δ) :
    s.done d ≠ .fetchSub := by
  intro hd
  have h1 := hc.count
  have h2 : (s.done d).owes ≤ ∑ d, (s.done d).owes := Threads.le_sum (fun d => (s.done d).owes) d
  have h3 : (s.done d).owes = 1 := by rw [hd]; rfl
  omega

omit [DecidableEq δ] [DecidableEq ω] in
theorem CountInv.zeroed_of_last (hc : CountInv s) (hd : (s.done d).last) : s.zeroed = true := by
  by_contra h
  rw [(hc.early (by simpa using h)).2 d] at hd
  cases hd

omit [DecidableEq ω] in
/-- The last `Done` moves on, not through its store. -/
theorem CountInv.move (hc : CountInv s) {pc : DonePc ω} (hl : (s.done d).last)
    (ho : pc.owes = 0) (hlate : s.completed = true → pc.accesses = false ∧ pc.more = false)
    (hf : ∀ f, pc = .schedule f true → s.completed = true) : CountInv (s.setDone d pc) := by
  have hlast : ∀ d', ((s.setDone d pc).done d').last → d' = d := by
    intro d' h
    rcases setDone_cases (p := fun pc => pc.last) h with ⟨h, -⟩ | ⟨-, h⟩
    · exact h
    · exact hc.one d' d h hl
  have howes : (s.done d).owes = 0 := by
    cases hd : s.done d <;> simp_all [DonePc.last, DonePc.owes]
  constructor
  · have := Threads.sum_update_same DonePc.owes s.done d pc (by rw [ho, howes])
    exact hc.count.trans (by rw [← this]; rfl)
  · exact hc.zero
  · intro hz
    rw [show (s.setDone d pc).zeroed = s.zeroed from rfl, hc.zeroed_of_last hl] at hz
    cases hz
  · intro d₁ d₂ h₁ h₂
    rw [hlast d₁ h₁, hlast d₂ h₂]
  · intro hcomp d'
    rcases eq_or_ne d' d with rfl | hne
    · rw [setDone_self]
      exact hlate hcomp
    · rw [setDone_of_ne hne]
      exact hc.late hcomp d'
  · intro d' f h
    rcases setDone_cases (p := fun pc => pc = .schedule f true) h with ⟨-, h⟩ | ⟨-, h⟩
    · exact hf f h
    · exact hc.final d' f h

omit [DecidableEq ω] in
/-- The last `Done` stores `true`: it is through with the group, and so are the others. -/
theorem CountInv.complete (hc : CountInv s) {pc : DonePc ω} (hl : (s.done d).last)
    (ho : pc.owes = 0) (ha : pc.accesses = false) (hm : pc.more = false) :
    CountInv (s.complete.setDone d pc) := by
  have hz := hc.zeroed_of_last hl
  have howes : (s.done d).owes = 0 := by
    cases hd : s.done d <;> simp_all [DonePc.last, DonePc.owes]
  have hother : ∀ d', d' ≠ d → (s.done d').accesses = false ∧ (s.done d').more = false ∧
      (s.done d').last = false := by
    intro d' hne
    have h1 := hc.not_fetchSub (hc.zero hz) d'
    have h2 : (s.done d').last = false := by
      by_contra h
      exact hne (hc.one d' d (by simpa using h) hl)
    revert h1 h2
    cases s.done d' <;> simp [DonePc.last, DonePc.accesses, DonePc.more]
  constructor
  · have := Threads.sum_update_same DonePc.owes s.done d pc (by rw [ho, howes])
    exact hc.count.trans (by rw [← this]; rfl)
  · exact hc.zero
  · intro h
    rw [show (s.complete.setDone d pc).zeroed = s.zeroed from rfl, hz] at h
    cases h
  · intro d₁ d₂ h₁ h₂
    rcases setDone_cases (p := fun pc => pc.last) h₁ with ⟨rfl, -⟩ | ⟨hne, h⟩
    · rcases setDone_cases (p := fun pc => pc.last) h₂ with ⟨h, -⟩ | ⟨hne, h⟩
      · exact h.symm
      · rw [show s.complete.done d₂ = s.done d₂ from rfl, (hother d₂ hne).2.2] at h
        cases h
    · rw [show s.complete.done d₁ = s.done d₁ from rfl, (hother d₁ hne).2.2] at h
      cases h
  · intro _ d'
    rcases eq_or_ne d' d with rfl | hne
    · rw [setDone_self]
      exact ⟨ha, hm⟩
    · rw [setDone_of_ne hne]
      exact ⟨(hother d' hne).1, (hother d' hne).2.1⟩
  · exact fun _ _ _ => rfl

omit [DecidableEq ω] in
/-- `fetch_sub` by a `Done` that had its `Add`. -/
theorem CountInv.fetchSub (hc : CountInv s) (hd : s.done d = .fetchSub) :
    CountInv (s.fetchSub.setDone d (if s.countdown = 1 then .lock else .returned)) := by
  have hz : s.zeroed = false := by
    by_contra h
    exact hc.not_fetchSub (hc.zero (by simpa using h)) d hd
  obtain ⟨hcomp, hlast⟩ := hc.early hz
  have howes : (if s.countdown = 1 then .lock else .returned : DonePc ω).owes = 0 := by
    split <;> rfl
  have hsum := Threads.sum_update_add DonePc.owes s.done d
    (if s.countdown = 1 then .lock else .returned)
  rw [howes, show (s.done d).owes = 1 by rw [hd]; rfl] at hsum
  have hcount := hc.count
  constructor
  · show s.countdown - 1 = s.owed + ∑ d', (update s.done d _ d').owes
    omega
  · intro h
    have h : (s.zeroed || s.countdown == 1) = true := h
    rw [hz, Bool.false_or, beq_iff_eq] at h
    show s.countdown - 1 = 0
    omega
  · intro h
    have h : (s.zeroed || s.countdown == 1) = false := h
    rw [hz, Bool.false_or, beq_eq_false_iff_ne] at h
    refine ⟨hcomp, fun d' => ?_⟩
    rcases eq_or_ne d' d with hd' | hne
    · rw [hd', setDone_self, if_neg h]
      rfl
    · rw [setDone_of_ne hne]
      exact hlast d'
  · have hx : ∀ d', ((s.fetchSub.setDone d
        (if s.countdown = 1 then .lock else .returned)).done d').last → d' = d := by
      intro d' h
      rcases setDone_cases (p := fun pc => pc.last) h with ⟨h, -⟩ | ⟨-, h⟩
      · exact h
      · rw [show s.fetchSub.done d' = s.done d' from rfl, hlast d'] at h
        cases h
    intro d₁ d₂ h₁ h₂
    rw [hx d₁ h₁, hx d₂ h₂]
  · intro h
    rw [show (s.fetchSub.setDone d _).completed = s.completed from rfl, hcomp] at h
    cases h
  · intro d' f h
    rcases setDone_cases (p := fun pc => pc = .schedule f true) h with ⟨-, h⟩ | ⟨-, h⟩
    · split at h <;> cases h
    · exact hc.final d' f h

omit [DecidableEq δ] [DecidableEq ω] in
/-- A step of a waiter. -/
theorem CountInv.frame (hc : CountInv s) {s' : State δ ω} (hcount : s'.countdown = s.countdown)
    (howed : s'.owed = s.owed) (hdone : s'.done = s.done) (hz : s'.zeroed = s.zeroed)
    (hcomp : s'.completed = s.completed) : CountInv s' := by
  obtain ⟨h1, h2, h3, h4, h5, h6⟩ := hc
  constructor
  · rw [hcount, howed, hdone]; exact h1
  · rw [hz, hcount]; exact h2
  · rw [hz, hcomp, hdone]; exact h3
  · rw [hdone]; exact h4
  · rw [hcomp, hdone]; exact h5
  · rw [hdone, hcomp]; exact h6

end count

/-! ### The waiters -/

section wait

variable {s r : State δ ω} {d : δ} {w : ω}

omit [DecidableEq ω] in
/-- A step of `Done` between two accesses to the queue. -/
theorem WaitInv.moveDone (hi : WaitInv s) (hq : r.queue = s.queue) (hf : r.fiber = s.fiber)
    (ha : r.await = s.await) (hd : r.done = s.done) {pc : DonePc ω}
    (hs : (r.completed ∨ pc.settled) → ∀ w, (s.await w).queueing = false)
    (ht : ∀ f, pc.holding = some f → (s.done d).holding = some f)
    (hm : pc.more → s.queue ≠ []) : WaitInv (r.setDone d pc) := by
  constructor
  · rintro (h | ⟨d', h⟩)
    · rw [show (r.setDone d pc).await = s.await from ha]
      exact hs (.inl h)
    · rw [show (r.setDone d pc).await = s.await from ha]
      rcases setDone_cases (p := fun pc => pc.settled) h with ⟨-, h⟩ | ⟨-, h⟩
      · exact hs (.inr h)
      · rw [hd] at h
        exact hi.settled (.inr ⟨d', h⟩)
  · rw [show (r.setDone d pc).await = s.await from ha, show (r.setDone d pc).fiber = s.fiber from hf]
    exact hi.suspended
  · rw [show (r.setDone d pc).await = s.await from ha, show (r.setDone d pc).fiber = s.fiber from hf,
      show (r.setDone d pc).queue = s.queue from hq]
    exact hi.queued
  · rw [show (r.setDone d pc).await = s.await from ha, show (r.setDone d pc).queue = s.queue from hq]
    exact hi.inQueue
  · rw [show (r.setDone d pc).queue = s.queue from hq]
    exact hi.nodup
  · rw [show (r.setDone d pc).await = s.await from ha, show (r.setDone d pc).fiber = s.fiber from hf,
      show (r.setDone d pc).queue = s.queue from hq]
    intro d' f h
    rcases setDone_cases (p := fun pc => pc.holding = some f) h with ⟨-, h⟩ | ⟨-, h⟩
    · exact hi.taken d f (ht f h)
    · rw [hd] at h
      exact hi.taken d' f h
  · rw [show (r.setDone d pc).queue = s.queue from hq]
    intro d' h
    rcases setDone_cases (p := fun pc => pc.more) h with ⟨-, h⟩ | ⟨-, h⟩
    · exact hm h
    · rw [hd] at h
      exact hi.more d' h

omit [DecidableEq ω] in
/-- `wait_q_.Take()` by the last `Done`. -/
theorem WaitInv.take (hi : WaitInv s) {f : ω} {q : List ω} (hd : s.done d = .take)
    (hq : s.queue = f :: q) (hone : ∀ d', (s.done d').more → d' = d) :
    WaitInv ((s.setQueue q).setDone d (.readEmptyAfter f)) := by
  have hnoq : ∀ w, (s.await w).queueing = false := hi.settled (.inr ⟨d, by rw [hd]; rfl⟩)
  have hmem : ∀ w, w ∈ q → w ∈ s.queue := fun w hw => by rw [hq]; exact .tail _ hw
  have hnodup := hi.nodup
  rw [hq, List.nodup_cons] at hnodup
  constructor
  · exact fun _ => hnoq
  · exact hi.suspended
  · exact fun w hw => hi.queued w (hmem w hw)
  · intro w hw
    have := hnoq w
    rw [show s.await w = _ from hw] at this
    cases this
  · exact hnodup.2
  · intro d' f' h
    rcases setDone_cases (p := fun pc => pc.holding = some f') h with ⟨-, h⟩ | ⟨-, h⟩
    · obtain rfl := Option.some.inj h
      obtain ⟨h1, h2⟩ := hi.queued f (by rw [hq]; exact .head _)
      refine ⟨h1, h2.resolve_right fun h3 => ?_, hnodup.1⟩
      have := hnoq f
      rw [h3] at this
      cases this
    · obtain ⟨h1, h2, h3⟩ := hi.taken d' f' h
      exact ⟨h1, h2, fun h4 => h3 (hmem f' h4)⟩
  · intro d' h
    rcases setDone_cases (p := fun pc => pc.more) h with ⟨-, h⟩ | ⟨hne, h⟩
    · cases h
    · exact absurd (hone d' h) hne

/-- The last `Done` schedules the fiber it took. -/
theorem WaitInv.schedule (hi : WaitInv s) {f : ω} {b : Bool} (hd : s.done d = .schedule f b)
    (hone : ∀ d', (s.done d').last → d' = d) :
    WaitInv ((s.resume f).setDone d (if b then .returned else .take)) := by
  obtain ⟨-, hoff, hnot⟩ := hi.taken d f (by rw [hd]; rfl)
  have hnoq : ∀ w, (s.await w).queueing = false := hi.settled (.inr ⟨d, by rw [hd]; rfl⟩)
  constructor
  · exact fun _ => hnoq
  · intro w hw
    have hne : w ≠ f := by
      rintro rfl
      exact hw hoff
    rw [show ((s.resume f).setDone d _).fiber w = s.fiber w from setFiber_of_ne hne]
    exact hi.suspended w hw
  · intro w hw
    have hne : w ≠ f := by
      rintro rfl
      exact hnot hw
    rw [show ((s.resume f).setDone d _).fiber w = s.fiber w from setFiber_of_ne hne]
    exact hi.queued w hw
  · exact hi.inQueue
  · exact hi.nodup
  · intro d' f' h
    rcases setDone_cases (p := fun pc => pc.holding = some f') h with ⟨-, h⟩ | ⟨hne, h⟩
    · split at h <;> cases h
    · refine absurd (hone d' ?_) hne
      revert h
      show (s.done d').holding = some f' → _
      cases s.done d' <;> simp [DonePc.holding, DonePc.last]
  · intro d' h
    rcases setDone_cases (p := fun pc => pc.more) h with ⟨-, h⟩ | ⟨-, h⟩
    · refine hi.more d ?_
      rw [hd]
      cases b
      · rfl
      · cases h
    · exact hi.more d' h

omit [DecidableEq δ] in
/-- A step of `AwaitSuspend` that does not touch the queue. -/
theorem WaitInv.moveAwait (hi : WaitInv s) (hq : r.queue = s.queue) (hf : r.fiber = s.fiber)
    (ha : r.await = s.await) (hd : r.done = s.done) (hc : r.completed = s.completed) {pc : AwaitPc}
    (hw : s.await w ≠ .off ∧ s.await w ≠ .unlockQueued) (hpc : pc ≠ .unlockQueued)
    (hs : pc.queueing → (s.await w).queueing ∨ ¬ (s.completed ∨ ∃ d, (s.done d).settled)) :
    WaitInv (r.setAwait w pc) := by
  have hnotq : w ∉ s.queue := fun h => (hi.queued w h).2.elim hw.1 hw.2
  have hother : ∀ {w'}, w' ≠ w → (r.setAwait w pc).await w' = s.await w' := by
    intro w' hne
    rw [setAwait_of_ne hne, ha]
  constructor
  · intro h
    have hset : s.completed ∨ ∃ d, (s.done d).settled := by
      rcases h with h | ⟨d, h⟩
      · exact .inl (hc ▸ h)
      · exact .inr ⟨d, by rw [← hd]; exact h⟩
    intro w'
    rcases eq_or_ne w' w with rfl | hne
    · rw [setAwait_self]
      by_contra hp
      rcases hs (by simpa using hp) with hp | hp
      · rw [hi.settled hset w'] at hp
        cases hp
      · exact hp hset
    · rw [hother hne]
      exact hi.settled hset w'
  · intro w' h
    rw [show (r.setAwait w pc).fiber = s.fiber from hf]
    rcases eq_or_ne w' w with rfl | hne
    · exact hi.suspended w' hw.1
    · rw [hother hne] at h
      exact hi.suspended w' h
  · intro w' h
    rw [show (r.setAwait w pc).queue = s.queue from hq] at h
    have hne : w' ≠ w := by
      rintro rfl
      exact hnotq h
    rw [hother hne, show (r.setAwait w pc).fiber = s.fiber from hf]
    exact hi.queued w' h
  · intro w' h
    rw [show (r.setAwait w pc).queue = s.queue from hq]
    rcases setAwait_cases (p := fun pc => pc = .unlockQueued) h with ⟨-, h⟩ | ⟨-, h⟩
    · exact absurd h hpc
    · exact hi.inQueue w' (by rw [← ha]; exact h)
  · rw [show (r.setAwait w pc).queue = s.queue from hq]
    exact hi.nodup
  · intro d f h
    rw [show (r.setAwait w pc).done = s.done from hd] at h
    obtain ⟨h1, h2, h3⟩ := hi.taken d f h
    have hne : f ≠ w := by
      rintro rfl
      exact hw.1 h2
    rw [hother hne, show (r.setAwait w pc).fiber = s.fiber from hf,
      show (r.setAwait w pc).queue = s.queue from hq]
    exact ⟨h1, h2, h3⟩
  · rw [show (r.setAwait w pc).done = s.done from hd, show (r.setAwait w pc).queue = s.queue from hq]
    exact hi.more

omit [DecidableEq δ] in
/-- `wait_q_.Put(fiber)`. -/
theorem WaitInv.put (hi : WaitInv s) (hw : s.await w = .put) :
    WaitInv ((s.setQueue (s.queue ++ [w])).setAwait w .unlockQueued) := by
  have hoff : s.await w ≠ .off := by rw [hw]; nofun
  have hnotq : w ∉ s.queue := by
    intro h
    rcases (hi.queued w h).2 with h | h <;> rw [hw] at h <;> cases h
  constructor
  · intro h
    have := hi.settled h w
    rw [hw] at this
    cases this
  · intro w' h
    rcases eq_or_ne w' w with rfl | hne
    · exact hi.suspended w' hoff
    · rw [setAwait_of_ne hne] at h
      exact hi.suspended w' h
  · intro w' h
    rcases eq_or_ne w' w with rfl | hne
    · exact ⟨hi.suspended w' hoff, .inr (setAwait_self _)⟩
    · rw [setAwait_of_ne hne]
      refine hi.queued w' ?_
      rcases List.mem_append.1 h with h | h
      · exact h
      · exact absurd (List.mem_singleton.1 h) hne
  · intro w' h
    refine List.mem_append.2 ?_
    rcases setAwait_cases (p := fun pc => pc = .unlockQueued) h with ⟨rfl, -⟩ | ⟨-, h⟩
    · exact .inr (List.mem_singleton.2 rfl)
    · exact .inl (hi.inQueue w' h)
  · exact List.nodup_append.2 ⟨hi.nodup, List.nodup_singleton w, fun a ha b hb => by
      rintro rfl
      rw [List.mem_singleton.1 hb] at ha
      exact hnotq ha⟩
  · intro d f h
    obtain ⟨h1, h2, h3⟩ := hi.taken d f h
    have hne : f ≠ w := by
      rintro rfl
      exact hoff h2
    rw [setAwait_of_ne hne]
    refine ⟨h1, h2, fun h4 => ?_⟩
    rcases List.mem_append.1 h4 with h4 | h4
    · exact h3 h4
    · exact hne (List.mem_singleton.1 h4)
  · intro d _ h
    exact absurd h (by simp [State.setAwait, State.setQueue])

omit [DecidableEq δ] in
/-- `AwaitSuspend` of `w` is over; the fiber stays in the queue or is scheduled. -/
theorem WaitInv.off (hi : WaitInv s) {m : Bool} (hw : s.await w = .unlockQueued) :
    WaitInv ((s.setMtx m).setAwait w .off) := by
  have hother : ∀ {w'}, w' ≠ w → ((s.setMtx m).setAwait w .off).await w' = s.await w' := setAwait_of_ne
  constructor
  · intro h w'
    rcases eq_or_ne w' w with rfl | hne
    · rw [setAwait_self]
      rfl
    · rw [hother hne]
      exact hi.settled h w'
  · intro w' h
    rcases eq_or_ne w' w with rfl | hne
    · rw [setAwait_self] at h
      exact absurd rfl h
    · rw [hother hne] at h
      exact hi.suspended w' h
  · intro w' h
    rcases eq_or_ne w' w with rfl | hne
    · exact ⟨(hi.queued w' h).1, .inl (setAwait_self _)⟩
    · rw [hother hne]
      exact hi.queued w' h
  · intro w' h
    rcases setAwait_cases (p := fun pc => pc = .unlockQueued) h with ⟨-, h⟩ | ⟨-, h⟩
    · cases h
    · exact hi.inQueue w' h
  · exact hi.nodup
  · intro d f h
    obtain ⟨h1, h2, h3⟩ := hi.taken d f h
    have hne : f ≠ w := by
      rintro rfl
      rw [hw] at h2
      cases h2
    rw [hother hne]
    exact ⟨h1, h2, h3⟩
  · exact hi.more

omit [DecidableEq δ] in
theorem WaitInv.scheduleSelf (hi : WaitInv s) (hw : s.await w = .schedule) :
    WaitInv ((s.resume w).setAwait w .off) := by
  have hnotq : w ∉ s.queue := by
    intro h
    rcases (hi.queued w h).2 with h | h <;> rw [hw] at h <;> cases h
  have hother : ∀ {w'}, w' ≠ w → ((s.resume w).setAwait w .off).await w' = s.await w' := setAwait_of_ne
  have hfiber : ∀ {w'}, w' ≠ w → ((s.resume w).setAwait w .off).fiber w' = s.fiber w' :=
    setFiber_of_ne
  constructor
  · intro h w'
    rcases eq_or_ne w' w with rfl | hne
    · rw [setAwait_self]
      rfl
    · rw [hother hne]
      exact hi.settled h w'
  · intro w' h
    rcases eq_or_ne w' w with rfl | hne
    · rw [setAwait_self] at h
      exact absurd rfl h
    · rw [hother hne] at h
      rw [hfiber hne]
      exact hi.suspended w' h
  · intro w' h
    have hne : w' ≠ w := by
      rintro rfl
      exact hnotq h
    rw [hother hne, hfiber hne]
    exact hi.queued w' h
  · intro w' h
    rcases setAwait_cases (p := fun pc => pc = .unlockQueued) h with ⟨-, h⟩ | ⟨-, h⟩
    · cases h
    · exact hi.inQueue w' h
  · exact hi.nodup
  · intro d f h
    obtain ⟨h1, h2, h3⟩ := hi.taken d f h
    have hne : f ≠ w := by
      rintro rfl
      rw [hw] at h2
      cases h2
    rw [hother hne, hfiber hne]
    exact ⟨h1, h2, h3⟩
  · exact hi.more

omit [DecidableEq δ] in
/-- A fiber that is not suspended moves, or is suspended and its `AwaitSuspend` begins. -/
theorem WaitInv.moveFiber (hi : WaitInv s) {n : UInt32} {pc : FiberPc} {apc : AwaitPc}
    (hw : s.fiber w ≠ .suspended) (hpc : apc = .off ∨ (apc = .lock ∧ pc = .suspended)) :
    WaitInv (((s.setSuspended n).setFiber w pc).setAwait w apc) := by
  have hother : ∀ {w'}, w' ≠ w →
      (((s.setSuspended n).setFiber w pc).setAwait w apc).await w' = s.await w' := setAwait_of_ne
  have hfiber : ∀ {w'}, w' ≠ w →
      (((s.setSuspended n).setFiber w pc).setAwait w apc).fiber w' = s.fiber w' := setFiber_of_ne
  constructor
  · intro h w'
    rcases eq_or_ne w' w with rfl | hne
    · rw [setAwait_self]
      rcases hpc with rfl | ⟨rfl, -⟩ <;> rfl
    · rw [hother hne]
      exact hi.settled h w'
  · intro w' h
    rcases eq_or_ne w' w with rfl | hne
    · rw [setAwait_self] at h
      rcases hpc with rfl | ⟨rfl, rfl⟩
      · exact absurd rfl h
      · exact setFiber_self _
    · rw [hother hne] at h
      rw [hfiber hne]
      exact hi.suspended w' h
  · intro w' h
    have hne : w' ≠ w := by
      rintro rfl
      exact hw (hi.queued w' h).1
    rw [hother hne, hfiber hne]
    exact hi.queued w' h
  · intro w' h
    rcases setAwait_cases (p := fun pc => pc = .unlockQueued) h with ⟨-, h⟩ | ⟨-, h⟩
    · rcases hpc with rfl | ⟨rfl, -⟩ <;> cases h
    · exact hi.inQueue w' h
  · exact hi.nodup
  · intro d f h
    obtain ⟨h1, h2, h3⟩ := hi.taken d f h
    have hne : f ≠ w := by
      rintro rfl
      exact hw h1
    rw [hother hne, hfiber hne]
    exact ⟨h1, h2, h3⟩
  · exact hi.more

end wait

/-! ### Every step keeps the invariant -/

section steps

variable [Fintype δ] {s s' : State δ ω} {d : δ} {w : ω}

omit [DecidableEq ω] in
theorem last_of_more {pc : DonePc ω} (h : pc.more) : pc.last := by
  revert h
  cases pc <;> simp [DonePc.more, DonePc.last]

omit [Fintype δ] [DecidableEq δ] [DecidableEq ω] in
/-- Somebody in the queue is held back. -/
theorem held_of_queue (h : s.queue ≠ []) : ∃ w, s.held w := by
  obtain ⟨w, hw⟩ := List.exists_mem_of_ne_nil _ h
  exact ⟨w, .inr (.inr (.inl hw))⟩

omit [Fintype δ] [DecidableEq ω] in
/-- A step of `Done` that keeps what it holds. -/
theorem held_setDone {r : State δ ω} {pc : DonePc ω} (hh : pc.holding = (s.done d).holding)
    (hf : r.fiber = s.fiber) (ha : r.await = s.await) (hq : r.queue = s.queue)
    (hd : r.done = s.done) {w : ω} (h : s.held w) : (r.setDone d pc).held w := by
  rcases h with h | h | h | ⟨d', h⟩
  · exact .inl (by rw [show (r.setDone d pc).fiber = s.fiber from hf]; exact h)
  · exact .inr (.inl (by rw [show (r.setDone d pc).await = s.await from ha]; exact h))
  · exact .inr (.inr (.inl (by rw [show (r.setDone d pc).queue = s.queue from hq]; exact h)))
  · refine .inr (.inr (.inr ⟨d', ?_⟩))
    rcases eq_or_ne d' d with rfl | hne
    · rw [setDone_self, hh]
      exact h
    · rw [setDone_of_ne hne, hd]
      exact h

omit [Fintype δ] [DecidableEq δ] in
/-- A step of `AwaitSuspend` that decides nothing. -/
theorem held_setAwait {r : State δ ω} {pc : AwaitPc} (hp : (s.await w).undecided → pc.undecided)
    (hf : r.fiber = s.fiber) (ha : r.await = s.await) (hq : r.queue = s.queue)
    (hd : r.done = s.done) {w' : ω} (h : s.held w') : (r.setAwait w pc).held w' := by
  rcases h with h | h | h | h
  · exact .inl (by rw [show (r.setAwait w pc).fiber = s.fiber from hf]; exact h)
  · refine .inr (.inl ?_)
    rcases eq_or_ne w' w with rfl | hne
    · rw [setAwait_self]
      exact hp h
    · rw [setAwait_of_ne hne, ha]
      exact h
  · exact .inr (.inr (.inl (by rw [show (r.setAwait w pc).queue = s.queue from hq]; exact h)))
  · exact .inr (.inr (.inr (by rw [show (r.setAwait w pc).done = s.done from hd]; exact h)))

omit [DecidableEq ω] in
/-- The last `Done` moves between two accesses to the queue. -/
theorem Inv.moveDone (hi : Inv s) {m : Bool} {pc : DonePc ω} (hl : (s.done d).last)
    (hlock : Lock.Guards m (s.setDone d pc).locks) (ho : pc.owes = 0)
    (hlate : s.completed = true → pc.accesses = false ∧ pc.more = false)
    (hf : ∀ f, pc = .schedule f true → s.completed = true)
    (hs : pc.settled → ∀ w, (s.await w).queueing = false)
    (hh : pc.holding = (s.done d).holding) (hm : pc.more → s.queue ≠ []) :
    Inv ((s.setMtx m).setDone d pc) := by
  constructor
  · exact hlock
  · have : CountInv (s.setDone d pc) := hi.count.move hl ho hlate hf
    exact ⟨this.1, this.2, this.3, this.4, this.5, this.6⟩
  · refine hi.wait.moveDone (r := s.setMtx m) rfl rfl rfl rfl ?_ (fun f h => hh ▸ h) hm
    rintro (h | h)
    · exact hi.wait.settled (.inl h)
    · exact hs h
  · intro hc hw
    obtain ⟨w, h⟩ := hi.held hc hw
    exact ⟨w, held_setDone (r := s.setMtx m) hh rfl rfl rfl rfl h⟩

omit [DecidableEq ω] in
/-- It stores `true`. -/
theorem Inv.complete (hi : Inv s) {pc : DonePc ω} (hl : (s.done d).settled) (ho : pc.owes = 0)
    (ha : pc.accesses = false) (hm : pc.more = false) (hlock : pc.locked = false)
    (hh : ∀ f, pc.holding = some f → (s.done d).holding = some f) :
    Inv (s.complete.setDone d pc) := by
  have hlast : (s.done d).last := by
    revert hl
    cases s.done d <;> simp [DonePc.settled, DonePc.last]
  constructor
  · refine guards_setDone (s := s.complete) hi.lock fun h => ?_
    rw [hlock] at h
    cases h
  · exact hi.count.complete hlast ho ha hm
  · refine hi.wait.moveDone (r := s.complete) rfl rfl rfl rfl (fun _ => ?_) hh fun h => ?_
    · exact hi.wait.settled (.inr ⟨d, hl⟩)
    · rw [hm] at h
      cases h
  · exact fun h => absurd h (by simp [State.complete, State.setDone])

omit [DecidableEq δ] [DecidableEq ω] in
/-- Where the last `Done` accesses the group, it is not completed. -/
theorem Inv.not_completed (hi : Inv s) (h : (s.done d).accesses ∨ (s.done d).more) :
    s.completed = false := by
  by_contra hc
  obtain ⟨h1, h2⟩ := hi.count.late (by simpa using hc) d
  rw [h1, h2] at h
  simp at h

theorem inv_doneStep (hi : Inv s) (h : doneStep s d = some s') : Inv s' := by
  unfold doneStep at h
  split at h <;> rename_i hd
  · cases h
  · cases h
  · -- `fetchSub`
    obtain rfl := Option.some.inj h
    constructor
    · refine guards_setDone (s := s.fetchSub) hi.lock fun h => ?_
      split at h <;> cases h
    · exact hi.count.fetchSub hd
    · refine hi.wait.moveDone (r := s.fetchSub) rfl rfl rfl rfl ?_ (fun f h => ?_) fun h => ?_
      · rintro (h | h)
        · exact hi.wait.settled (.inl h)
        · split at h <;> cases h
      · split at h <;> cases h
      · split at h <;> cases h
    · intro hc hw
      obtain ⟨w, h⟩ := hi.held hc hw
      refine ⟨w, held_setDone (s := s) (r := s.fetchSub) ?_ rfl rfl rfl rfl h⟩
      rw [hd]
      split <;> rfl
  · -- `lock`
    split at h
    · cases h
    · next hm =>
      obtain rfl := Option.some.inj h
      have hm : s.mtx = false := by simpa using hm
      have hnc : s.completed = false := hi.not_completed (.inl (by rw [hd]; rfl))
      refine hi.moveDone (by rw [hd]; rfl) (guards_lockDone hi.lock hm _) rfl ?_ nofun ?_
        (by rw [hd]; rfl) nofun
      · intro h
        rw [hnc] at h
        cases h
      · -- whoever is about to queue holds the lock
        intro _ w
        by_contra hq
        refine hi.lock.free hm (.inr w) ?_
        revert hq
        show _ → (s.await w).locked = true
        cases s.await w <;> simp [AwaitPc.queueing, AwaitPc.locked]
  · -- `readEmpty`
    obtain rfl := Option.some.inj h
    have hnc : s.completed = false := hi.not_completed (.inl (by rw [hd]; rfl))
    refine hi.moveDone (m := s.mtx) (by rw [hd]; rfl) (guards_setDone hi.lock fun _ => by rw [hd]; rfl)
      rfl ?_ nofun (fun _ => hi.wait.settled (.inr ⟨d, by rw [hd]; rfl⟩)) (by rw [hd]; rfl) ?_
    · intro h
      rw [hnc] at h
      cases h
    · intro h he
      rw [he] at h
      cases h
  · -- `unlock`
    next isEmpty =>
    obtain rfl := Option.some.inj h
    have hnc : s.completed = false := hi.not_completed (.inl (by rw [hd]; rfl))
    refine hi.moveDone (by rw [hd]; rfl) (guards_unlockDone hi.lock (by rw [hd]; rfl) ?_) ?_ ?_ ?_
      (fun _ => hi.wait.settled (.inr ⟨d, by rw [hd]; rfl⟩)) ?_ ?_
    · split <;> rfl
    · split <;> rfl
    · intro h
      rw [hnc] at h
      cases h
    · intro f h
      split at h <;> cases h
    · rw [hd]
      split <;> rfl
    · intro h
      refine hi.wait.more d ?_
      rw [hd]
      cases isEmpty
      · rfl
      · cases h
  · -- `storeEmpty`
    obtain rfl := Option.some.inj h
    exact hi.complete (by rw [hd]; rfl) rfl rfl rfl rfl nofun
  · -- `take`
    split at h
    · cases h
    · next f q hq =>
      obtain rfl := Option.some.inj h
      have hnc : s.completed = false := hi.not_completed (.inl (by rw [hd]; rfl))
      have hlast : (s.done d).last := by rw [hd]; rfl
      constructor
      · exact guards_setDone (s := s.setQueue q) hi.lock nofun
      · have : CountInv (s.setDone d (.readEmptyAfter f)) := hi.count.move hlast rfl
          (fun h => by rw [hnc] at h; cases h) nofun
        exact ⟨this.1, this.2, this.3, this.4, this.5, this.6⟩
      · exact hi.wait.take hd hq fun d' h => hi.count.one d' d (last_of_more h) hlast
      · exact fun _ _ => ⟨f, .inr (.inr (.inr ⟨d, by rw [setDone_self]; rfl⟩))⟩
  · -- `readEmptyAfter`
    next f =>
    obtain rfl := Option.some.inj h
    have hnc : s.completed = false := hi.not_completed (.inl (by rw [hd]; rfl))
    refine hi.moveDone (m := s.mtx) (by rw [hd]; rfl) (guards_setDone hi.lock ?_) ?_ ?_ ?_
      (fun _ => hi.wait.settled (.inr ⟨d, by rw [hd]; rfl⟩)) ?_ ?_
    · intro h
      split at h <;> cases h
    · split <;> rfl
    · intro h
      rw [hnc] at h
      cases h
    · intro f' h
      split at h <;> cases h
    · rw [hd]
      split <;> rfl
    · intro h he
      rw [he] at h
      cases h
  · -- `store`
    next f =>
    obtain rfl := Option.some.inj h
    exact hi.complete (by rw [hd]; rfl) rfl rfl rfl rfl (by rw [hd]; exact fun _ => id)
  · -- `schedule`
    next f isEmpty =>
    obtain rfl := Option.some.inj h
    have hlast : (s.done d).last := by rw [hd]; rfl
    constructor
    · refine guards_setDone (s := s.resume f) hi.lock fun h => ?_
      split at h <;> cases h
    · have : CountInv (s.setDone d (if isEmpty then .returned else .take)) := hi.count.move hlast
        (by split <;> rfl) (fun h => ?_) (fun f h => by split at h <;> cases h)
      · exact ⟨this.1, this.2, this.3, this.4, this.5, this.6⟩
      · have hmore := (hi.count.late h d).2
        rw [hd] at hmore
        cases isEmpty
        · cases hmore
        · exact ⟨rfl, rfl⟩
    · exact hi.wait.schedule hd fun d' h => hi.count.one d' d h hlast
    · intro hc _
      cases isEmpty with
      | true => exact absurd (hi.count.final d f hd) (by rw [show s.completed = false from hc]; nofun)
      | false => exact held_of_queue (s := (s.resume f).setDone d .take) (hi.wait.more d (by rw [hd]; rfl))

omit [DecidableEq δ] in
/-- A step of `AwaitSuspend` that does not touch the queue. -/
theorem Inv.moveAwait (hi : Inv s) {m : Bool} {pc : AwaitPc}
    (hlock : Lock.Guards m (s.setAwait w pc).locks)
    (hw : s.await w ≠ .off ∧ s.await w ≠ .unlockQueued) (hpc : pc ≠ .unlockQueued)
    (hs : pc.queueing → (s.await w).queueing ∨ ¬ (s.completed ∨ ∃ d, (s.done d).settled))
    (hh : s.completed = false → ((s.await w).undecided → pc.undecided) ∨ ∃ w', w' ≠ w ∧ s.held w') :
    Inv ((s.setMtx m).setAwait w pc) := by
  constructor
  · exact hlock
  · exact hi.count.frame rfl rfl rfl rfl rfl
  · exact hi.wait.moveAwait (r := s.setMtx m) rfl rfl rfl rfl rfl hw hpc hs
  · intro hc hex
    rcases hh hc with hp | ⟨w', hne, h⟩
    · obtain ⟨w', h⟩ := hi.held hc hex
      exact ⟨w', held_setAwait (r := s.setMtx m) hp rfl rfl rfl rfl h⟩
    · refine ⟨w', ?_⟩
      rcases h with h | h | h | h
      · exact .inl h
      · exact .inr (.inl (by rwa [setAwait_of_ne hne]))
      · exact .inr (.inr (.inl h))
      · exact .inr (.inr (.inr h))

omit [DecidableEq δ] in
theorem inv_awaitStep (hi : Inv s) (hl : leavesCompanion s (.await w : Act δ ω))
    (h : awaitStep s w = some s') : Inv s' := by
  unfold awaitStep at h
  split at h <;> rename_i hw
  · cases h
  · -- `lock`
    split at h
    · cases h
    · next hm =>
      obtain rfl := Option.some.inj h
      refine hi.moveAwait (guards_lockAwait hi.lock (by simpa using hm) _) ?_ nofun nofun
        fun _ => .inl fun _ => rfl
      rw [hw]
      exact ⟨nofun, nofun⟩
  · -- `loadCountdown`
    obtain rfl := Option.some.inj h
    refine hi.moveAwait (m := s.mtx) (guards_setAwait hi.lock fun _ => by rw [hw]; rfl) ?_ ?_ ?_ ?_
    · rw [hw]
      exact ⟨nofun, nofun⟩
    · split <;> exact nofun
    · intro hq
      refine .inr fun hset => ?_
      split at hq
      · next h0 =>
        -- the countdown is not zero, so the last `Done` is still to come
        have hz : s.zeroed = false := by
          by_contra hz
          exact h0 (hi.count.zero (by simpa using hz))
        obtain ⟨hc, hlast⟩ := hi.count.early hz
        rcases hset with h | ⟨d, h⟩
        · rw [hc] at h
          cases h
        · have := hlast d
          revert h this
          cases s.done d <;> simp [DonePc.last, DonePc.settled]
      · cases hq
    · intro _
      refine .inl fun _ => ?_
      split <;> rfl
  · -- `put`
    obtain rfl := Option.some.inj h
    constructor
    · exact guards_setAwait (s := s.setQueue (s.queue ++ [w])) hi.lock fun _ => by
        rw [show (s.setQueue (s.queue ++ [w])).await w = _ from hw]
        rfl
    · exact hi.count.frame rfl rfl rfl rfl rfl
    · exact hi.wait.put hw
    · exact fun _ _ => held_of_queue (by simp [State.setAwait, State.setQueue])
  · -- `unlockQueued`
    obtain rfl := Option.some.inj h
    constructor
    · exact guards_unlockAwait hi.lock (by rw [hw]; rfl) rfl
    · exact hi.count.frame rfl rfl rfl rfl rfl
    · exact hi.wait.off hw
    · exact fun _ _ => held_of_queue (List.ne_nil_of_mem (hi.wait.inQueue w hw))
  · -- `unlockLate`
    obtain rfl := Option.some.inj h
    refine hi.moveAwait (guards_unlockAwait hi.lock (by rw [hw]; rfl) rfl) ?_ nofun nofun
      fun _ => .inl fun _ => rfl
    rw [hw]
    exact ⟨nofun, nofun⟩
  · -- `loadSuspended`
    obtain rfl := Option.some.inj h
    refine hi.moveAwait (m := s.mtx) (guards_setAwait hi.lock fun h => ?_) ?_ ?_ ?_ ?_
    · split at h <;> cases h
    · rw [hw]
      exact ⟨nofun, nofun⟩
    · split <;> exact nofun
    · intro hq
      split at hq <;> cases hq
    · intro hc
      split
      · exact .inl fun _ => rfl
      · next hne => exact .inr (hl hw hne hc)
  · -- `spin`
    split at h
    · next hc =>
      obtain rfl := Option.some.inj h
      refine hi.moveAwait (m := s.mtx) (guards_setAwait hi.lock nofun) ?_ nofun nofun fun h => ?_
      · rw [hw]
        exact ⟨nofun, nofun⟩
      · rw [hc] at h
        cases h
    · cases h
  · -- `schedule`
    obtain rfl := Option.some.inj h
    constructor
    · exact guards_setAwait (s := s.resume w) hi.lock nofun
    · exact hi.count.frame rfl rfl rfl rfl rfl
    · exact hi.wait.scheduleSelf hw
    · intro hc _
      have hex : ∃ w, s.fiber w ≠ .idle :=
        ⟨w, by rw [hi.wait.suspended w (by rw [hw]; nofun)]; nofun⟩
      obtain ⟨w', h⟩ := hi.held hc hex
      refine ⟨w', ?_⟩
      have hsus := hi.wait.suspended w (by rw [hw]; nofun)
      rcases h with hf | ha | hq | hd
      · have hne : w' ≠ w := by
          rintro rfl
          rw [hsus] at hf
          cases hf
        exact .inl ((setFiber_of_ne hne).trans hf)
      · have hne : w' ≠ w := by
          rintro rfl
          rw [hw] at ha
          cases ha
        exact .inr (.inl (by rwa [setAwait_of_ne hne]))
      · exact .inr (.inr (.inl hq))
      · exact .inr (.inr (.inr hd))

omit [DecidableEq δ] in
/-- A fiber that is not suspended moves. -/
theorem Inv.moveFiber (hi : Inv s) {n : UInt32} {pc : FiberPc} {apc : AwaitPc}
    (hw : s.fiber w ≠ .suspended) (hpc : apc = .off ∨ (apc = .lock ∧ pc = .suspended))
    (hh : pc = .enter ∨ apc = .lock ∨ (s.fiber w ≠ .enter ∧ s.fiber w ≠ .idle)) :
    Inv (((s.setSuspended n).setFiber w pc).setAwait w apc) := by
  have hoff : s.await w = .off := by
    by_contra h
    exact hw (hi.wait.suspended w h)
  constructor
  · refine guards_setAwait (s := (s.setSuspended n).setFiber w pc) hi.lock fun h => ?_
    rcases hpc with rfl | ⟨rfl, -⟩ <;> cases h
  · exact hi.count.frame rfl rfl rfl rfl rfl
  · exact hi.wait.moveFiber hw hpc
  · intro hc hex
    rcases hh with rfl | rfl | ⟨hne, hni⟩
    · exact ⟨w, .inl (setFiber_self _)⟩
    · exact ⟨w, .inr (.inl (by rw [setAwait_self]; rfl))⟩
    · obtain ⟨w', h⟩ := hi.held hc ⟨w, hni⟩
      refine ⟨w', ?_⟩
      rcases h with h | h | h | h
      · have hne : w' ≠ w := by
          rintro rfl
          exact hne h
        exact .inl ((setFiber_of_ne hne).trans h)
      · have hne : w' ≠ w := by
          rintro rfl
          rw [hoff] at h
          cases h
        exact .inr (.inl (by rwa [setAwait_of_ne hne]))
      · exact .inr (.inr (.inl h))
      · exact .inr (.inr (.inr h))

omit [Fintype δ] [DecidableEq δ] in
/-- The place of the `AwaitSuspend`, written back. -/
theorem setAwait_eq (hoff : s.await w = .off) (n : UInt32) (pc : FiberPc) :
    ((s.setSuspended n).setFiber w pc).setAwait w .off = (s.setSuspended n).setFiber w pc := by
  unfold State.setAwait State.setFiber State.setSuspended
  congr
  rw [← hoff, update_eq_self]

omit [DecidableEq δ] [DecidableEq ω] in
theorem Inv.off (hi : Inv s) (hw : s.fiber w ≠ .suspended) : s.await w = .off := by
  by_contra h
  exact hw (hi.wait.suspended w h)

omit [DecidableEq δ] in
theorem inv_fiberStep (hi : Inv s) (h : fiberStep s w = some s') : Inv s' := by
  unfold fiberStep at h
  split at h <;> rename_i hw
  · cases h
  · cases h
  · cases h
  · obtain rfl := Option.some.inj h
    exact hi.moveFiber (by rw [hw]; nofun) (.inr ⟨rfl, rfl⟩) (.inr (.inl rfl))
  · obtain rfl := Option.some.inj h
    have hns : s.fiber w ≠ .suspended := by rw [hw]; nofun
    rw [show s.setFiber w .leave = (s.setSuspended s.suspended).setFiber w .leave from rfl,
      ← setAwait_eq (hi.off hns)]
    exact hi.moveFiber hns (.inl rfl) (.inr (.inr (by rw [hw]; exact ⟨nofun, nofun⟩)))
  · obtain rfl := Option.some.inj h
    have hns : s.fiber w ≠ .suspended := by rw [hw]; nofun
    rw [← setAwait_eq (hi.off hns)]
    exact hi.moveFiber hns (.inl rfl) (.inr (.inr (by rw [hw]; exact ⟨nofun, nofun⟩)))

theorem inv_step (hi : Inv s) {a : Act δ ω} (hu : usage s a) (hl : leavesCompanion s a)
    (h : step s a = some s') : Inv s' := by
  cases a with
  | add count =>
    obtain rfl := Option.some.inj h
    have hz := hu.1
    constructor
    · exact hi.lock
    · constructor
      · show s.countdown + count = s.owed + count + ∑ d, (s.done d).owes
        have := hi.count.count
        omega
      · intro h
        rw [show s.zeroed = true from h] at hz
        cases hz
      · exact hi.count.early
      · exact hi.count.one
      · exact hi.count.late
      · exact hi.count.final
    · exact ⟨hi.wait.1, hi.wait.2, hi.wait.3, hi.wait.4, hi.wait.5, hi.wait.6, hi.wait.7⟩
    · exact hi.held
  | callDone d =>
    simp only [step] at h
    split at h
    · next hd =>
      obtain rfl := Option.some.inj h
      have hu : 0 < s.owed := hu
      have hcount := hi.count.count
      have hz : s.zeroed = false := by
        by_contra hz
        have := hi.count.zero (by simpa using hz)
        omega
      obtain ⟨hc, hlast⟩ := hi.count.early hz
      have hsum := Threads.sum_update_add DonePc.owes s.done d .fetchSub
      rw [show (s.done d).owes = 0 by rw [hd]; rfl, show (DonePc.fetchSub : DonePc ω).owes = 1 from rfl]
        at hsum
      have hnl : ∀ d', ((s.setDone d .fetchSub).done d').last = false := by
        intro d'
        rcases eq_or_ne d' d with rfl | hne
        · rw [setDone_self]
          rfl
        · rw [setDone_of_ne hne]
          exact hlast d'
      constructor
      · exact guards_setDone hi.lock nofun
      · constructor
        · show s.countdown = s.owed - 1 + ∑ d', (update s.done d .fetchSub d').owes
          omega
        · exact hi.count.zero
        · exact fun _ => ⟨hc, hnl⟩
        · intro d₁ _ h₁
          rw [show (({ s.setDone d .fetchSub with owed := s.owed - 1 } : State δ ω).done d₁).last = _
            from hnl d₁] at h₁
          cases h₁
        · intro h
          rw [show s.completed = true from h] at hc
          cases hc
        · intro d' f h
          have := hnl d'
          rw [show (s.setDone d .fetchSub).done d' = _ from h] at this
          cases this
      · have : WaitInv (s.setDone d .fetchSub) := hi.wait.moveDone rfl rfl rfl rfl
          (fun h => hi.wait.settled (.inl (h.resolve_right nofun))) nofun nofun
        exact ⟨this.1, this.2, this.3, this.4, this.5, this.6, this.7⟩
      · intro hc hex
        obtain ⟨w, h⟩ := hi.held hc hex
        exact ⟨w, held_setDone (s := s) (r := s) (by rw [hd]; rfl) rfl rfl rfl rfl h⟩
    · cases h
  | done d => exact inv_doneStep hi h
  | callWait w =>
    simp only [step] at h
    split at h
    · next hw =>
      obtain rfl := Option.some.inj h
      have hns : s.fiber w ≠ .suspended := by rw [hw]; nofun
      rw [show s.setFiber w .enter = (s.setSuspended s.suspended).setFiber w .enter from rfl,
        ← setAwait_eq (hi.off hns)]
      exact hi.moveFiber hns (.inl rfl) (.inl rfl)
    · cases h
  | fiber w => exact inv_fiberStep hi h
  | await w => exact inv_awaitStep hi hl h

omit [Fintype δ] [DecidableEq δ] [DecidableEq ω] in
theorem not_locks_init (x : δ ⊕ ω) : ¬ (init : State δ ω).locks x := by
  cases x <;> exact nofun

omit [DecidableEq δ] [DecidableEq ω] in
theorem inv_init : Inv (init : State δ ω) where
  lock := ⟨fun x hx => absurd hx (not_locks_init x), fun x _ hx => absurd hx (not_locks_init x)⟩
  count := ⟨by simp [init, DonePc.owes], fun _ => rfl, fun _ => ⟨rfl, fun _ => rfl⟩, nofun, nofun, nofun⟩
  wait := ⟨fun _ _ => rfl, fun _ h => absurd rfl h, nofun, nofun, .nil, nofun, nofun⟩
  held := by
    rintro - ⟨w, hw⟩
    exact absurd rfl hw

end steps

/-! ### The end of the group -/

section released

variable {s s' : State δ ω}

/-- Nobody is in the middle of a call that will still access the group. -/
structure Through (s : State δ ω) : Prop where
  done : ∀ d, (s.done d).accesses = false ∧ (s.done d).more = false
  await : ∀ w, s.await w = .off
  fiber : ∀ w, s.fiber w ≠ .enter

/-- Without a new call it stays so. -/
theorem Through.step (ht : Through s) {a : Act δ ω} (ha : noCall s a) (h : step s a = some s') :
    Through s' := by
  cases a with
  | add => exact ha.elim
  | callDone => exact ha.elim
  | callWait => exact ha.elim
  | done d =>
    have hd := ht.done d
    simp only [WaitGroup.step] at h
    unfold doneStep at h
    split at h <;> rename_i hpc <;> rw [hpc] at hd
    · cases h
    · cases h
    · cases hd.1
    · cases hd.1
    · cases hd.1
    · cases hd.1
    · cases hd.1
    · cases hd.1
    · cases hd.1
    · cases hd.1
    · next f isEmpty =>
      obtain rfl := Option.some.inj h
      cases isEmpty with
      | false => cases hd.2
      | true =>
        constructor
        · intro d'
          rcases eq_or_ne d' d with rfl | hne
          · rw [setDone_self]
            exact ⟨rfl, rfl⟩
          · rw [setDone_of_ne hne]
            exact ht.done d'
        · exact ht.await
        · intro w
          rcases eq_or_ne w f with rfl | hne
          · rw [show ((s.resume w).setDone d _).fiber w = .runnable from setFiber_self _]
            nofun
          · rw [show ((s.resume f).setDone d _).fiber w = s.fiber w from setFiber_of_ne hne]
            exact ht.fiber w
  | await w =>
    simp only [WaitGroup.step] at h
    unfold awaitStep at h
    rw [ht.await w] at h
    cases h
  | fiber w =>
    simp only [WaitGroup.step] at h
    unfold fiberStep at h
    have hsame : ∀ (s₁ : State δ ω) (pc : FiberPc), pc ≠ .enter → s₁.done = s.done →
        s₁.await = s.await → s₁.fiber = s.fiber → Through (s₁.setFiber w pc) := by
      intro s₁ pc hpc hd ha hf
      refine ⟨fun d => hd ▸ ht.done d, fun w => ha ▸ ht.await w, fun w' => ?_⟩
      rcases eq_or_ne w' w with rfl | hne
      · rwa [setFiber_self]
      · rw [setFiber_of_ne hne, hf]
        exact ht.fiber w'
    split at h <;> rename_i hw
    · cases h
    · cases h
    · cases h
    · exact absurd hw (ht.fiber w)
    · obtain rfl := Option.some.inj h
      exact hsame s _ nofun rfl rfl rfl
    · obtain rfl := Option.some.inj h
      exact hsame (s.setSuspended _) _ nofun rfl rfl rfl

theorem Through.unused (ht : Through s) : s.unused := by
  intro s' hr
  have h : Through s' := by
    refine Reach.invariant (I := Through) ?_ (fun s a s' hi ha hs => hi.step ha hs) hr
    rintro s₀ rfl
    exact ht
  exact ⟨fun d => (h.done d).1, fun w => by rw [h.await w]; rfl⟩

omit [DecidableEq δ] [DecidableEq ω] in
theorem Inv.through [Fintype δ] (hi : Inv s) (hr : s.released) : Through s := by
  obtain ⟨⟨w₀, hw₀⟩, hall⟩ := hr
  have hfiber : ∀ w, s.fiber w ≠ .suspended ∧ s.fiber w ≠ .enter := by
    intro w
    rcases hall w with h | h <;> rw [h] <;> exact ⟨nofun, nofun⟩
  have hoff : ∀ w, s.await w = .off := fun w => hi.off (hfiber w).1
  have hcomp : s.completed = true := by
    by_contra hc
    obtain ⟨w, h | h | h | ⟨d, h⟩⟩ := hi.held (by simpa using hc) ⟨w₀, by rw [hw₀]; nofun⟩
    · exact (hfiber w).2 h
    · rw [hoff w] at h
      cases h
    · exact (hfiber w).1 (hi.wait.queued w h).1
    · exact (hfiber w).1 (hi.wait.taken d w h).1
  exact ⟨hi.count.late hcomp, hoff, fun w => (hfiber w).2⟩

/-- In a run in which a late waiter leaves without waiting for the last `Done` only with another waiter
held back, or when that `Done` is through: when every `Wait` has returned, nobody will access the
group any more. -/
theorem unused_of_released [Fintype δ]
    (h : Reach (system δ ω) (fun s a => usage s a ∧ leavesCompanion s a) s) (hr : s.released) :
    s.unused := by
  have hi : Inv s := by
    refine Reach.invariant (I := Inv) ?_ (fun s a s' hi ha hs => inv_step hi ha.1 ha.2 hs) h
    rintro s rfl
    exact inv_init
  exact (hi.through hr).unused

end released

/-! ### Two late waiters -/

/-- `usage`, evaluated. -/
def checkUsage (s : State δ ω) : Act δ ω → Bool
  | .add count => !s.zeroed && decide (s.countdown + count < 2 ^ 32)
  | .callDone _ => decide (0 < s.owed)
  | _ => true

omit [DecidableEq δ] [DecidableEq ω] in
theorem usage_of_check (s : State δ ω) (a : Act δ ω) (h : checkUsage s a = true) : usage s a := by
  cases a with
  | add count => simpa [checkUsage, usage] using h
  | callDone d => exact of_decide_eq_true (p := 0 < s.owed) h
  | _ => trivial

/-- The last `Done` has decremented the countdown and not yet locked `mtx_`; two waiters come, find the
countdown at zero and each other in the counter, and go. -/
theorem released_too_early : ∃ s : State (Fin 1) (Fin 2),
    Reach (system (Fin 1) (Fin 2)) usage s ∧ s.released ∧ ¬ s.unused := by
  obtain ⟨s, hr, hp⟩ := Reach.of_exec (system (Fin 1) (Fin 2))
    [.add 1, .callDone 0, .done 0, .callWait 0, .callWait 1, .fiber 0, .fiber 1,
      .await 0, .await 0, .await 0, .await 0, .await 1, .await 1, .await 1, .await 1,
      .await 0, .await 1, .fiber 0, .fiber 0, .fiber 1, .fiber 1]
    (fun s => (s.done 0).accesses ∧ ∀ w, s.fiber w = .returned) usage_of_check rfl (by decide)
  obtain ⟨hd, hw⟩ := of_decide_eq_true hp
  refine ⟨s, hr, ⟨⟨0, hw 0⟩, fun w => .inr (hw w)⟩, fun h => ?_⟩
  have := (h s (Reach.init rfl)).1 0
  rw [hd] at this
  cases this

/-- A late waiter that does not spin leaves somebody in the queue. -/
def checkCompanion [Fintype ω] (s : State δ ω) : Act δ ω → Bool
  | .await w => s.await w = .loadSuspended → s.suspended ≠ 1 → s.completed = false → ∃ w', w' ≠ w ∧ w' ∈ s.queue
  | a => checkUsage s a

omit [DecidableEq δ] in
theorem careful_of_check [Fintype ω] (s : State δ ω) (a : Act δ ω) (h : checkCompanion s a = true) :
    usage s a ∧ leavesCompanion s a := by
  cases a with
  | await w =>
    refine ⟨trivial, fun hw hne hc => ?_⟩
    obtain ⟨w', hw', hmem⟩ := of_decide_eq_true h hw hne hc
    exact ⟨w', hw', .inr (.inr (.inl hmem))⟩
  | add count => exact ⟨usage_of_check s _ h, trivial⟩
  | callDone d => exact ⟨usage_of_check s _ h, trivial⟩
  | _ => exact ⟨trivial, trivial⟩

/-- Fiber 0 is in the queue when the last `Done` has decremented the countdown; fibers 1 and 2 come late, see each
other and fiber 0 in the counter, and go; then the `Done` takes fiber 0. -/
def queueAndTwoLate : List (Act (Fin 1) (Fin 3)) :=
  [.add 1, .callWait 0, .fiber 0, .await 0, .await 0, .await 0, .await 0, .callDone 0, .done 0,
    .callWait 1, .callWait 2, .fiber 1, .fiber 2, .await 1, .await 1, .await 1, .await 2, .await 2, .await 2,
    .await 1, .await 2, .await 1, .await 2, .fiber 1, .fiber 1, .fiber 2, .fiber 2,
    .done 0, .done 0, .done 0, .done 0, .done 0, .done 0, .done 0, .fiber 0, .fiber 0]

theorem unused_after_late : ∃ s, Reach (system (Fin 1) (Fin 3)) (fun s a => usage s a ∧ leavesCompanion s a) s ∧
    s.released ∧ s.unused := by
  obtain ⟨s, hr, hp⟩ := Reach.of_exec (system (Fin 1) (Fin 3)) queueAndTwoLate
    (fun s => ∀ w, s.fiber w = .returned) careful_of_check rfl (by decide)
  have hw := of_decide_eq_true hp
  have hrel : s.released := ⟨⟨0, hw 0⟩, fun w => .inr (hw w)⟩
  exact ⟨s, hr, hrel, unused_of_released hr hrel⟩

end Fibers.WaitGroup
