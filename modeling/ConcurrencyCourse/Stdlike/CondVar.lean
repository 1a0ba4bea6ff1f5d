import ConcurrencyCourse.Lib.Transition
import Mathlib.Data.Fintype.Basic
import Mathlib.Algebra.Group.Nat.Defs

/-!
# `CondVar` (tasks/cond/condvar/condvar.hpp)

Every `Wait` takes a ticket from `t_` and sleeps on one of 100 slots, every notifier takes a ticket from
`h_` and writes `1` into its slot. Any number of threads, one mutex of the user.

* `h` and `t` count all the `fetch_add`s; the words of 32 bits hold them modulo `2^32` (`word`).
* `h_.load() >= t_.load()` are two loads in either order: `load .head` and `load .tail`.
* `wait` and `parked` are `futex::Wait(slot, 0)`: check the slot and go to sleep in one step. Who is
  woken checks again.
* `test` carries what a `NotifyAll` is: its first test, or the test of its loop. `since` is the value of
  `t_` when it was called; no step depends on it.

Two tickets with the same slot get into each other's way: whoever leaves clears the slot. A run in which
nobody clears a slot that still has to release another ticket loses no notification
(`loses_no_notification`); `loses_notification` is a run that does.
-/

namespace Stdlike.CondVar

/-- `kAtomicsSize`. -/
def kAtomicsSize : Nat := 100

/-- The value of a 32-bit counter. -/
def word (n : Nat) : Nat := n % 2 ^ 32

/-- Which loop or function a notifier is in. -/
inductive Test where
  | one
  | all (since : Nat)
  | loop (since : Nat)
  deriving DecidableEq, Repr

inductive Counter where
  | head
  | tail
  deriving DecidableEq, Repr

/-- Where a thread is. -/
inductive Pc where
  | idle
  -- `Wait` with ticket `k`: `m.unlock()`, the futex, `m.lock()`, `store(0)`
  | unlock (k : Nat)
  | wait (k : Nat)
  | parked (k : Nat)
  | lock (k : Nat)
  | clear (k : Nat)
  -- `h_.load() >= t_.load()`
  | test (c : Test)
  | loaded (c : Test) (what : Counter) (value : Nat)
  -- `h_.fetch_add(1)`, `store(1)`, `PrepareWake`, `WakeOne` or `WakeAll`
  | fetchAdd (c : Test)
  | store (c : Test) (head : Nat)
  | prepareWake (c : Test) (head : Nat)
  | wake (c : Test) (head : Nat)
  -- `NotifyAll` has returned
  | notifiedAll (since : Nat)
  deriving DecidableEq, Repr

structure State (ι : Type) where
  h : Nat
  t : Nat
  /-- `atomics_`. -/
  slots : Nat → Nat
  /-- Who holds the user's mutex. -/
  owner : Option ι
  pc : ι → Pc

inductive Act (ι : Type) where
  | mutexLock (i : ι)
  | mutexUnlock (i : ι)
  /-- Thread `i` calls `Wait`, with the mutex locked. -/
  | callWait (i : ι)
  | callNotifyOne (i : ι)
  | callNotifyAll (i : ι)
  | leaveNotifyAll (i : ι)
  /-- The next step: the counter it loads, the sleeper that `WakeOne` finds. -/
  | step (i : ι) (what : Counter) (sleeper : Option ι)
  | spurious (i : ι)

variable {ι : Type} [DecidableEq ι]

/-! ### What a step writes -/

def State.setPc (s : State ι) (i : ι) (pc : Pc) : State ι :=
  { s with pc := Function.update s.pc i pc }

def State.setOwner (s : State ι) (o : Option ι) : State ι := { s with owner := o }

/-- `atomics_[k % kAtomicsSize]->store(x)`. -/
def State.setSlot (s : State ι) (k x : Nat) : State ι :=
  { s with slots := Function.update s.slots (k % kAtomicsSize) x }

/-- `atomics_[k % kAtomicsSize]->load()`. -/
def State.slot (s : State ι) (k : Nat) : Nat := s.slots (k % kAtomicsSize)

def State.addT (s : State ι) : State ι := { s with t := s.t + 1 }

def State.addH (s : State ι) : State ι := { s with h := s.h + 1 }

/-- The thread sleeps on the slot of ticket `head`. -/
def Pc.sleepsOn (head : Nat) : Pc → Bool
  | .parked k => k % kAtomicsSize = head % kAtomicsSize
  | _ => false

/-- A sleeper that was woken. -/
def Pc.woken : Pc → Pc
  | .parked k => .wait k
  | pc => pc

/-- `WakeOne`. -/
def State.wakeOne [Fintype ι] (s : State ι) (head : Nat) : Option ι → Option (State ι)
  | some j => if (s.pc j).sleepsOn head then some (s.setPc j (s.pc j).woken) else none
  | none => if ∀ j, (s.pc j).sleepsOn head = false then some s else none

/-- `WakeAll`. -/
def State.wakeAll (s : State ι) (head : Nat) : State ι :=
  { s with pc := fun j => if (s.pc j).sleepsOn head then (s.pc j).woken else s.pc j }

/-! ### Steps -/

/-- Where a notifier goes after its test. -/
def Test.next (less : Bool) : Test → Pc
  | .one => if less then .fetchAdd .one else .idle
  | .all since => if less then .test (.loop since) else .notifiedAll since
  | .loop since => if less then .fetchAdd (.loop since) else .notifiedAll since

/-- Where a notifier goes after `Wake`. -/
def Test.done : Test → Pc
  | .one => .idle
  | .all since | .loop since => .test (.loop since)

def State.next [Fintype ι] (s : State ι) (i : ι) (what : Counter) (sleeper : Option ι) :
    Option (State ι) :=
  match s.pc i with
  | .idle | .parked _ | .notifiedAll _ => none
  | .unlock k => some ((s.setOwner none).setPc i (.wait k))
  | .wait k => some (s.setPc i (if s.slot k = 0 then .parked k else .lock k))
  | .lock k => if s.owner = none then some ((s.setOwner (some i)).setPc i (.clear k)) else none
  | .clear k => some ((s.setSlot k 0).setPc i .idle)
  | .test c => some (s.setPc i (match what with
    | .head => .loaded c .head (word s.h)
    | .tail => .loaded c .tail (word s.t)))
  | .loaded c .head h => some (s.setPc i (c.next (h < word s.t)))
  | .loaded c .tail t => some (s.setPc i (c.next (word s.h < t)))
  | .fetchAdd c => some (s.addH.setPc i (.store c (word s.h)))
  | .store c head => some ((s.setSlot head 1).setPc i (.prepareWake c head))
  | .prepareWake c head => some (s.setPc i (.wake c head))
  | .wake .one head => (s.wakeOne head sleeper).map fun s' => s'.setPc i .idle
  | .wake c head => some ((s.wakeAll head).setPc i c.done)

def step [Fintype ι] (s : State ι) : Act ι → Option (State ι)
  | .mutexLock i =>
    if s.pc i = .idle ∧ s.owner = none then some (s.setOwner (some i)) else none
  | .mutexUnlock i =>
    if s.pc i = .idle ∧ s.owner = some i then some (s.setOwner none) else none
  | .callWait i =>
    if s.pc i = .idle ∧ s.owner = some i then some (s.addT.setPc i (.unlock (word s.t))) else none
  | .callNotifyOne i => if s.pc i = .idle then some (s.setPc i (.test .one)) else none
  | .callNotifyAll i => if s.pc i = .idle then some (s.setPc i (.test (.all s.t))) else none
  | .leaveNotifyAll i => match s.pc i with
    | .notifiedAll _ => some (s.setPc i .idle)
    | _ => none
  | .step i what sleeper => s.next i what sleeper
  | .spurious i => match s.pc i with
    | .parked k => some (s.setPc i (.wait k))
    | _ => none

def init : State ι := ⟨0, 0, fun _ => 0, none, fun _ => .idle⟩

def system (ι : Type) [DecidableEq ι] [Fintype ι] : Transition.System (State ι) (Act ι) :=
  ⟨fun s => s = init, step⟩

/-! ### Notified tickets -/

/-- The ticket of a `Wait` that has not left its futex. -/
def Pc.waiting : Pc → Option Nat
  | .unlock k | .wait k | .parked k => some k
  | _ => none

/-- The ticket of a `Wait`. -/
def Pc.ticket : Pc → Option Nat
  | .unlock k | .wait k | .parked k | .lock k | .clear k => some k
  | _ => none

/-- The ticket that a notifier took and whose slot it has not written yet. -/
def Pc.storing : Pc → Option Nat
  | .store _ head => some head
  | _ => none

/-- A notifier took ticket `k`, and nobody is still about to write its slot. -/
def State.notified (s : State ι) (k : Nat) : Prop := k < s.h ∧ ∀ i, (s.pc i).storing ≠ some k

/-- The `Wait` with ticket `k` has not left its futex; perhaps it has not begun. -/
def State.awaited (s : State ι) (k : Nat) : Prop :=
  (s.t ≤ k ∧ k < 2 ^ 32) ∨ ∃ i, (s.pc i).waiting = some k

/-- A notified waiter is blocked on a slot that is zero. -/
def State.lost (s : State ι) : Prop :=
  ∃ i k, s.pc i = .parked k ∧ s.notified k ∧ s.slot k = 0

/-- Fewer than `2^32` calls of `Wait`. -/
def fewWaits (s : State ι) : Act ι → Prop
  | .callWait _ => s.t + 1 < 2 ^ 32
  | _ => True

/-- Nobody clears a slot that is to release another ticket. -/
def clearsOwnSlot (s : State ι) : Act ι → Prop
  | .step i _ _ => ∀ k, s.pc i = .clear k →
      ∀ j, j ≠ k → j % kAtomicsSize = k % kAtomicsSize → s.notified j → ¬ s.awaited j
  | _ => True

/-! ### The invariant -/

/-- `t_` when the `NotifyAll` was called. -/
def Test.since : Test → Nat
  | .one => 0
  | .all since | .loop since => since

def Pc.since : Pc → Nat
  | .test c | .loaded c _ _ | .fetchAdd c | .store c _ | .prepareWake c _ | .wake c _ => c.since
  | .notifiedAll since => since
  | _ => 0

/-- What a notifier knows about the counters. -/
def Pc.knows (h : Nat) : Pc → Prop
  | .loaded _ .head h' => h' ≤ h
  | .loaded c .tail t' => c.since ≤ t'
  | .notifiedAll since => since ≤ h
  | _ => True

structure Inv (s : State ι) : Prop where
  few : s.t < 2 ^ 32
  ticket : ∀ i k, (s.pc i).ticket = some k → k < s.t
  unique : ∀ i j k, (s.pc i).ticket = some k → (s.pc j).ticket = some k → i = j
  released : ∀ k, s.notified k → s.awaited k → s.slot k ≠ 0
  since : ∀ i, (s.pc i).since ≤ s.t
  knows : ∀ i, (s.pc i).knows s.h

section pcs

variable {pc : Pc} {h h' k : Nat}

theorem ticket_of_waiting (hk : pc.waiting = some k) : pc.ticket = some k := by
  cases pc <;> simp_all [Pc.waiting, Pc.ticket]

theorem knows_mono (hk : pc.knows h) (hh : h ≤ h') : pc.knows h' := by
  cases pc with
  | loaded c what v =>
    cases what with
    | head => exact Nat.le_trans hk hh
    | tail => exact hk
  | notifiedAll since => exact Nat.le_trans hk hh
  | _ => trivial

theorem word_le (n : Nat) : word n ≤ n := Nat.mod_le ..

theorem word_of_lt {n : Nat} (h : n < 2 ^ 32) : word n = n := Nat.mod_eq_of_lt h

end pcs

section steps

variable {s s' : State ι} {i : ι} {pc : Pc}

@[simp] theorem setPc_self : (s.setPc i pc).pc i = pc := Function.update_self ..

theorem setPc_of_ne {j : ι} (h : j ≠ i) : (s.setPc i pc).pc j = s.pc j :=
  Function.update_of_ne h ..

/-- What a thread may do in a step in which nobody gets a ticket of `t_`. -/
structure Pc.Keeps (h t : Nat) (pc pc' : Pc) : Prop where
  ticket : ∀ k, pc'.ticket = some k → pc.ticket = some k
  since : pc.since ≤ t → pc'.since ≤ t
  knows : pc'.knows h

/-- Besides, it does not go back into the futex and does not forget a slot. -/
structure Pc.Moves (h t : Nat) (pc pc' : Pc) : Prop extends Keeps h t pc pc' where
  waiting : ∀ k, pc'.waiting = some k → pc.waiting = some k
  storing : ∀ k, pc.storing = some k → pc'.storing = some k

theorem Pc.Moves.refl {h t : Nat} (hk : pc.knows h) : pc.Moves h t pc :=
  ⟨⟨fun _ => id, id, hk⟩, fun _ => id, fun _ => id⟩

omit [DecidableEq ι] in
theorem Inv.keeps (hi : Inv s) (ht : s'.t = s.t) (hk : ∀ j, (s.pc j).Keeps s'.h s.t (s'.pc j))
    (hr : ∀ k, s'.notified k → s'.awaited k → s'.slot k ≠ 0) : Inv s' := by
  constructor
  · rw [ht]
    exact hi.few
  · intro j k hj
    rw [ht]
    exact hi.ticket j k ((hk j).ticket k hj)
  · intro j j' k hj hj'
    exact hi.unique j j' k ((hk j).ticket k hj) ((hk j').ticket k hj')
  · exact hr
  · intro j
    rw [ht]
    exact (hk j).since (hi.since j)
  · exact fun j => (hk j).knows

omit [DecidableEq ι] in
/-- Several threads move; the counters and the slots stay. -/
theorem Inv.moves (hi : Inv s) (hh : s'.h = s.h) (ht : s'.t = s.t) (hs : s'.slots = s.slots)
    (hm : ∀ j, (s.pc j).Moves s.h s.t (s'.pc j)) : Inv s' := by
  refine hi.keeps ht (fun j => hh ▸ (hm j).toKeeps) ?_
  rintro k ⟨hk, hn⟩ ha
  have hn' : s.notified k := ⟨hh ▸ hk, fun j hj => hn j ((hm j).storing k hj)⟩
  have ha' : s.awaited k := by
    rcases ha with ha | ⟨j, hj⟩
    · exact .inl (ht ▸ ha)
    · exact .inr ⟨j, (hm j).waiting k hj⟩
  rw [State.slot, hs]
  exact hi.released k hn' ha'

omit [DecidableEq ι] in
/-- A thread that is in no call of `Wait`. -/
theorem keeps_of_ticket {h t : Nat} {pc' : Pc} (ht : pc'.ticket = none)
    (hc : pc'.since ≤ pc.since) (hk : pc'.knows h) : pc.Keeps h t pc' := by
  refine ⟨fun k h => ?_, Nat.le_trans hc, hk⟩
  rw [ht] at h
  cases h

/-- Only thread `i` moves. -/
theorem keeps_update {h t : Nat} (hk : ∀ j, (s.pc j).knows h) (hm : (s.pc i).Keeps h t pc) (j : ι) :
    (s.pc j).Keeps h t ((s.setPc i pc).pc j) := by
  rcases eq_or_ne j i with rfl | hj
  · rwa [setPc_self]
  · rw [setPc_of_ne hj]
    exact (Pc.Moves.refl (hk j)).toKeeps

/-- Thread `i` moves. -/
theorem Inv.move (hi : Inv s) (hm : (s.pc i).Moves s.h s.t pc) : Inv (s.setPc i pc) := by
  refine hi.moves rfl rfl rfl fun j => ?_
  rcases eq_or_ne j i with rfl | hj
  · rwa [setPc_self]
  · rw [setPc_of_ne hj]
    exact .refl (hi.knows j)

omit [DecidableEq ι] in
theorem Inv.setOwner (hi : Inv s) (o : Option ι) : Inv (s.setOwner o) :=
  hi.moves rfl rfl rfl fun j => .refl (hi.knows j)

theorem moves_woken {h t : Nat} (hk : pc.knows h) : pc.Moves h t pc.woken := by
  cases pc with
  | parked k => exact ⟨⟨fun _ => id, id, trivial⟩, fun _ => id, nofun⟩
  | _ => exact .refl hk

omit [DecidableEq ι] in
/-- A thread that is neither in a call of `Wait` nor between a ticket of `h_` and its slot. -/
theorem moves_of_ticket {h t : Nat} (hs : (s.pc i).storing = none) (ht : pc.ticket = none)
    (hc : pc.since ≤ (s.pc i).since) (hk : pc.knows h) : (s.pc i).Moves h t pc := by
  refine ⟨keeps_of_ticket ht hc hk, fun k h => ?_, fun k h => ?_⟩
  · rw [ticket_of_waiting h] at ht
    cases ht
  · rw [hs] at h
    cases h

/-! ### The four writes -/

/-- `t_.fetch_add(1)`: the ticket was awaited before it was taken. -/
theorem Inv.takeTicket (hi : Inv s) (hf : s.t + 1 < 2 ^ 32) (hpc : s.pc i = .idle) :
    Inv (s.addT.setPc i (.unlock (word s.t))) := by
  rw [word_of_lt hi.few]
  have hother : ∀ {j}, j ≠ i → (s.addT.setPc i (.unlock s.t)).pc j = s.pc j := setPc_of_ne
  constructor
  · exact hf
  · intro j k hk
    rcases eq_or_ne j i with rfl | hj
    · rw [setPc_self] at hk
      obtain rfl := Option.some.inj hk
      exact Nat.lt_succ_self _
    · rw [hother hj] at hk
      exact Nat.lt_succ_of_lt (hi.ticket j k hk)
  · intro j j' k hj hj'
    rcases eq_or_ne j i with hji | hne <;> rcases eq_or_ne j' i with hji' | hne'
    · rw [hji, hji']
    · rw [hji, setPc_self] at hj
      rw [hother hne'] at hj'
      obtain rfl := Option.some.inj hj
      exact absurd (hi.ticket j' _ hj') (Nat.lt_irrefl _)
    · rw [hji', setPc_self] at hj'
      rw [hother hne] at hj
      obtain rfl := Option.some.inj hj'
      exact absurd (hi.ticket j _ hj) (Nat.lt_irrefl _)
    · rw [hother hne] at hj
      rw [hother hne'] at hj'
      exact hi.unique j j' k hj hj'
  · rintro k ⟨hk, hn⟩ ha
    refine hi.released k ⟨hk, fun j hj => ?_⟩ ?_
    · rcases eq_or_ne j i with rfl | hne
      · rw [hpc] at hj
        cases hj
      · exact hn j (by rwa [hother hne])
    · rcases ha with ⟨h1, h2⟩ | ⟨j, hj⟩
      · exact .inl ⟨Nat.le_of_succ_le h1, h2⟩
      · rcases eq_or_ne j i with rfl | hne
        · rw [setPc_self] at hj
          obtain rfl := Option.some.inj hj
          exact .inl ⟨Nat.le_refl _, hi.few⟩
        · exact .inr ⟨j, by rwa [hother hne] at hj⟩
  · intro j
    rcases eq_or_ne j i with rfl | hne
    · rw [setPc_self]
      exact Nat.zero_le _
    · rw [hother hne]
      exact Nat.le_succ_of_le (hi.since j)
  · intro j
    rcases eq_or_ne j i with rfl | hne
    · rw [setPc_self]
      trivial
    · rw [hother hne]
      exact hi.knows j

omit [DecidableEq ι] in
theorem Inv.lt_of_awaited (hi : Inv s) {k : Nat} (ha : s.awaited k) : k < 2 ^ 32 := by
  rcases ha with ⟨-, h⟩ | ⟨j, hj⟩
  · exact h
  · exact Nat.lt_trans (hi.ticket j k (ticket_of_waiting hj)) hi.few

/-- A step of thread `i`, which is not in a `Wait` afterwards, brings no new waiter. -/
theorem awaited_of_setPc {k : Nat} (hw : pc.waiting = none) (ha : (s.setPc i pc).awaited k) :
    s.awaited k := by
  rcases ha with ha | ⟨j, hj⟩
  · exact .inl ha
  · rcases eq_or_ne j i with rfl | hne
    · rw [setPc_self, hw] at hj
      cases hj
    · rw [setPc_of_ne hne] at hj
      exact .inr ⟨j, hj⟩

/-- Nor does it notify anybody but the ticket whose slot it wrote. -/
theorem storing_of_setPc {k : Nat} (hn : ∀ j, ((s.setPc i pc).pc j).storing ≠ some k)
    (hs : (s.pc i).storing ≠ some k) (j : ι) : (s.pc j).storing ≠ some k := by
  rcases eq_or_ne j i with rfl | hne
  · exact hs
  · rw [← show (s.setPc i pc).pc j = s.pc j from setPc_of_ne hne]
    exact hn j

/-- `h_.fetch_add(1)`: the ticket is not notified yet, its slot is still to be written. -/
theorem Inv.takeHead (hi : Inv s) {c : Test} (hpc : s.pc i = .fetchAdd c) :
    Inv (s.addH.setPc i (.store c (word s.h))) := by
  refine hi.keeps rfl ?_ ?_
  · refine keeps_update (s := s.addH) (fun j => knows_mono (hi.knows j) (Nat.le_succ _)) ?_
    refine keeps_of_ticket rfl ?_ trivial
    rw [show s.addH.pc i = _ from hpc]
    exact Nat.le_refl _
  · rintro k ⟨hk, hn⟩ ha
    have ha' : s.awaited k := awaited_of_setPc (s := s.addH) rfl ha
    have hne : k ≠ s.h := by
      rintro rfl
      refine hn i ?_
      rw [setPc_self, word_of_lt (hi.lt_of_awaited ha')]
      rfl
    have hlt : k < s.h := Nat.lt_of_le_of_ne (Nat.le_of_lt_succ hk) hne
    refine hi.released k ⟨hlt, storing_of_setPc (s := s.addH) hn ?_⟩ ha'
    rw [show s.addH.pc i = _ from hpc]
    exact nofun

@[simp] theorem slot_setPc {k : Nat} : (s.setPc i pc).slot k = s.slot k := rfl

omit [DecidableEq ι] in
theorem slot_setSlot {k j x : Nat} :
    (s.setSlot k x).slot j = if j % kAtomicsSize = k % kAtomicsSize then x else s.slot j := by
  unfold State.setSlot State.slot
  simp only [Function.update_apply]

/-- `atomics_[head % kAtomicsSize]->store(1)`. -/
theorem Inv.storeSlot (hi : Inv s) {c : Test} {head : Nat} (hpc : s.pc i = .store c head) :
    Inv ((s.setSlot head 1).setPc i (.prepareWake c head)) := by
  refine hi.keeps rfl ?_ ?_
  · refine keeps_update (s := s.setSlot head 1) hi.knows (keeps_of_ticket rfl ?_ trivial)
    rw [show (s.setSlot head 1).pc i = _ from hpc]
    exact Nat.le_refl _
  · rintro k ⟨hk, hn⟩ ha
    rw [slot_setPc, slot_setSlot]
    split
    · exact Nat.one_ne_zero
    · next hne =>
      refine hi.released k ⟨hk, storing_of_setPc (s := s.setSlot head 1) hn ?_⟩
        (awaited_of_setPc (s := s.setSlot head 1) rfl ha)
      rw [show (s.setSlot head 1).pc i = _ from hpc]
      intro h
      obtain rfl := Option.some.inj h
      exact hne rfl

/-- `atomics_[tail % kAtomicsSize]->store(0)` by a thread with ticket `k`. -/
theorem Inv.clearSlot (hi : Inv s) {k : Nat} (hpc : s.pc i = .clear k)
    (hc : ∀ j, j ≠ k → j % kAtomicsSize = k % kAtomicsSize → s.notified j → ¬ s.awaited j) :
    Inv ((s.setSlot k 0).setPc i .idle) := by
  -- nobody waits with the thread's own ticket
  have hown : ¬ s.awaited k := by
    rintro (⟨h, -⟩ | ⟨j, hj⟩)
    · exact absurd (hi.ticket i k (by rw [hpc]; rfl)) (Nat.not_lt.2 h)
    · obtain rfl := hi.unique i j k (by rw [hpc]; rfl) (ticket_of_waiting hj)
      rw [hpc] at hj
      cases hj
  refine hi.keeps rfl ?_ ?_
  · exact keeps_update (s := s.setSlot k 0) hi.knows (keeps_of_ticket rfl (Nat.zero_le _) trivial)
  · rintro j ⟨hj, hn⟩ ha
    have hnot : s.notified j := by
      refine ⟨hj, storing_of_setPc (s := s.setSlot k 0) hn ?_⟩
      rw [show (s.setSlot k 0).pc i = _ from hpc]
      exact nofun
    have haw : s.awaited j := awaited_of_setPc (s := s.setSlot k 0) rfl ha
    rw [slot_setPc, slot_setSlot]
    split
    · next heq =>
      refine absurd haw (hc j ?_ heq hnot)
      rintro rfl
      exact hown haw
    · exact hi.released j hnot haw

/-! ### The other steps -/

/-- The test of a notifier. -/
theorem Inv.tested (hi : Inv s) {c : Test} {what : Counter} {v : Nat} {less : Bool}
    (hpc : s.pc i = .loaded c what v) (hless : less = false → c.since ≤ s.h) :
    Inv (s.setPc i (c.next less)) := by
  refine hi.move (moves_of_ticket (by rw [hpc]; rfl) ?_ ?_ ?_)
  · cases c <;> cases less <;> rfl
  · rw [hpc]
    cases c <;> cases less <;> exact Nat.le_refl _
  · cases c <;> cases less
    all_goals first | trivial | exact hless rfl

theorem Inv.wakeOne [Fintype ι] (hi : Inv s) {head : Nat} {sleeper : Option ι}
    (h : s.wakeOne head sleeper = some s') (hpc : s.pc i = .wake .one head) :
    Inv (s'.setPc i .idle) := by
  unfold State.wakeOne at h
  split at h
  · next j =>
    split at h
    · next hj =>
      obtain rfl := Option.some.inj h
      have hi' := hi.move (i := j) (moves_woken (hi.knows j))
      have hij : i ≠ j := by
        rintro rfl
        rw [hpc] at hj
        cases hj
      refine hi'.move (moves_of_ticket ?_ rfl (Nat.zero_le _) trivial)
      rw [setPc_of_ne hij, hpc]
      rfl
    · cases h
  · split at h
    · obtain rfl := Option.some.inj h
      exact hi.move (moves_of_ticket (by rw [hpc]; rfl) rfl (Nat.zero_le _) trivial)
    · cases h

theorem Inv.wakeAll (hi : Inv s) {head : Nat} {c : Test} (hpc : s.pc i = .wake c head) :
    Inv ((s.wakeAll head).setPc i c.done) := by
  have hi' : Inv (s.wakeAll head) := by
    refine hi.moves rfl rfl rfl fun j => ?_
    simp only [State.wakeAll]
    split
    · exact moves_woken (hi.knows j)
    · exact .refl (hi.knows j)
  have hpc' : (s.wakeAll head).pc i = .wake c head := by
    simp only [State.wakeAll, hpc]
    rfl
  refine hi'.move (moves_of_ticket (by rw [hpc']; rfl) ?_ ?_ ?_)
  · cases c <;> rfl
  · rw [hpc']
    cases c <;> exact Nat.le_refl _
  · cases c <;> trivial

end steps


/-! ### Runs -/

section run

open Transition

variable [Fintype ι] {s s' : State ι} {i : ι}

theorem inv_next (hi : Inv s) {what : Counter} {sleeper : Option ι}
    (hc : clearsOwnSlot s (.step i what sleeper)) (h : s.next i what sleeper = some s') :
    Inv s' := by
  unfold State.next at h
  split at h <;> rename_i hpc
  · cases h
  · cases h
  · cases h
  · obtain rfl := Option.some.inj h
    refine (hi.setOwner none).move ?_
    rw [show (s.setOwner none).pc i = _ from hpc]
    exact ⟨⟨fun _ => id, id, trivial⟩, fun _ => id, nofun⟩
  · obtain rfl := Option.some.inj h
    refine hi.move ?_
    rw [hpc]
    split
    · exact ⟨⟨fun _ => id, id, trivial⟩, fun _ => id, nofun⟩
    · exact ⟨⟨fun _ => id, id, trivial⟩, nofun, nofun⟩
  · split at h
    · obtain rfl := Option.some.inj h
      refine (hi.setOwner (some i)).move ?_
      rw [show (s.setOwner (some i)).pc i = _ from hpc]
      exact ⟨⟨fun _ => id, id, trivial⟩, nofun, nofun⟩
    · cases h
  · obtain rfl := Option.some.inj h
    exact hi.clearSlot hpc (hc _ hpc)
  · obtain rfl := Option.some.inj h
    refine hi.move (moves_of_ticket (by rw [hpc]; rfl) ?_ ?_ ?_)
    · split <;> rfl
    · rw [hpc]
      split <;> exact Nat.le_refl _
    · split
      · exact word_le _
      · have := hi.since i
        rw [hpc] at this
        rw [word_of_lt hi.few]
        exact this
  · next v =>
    obtain rfl := Option.some.inj h
    refine hi.tested hpc fun hless => ?_
    have h1 := hi.knows i
    have h2 := hi.since i
    rw [hpc] at h1 h2
    have h3 := of_decide_eq_false hless
    rw [word_of_lt hi.few] at h3
    exact Nat.le_trans h2 (Nat.le_trans (Nat.not_lt.1 h3) h1)
  · next v =>
    obtain rfl := Option.some.inj h
    refine hi.tested hpc fun hless => ?_
    have h1 := hi.knows i
    rw [hpc] at h1
    exact Nat.le_trans h1 (Nat.le_trans (Nat.not_lt.1 (of_decide_eq_false hless)) (word_le _))
  · obtain rfl := Option.some.inj h
    exact hi.takeHead hpc
  · obtain rfl := Option.some.inj h
    exact hi.storeSlot hpc
  · obtain rfl := Option.some.inj h
    refine hi.move (moves_of_ticket (by rw [hpc]; rfl) rfl ?_ trivial)
    rw [hpc]
    exact Nat.le_refl _
  · obtain ⟨s₁, hw, rfl⟩ := Option.map_eq_some_iff.1 h
    exact hi.wakeOne hw hpc
  · obtain rfl := Option.some.inj h
    exact hi.wakeAll hpc

theorem inv_step (hi : Inv s) {a : Act ι} (hf : fewWaits s a) (hc : clearsOwnSlot s a)
    (h : step s a = some s') : Inv s' := by
  cases a with
  | mutexLock i =>
    simp only [step] at h
    split at h
    · obtain rfl := Option.some.inj h
      exact hi.setOwner _
    · cases h
  | mutexUnlock i =>
    simp only [step] at h
    split at h
    · obtain rfl := Option.some.inj h
      exact hi.setOwner _
    · cases h
  | callWait i =>
    simp only [step] at h
    split at h
    · next hpc =>
      obtain rfl := Option.some.inj h
      exact hi.takeTicket hf hpc.1
    · cases h
  | callNotifyOne i =>
    simp only [step] at h
    split at h
    · next hpc =>
      obtain rfl := Option.some.inj h
      exact hi.move (moves_of_ticket (by rw [hpc]; rfl) rfl (Nat.zero_le _) trivial)
    · cases h
  | callNotifyAll i =>
    simp only [step] at h
    split at h
    · next hpc =>
      obtain rfl := Option.some.inj h
      refine hi.move ?_
      rw [hpc]
      exact ⟨⟨nofun, fun _ => Nat.le_refl _, trivial⟩, nofun, nofun⟩
    · cases h
  | leaveNotifyAll i =>
    simp only [step] at h
    split at h
    · next hpc =>
      obtain rfl := Option.some.inj h
      exact hi.move (moves_of_ticket (by rw [hpc]; rfl) rfl (Nat.zero_le _) trivial)
    · cases h
  | step i what sleeper => exact inv_next hi hc h
  | spurious i =>
    simp only [step] at h
    split at h
    · next k hpc =>
      obtain rfl := Option.some.inj h
      refine hi.move ?_
      rw [hpc]
      exact ⟨⟨fun _ => id, id, trivial⟩, fun _ => id, nofun⟩
    · cases h

/-- In a run with fewer than `2^32` calls of `Wait` in which nobody clears a slot that is to release another
ticket, no notified waiter is blocked on a zero slot; and after a `NotifyAll` every ticket taken
before it began has been notified, or a notifier is about to write its slot. -/
theorem loses_no_notification
    (h : Reach (system ι) (fun s a => fewWaits s a ∧ clearsOwnSlot s a) s) :
    ¬ s.lost ∧ ∀ i since, s.pc i = .notifiedAll since → ∀ j k, (s.pc j).waiting = some k →
      k < since → s.slot k ≠ 0 ∨ ∃ n, (s.pc n).storing = some k := by
  have hi : Inv s := by
    refine Reach.invariant (I := Inv) ?_ (fun s a s' hi ha hs => inv_step hi ha.1 ha.2 hs) h
    rintro s rfl
    exact ⟨Nat.two_pow_pos 32, nofun, nofun, nofun, fun _ => Nat.le_refl _, fun _ => trivial⟩
  constructor
  · rintro ⟨i, k, hp, hn, h0⟩
    exact hi.released k hn (.inr ⟨i, by rw [hp]; rfl⟩) h0
  · intro i since hp j k hk hlt
    have hh := hi.knows i
    rw [hp] at hh
    by_cases hst : ∃ n, (s.pc n).storing = some k
    · exact .inr hst
    · refine .inl (hi.released k ⟨Nat.lt_of_lt_of_le hlt hh, fun n hn => hst ⟨n, hn⟩⟩ ?_)
      exact .inr ⟨j, hk⟩

end run

/-! ### A lost notification -/

section lost

open Transition

/-- `fewWaits`, evaluated. -/
def checkFewWaits (s : State ι) : Act ι → Bool
  | .callWait _ => s.t + 1 < 2 ^ 32
  | _ => true

omit [DecidableEq ι] in
theorem fewWaits_of_check (s : State ι) (a : Act ι) (h : checkFewWaits s a = true) :
    fewWaits s a := by
  cases a with
  | callWait i => exact of_decide_eq_true (p := s.t + 1 < 2 ^ 32) h
  | _ => trivial

/-- Thread `0` has been notified and waits for the mutex, with ticket `0`; `n` tickets are taken. -/
def afterRounds (n : Nat) : State (Fin 3) :=
  ⟨n, n, fun k => if k = 0 then 1 else 0, none, fun i => if i = 0 then .lock 0 else .idle⟩

/-- Thread `2` calls `NotifyOne` and finds nobody asleep. -/
def notifyOne : List (Act (Fin 3)) :=
  [.callNotifyOne 2, .step 2 .head none, .step 2 .head none, .step 2 .head none, .step 2 .head none,
    .step 2 .head none, .step 2 .head none]

/-- Thread `1` takes a ticket and is about to check its slot. -/
def beginWait : List (Act (Fin 3)) := [.mutexLock 1, .callWait 1, .step 1 .head none]

/-- One more ticket: thread `1` takes it, thread `2` notifies, and thread `1` returns. -/
def oneRound : List (Act (Fin 3)) :=
  beginWait ++ notifyOne ++
    [Act.step 1 .head none, Act.step 1 .head none, Act.step 1 .head none, Act.mutexUnlock 1]

theorem exec_oneRound {n : Nat} (h0 : 0 < n) (hn : n < 100) :
    exec (system (Fin 3)) checkFewWaits (afterRounds n) oneRound = some (afterRounds (n + 1)) := by
  have hw : word n = n := word_of_lt (by omega)
  have hw' : word (n + 1) = n + 1 := word_of_lt (by omega)
  have hk : n % 100 = n := Nat.mod_eq_of_lt hn
  have hlt : n + 1 < 4294967296 := by omega
  simp [exec_cons, exec_nil, oneRound, beginWait, notifyOne, afterRounds, system, step, checkFewWaits, State.next,
    State.setPc, State.setOwner, State.setSlot, State.slot, State.addT, State.addH, State.wakeOne,
    Test.next, Pc.sleepsOn, kAtomicsSize, Fin.forall_fin_succ, hw, hw', hk, hlt]
  exact ⟨by omega, funext fun | 0 => rfl | 1 => rfl | 2 => rfl⟩

theorem reach_afterRounds {n : Nat} (h0 : 0 < n) (hn : n ≤ 100) :
    Reach (system (Fin 3)) fewWaits (afterRounds n) := by
  induction n with
  | zero => cases h0
  | succ n ih =>
    rcases Nat.eq_zero_or_pos n with rfl | hpos
    · have h1 : exec (system (Fin 3)) checkFewWaits init
          ([.mutexLock 0, .callWait 0, .step 0 .head none] ++ notifyOne ++ [.step 0 .head none]) =
            some (afterRounds 1) := by
        simp [exec_cons, exec_nil, notifyOne, afterRounds, init, system, step, checkFewWaits, State.next, State.setPc,
          State.setOwner, State.setSlot, State.slot, State.addT, State.addH, State.wakeOne, Test.next,
          Pc.sleepsOn, kAtomicsSize, Fin.forall_fin_succ, word]
        constructor
        · funext k
          simp [Function.update_apply]
        · exact funext fun | 0 => rfl | 1 => rfl | 2 => rfl
      exact (Reach.init rfl).exec fewWaits_of_check h1
    · exact (ih hpos (by omega)).exec fewWaits_of_check (exec_oneRound hpos (by omega))

/-- Ticket `100` is notified while thread `1`, who holds it, is about to check its slot. Then thread
`0`, with ticket `0`, clears that slot. -/
theorem loses_notification : ∃ s, Reach (system (Fin 3)) fewWaits s ∧ s.lost := by
  have h0 := reach_afterRounds (n := 100) (by omega) (Nat.le_refl _)
  cases he : exec (system (Fin 3)) checkFewWaits (afterRounds 100)
      (beginWait ++ notifyOne ++ [.step 0 .head none, .step 0 .head none, .step 1 .head none]) with
  | none => exact absurd he (by decide)
  | some s =>
    refine ⟨s, h0.exec fewWaits_of_check he, 1, 100, ?_⟩
    have hs : (exec (system (Fin 3)) checkFewWaits (afterRounds 100)
      (beginWait ++ notifyOne ++ [.step 0 .head none, .step 0 .head none, .step 1 .head none])).all
        (fun s => s.pc 1 = .parked 100 ∧ (100 < s.h ∧ ∀ i, (s.pc i).storing ≠ some 100) ∧
          s.slot 100 = 0) = true := by decide
    rw [he] at hs
    have hs : s.pc 1 = .parked 100 ∧ (100 < s.h ∧ ∀ i, (s.pc i).storing ≠ some 100) ∧
      s.slot 100 = 0 := of_decide_eq_true hs
    exact hs

/-- A check for runs that clear no slot but in the first hundred tickets. -/
def checkFirst (s : State ι) : Act ι → Bool
  | .callWait i => checkFewWaits s (.callWait i)
  | .step i _ _ => match s.pc i with
    | .clear k => k < kAtomicsSize && s.h ≤ kAtomicsSize
    | _ => true
  | _ => true

omit [DecidableEq ι] in
theorem fewWaits_clearsOwnSlot_of_check (s : State ι) (a : Act ι) (h : checkFirst s a = true) :
    fewWaits s a ∧ clearsOwnSlot s a := by
  cases a with
  | callWait i => exact ⟨fewWaits_of_check s _ h, trivial⟩
  | step i what sleeper =>
    refine ⟨trivial, fun k hk j hne hmod hnot _ => hne ?_⟩
    simp only [checkFirst, hk, Bool.and_eq_true, decide_eq_true_eq] at h
    rwa [Nat.mod_eq_of_lt h.1, Nat.mod_eq_of_lt (hnot.1.trans_le h.2)] at hmod
  | _ => exact ⟨trivial, trivial⟩

/-- Threads 0 and 1 sleep when thread 2 calls `NotifyAll`. Thread 0 leaves while thread 1 has not been notified yet. -/
def notifiesAll : List (Act (Fin 3)) :=
  [.mutexLock 0, .callWait 0, .step 0 .head none, .step 0 .head none,
    .mutexLock 1, .callWait 1, .step 1 .head none, .step 1 .head none,
    .callNotifyAll 2, .step 2 .head none, .step 2 .head none, .step 2 .tail none, .step 2 .head none,
    .step 2 .head none, .step 2 .head none, .step 2 .head none, .step 2 .head none,
    .step 0 .head none, .step 0 .head none, .step 0 .head none, .mutexUnlock 0,
    .step 2 .head none, .step 2 .head none, .step 2 .head none, .step 2 .head none, .step 2 .head none,
    .step 2 .head none, .step 2 .head none, .step 2 .head none]

/-- Thread 0 has cleared its slot, that of thread 1 is not zero. -/
theorem notified_by_all : ∃ s, Reach (system (Fin 3)) (fun s a => fewWaits s a ∧ clearsOwnSlot s a) s ∧
    (s.pc 0 = .idle ∧ s.slot 0 = 0) ∧ (s.pc 1 = .wait 1 ∧ s.pc 2 = .notifiedAll 2) ∧
    ¬ s.lost ∧ (s.slot 1 ≠ 0 ∨ ∃ n, (s.pc n).storing = some 1) := by
  obtain ⟨s, hr, hp⟩ := Reach.of_exec (system (Fin 3)) notifiesAll
    (fun s => (s.pc 0 = .idle ∧ s.slot 0 = 0) ∧ s.pc 1 = .wait 1 ∧ s.pc 2 = .notifiedAll 2)
    fewWaits_clearsOwnSlot_of_check rfl (by decide)
  obtain ⟨h0, h1, h2⟩ := of_decide_eq_true hp
  obtain ⟨hlost, hall⟩ := loses_no_notification hr
  exact ⟨s, hr, h0, ⟨h1, h2⟩, hlost, hall 2 2 h2 1 1 (by rw [h1]; rfl) Nat.one_lt_two⟩

end lost

end Stdlike.CondVar
