import ConcurrencyCourse.Lib.Transition
import ConcurrencyCourse.Lib.Threads
import ConcurrencyCourse.Lib.Lock
import Mathlib.Data.Fin.VecNotation

/-!
# `CyclicBarrier` (tasks/cond/barrier/cyclic_barrier.hpp)

The participants are the threads of a finite type; `calls i` is how often thread `i` calls `ArriveAndWait`
(`none`: without end).

| here | there |
| --- | --- |
| `Pc.gateArrived`, `Pc.gateDeparted` | the two loads without the lock (38) |
| `Pc.limitLock` … `Pc.limitUnlock` | the wait for the end of the last round (40-44) |
| `Pc.arrivalLock` … `Pc.arrivalRelock` | the arrival, and the wait for the others (47-55) |
| `Pc.notifyTest`, `Pc.notifyAll` | 56-60 |
| `Pc.depart` … `Pc.unlock` | the departure (61-69) |

Loads made under the mutex of what is written under it only are one step with the test they are for. A wait
releases the mutex and goes to sleep in one step; whoever is woken takes the mutex and tests again. The
counters are at most the number of participants, a `size_t`, and do not wrap.

`synchronizes` is the main theorem. A barrier hangs when a thread calls more often than another, and between
the two stores that end a round `departed_` is above `arrived_` (`reset_and_leftover`).
-/

namespace Cond.CyclicBarrier

open Transition Function

inductive Pc where
  | idle
  | gateArrived
  | gateDeparted
  | limitLock
  | limitTest
  | limitAsleep
  | limitUnlock
  | arrivalLock
  | fetchAdd
  | arrivalTest
  | arrivalAsleep
  | arrivalRelock
  | notifyTest
  | notifyAll
  | depart
  | departTest
  -- the last one out: `arrived_.store(0)`, `departed_.store(0)`, `is_notified_ = false`, `notify_all`
  | storeArrived
  | storeDeparted
  | clearNotified
  | limitNotify
  | unlock
  deriving DecidableEq, Repr

structure Thread where
  pc : Pc
  /-- The calls it has entered. -/
  entered : Nat
  /-- The calls it has returned from. -/
  returned : Nat
  deriving DecidableEq, Repr

structure State (ι : Type) where
  arrived : Nat
  departed : Nat
  notified : Bool
  /-- Who holds `mtx_`. -/
  owner : Option ι
  thread : ι → Thread
  /-- The number of rounds that are over. -/
  round : Nat

inductive Act (ι : Type) where
  | call (i : ι)
  | step (i : ι)
  /-- A wait returns without a notification. -/
  | spurious (i : ι)

section model

variable {ι : Type} [DecidableEq ι]

def State.setPc (s : State ι) (i : ι) (p : Pc) : State ι :=
  { s with thread := update s.thread i { s.thread i with pc := p } }

/-- `lock`, when the mutex is free. -/
def State.lock (s : State ι) (i : ι) (p : Pc) : Option (State ι) :=
  if s.owner = none then some ({ s with owner := some i }.setPc i p) else none

def State.unlock (s : State ι) (i : ι) (p : Pc) : State ι := { s with owner := none }.setPc i p

/-- The call returns. -/
def State.ret (s : State ι) (i : ι) : State ι :=
  { s with
    owner := none
    thread := update s.thread i { s.thread i with pc := .idle, returned := (s.thread i).returned + 1 } }

/-- Whoever sleeps at `p` is to take the mutex again, at `q`. -/
def State.wake (s : State ι) (p q : Pc) : State ι :=
  { s with thread := fun j => if (s.thread j).pc = p then { s.thread j with pc := q } else s.thread j }

/-- `n` is `participants_`. -/
def threadStep (n : Nat) (s : State ι) (i : ι) : Option (State ι) :=
  match (s.thread i).pc with
  | .idle | .limitAsleep | .arrivalAsleep => none
  | .gateArrived => some (s.setPc i (if n ≤ s.arrived then .limitLock else .gateDeparted))
  | .gateDeparted => some (s.setPc i (if s.departed ≠ 0 then .limitLock else .arrivalLock))
  | .limitLock => s.lock i .limitTest
  | .limitTest =>
    if s.arrived < n ∧ s.departed = 0 then some (s.setPc i .limitUnlock) else some (s.unlock i .limitAsleep)
  | .limitUnlock => some (s.unlock i .arrivalLock)
  | .arrivalLock => s.lock i .fetchAdd
  | .fetchAdd => some ({ s with arrived := s.arrived + 1 }.setPc i .arrivalTest)
  | .arrivalTest => if s.arrived = n then some (s.setPc i .notifyTest) else some (s.unlock i .arrivalAsleep)
  | .arrivalRelock => s.lock i .arrivalTest
  | .notifyTest =>
    if s.arrived = n ∧ s.notified = false then some ({ s with notified := true }.setPc i .notifyAll)
    else some (s.setPc i .depart)
  | .notifyAll => some ((s.wake .arrivalAsleep .arrivalRelock).setPc i .depart)
  | .depart => some ({ s with departed := s.departed + 1 }.setPc i .departTest)
  | .departTest => some (s.setPc i (if s.departed = s.arrived then .storeArrived else .unlock))
  | .storeArrived => some ({ s with arrived := 0 }.setPc i .storeDeparted)
  | .storeDeparted => some ({ s with departed := 0, round := s.round + 1 }.setPc i .clearNotified)
  | .clearNotified => some ({ s with notified := false }.setPc i .limitNotify)
  | .limitNotify => some ((s.wake .limitAsleep .limitLock).setPc i .unlock)
  | .unlock => some (s.ret i)

/-- Thread `i` makes another call after `k` of them. -/
def goesOn (calls : ι → Option Nat) (i : ι) (k : Nat) : Bool := (calls i).all (k < ·)

def step (n : Nat) (calls : ι → Option Nat) (s : State ι) : Act ι → Option (State ι)
  | .call i =>
    if (s.thread i).pc = .idle ∧ goesOn calls i (s.thread i).returned = true then
      some { s with
        thread := update s.thread i
          { s.thread i with pc := .gateArrived, entered := (s.thread i).entered + 1 } }
    else none
  | .step i => threadStep n s i
  | .spurious i => match (s.thread i).pc with
    | .limitAsleep => some (s.setPc i .limitLock)
    | .arrivalAsleep => some (s.setPc i .arrivalRelock)
    | _ => none

def init : State ι :=
  { arrived := 0, departed := 0, notified := false, owner := none, thread := fun _ => ⟨.idle, 0, 0⟩, round := 0 }

/-- `participants_` is the number of threads. -/
def system [Fintype ι] (calls : ι → Option Nat) : System (State ι) (Act ι) :=
  ⟨fun s => s = init, step (Fintype.card ι) calls⟩

end model

/-! ### Where the threads are in the round -/

/-- In a call, past its `arrived_.fetch_add`. -/
def Pc.inRound : Pc → Bool
  | .arrivalTest | .arrivalAsleep | .arrivalRelock | .notifyTest | .notifyAll | .depart | .departTest
  | .storeArrived | .storeDeparted | .clearNotified | .limitNotify | .unlock => true
  | _ => false

/-- Past its `departed_.fetch_add`. -/
def Pc.gone : Pc → Bool
  | .departTest | .storeArrived | .storeDeparted | .clearNotified | .limitNotify | .unlock => true
  | _ => false

/-- With the mutex locked. -/
def Pc.holds : Pc → Bool
  | .idle | .gateArrived | .gateDeparted | .limitLock | .limitAsleep | .arrivalLock | .arrivalAsleep
  | .arrivalRelock => false
  | _ => true

/-- Behind the gate, before its `arrived_.fetch_add`. -/
def Pc.behindGate : Pc → Bool
  | .limitUnlock | .arrivalLock | .fetchAdd => true
  | _ => false

/-- Departed, in a round that is not over. -/
def Pc.ending : Pc → Bool
  | .departTest | .storeArrived | .storeDeparted => true
  | _ => false

/-- Past its `departed_.store(0)`. -/
def Pc.ended : Pc → Bool
  | .clearNotified | .limitNotify => true
  | _ => false

/-- How often it has arrived. -/
def Thread.arrivals (t : Thread) : Nat := t.returned + t.pc.inRound.toNat

/-- How often it has departed. -/
def Thread.departures (t : Thread) : Nat := t.returned + t.pc.gone.toNat

/-- What a thread may be doing after `round` rounds; `more` says whether it makes another call. -/
structure Thread.Ok (round : Nat) (more : Nat → Bool) (t : Thread) : Prop where
  entered : t.entered = if t.pc = .idle then t.returned else t.returned + 1
  more : t.pc ≠ .idle → more t.returned = true
  old : round ≤ t.departures
  new : t.arrivals ≤ round + 1
  /-- Behind the gate it belongs to this round. -/
  gate : t.pc.behindGate = true → t.returned = round
  /-- The round ends with `departed_.store(0)`. -/
  last : t.pc.ending = true → t.returned = round
  next : t.pc.ended = true → t.returned + 1 = round

section counts

variable {ι : Type} [Fintype ι]

/-- How many have arrived in this round. -/
def State.arrivals (s : State ι) : Nat := Threads.count (fun t => s.round < t.arrivals) s.thread

/-- How many have departed in this round. -/
def State.departures (s : State ι) : Nat := Threads.count (fun t => s.round < t.departures) s.thread

/-- Somebody sleeps at `p`. -/
def State.sleeps (s : State ι) (p : Pc) : Prop := ∃ i, (s.thread i).pc = p

/-- Where the owner of the mutex is. -/
def State.place (s : State ι) : Option Pc := s.owner.map fun i => (s.thread i).pc

/-- What `arrived_`, `is_notified_` and the sleepers are, with the owner of the mutex at a place. -/
def State.At (s : State ι) : Option Pc → Prop
  | some .arrivalTest => s.arrived = s.arrivals ∧ s.departed < Fintype.card ι ∧
    (s.notified = true → s.arrivals = Fintype.card ι) ∧ (s.sleeps .arrivalAsleep → s.notified = false) ∧
    (s.sleeps .limitAsleep → s.arrivals = Fintype.card ι)
  | some .notifyTest => s.arrived = s.arrivals ∧ s.arrivals = Fintype.card ι ∧ s.departed < Fintype.card ι ∧
    (s.sleeps .arrivalAsleep → s.notified = false)
  | some .notifyAll => s.arrived = s.arrivals ∧ s.arrivals = Fintype.card ι ∧ s.departed < Fintype.card ι ∧
    s.notified = true
  | some .depart => s.arrived = s.arrivals ∧ s.arrivals = Fintype.card ι ∧ s.departed < Fintype.card ι ∧
    s.notified = true ∧ ¬ s.sleeps .arrivalAsleep
  | some .departTest => s.arrived = s.arrivals ∧ s.arrivals = Fintype.card ι ∧ s.notified = true ∧
    ¬ s.sleeps .arrivalAsleep
  | some .storeArrived => s.arrived = s.arrivals ∧ s.arrivals = Fintype.card ι ∧
    s.departed = Fintype.card ι ∧ ¬ s.sleeps .arrivalAsleep
  | some .storeDeparted => s.arrived = 0 ∧ s.arrivals = Fintype.card ι ∧ s.departed = Fintype.card ι ∧
    ¬ s.sleeps .arrivalAsleep
  | some .clearNotified => s.arrived = 0 ∧ s.arrivals = 0 ∧ ¬ s.sleeps .arrivalAsleep
  | some .limitNotify => s.arrived = 0 ∧ s.arrivals = 0 ∧ s.notified = false ∧ ¬ s.sleeps .arrivalAsleep
  | _ => s.arrived = s.arrivals ∧ s.departed < Fintype.card ι ∧
    (s.notified = true ↔ s.arrivals = Fintype.card ι) ∧
    (s.sleeps .arrivalAsleep → s.arrivals < Fintype.card ι) ∧
    (s.sleeps .limitAsleep → s.arrivals = Fintype.card ι)

structure Inv (calls : ι → Option Nat) (s : State ι) : Prop where
  owned : Lock.Owned (fun t => t.pc.holds = true) s.owner s.thread
  ok : ∀ i, (s.thread i).Ok s.round (goesOn calls i)
  departed : s.departed = s.departures
  /-- Nobody departs before all have arrived. -/
  full : 0 < s.departures → s.arrivals = Fintype.card ι
  at_place : s.At s.place

end counts

section step

variable {ι : Type} [DecidableEq ι] {calls : ι → Option Nat} {s s' : State ι} {i : ι} {t : Thread} {p q : Pc}

/-! ### One thread -/

/-- A thread goes on within a call, and neither arrives nor departs. -/
theorem Thread.Ok.move {round : Nat} {more : Nat → Bool} (h : t.Ok round more) (hp : t.pc = p)
    (hp0 : p ≠ .idle) (hq0 : q ≠ .idle) (hin : q.inRound = p.inRound) (hgone : q.gone = p.gone)
    (hgate : q.behindGate = true → t.returned = round) (hlast : q.ending = true → t.returned = round)
    (hnext : q.ended = true → t.returned + 1 = round) : Thread.Ok round more { t with pc := q } := by
  subst hp
  refine ⟨?_, fun _ => h.more hp0, ?_, ?_, hgate, hlast, hnext⟩
  · have he := h.entered
    rw [if_neg hp0] at he
    rw [if_neg hq0]
    exact he
  · have ho := h.old
    unfold Thread.departures at ho ⊢
    rwa [hgone]
  · have hn := h.new
    unfold Thread.arrivals at hn ⊢
    rwa [hin]

/-- A thread goes on within its call in this round. -/
theorem Thread.Ok.inside {round : Nat} {more : Nat → Bool} (h : t.Ok round more) (hp0 : t.pc ≠ .idle)
    (hround : t.returned = round) (hq0 : q ≠ .idle) (hended : q.ended = false) :
    Thread.Ok round more { t with pc := q } := by
  have he := h.entered
  rw [if_neg hp0] at he
  refine ⟨by rw [if_neg hq0]; exact he, fun _ => h.more hp0, ?_, ?_, fun _ => hround, fun _ => hround, ?_⟩
  · exact hround ▸ Nat.le_add_right ..
  · exact hround ▸ Nat.add_le_add_left (Bool.toNat_le _) _
  · rw [hended]
    nofun

/-! ### The counts -/

theorem sleeps_update (hs' : s'.thread = update s.thread i t) (hq : t.pc ≠ q) (h : s'.sleeps q) :
    s.sleeps q := by
  obtain ⟨j, hj⟩ := h
  rw [hs'] at hj
  rcases eq_or_ne j i with rfl | hji
  · rw [update_self] at hj
    exact absurd hj hq
  · rw [update_of_ne hji] at hj
    exact ⟨j, hj⟩

variable [Fintype ι]

theorem arrivals_same (hs' : s'.thread = update s.thread i t) (hr : s'.round = s.round)
    (ht : t.arrivals = (s.thread i).arrivals) : s'.arrivals = s.arrivals := by
  unfold State.arrivals
  rw [hs', hr]
  exact Threads.count_update_same (by rw [ht])

theorem departures_same (hs' : s'.thread = update s.thread i t) (hr : s'.round = s.round)
    (ht : t.departures = (s.thread i).departures) : s'.departures = s.departures := by
  unfold State.departures
  rw [hs', hr]
  exact Threads.count_update_same (by rw [ht])

omit [DecidableEq ι] in
theorem arrivals_le (s : State ι) : s.arrivals ≤ Fintype.card ι := Threads.count_le_card

omit [DecidableEq ι] in
theorem departures_le (s : State ι) : s.departures ≤ Fintype.card ι := Threads.count_le_card

omit [DecidableEq ι] in
/-- The counters and the sleepers decide what holds at a place. -/
theorem State.At.mono {o : Option Pc} (h : s.At o) (ha : s'.arrived = s.arrived)
    (hd : s'.departed = s.departed) (hn : s'.notified = s.notified) (hA : s'.arrivals = s.arrivals)
    (h1 : s'.sleeps .arrivalAsleep → s.sleeps .arrivalAsleep)
    (h2 : s'.sleeps .limitAsleep → s.sleeps .limitAsleep) : s'.At o := by
  unfold State.At at h ⊢
  rw [ha, hd, hn, hA]
  split at h
  all_goals grind

omit [DecidableEq ι] [Fintype ι] in
theorem place_of_owner (h : s.owner = some i) : s.place = some (s.thread i).pc := by
  rw [State.place, h]
  rfl

omit [DecidableEq ι] [Fintype ι] in
theorem place_of_free (h : s.owner = none) : s.place = none := by
  rw [State.place, h]
  rfl

omit [Fintype ι] in
theorem ok_update (h : ∀ j, (s.thread j).Ok s.round (goesOn calls j)) (hs' : s'.thread = update s.thread i t)
    (hr : s'.round = s.round) (hok : t.Ok s.round (goesOn calls i)) (j : ι) :
    (s'.thread j).Ok s'.round (goesOn calls j) := by
  rw [hs', hr]
  rcases eq_or_ne j i with rfl | hj
  · rwa [update_self]
  · rw [update_of_ne hj]
    exact h j

/-! ### The kinds of steps -/

/-- The owner of the mutex goes on. -/
theorem Inv.stay (h : Inv calls s) (hi : (s.thread i).pc.holds = true)
    (hs' : s'.thread = update s.thread i t) (hr : s'.round = s.round) (ho : s'.owner = s.owner)
    (ht : t.pc.holds = true) (hok : t.Ok s.round (goesOn calls i)) (hd : s'.departed = s'.departures)
    (hfull : 0 < s'.departures → s'.arrivals = Fintype.card ι) (hat : s'.At (some t.pc)) : Inv calls s' where
  owned := by
    rw [ho, hs']
    exact h.owned.stay (iff_of_true ht hi)
  ok := ok_update h.ok hs' hr hok
  departed := hd
  full := hfull
  at_place := by
    rw [place_of_owner (i := i) (ho.trans ((h.owned i).1 hi)), hs', update_self]
    exact hat

/-- The owner of the mutex goes on, and neither arrives nor departs nor ends the round. -/
theorem Inv.within (h : Inv calls s) (hp : (s.thread i).pc = p) (hph : p.holds = true)
    (hs' : s'.thread = update s.thread i { s.thread i with pc := q }) (hr : s'.round = s.round)
    (ho : s'.owner = s.owner) (hd : s'.departed = s.departed) (hqh : q.holds = true)
    (hin : q.inRound = p.inRound) (hgone : q.gone = p.gone)
    (hgate : q.behindGate = true → (s.thread i).returned = s.round)
    (hlast : q.ending = true → (s.thread i).returned = s.round)
    (hnext : q.ended = true → (s.thread i).returned + 1 = s.round)
    (hat : s'.arrivals = s.arrivals → s'.At (some q)) : Inv calls s' := by
  have hp0 : p ≠ .idle := by rintro rfl; cases hph
  have hq0 : q ≠ .idle := by rintro rfl; cases hqh
  have hA : s'.arrivals = s.arrivals := arrivals_same hs' hr (by simp only [Thread.arrivals, hin, hp])
  have hD : s'.departures = s.departures := departures_same hs' hr (by simp only [Thread.departures, hgone, hp])
  refine h.stay (by rwa [hp]) hs' hr ho hqh ((h.ok i).move hp hp0 hq0 hin hgone hgate hlast hnext) ?_ ?_
    (hat hA)
  · rw [hd, hD]
    exact h.departed
  · rw [hA, hD]
    exact h.full

/-- The owner of the mutex releases it, and goes on or returns. -/
theorem Inv.release (h : Inv calls s) (hi : (s.thread i).pc.holds = true)
    (hs' : s'.thread = update s.thread i t) (hr : s'.round = s.round) (ho : s'.owner = none)
    (hd : s'.departed = s.departed) (ht : t.pc.holds = false) (hok : t.Ok s.round (goesOn calls i))
    (hin : t.arrivals = (s.thread i).arrivals) (hgone : t.departures = (s.thread i).departures)
    (hat : s'.arrivals = s.arrivals → s'.At none) : Inv calls s' where
  owned := by
    rw [ho, hs']
    exact h.owned.drop hi (by rw [ht]; nofun)
  ok := ok_update h.ok hs' hr hok
  departed := by
    rw [hd, departures_same hs' hr hgone]
    exact h.departed
  full := by
    rw [arrivals_same hs' hr hin, departures_same hs' hr hgone]
    exact h.full
  at_place := by
    rw [place_of_free ho]
    exact hat (arrivals_same hs' hr hin)

omit [Fintype ι] in
/-- The owner does not move when another thread does. -/
theorem place_same (h : Lock.Owned (fun t : Thread => t.pc.holds = true) s.owner s.thread)
    (hi : (s.thread i).pc.holds = false) (hs' : s'.thread = update s.thread i t) (ho : s'.owner = s.owner) :
    s'.place = s.place := by
  cases hj : s.owner with
  | none => simp only [State.place, ho, hj, Option.map_none]
  | some j =>
    have hhold : (s.thread j).pc.holds = true := (h j).2 hj
    have hji : j ≠ i := by
      rintro rfl
      rw [hi] at hhold
      cases hhold
    rw [State.place, State.place, ho, hj, Option.map_some, Option.map_some, hs', update_of_ne hji]

/-- A thread that has not locked the mutex takes a step outside. -/
theorem Inv.outside (h : Inv calls s) (hi : (s.thread i).pc.holds = false)
    (hs' : s' = { s with thread := update s.thread i t }) (ht : t.pc.holds = false)
    (hs1 : t.pc ≠ .arrivalAsleep) (hs2 : t.pc ≠ .limitAsleep) (hok : t.Ok s.round (goesOn calls i))
    (hin : t.arrivals = (s.thread i).arrivals) (hgone : t.departures = (s.thread i).departures) :
    Inv calls s' := by
  have hthread : s'.thread = update s.thread i t := by rw [hs']
  have hr : s'.round = s.round := by rw [hs']
  have ho : s'.owner = s.owner := by rw [hs']
  have hA : s'.arrivals = s.arrivals := arrivals_same hthread hr hin
  have hD : s'.departures = s.departures := departures_same hthread hr hgone
  refine ⟨?_, ok_update h.ok hthread hr hok, ?_, ?_, ?_⟩
  · rw [ho, hthread]
    exact h.owned.stay (iff_of_false (by rw [ht]; nofun) (by rw [hi]; nofun))
  · rw [hD, ← h.departed, hs']
  · rw [hA, hD]
    exact h.full
  · rw [place_same h.owned hi hthread ho]
    exact h.at_place.mono (by rw [hs']) (by rw [hs']) (by rw [hs']) hA (sleeps_update hthread hs1)
      (sleeps_update hthread hs2)

/-- A thread takes the free mutex. -/
theorem Inv.lock (h : Inv calls s) (hi : (s.thread i).pc = p) (hl : s.lock i q = some s')
    (hp0 : p ≠ .idle) (hq : q.holds = true) (hin : q.inRound = p.inRound) (hgone : q.gone = p.gone)
    (hgate : q.behindGate = true → (s.thread i).returned = s.round)
    (hlast : q.ending = true → (s.thread i).returned = s.round) (hnext : q.ended = false)
    (hs1 : q ≠ .arrivalAsleep) (hs2 : q ≠ .limitAsleep) (hat : s'.At none → s'.At (some q)) :
    Inv calls s' := by
  unfold State.lock at hl
  split at hl
  · next hfree =>
    injection hl with hs'
    have hthread : s'.thread = update s.thread i { s.thread i with pc := q } := by rw [← hs']; rfl
    have hr : s'.round = s.round := by rw [← hs']; rfl
    have ho : s'.owner = some i := by rw [← hs']; rfl
    have ha : s'.arrived = s.arrived := by rw [← hs']; rfl
    have hd : s'.departed = s.departed := by rw [← hs']; rfl
    have hn : s'.notified = s.notified := by rw [← hs']; rfl
    have hA : s'.arrivals = s.arrivals := arrivals_same hthread hr (by simp only [Thread.arrivals, hin, hi])
    have hD : s'.departures = s.departures :=
      departures_same hthread hr (by simp only [Thread.departures, hgone, hi])
    have hq0 : q ≠ .idle := by rintro rfl; cases hq
    have hok := (h.ok i).move hi hp0 hq0 hin hgone hgate hlast (by rw [hnext]; nofun)
    have howned := h.owned
    rw [hfree] at howned
    refine ⟨?_, ok_update h.ok hthread hr hok, ?_, ?_, ?_⟩
    · rw [ho, hthread]
      exact howned.take hq
    · rw [hd, hD]
      exact h.departed
    · rw [hA, hD]
      exact h.full
    · rw [place_of_owner ho, hthread, update_self]
      have hnone := h.at_place
      rw [place_of_free hfree] at hnone
      exact hat (hnone.mono ha hd hn hA (sleeps_update hthread hs1) (sleeps_update hthread hs2))
  · cases hl

omit [DecidableEq ι] [Fintype ι] in
theorem wake_cases (s : State ι) (p q : Pc) (j : ι) :
    (s.thread j).pc = p ∧ (s.wake p q).thread j = { s.thread j with pc := q } ∨
      (s.thread j).pc ≠ p ∧ (s.wake p q).thread j = s.thread j := by
  by_cases hj : (s.thread j).pc = p
  · exact .inl ⟨hj, if_pos hj⟩
  · exact .inr ⟨hj, if_neg hj⟩

omit [DecidableEq ι] in
/-- The notification of the sleepers at `p`, who then wait for the mutex at `q`. -/
theorem Inv.wake (h : Inv calls s) (hp : p.holds = false) (hp0 : p ≠ .idle) (hq : q.holds = false)
    (hq0 : q ≠ .idle) (hin : q.inRound = p.inRound) (hgone : q.gone = p.gone) (hgate : q.behindGate = false)
    (hlast : q.ending = false) (hnext : q.ended = false) (hs1 : q ≠ .arrivalAsleep) (hs2 : q ≠ .limitAsleep) :
    Inv calls (s.wake p q) ∧ (s.wake p q).arrivals = s.arrivals := by
  have hA : (s.wake p q).arrivals = s.arrivals := Threads.count_congr fun j => by
    rcases wake_cases s p q j with ⟨hj, he⟩ | ⟨-, he⟩
    · rw [he]
      simp only [Thread.arrivals, hin, hj]
      rfl
    · rw [he]
      rfl
  have hD : (s.wake p q).departures = s.departures := Threads.count_congr fun j => by
    rcases wake_cases s p q j with ⟨hj, he⟩ | ⟨-, he⟩
    · rw [he]
      simp only [Thread.departures, hgone, hj]
      rfl
    · rw [he]
      rfl
  have hsl : ∀ r, q ≠ r → (s.wake p q).sleeps r → s.sleeps r := by
    rintro r hr ⟨j, hj⟩
    rcases wake_cases s p q j with ⟨-, he⟩ | ⟨-, he⟩
    · rw [he] at hj
      exact absurd hj hr
    · rw [he] at hj
      exact ⟨j, hj⟩
  refine ⟨⟨?_, fun j => ?_, ?_, ?_, ?_⟩, hA⟩
  · refine h.owned.congr fun j => ?_
    rcases wake_cases s p q j with ⟨hj, he⟩ | ⟨-, he⟩
    · rw [he, hj, hp, hq]
    · rw [he]
  · rcases wake_cases s p q j with ⟨hj, he⟩ | ⟨-, he⟩
    · rw [he]
      exact (h.ok j).move hj hp0 hq0 hin hgone (by rw [hgate]; nofun) (by rw [hlast]; nofun)
        (by rw [hnext]; nofun)
    · rw [he]
      exact h.ok j
  · rw [hD]
    exact h.departed
  · rw [hA, hD]
    exact h.full
  · have hplace : (s.wake p q).place = s.place := by
      unfold State.place
      change s.owner.map _ = _
      cases ho : s.owner with
      | none => rfl
      | some j =>
        have hj : (s.thread j).pc.holds = true := (h.owned j).2 ho
        rcases wake_cases s p q j with ⟨hjp, -⟩ | ⟨-, he⟩
        · rw [hjp, hp] at hj
          cases hj
        · rw [Option.map_some, Option.map_some, he]
    rw [hplace]
    exact h.at_place.mono rfl rfl rfl hA (hsl _ hs1) (hsl _ hs2)

omit [DecidableEq ι] [Fintype ι] in
theorem not_sleeps_wake (hpq : q ≠ p) : ¬ (s.wake p q).sleeps p := by
  rintro ⟨j, hj⟩
  rcases wake_cases s p q j with ⟨-, he⟩ | ⟨hne, he⟩
  · rw [he] at hj
    exact hpq hj
  · rw [he] at hj
    exact hne hj

omit [DecidableEq ι] in
theorem Inv.owner (h : Inv calls s) (hp : (s.thread i).pc = p) (hph : p.holds = true) : s.owner = some i := by
  subst hp
  exact (h.owned i).1 hph

omit [DecidableEq ι] in
/-- The owner of the mutex at a place finds what holds there. -/
theorem Inv.here (h : Inv calls s) (hp : (s.thread i).pc = p) (hph : p.holds = true) : s.At (some p) := by
  have hat := h.at_place
  rwa [place_of_owner (h.owner hp hph), hp] at hat

omit [DecidableEq ι] in
/-- Whoever is in the call without having arrived has not departed in this round, when nobody has. -/
theorem Inv.returned_of_departed (h : Inv calls s) (hd : s.departed = 0) (hp : (s.thread i).pc.gone = false) :
    (s.thread i).returned = s.round := by
  have hno := Threads.count_eq_zero.1 (h.departed.symm.trans hd) i
  have hold := (h.ok i).old
  unfold Thread.departures at hno hold
  rw [hp] at hno hold
  simp only [Bool.toNat_false] at hno hold
  omega

/-- A thread behind the gate arrives. -/
theorem Inv.fetchAdd (h : Inv calls s) (hp : (s.thread i).pc = .fetchAdd) :
    Inv calls ({ s with arrived := s.arrived + 1 }.setPc i .arrivalTest) := by
  have hround : (s.thread i).returned = s.round := (h.ok i).gate (by rw [hp]; rfl)
  have hnot : ¬ s.round < (s.thread i).arrivals := by
    rw [Thread.arrivals, hp, hround]
    exact Nat.lt_irrefl _
  have hlt : s.arrivals < Fintype.card ι := Threads.count_lt_card hnot
  obtain ⟨ha, hdn, hn, hs1, hs2⟩ := h.here hp rfl
  have hA : ({ s with arrived := s.arrived + 1 }.setPc i .arrivalTest).arrivals = s.arrivals + 1 :=
    Threads.count_update_enter hnot (Nat.lt_succ_of_le hround.ge)
  have hD : ({ s with arrived := s.arrived + 1 }.setPc i .arrivalTest).departures = s.departures :=
    departures_same rfl rfl (by rw [Thread.departures, Thread.departures, hp]; rfl)
  have hno : ¬ 0 < s.departures := fun hpos => by
    have := h.full hpos
    omega
  refine h.stay (by rw [hp]; rfl) rfl rfl rfl rfl
    ((h.ok i).inside (by rw [hp]; nofun) hround nofun rfl) ?_ ?_ ⟨?_, hdn, ?_, ?_, ?_⟩
  · rw [hD]
    exact h.departed
  · rw [hD]
    exact fun hpos => absurd hpos hno
  · rw [hA, ← ha]
    rfl
  · intro hnot
    exact absurd (hn.1 hnot) hlt.ne
  · intro hs
    exact Bool.eq_false_iff.2 (mt hn.1 hlt.ne)
  · intro hs
    exact absurd (hs2 (sleeps_update rfl (by nofun) hs)) hlt.ne

/-- All have arrived, and a thread departs. -/
theorem Inv.depart (h : Inv calls s) (hp : (s.thread i).pc = .depart) :
    Inv calls ({ s with departed := s.departed + 1 }.setPc i .departTest) := by
  have hok := h.ok i
  have hold := hok.old
  have hnew := hok.new
  rw [Thread.departures, hp] at hold
  rw [Thread.arrivals, hp] at hnew
  have hround : (s.thread i).returned = s.round := by
    simp only [Pc.gone, Pc.inRound, Bool.toNat_false, Bool.toNat_true] at hold hnew
    omega
  have hnot : ¬ s.round < (s.thread i).departures := by
    rw [Thread.departures, hp, hround]
    exact Nat.lt_irrefl _
  obtain ⟨ha, hfull, hdn, hn, hs1⟩ := h.here hp rfl
  have hA : ({ s with departed := s.departed + 1 }.setPc i .departTest).arrivals = s.arrivals :=
    arrivals_same rfl rfl (by rw [Thread.arrivals, Thread.arrivals, hp]; rfl)
  have hD : ({ s with departed := s.departed + 1 }.setPc i .departTest).departures = s.departures + 1 :=
    Threads.count_update_enter hnot (Nat.lt_succ_of_le hround.ge)
  refine h.stay (by rw [hp]; rfl) rfl rfl rfl rfl
    (hok.inside (by rw [hp]; nofun) hround nofun rfl) ?_ ?_ ⟨?_, ?_, hn, ?_⟩
  · rw [hD, ← h.departed]
    rfl
  · rw [hA]
    exact fun _ => hfull
  · rw [hA]
    exact ha
  · rw [hA]
    exact hfull
  · exact fun hs => hs1 (sleeps_update rfl (by nofun) hs)

theorem gone_holds (h : p.gone = true) : p.holds = true := by
  cases p <;> first | rfl | cases h

theorem ending_gone (h : p.ending = true) : p.gone = true := by
  cases p <;> first | rfl | cases h

omit [DecidableEq ι] in
/-- When the last one is out, all the others are waiting for the next round, or have not come yet. -/
theorem Inv.others_out (h : Inv calls s) (hp : (s.thread i).pc = p) (hph : p.holds = true)
    (hall : ∀ j, s.round < (s.thread j).departures) {j : ι} (hj : j ≠ i) :
    (s.thread j).returned = s.round + 1 ∧ (s.thread j).pc.inRound = false ∧ (s.thread j).pc.gone = false := by
  have hgone : (s.thread j).pc.gone = false := by
    refine Bool.eq_false_iff.2 fun hg => hj ?_
    exact Option.some.inj (((h.owned j).1 (gone_holds hg)).symm.trans (h.owner hp hph))
  have hd := hall j
  have hnew := (h.ok j).new
  rw [Thread.departures, hgone, Bool.toNat_false] at hd
  rw [Thread.arrivals] at hnew
  have hin : (s.thread j).pc.inRound.toNat = 0 := by omega
  exact ⟨by omega, by simpa using hin, hgone⟩

/-- The last one out ends the round. -/
theorem Inv.storeDeparted (h : Inv calls s) (hp : (s.thread i).pc = .storeDeparted) :
    Inv calls ({ s with departed := 0, round := s.round + 1 }.setPc i .clearNotified) := by
  obtain ⟨ha, hfull, hd, hs1⟩ := h.here hp rfl
  have hall := Threads.count_eq_card.1 (h.departed.symm.trans hd)
  have hround : (s.thread i).returned = s.round := (h.ok i).last (by rw [hp]; rfl)
  have hout := fun j => h.others_out (j := j) hp rfl hall
  set s' : State ι := { s with departed := 0, round := s.round + 1 }.setPc i .clearNotified
  have hi : s'.thread i = { s.thread i with pc := .clearNotified } := update_self ..
  have hne : ∀ j, j ≠ i → s'.thread j = s.thread j := fun j hj => update_of_ne hj ..
  have hok : ∀ j, (s'.thread j).Ok s'.round (goesOn calls j) := by
    intro j
    rcases eq_or_ne j i with rfl | hj
    · rw [hi]
      have he := (h.ok j).entered
      rw [if_neg (by rw [hp]; nofun)] at he
      exact ⟨he, fun _ => (h.ok j).more (by rw [hp]; nofun), Nat.succ_le_succ hround.ge,
        (Nat.succ_le_succ hround.le).trans (Nat.le_succ _), nofun, nofun, fun _ => congrArg (· + 1) hround⟩
    · obtain ⟨hr, hin, hgone⟩ := hout j hj
      have hj' := h.ok j
      rw [hne j hj]
      refine ⟨hj'.entered, hj'.more, ?_, ?_, fun hg => ?_, fun hl => ?_, fun hn => ?_⟩
      · exact hr.ge.trans (Nat.le_add_right ..)
      · rw [Thread.arrivals, hr, hin]
        exact Nat.le_succ _
      · exact hr
      · rw [ending_gone hl] at hgone
        cases hgone
      · have := hj'.next hn
        omega
  have hno : ∀ j, (s'.thread j).arrivals = s'.round := by
    intro j
    rcases eq_or_ne j i with rfl | hj
    · rw [hi]
      exact congrArg (· + 1) hround
    · obtain ⟨hr, hin, -⟩ := hout j hj
      rw [hne j hj, Thread.arrivals, hr, hin]
      rfl
  have hA : s'.arrivals = 0 := Threads.count_eq_zero.2 fun j => by
    rw [hno j]
    exact Nat.lt_irrefl _
  have hD : s'.departures = 0 := Threads.count_eq_zero.2 fun j => by
    rcases eq_or_ne j i with rfl | hj
    · rw [hi]
      exact Nat.not_lt.2 (congrArg (· + 1) hround).le
    · obtain ⟨hr, -, hgone⟩ := hout j hj
      rw [hne j hj, Thread.departures, hr, hgone]
      exact Nat.lt_irrefl _
  refine ⟨?_, hok, hD.symm, ?_, ?_⟩
  · exact h.owned.stay (iff_of_true rfl (by simp only [hp]; rfl))
  · rw [hD]
    nofun
  · have howner : s'.owner = some i := h.owner hp rfl
    rw [place_of_owner howner, hi]
    exact ⟨ha, hA, fun hs => hs1 (sleeps_update rfl (by nofun) hs)⟩

omit [DecidableEq ι] in
/-- What the counters say when nobody has the mutex is enough for the test of the arrivals. -/
theorem at_arrivalTest_of_none (h : s.At none) : s.At (some .arrivalTest) := by
  obtain ⟨ha, hd, hn, hs1, hs2⟩ := h
  exact ⟨ha, hd, hn.1, fun hs => Bool.eq_false_iff.2 (mt hn.1 (hs1 hs).ne), hs2⟩

/-- A thread outside the mutex goes on within its call. -/
theorem Inv.setPc (h : Inv calls s) (hp : (s.thread i).pc = p) (hph : p.holds = false) (hp0 : p ≠ .idle)
    (hqh : q.holds = false) (hq0 : q ≠ .idle) (hin : q.inRound = p.inRound) (hgone : q.gone = p.gone)
    (hgate : q.behindGate = true → (s.thread i).returned = s.round)
    (hlast : q.ending = true → (s.thread i).returned = s.round) (hnext : q.ended = false)
    (hs1 : q ≠ .arrivalAsleep) (hs2 : q ≠ .limitAsleep) : Inv calls (s.setPc i q) :=
  h.outside (by rwa [hp]) rfl hqh hs1 hs2
    ((h.ok i).move hp hp0 hq0 hin hgone hgate hlast (by rw [hnext]; nofun))
    (by simp only [Thread.arrivals, hin, hp]) (by simp only [Thread.departures, hgone, hp])

/-- The owner of the mutex releases it within its call. -/
theorem Inv.unlock (h : Inv calls s) (hp : (s.thread i).pc = p) (hph : p.holds = true)
    (hqh : q.holds = false) (hq0 : q ≠ .idle) (hin : q.inRound = p.inRound) (hgone : q.gone = p.gone)
    (hgate : q.behindGate = true → (s.thread i).returned = s.round)
    (hlast : q.ending = true → (s.thread i).returned = s.round) (hnext : q.ended = false)
    (hat : (s.unlock i q).arrivals = s.arrivals → (s.unlock i q).At none) : Inv calls (s.unlock i q) := by
  have hp0 : p ≠ .idle := by rintro rfl; cases hph
  exact h.release (by rwa [hp]) rfl rfl rfl rfl hqh
    ((h.ok i).move hp hp0 hq0 hin hgone hgate hlast (by rw [hnext]; nofun))
    (by simp only [Thread.arrivals, hin, hp]) (by simp only [Thread.departures, hgone, hp]) hat

/-- Whoever is about to return has departed. -/
theorem Inv.ret (h : Inv calls s) (hp : (s.thread i).pc = .unlock) : Inv calls (s.ret i) := by
  have hok := h.ok i
  have he := hok.entered
  have hold := hok.old
  have hnew := hok.new
  rw [if_neg (by rw [hp]; nofun)] at he
  rw [Thread.departures, hp] at hold
  rw [Thread.arrivals, hp] at hnew
  refine h.release (by rw [hp]; rfl) rfl rfl rfl rfl rfl
    ⟨he, fun hne => absurd rfl hne, hold, hnew, nofun, nofun, nofun⟩ ?_ ?_ fun hA => ?_
  · rw [Thread.arrivals, Thread.arrivals, hp]
    rfl
  · rw [Thread.departures, Thread.departures, hp]
    rfl
  · have hat : s.At none := h.here hp rfl
    exact hat.mono rfl rfl rfl hA (sleeps_update rfl (by nofun)) (sleeps_update rfl (by nofun))

theorem Inv.step (h : Inv calls s) (hs : threadStep (Fintype.card ι) s i = some s') : Inv calls s' := by
  have hok := h.ok i
  unfold threadStep at hs
  split at hs
  · cases hs
  · cases hs
  · cases hs
  · next hp =>
    cases hs
    split
    · exact h.setPc hp rfl nofun rfl nofun rfl rfl nofun nofun rfl nofun nofun
    · exact h.setPc hp rfl nofun rfl nofun rfl rfl nofun nofun rfl nofun nofun
  · next hp =>
    cases hs
    split
    · exact h.setPc hp rfl nofun rfl nofun rfl rfl nofun nofun rfl nofun nofun
    · next hd =>
      have hround := h.returned_of_departed (not_not.1 hd) (by rw [hp]; rfl)
      exact h.setPc hp rfl nofun rfl nofun rfl rfl (fun _ => hround) nofun rfl nofun nofun
  · next hp =>
    exact h.lock hp hs nofun rfl rfl rfl nofun nofun rfl nofun nofun id
  · next hp =>
    obtain ⟨ha, hd, hn, hs1, hs2⟩ := h.here hp rfl
    split at hs
    · next htest =>
      cases hs
      have hround := h.returned_of_departed htest.2 (by rw [hp]; rfl)
      exact h.within hp rfl rfl rfl rfl rfl rfl rfl rfl (fun _ => hround) nofun nofun
        fun hA => (h.here hp rfl).mono rfl rfl rfl hA (sleeps_update rfl nofun) (sleeps_update rfl nofun)
    · next htest =>
      -- the last round is not over: all have arrived
      cases hs
      have hfull : s.arrivals = Fintype.card ι := by
        by_contra hne
        have hlt : s.arrived < Fintype.card ι := ha ▸ lt_of_le_of_ne (arrivals_le s) hne
        have hpos : 0 < s.departures := h.departed ▸ Nat.pos_of_ne_zero fun h0 => htest ⟨hlt, h0⟩
        exact hne (h.full hpos)
      refine h.unlock hp rfl rfl nofun rfl rfl nofun nofun rfl fun hA => ?_
      refine ⟨by rw [hA]; exact ha, hd, by rw [hA]; exact hn, fun hs => ?_, fun _ => by rw [hA]; exact hfull⟩
      rw [hA]
      exact hs1 (sleeps_update rfl (by nofun) hs)
  · next hp =>
    cases hs
    refine h.unlock hp rfl rfl nofun rfl rfl (fun _ => hok.gate (by rw [hp]; rfl)) nofun rfl fun hA => ?_
    exact (h.here hp rfl).mono (o := none) rfl rfl rfl hA (sleeps_update rfl (by nofun))
      (sleeps_update rfl (by nofun))
  · next hp =>
    exact h.lock hp hs nofun rfl rfl rfl (fun _ => hok.gate (by rw [hp]; rfl)) nofun rfl nofun nofun id
  · next hp =>
    cases hs
    exact h.fetchAdd hp
  · next hp =>
    obtain ⟨ha, hd, hn, hs1, hs2⟩ := h.here hp rfl
    split at hs
    · next htest =>
      cases hs
      refine h.within hp rfl rfl rfl rfl rfl rfl rfl rfl nofun nofun nofun fun hA => ⟨?_, ?_, hd, fun hs => ?_⟩
      · rw [hA]
        exact ha
      · rw [hA, ← ha]
        exact htest
      · exact hs1 (sleeps_update rfl (by nofun) hs)
    · next htest =>
      -- the others are not here yet
      cases hs
      rw [ha] at htest
      refine h.unlock hp rfl rfl nofun rfl rfl nofun nofun rfl fun hA => ⟨?_, hd, ?_, fun _ => ?_, fun hs => ?_⟩
      · rw [hA]
        exact ha
      · rw [hA]
        exact ⟨hn, fun he => absurd he htest⟩
      · rw [hA]
        exact lt_of_le_of_ne (arrivals_le s) htest
      · rw [hA]
        exact hs2 (sleeps_update rfl (by nofun) hs)
  · next hp =>
    exact h.lock hp hs nofun rfl rfl rfl nofun nofun rfl nofun nofun at_arrivalTest_of_none
  · next hp =>
    obtain ⟨ha, hfull, hd, hs1⟩ := h.here hp rfl
    split at hs
    · cases hs
      refine h.within hp rfl rfl rfl rfl rfl rfl rfl rfl nofun nofun nofun fun hA => ⟨?_, ?_, hd, rfl⟩
      · rw [hA]
        exact ha
      · rw [hA]
        exact hfull
    · next htest =>
      cases hs
      have hn : s.notified = true := by
        simpa using fun hn => htest ⟨ha.trans hfull, hn⟩
      refine h.within hp rfl rfl rfl rfl rfl rfl rfl rfl nofun nofun nofun
        fun hA => ⟨?_, ?_, hd, hn, fun hs => ?_⟩
      · rw [hA]
        exact ha
      · rw [hA]
        exact hfull
      · rw [hs1 (sleeps_update rfl (by nofun) hs)] at hn
        cases hn
  · next hp =>
    cases hs
    obtain ⟨hw, hAw⟩ := h.wake (p := .arrivalAsleep) (q := .arrivalRelock) rfl nofun rfl nofun rfl rfl rfl
      rfl rfl nofun nofun
    have hpw : ((s.wake .arrivalAsleep .arrivalRelock).thread i).pc = .notifyAll := by
      rcases wake_cases s .arrivalAsleep .arrivalRelock i with ⟨hj, -⟩ | ⟨-, he⟩
      · rw [hp] at hj
        cases hj
      · rw [he, hp]
    obtain ⟨ha, hfull, hd, hn⟩ := hw.here hpw rfl
    refine hw.within hpw rfl rfl rfl rfl rfl rfl rfl rfl nofun nofun nofun
      fun hA => ⟨?_, ?_, hd, hn, fun hs => ?_⟩
    · rw [hA]
      exact ha
    · rw [hA]
      exact hfull
    · have hno : ¬ (s.wake .arrivalAsleep .arrivalRelock).sleeps .arrivalAsleep := not_sleeps_wake nofun
      exact hno (sleeps_update rfl (by nofun) hs)
  · next hp =>
    cases hs
    exact h.depart hp
  · next hp =>
    cases hs
    obtain ⟨ha, hfull, hn, hs1⟩ := h.here hp rfl
    have hround := hok.last (by rw [hp]; rfl)
    split
    · next htest =>
      refine h.within hp rfl rfl rfl rfl rfl rfl rfl rfl nofun (fun _ => hround) nofun
        fun hA => ⟨?_, ?_, ?_, fun hs => ?_⟩
      · rw [hA]
        exact ha
      · rw [hA]
        exact hfull
      · exact htest.trans (ha.trans hfull)
      · exact hs1 (sleeps_update rfl (by nofun) hs)
    · next htest =>
      refine h.within hp rfl rfl rfl rfl rfl rfl rfl rfl nofun nofun nofun
        fun hA => ⟨?_, ?_, ?_, fun hs => ?_, fun _ => ?_⟩
      · rw [hA]
        exact ha
      · rw [ha, hfull, h.departed] at htest
        rw [show (s.setPc i .unlock).departed = s.departures from h.departed]
        exact lt_of_le_of_ne (departures_le s) htest
      · rw [hA]
        exact iff_of_true hn hfull
      · exact absurd (sleeps_update rfl (by nofun) hs) hs1
      · rw [hA]
        exact hfull
  · next hp =>
    cases hs
    obtain ⟨ha, hfull, hd, hs1⟩ := h.here hp rfl
    refine h.within hp rfl rfl rfl rfl rfl rfl rfl rfl nofun (fun _ => hok.last (by rw [hp]; rfl)) nofun
      fun hA => ⟨rfl, ?_, hd, fun hs => hs1 (sleeps_update rfl (by nofun) hs)⟩
    rw [hA]
    exact hfull
  · next hp =>
    cases hs
    exact h.storeDeparted hp
  · next hp =>
    cases hs
    obtain ⟨ha, hnone, hs1⟩ := h.here hp rfl
    refine h.within hp rfl rfl rfl rfl rfl rfl rfl rfl nofun nofun (fun _ => hok.next (by rw [hp]; rfl))
      fun hA => ⟨ha, ?_, rfl, fun hs => hs1 (sleeps_update rfl (by nofun) hs)⟩
    rw [hA]
    exact hnone
  · next hp =>
    cases hs
    obtain ⟨hw, hAw⟩ := h.wake (p := .limitAsleep) (q := .limitLock) rfl nofun rfl nofun rfl rfl rfl
      rfl rfl nofun nofun
    have hpw : ((s.wake .limitAsleep .limitLock).thread i).pc = .limitNotify := by
      rcases wake_cases s .limitAsleep .limitLock i with ⟨hj, -⟩ | ⟨-, he⟩
      · rw [hp] at hj
        cases hj
      · rw [he, hp]
    obtain ⟨ha, hnone, hn, hs1⟩ := hw.here hpw rfl
    have hpos : 0 < Fintype.card ι := Fintype.card_pos_iff.2 ⟨i⟩
    have hne : (s.wake .limitAsleep .limitLock).arrivals ≠ Fintype.card ι := by
      rw [hnone]
      exact hpos.ne
    have hd : (s.wake .limitAsleep .limitLock).departed = 0 := by
      rw [hw.departed]
      exact Nat.eq_zero_of_not_pos fun h0 => hne (hw.full h0)
    refine hw.within hpw rfl rfl rfl rfl rfl rfl rfl rfl nofun nofun nofun
      fun hA => ⟨?_, ?_, ?_, fun hs => ?_, fun hs => ?_⟩
    · rw [hA, hnone]
      exact ha
    · exact hd.trans_lt hpos
    · rw [hA]
      refine iff_of_false (fun hn' => ?_) hne
      exact Bool.noConfusion (hn.symm.trans hn')
    · exact absurd (sleeps_update rfl (by nofun) hs) hs1
    · have hno : ¬ (s.wake .limitAsleep .limitLock).sleeps .limitAsleep := not_sleeps_wake nofun
      exact absurd (sleeps_update rfl (by nofun) hs) hno
  · next hp =>
    cases hs
    exact h.ret hp

theorem Inv.act {a : Act ι} (h : Inv calls s) (hs : (system calls).step s a = some s') : Inv calls s' := by
  cases a with
  | call i =>
    simp only [system, CyclicBarrier.step] at hs
    split at hs
    · next hcall =>
      cases hs
      have hok := h.ok i
      have he := hok.entered
      have hold := hok.old
      have hnew := hok.new
      rw [if_pos hcall.1] at he
      rw [Thread.departures, hcall.1] at hold
      rw [Thread.arrivals, hcall.1] at hnew
      refine h.outside (by rw [hcall.1]; rfl) rfl rfl nofun nofun
        ⟨congrArg (· + 1) he, fun _ => hcall.2, hold, hnew, nofun, nofun, nofun⟩ ?_ ?_
      · rw [Thread.arrivals, Thread.arrivals, hcall.1]
        rfl
      · rw [Thread.departures, Thread.departures, hcall.1]
        rfl
    · cases hs
  | step i => exact h.step hs
  | spurious i =>
    simp only [system, CyclicBarrier.step] at hs
    split at hs
    · next hp =>
      cases hs
      exact h.setPc hp rfl nofun rfl nofun rfl rfl nofun nofun rfl nofun nofun
    · next hp =>
      cases hs
      exact h.setPc hp rfl nofun rfl nofun rfl rfl nofun nofun rfl nofun nofun
    · cases hs

omit [DecidableEq ι] in
theorem inv_init [Nonempty ι] : Inv calls (init : State ι) := by
  have hpos : 0 < Fintype.card ι := Fintype.card_pos
  have hA : (init : State ι).arrivals = 0 := Threads.count_eq_zero.2 fun j => Nat.lt_irrefl 0
  have hD : (init : State ι).departures = 0 := Threads.count_eq_zero.2 fun j => Nat.lt_irrefl 0
  refine ⟨fun j => iff_of_false nofun nofun, fun j => ⟨rfl, fun h => absurd rfl h, le_rfl, Nat.zero_le _,
    nofun, nofun, nofun⟩, hD.symm, ?_, ?_⟩
  · rw [hD]
    nofun
  · refine ⟨hA.symm, hpos, ?_, fun hs => ?_, fun hs => ?_⟩
    · rw [hA]
      exact iff_of_false nofun hpos.ne
    · obtain ⟨j, hj⟩ := hs
      cases hj
    · obtain ⟨j, hj⟩ := hs
      cases hj

theorem reach_inv [Nonempty ι] (r : Reach (system calls) anyStep s) : Inv calls s :=
  r.invariant (fun _ hs => hs ▸ inv_init) fun _ _ _ h _ hs => h.act hs

end step

/-! ### Main theorem -/

section main

variable {ι : Type} [Fintype ι] {calls : ι → Option Nat} {s : State ι}

theorem Thread.departures_le_arrivals (t : Thread) : t.departures ≤ t.arrivals := by
  refine Nat.add_le_add_left ?_ _
  cases t.pc <;> decide

theorem Thread.Ok.arrivals_le_entered {t : Thread} {round : Nat} {more : Nat → Bool} (h : t.Ok round more) :
    t.arrivals ≤ t.entered := by
  have he := h.entered
  split at he
  · next hp =>
    rw [he, Thread.arrivals, hp]
    exact le_rfl
  · rw [he]
    exact Nat.add_le_add_left (Bool.toNat_le _) _

/-- Nobody returns from a call before all have entered theirs. -/
theorem Inv.returned_le (h : Inv calls s) (i j : ι) : (s.thread i).returned ≤ (s.thread j).entered := by
  have hi : (s.thread i).returned ≤ (s.thread i).departures := Nat.le_add_right ..
  have hnew := (h.ok i).new
  have hold := (h.ok j).old
  have hle := (s.thread i).departures_le_arrivals
  have hlej := (s.thread j).departures_le_arrivals
  have hj := (h.ok j).arrivals_le_entered
  by_cases hd : s.round < (s.thread i).departures
  · have hfull := h.full (Threads.count_pos hd)
    have hjr := Threads.count_eq_card.1 hfull j
    omega
  · omega

theorem Inv.arrived_le (h : Inv calls s) : s.arrived ≤ Fintype.card ι := by
  have hle := arrivals_le s
  have hat := h.at_place
  unfold State.At at hat
  split at hat
  all_goals omega

/-- `departed_` is above `arrived_` only between the two stores. -/
theorem Inv.departed_le (h : Inv calls s) : s.departed ≤ s.arrived ∨ ∃ i, (s.thread i).pc = .storeDeparted := by
  have hd := h.departed
  have hA := arrivals_le s
  have hD := departures_le s
  have hfull := h.full
  have hat := h.at_place
  cases hp : s.place with
  | none =>
    rw [hp] at hat
    obtain ⟨ha, -⟩ := hat
    omega
  | some p =>
    by_cases hst : p = .storeDeparted
    · obtain ⟨i, -, hi⟩ := Option.map_eq_some_iff.1 hp
      exact .inr ⟨i, hi.trans hst⟩
    · rw [hp] at hat
      left
      unfold State.At at hat
      split at hat
      all_goals first | omega | simp_all

/-- Outside a round the counters are those of the mutex when it is free. -/
theorem at_none_of_place (h : s.At s.place) (hin : ∀ i, (s.thread i).pc.inRound = false) : s.At none := by
  cases hp : s.place with
  | none => rwa [hp] at h
  | some p =>
    obtain ⟨i, -, hi⟩ := Option.map_eq_some_iff.1 hp
    have hno : p.inRound = false := hi ▸ hin i
    rw [hp] at h
    cases p <;> first | exact h | cases hno

/-- When nobody is in a round, the counters are at zero. -/
theorem Inv.between (h : Inv calls s) (hin : ∀ i, (s.thread i).pc.inRound = false) :
    s.arrived = 0 ∧ s.departed = 0 := by
  have hgone : ∀ p : Pc, p.inRound = false → p.gone = false := by
    intro p hp
    cases p <;> first | rfl | cases hp
  have hAD : s.arrivals = s.departures := Threads.count_congr fun i => by
    rw [Thread.arrivals, Thread.departures, hin i, hgone _ (hin i)]
  obtain ⟨ha, hd, -⟩ := at_none_of_place h.at_place hin
  have hdep := h.departed
  have hzero : s.departures = 0 := by
    by_contra hne
    have := h.full (Nat.pos_of_ne_zero hne)
    omega
  omega

def Pc.asleep : Pc → Bool
  | .limitAsleep | .arrivalAsleep => true
  | _ => false

/-- Somebody is not finished, and whoever is not finished sleeps in one of the waits. Those who were notified
do not sleep. -/
def Stuck (calls : ι → Option Nat) (s : State ι) : Prop :=
  (∃ i, goesOn calls i (s.thread i).returned = true) ∧
    ∀ i, goesOn calls i (s.thread i).returned = true → (s.thread i).pc.asleep = true

/-- A thread in a call is not finished. -/
theorem Inv.asleep_of_stuck (h : Inv calls s) (hs : Stuck calls s) {i : ι} (hi : (s.thread i).pc ≠ .idle) :
    (s.thread i).pc.asleep = true :=
  hs.2 i ((h.ok i).more hi)

theorem asleep_cases {p : Pc} (h : p.asleep = true) : p = .limitAsleep ∨ p = .arrivalAsleep := by
  cases p <;> first | exact .inl rfl | exact .inr rfl | cases h

theorem Inv.owner_of_stuck (h : Inv calls s) (hs : Stuck calls s) : s.owner = none := by
  cases ho : s.owner with
  | none => rfl
  | some i =>
    have hhold : (s.thread i).pc.holds = true := (h.owned i).2 ho
    have hne : (s.thread i).pc ≠ .idle := by
      intro hp
      rw [hp] at hhold
      cases hhold
    rcases asleep_cases (h.asleep_of_stuck hs hne) with hp | hp
    · rw [hp] at hhold
      cases hhold
    · rw [hp] at hhold
      cases hhold

/-- Somebody is still to be woken, or to call. -/
theorem Inv.not_stuck (h : Inv calls s) (hsame : ∀ i j, calls i = calls j) : ¬ Stuck calls s := by
  intro hs
  have hat := h.at_place
  rw [place_of_free (h.owner_of_stuck hs)] at hat
  obtain ⟨ha, hd, -, hs1, hs2⟩ := hat
  rw [h.departed] at hd
  by_cases hfull : s.arrivals = Fintype.card ι
  · -- somebody who has arrived has not departed: it does not sleep
    have hex : ∃ j, ¬ s.round < (s.thread j).departures := by
      by_contra hall
      push Not at hall
      exact hd.ne (Threads.count_eq_card.2 hall)
    obtain ⟨j, hj⟩ := hex
    have harr := Threads.count_eq_card.1 hfull j
    have hin : (s.thread j).pc.inRound = true := by
      by_contra hno
      rw [Thread.arrivals, Bool.eq_false_iff.2 hno] at harr
      exact hj (harr.trans_le (Nat.add_le_add_left (Nat.zero_le _) _))
    have hne : (s.thread j).pc ≠ .idle := by
      intro hp
      rw [hp] at hin
      cases hin
    rcases asleep_cases (h.asleep_of_stuck hs hne) with hp | hp
    · rw [hp] at hin
      cases hin
    · exact (hs1 ⟨j, hp⟩).ne hfull
  · obtain ⟨i, hi⟩ := hs.1
    have hpi : (s.thread i).pc = .arrivalAsleep :=
      (asleep_cases (hs.2 i hi)).resolve_left fun hp => hfull (hs2 ⟨i, hp⟩)
    have hri : (s.thread i).returned = s.round := by
      have hold := (h.ok i).old
      have hnew := (h.ok i).new
      rw [Thread.departures, hpi] at hold
      rw [Thread.arrivals, hpi] at hnew
      simp only [Pc.gone, Pc.inRound, Bool.toNat_false, Bool.toNat_true] at hold hnew
      omega
    have hex : ∃ j, ¬ s.round < (s.thread j).arrivals := by
      by_contra hall
      push Not at hall
      exact hfull (Threads.count_eq_card.2 hall)
    -- it has not called yet, and `i` is in that call
    obtain ⟨j, hj⟩ := hex
    have hold := (h.ok j).old
    have hle := (s.thread j).departures_le_arrivals
    by_cases hp : (s.thread j).pc = .idle
    · have hrj : (s.thread j).returned = s.round := by
        rw [Thread.departures, hp] at hold
        rw [Thread.arrivals, hp] at hj
        simp only [Pc.gone, Pc.inRound, Bool.toNat_false] at hold hj
        omega
      have hgoes : goesOn calls j (s.thread j).returned = true := by
        unfold goesOn at hi ⊢
        rwa [hrj, ← hri, hsame j i]
      have hsl := hs.2 j hgoes
      rw [hp] at hsl
      cases hsl
    · rcases asleep_cases (h.asleep_of_stuck hs hp) with hp | hp
      · exact hfull (hs2 ⟨j, hp⟩)
      · rw [Thread.departures, hp] at hold
        rw [Thread.arrivals, hp] at hj
        simp only [Pc.gone, Pc.inRound, Bool.toNat_false, Bool.toNat_true] at hold hj
        omega

/-- Nobody returns from its `k`-th call before all have entered theirs; `arrived_` is at most the number of
threads; `departed_` is at most `arrived_`, save between the stores that end a round; when nobody is in a round
both are 0; and threads that all make the same number of calls do not get stuck. -/
theorem synchronizes [DecidableEq ι] [Nonempty ι] (r : Reach (system calls) anyStep s) :
    (∀ i j, (s.thread i).returned ≤ (s.thread j).entered) ∧ s.arrived ≤ Fintype.card ι ∧
      (s.departed ≤ s.arrived ∨ ∃ i, (s.thread i).pc = .storeDeparted) ∧
      ((∀ i, (s.thread i).pc.inRound = false) → s.arrived = 0 ∧ s.departed = 0) ∧
      ((∀ i j, calls i = calls j) → ¬ Stuck calls s) := by
  have h := reach_inv r
  exact ⟨h.returned_le, h.arrived_le, h.departed_le, h.between, h.not_stuck⟩

instance : Decidable (Stuck calls s) := inferInstanceAs (Decidable (_ ∧ _))

/-- Two threads, one call each: the one that was first goes to sleep, and is woken. -/
theorem synchronizes_two : ∃ s : State (Fin 2), ((s.thread 0).returned = 1 ∧ (s.thread 1).entered = 1) ∧
    s.arrived ≤ 2 ∧ ¬ Stuck (fun _ => some 1) s := by
  obtain ⟨s, hr, hp⟩ := Reach.of_exec_any (system fun _ : Fin 2 => some 1)
    ([Act.call 0, Act.call 1] ++ List.replicate 5 (Act.step 0) ++ List.replicate 10 (Act.step 1) ++
      List.replicate 10 (Act.step 0))
    (fun s => (s.thread 0).returned = 1 ∧ (s.thread 1).entered = 1) (s := init) rfl (by decide)
  obtain ⟨-, hle, -, -, hst⟩ := synchronizes hr
  exact ⟨s, of_decide_eq_true hp, hle, hst fun _ _ => rfl⟩

/-- A thread that calls once more than the other is left asleep; and between the two stores `departed_` is 1
and `arrived_` is 0. -/
theorem reset_and_leftover :
    (∃ (calls : Fin 2 → Option Nat) (s : State (Fin 2)), Reach (system calls) anyStep s ∧ Stuck calls s) ∧
      ∃ s : State (Fin 1), Reach (system fun _ => some 1) anyStep s ∧ s.arrived < s.departed := by
  constructor
  · obtain ⟨s, hr, hp⟩ := Reach.of_exec_any (system ![some 1, some 0])
      (.call 0 :: List.replicate 5 (.step 0)) (fun s => Stuck ![some 1, some 0] s) (s := init) rfl (by decide)
    exact ⟨_, s, hr, of_decide_eq_true hp⟩
  · obtain ⟨s, hr, hp⟩ := Reach.of_exec_any (system fun _ : Fin 1 => some 1)
      (.call 0 :: List.replicate 10 (.step 0)) (fun s => s.arrived < s.departed) (s := init) rfl (by decide)
    exact ⟨s, hr, of_decide_eq_true hp⟩

end main

end Cond.CyclicBarrier
