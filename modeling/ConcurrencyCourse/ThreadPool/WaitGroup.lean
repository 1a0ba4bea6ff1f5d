import ConcurrencyCourse.Lib.Transition
import ConcurrencyCourse.Lib.Threads
import Mathlib.Data.Fintype.Basic

/-!
# `WaitGroup` of the pool (tasks/thread-pool/tp/wait_group.hpp)

| here | there |
| --- | --- |
| `counter`, `done`, `init_` | the fields (63-65); the pool's group is built with `init_` 0 |
| `.fetchAdd`, `.storeZero` | `Add` (22-29) |
| `.fetchSub` … `.wakeAll` | `Done` (32-43) |
| `.load`, `.futexWait`, `.parked` | `Wait` (47-55) |

Any number of threads, any number of rounds. `credits` are what the `Add`s that have returned have added, less the
`Done`s that have begun: a `Done` begins only while there are some.

`counter_` and `done_` are written one after the other. A thread that takes the counter away from `init_`, or to it,
makes a *crossing*, and stores the value that belongs to it later. At rest the two words agree when the stores are made
in the order of the crossings (`agree_at_rest`); `late_store` is a run in which the store of a `Done` comes after that
of the `Add` of the next round.
-/

namespace ThreadPool.WaitGroup

open Transition Function

inductive Pc where
  | idle
  | fetchAdd (count : Nat)
  | storeZero (count : Nat)
  | fetchSub
  | storeOne
  | prepareWake
  | wakeAll
  | load
  -- `futex::Wait(done_, 0)`
  | futexWait
  | parked
  deriving DecidableEq, Repr

structure State (ι : Type) where
  counter : Nat
  done : Nat
  init_ : Nat
  credits : Nat
  pc : ι → Pc

inductive Act (ι : Type) where
  | add (i : ι) (count : Nat)
  | done (i : ι)
  | wait (i : ι)
  | step (i : ι)
  /-- `futex::Wait` returns by itself. -/
  | unpark (i : ι)

/-- The value of a `uint32_t`. -/
def word (n : Nat) : Nat := n % 2 ^ 32

/-- `fetch_sub(1) - 1`. -/
def pred (n : Nat) : Nat := if n = 0 then 2 ^ 32 - 1 else n - 1

section model

variable {ι : Type} [DecidableEq ι]

def State.setPc (s : State ι) (i : ι) (p : Pc) : State ι := { s with pc := update s.pc i p }

def State.setCounter (s : State ι) (n : Nat) : State ι := { s with counter := n }

def State.setDone (s : State ι) (n : Nat) : State ι := { s with done := n }

/-- An `Add` returns. -/
def State.credit (s : State ι) (n : Nat) : State ι := { s with credits := s.credits + n }

/-- A `Done` begins. -/
def State.spend (s : State ι) : State ι := { s with credits := s.credits - 1 }

def Pc.woken : Pc → Pc
  | .parked => .load
  | p => p

def State.wakeAll (s : State ι) : State ι := { s with pc := fun i => (s.pc i).woken }

def State.next (s : State ι) (i : ι) : Option (State ι) :=
  match s.pc i with
  | .idle | .parked => none
  | .fetchAdd count =>
    if s.counter = s.init_ then some ((s.setCounter (word (s.counter + count))).setPc i (.storeZero count))
    else some (((s.setCounter (word (s.counter + count))).credit count).setPc i .idle)
  | .storeZero count => some (((s.setDone 0).credit count).setPc i .idle)
  | .fetchSub => some ((s.setCounter (pred s.counter)).setPc i (if pred s.counter = s.init_ then .storeOne else .idle))
  | .storeOne => some ((s.setDone 1).setPc i .prepareWake)
  | .prepareWake => some (s.setPc i .wakeAll)
  | .wakeAll => some (s.wakeAll.setPc i .idle)
  | .load => some (s.setPc i (if s.counter = s.init_ then .idle else .futexWait))
  | .futexWait => some (s.setPc i (if s.done = 0 then .parked else .load))

def step (s : State ι) : Act ι → Option (State ι)
  | .add i count => if s.pc i = .idle then some (s.setPc i (.fetchAdd count)) else none
  | .done i => if s.pc i = .idle ∧ 0 < s.credits then some (s.spend.setPc i .fetchSub) else none
  | .wait i => if s.pc i = .idle then some (s.setPc i .load) else none
  | .step i => s.next i
  | .unpark i => if s.pc i = .parked then some (s.setPc i .load) else none

/-- `WaitGroup incomplete_task_wg_`. -/
def init : State ι := ⟨0, 1, 0, 0, fun _ => .idle⟩

variable (ι) in
def system : System (State ι) (Act ι) := ⟨fun s => s = init, step⟩

end model

/-! ### The counter comes to `init_` and leaves it -/

section words

variable {ι : Type}

/-- The thread is in an `Add` or a `Done`. -/
def Pc.writes : Pc → Bool
  | .fetchAdd _ | .storeZero _ | .fetchSub | .storeOne | .prepareWake | .wakeAll => true
  | _ => false

/-- No `Add` or `Done` is in progress. -/
def State.atRest (s : State ι) : Prop := ∀ i, (s.pc i).writes = false

instance [Fintype ι] (s : State ι) : Decidable s.atRest := inferInstanceAs (Decidable (∀ i, (s.pc i).writes = false))

/-- What the thread is about to store in `done_`. -/
def Pc.store : Pc → Option Nat
  | .storeZero _ => some 0
  | .storeOne => some 1
  | _ => none

/-- What `done_` should be. -/
def State.right (s : State ι) : Nat := if s.counter = s.init_ then 1 else 0

/-- The thread takes the counter away from `init_`, or to `init_`: it is to store this value. -/
def crossing (s : State ι) : Act ι → Option (ι × Nat)
  | .step i => match s.pc i with
    | .fetchAdd _ => if s.counter = s.init_ then some (i, 0) else none
    | .fetchSub => if pred s.counter = s.init_ then some (i, 1) else none
    | _ => none
  | _ => none

/-- The thread makes its store. -/
def storing (s : State ι) : Act ι → Option (ι × Nat)
  | .step i => (s.pc i).store.map (i, ·)
  | _ => none

/-- The crossings of a run in their order. -/
def crossings : History (State ι) (Act ι) → List (ι × Nat)
  | [] => []
  | (a, s) :: h => crossings h ++ (crossing s a).toList

/-- The stores of a run in their order. -/
def stores : History (State ι) (Act ι) → List (ι × Nat)
  | [] => []
  | (a, s) :: h => stores h ++ (storing s a).toList

/-- The value that the last of them brings; `done_` is 1 at the beginning. -/
def lastValue (l : List (ι × Nat)) : Nat := (l.getLast?.map Prod.snd).getD 1

/-- The counter does not wrap, and an `Add` that finds it at `init_` takes it away from there. -/
def Bounded (s : State ι) : Act ι → Prop
  | .step i => ∀ count, s.pc i = .fetchAdd count →
    s.counter + count < 2 ^ 32 ∧ (s.counter = s.init_ → 0 < count)
  | _ => True

theorem store_of_not_writes {p : Pc} (h : p.writes = false) : p.store = none := by
  cases p <;> first | rfl | cases h

theorem bit_of_store {p : Pc} {v : Nat} (h : p.store = some v) : v = 0 ∨ v = 1 := by
  cases p with
  | storeZero => exact .inl (Option.some.inj h).symm
  | storeOne => exact .inr (Option.some.inj h).symm
  | _ => cases h

theorem right_of_eq {s : State ι} (h : s.counter = s.init_) : s.right = 1 := if_pos h

theorem right_of_ne {s : State ι} (h : s.counter ≠ s.init_) : s.right = 0 := if_neg h

theorem right_eq_zero_or_one (s : State ι) : s.right = 0 ∨ s.right = 1 := by
  unfold State.right
  split
  · exact .inr rfl
  · exact .inl rfl

theorem right_eq_one_iff {s : State ι} : s.right = 1 ↔ s.counter = s.init_ := by
  unfold State.right
  split
  · next h => exact iff_of_true rfl h
  · next h => exact iff_of_false (by decide) h

theorem lastValue_append (l : List (ι × Nat)) (e : ι × Nat) : lastValue (l ++ [e]) = e.2 := by
  simp [lastValue]

section logs

variable {h : History (State ι) (Act ι)} {s : State ι} {a : Act ι} {e : ι × Nat}

theorem crossings_none (hc : crossing s a = none) : crossings ((a, s) :: h) = crossings h := by
  rw [crossings, hc]
  exact List.append_nil _

theorem crossings_some (hc : crossing s a = some e) : crossings ((a, s) :: h) = crossings h ++ [e] := by
  rw [crossings, hc]
  rfl

theorem stores_none (hs : storing s a = none) : stores ((a, s) :: h) = stores h := by
  rw [stores, hs]
  exact List.append_nil _

theorem stores_some (hs : storing s a = some e) : stores ((a, s) :: h) = stores h ++ [e] := by
  rw [stores, hs]
  rfl

theorem storing_none {i : ι} (hi : (s.pc i).store = none) : storing s (.step i) = none := by
  rw [storing, hi]
  rfl

end logs

/-! ### Each crossing has its store -/

variable [DecidableEq ι]

def ofThread (i : ι) (l : List (ι × Nat)) : List (ι × Nat) := l.filter fun e => e.1 = i

/-- What a thread has crossed is what it has stored, and what it is about to store. -/
def Matched (crossings stores : List (ι × Nat)) (store : ι → Option Nat) : Prop :=
  ∀ i, ofThread i crossings = ofThread i stores ++ (store i).toList.map (i, ·)

theorem ofThread_append (i : ι) (l l' : List (ι × Nat)) : ofThread i (l ++ l') = ofThread i l ++ ofThread i l' :=
  List.filter_append ..

theorem ofThread_self (i : ι) (v : Nat) : ofThread i [(i, v)] = [(i, v)] := by
  simp [ofThread]

theorem ofThread_of_ne {i j : ι} (h : i ≠ j) (v : Nat) : ofThread j [(i, v)] = [] := by
  simp [ofThread, h]

variable {cs ss : List (ι × Nat)} {f f' : ι → Option Nat} {i : ι} {v : Nat}

theorem Matched.cross (m : Matched cs ss f) (hi : f i = none) (hi' : f' i = some v) (hf : ∀ j, j ≠ i → f' j = f j) :
    Matched (cs ++ [(i, v)]) ss f' := by
  intro j
  rw [ofThread_append, m j]
  rcases eq_or_ne i j with rfl | hij
  · rw [ofThread_self, hi, hi']
    simp
  · rw [ofThread_of_ne hij, hf j hij.symm, List.append_nil]

theorem Matched.store (m : Matched cs ss f) (hi : f i = some v) (hi' : f' i = none) (hf : ∀ j, j ≠ i → f' j = f j) :
    Matched cs (ss ++ [(i, v)]) f' := by
  intro j
  rw [ofThread_append, m j]
  rcases eq_or_ne i j with rfl | hij
  · rw [ofThread_self, hi, hi']
    simp
  · rw [ofThread_of_ne hij, hf j hij.symm, List.append_nil]

/-- When nobody is about to store, the two logs have the same length; and they are one log if one is a prefix of the
other. -/
theorem Matched.eq_of_prefix (m : Matched cs ss f) (hf : ∀ i, f i = none) (hp : ss <+: cs) : cs = ss := by
  obtain ⟨l, rfl⟩ := hp
  have hl : ∀ i, ofThread i l = [] := by
    intro i
    have h := m i
    rw [ofThread_append, hf i] at h
    exact List.append_cancel_left h
  cases l with
  | nil => exact List.append_nil _
  | cons e l =>
    have h := hl e.1
    simp [ofThread] at h

/-! ### The invariant -/

variable [Fintype ι] {h : History (State ι) (Act ι)} {s s' : State ι} {a : Act ι} {p : Pc}

/-- What the thread has added or is about to take away, and `credits` leaves out. -/
def Pc.units : Pc → Nat
  | .storeZero count => count
  | .fetchSub => 1
  | _ => 0

structure Inv (h : History (State ι) (Act ι)) (s : State ι) : Prop where
  init_ : s.init_ = 0
  counter : s.counter = s.credits + ∑ i, (s.pc i).units
  bit : s.done = 0 ∨ s.done = 1
  done : s.done = lastValue (stores h)
  right : s.right = lastValue (crossings h)
  matched : Matched (crossings h) (stores h) fun i => (s.pc i).store

theorem sum_setPc : (∑ j, ((s.setPc i p).pc j).units) + (s.pc i).units = (∑ j, (s.pc j).units) + p.units :=
  Threads.sum_update_add Pc.units s.pc i p

omit [Fintype ι] in
theorem setPc_self : (s.setPc i p).pc i = p := update_self ..

omit [Fintype ι] in
theorem setPc_of_ne {j : ι} (h : j ≠ i) : (s.setPc i p).pc j = s.pc j := update_of_ne h ..

omit [Fintype ι] in
theorem store_setPc (hp : p.store = (s.pc i).store) (j : ι) : ((s.setPc i p).pc j).store = (s.pc j).store := by
  rcases eq_or_ne j i with rfl | hj
  · rw [setPc_self, hp]
  · rw [setPc_of_ne hj]

/-- A step that is neither a crossing nor a store. -/
theorem Inv.keep (hi : Inv h s) (hcross : crossing s a = none) (hstore : storing s a = none)
    (hinit : s'.init_ = s.init_) (hcounter : s'.counter = s'.credits + ∑ i, (s'.pc i).units)
    (hdone : s'.done = s.done) (hright : s'.right = s.right) (hpc : ∀ j, (s'.pc j).store = (s.pc j).store) :
    Inv ((a, s) :: h) s' where
  init_ := hinit.trans hi.init_
  counter := hcounter
  bit := hdone ▸ hi.bit
  done := by rw [hdone, hi.done, stores_none hstore]
  right := by rw [hright, hi.right, crossings_none hcross]
  matched := by
    rw [crossings_none hcross, stores_none hstore, funext hpc]
    exact hi.matched

/-- A step that leaves the counter alone, too. -/
theorem Inv.move (hi : Inv h s) (hcross : crossing s a = none) (hstore : storing s a = none)
    (hu : p.units = (s.pc i).units) (hp : p.store = (s.pc i).store) : Inv ((a, s) :: h) (s.setPc i p) := by
  refine hi.keep hcross hstore rfl ?_ rfl rfl (store_setPc hp)
  have hsum := sum_setPc (s := s) (i := i) (p := p)
  have hc := hi.counter
  change s.counter = s.credits + _
  omega

/-- A crossing. -/
theorem Inv.cross (hi : Inv h s) (hcross : crossing s a = some (i, v)) (hstore : storing s a = none)
    (hinit : s'.init_ = s.init_) (hcounter : s'.counter = s'.credits + ∑ i, (s'.pc i).units)
    (hdone : s'.done = s.done) (hright : s'.right = v) (hpc : ∀ j, j ≠ i → s'.pc j = s.pc j)
    (hold : (s.pc i).store = none) (hnew : (s'.pc i).store = some v) : Inv ((a, s) :: h) s' where
  init_ := hinit.trans hi.init_
  counter := hcounter
  bit := hdone ▸ hi.bit
  done := by rw [hdone, hi.done, stores_none hstore]
  right := by rw [hright, crossings_some hcross, lastValue_append]
  matched := by
    rw [crossings_some hcross, stores_none hstore]
    exact hi.matched.cross hold hnew fun j hj => congrArg Pc.store (hpc j hj)

/-- A store. -/
theorem Inv.write (hi : Inv h s) (hcross : crossing s a = none) (hstore : storing s a = some (i, v))
    (hinit : s'.init_ = s.init_) (hcounter : s'.counter = s'.credits + ∑ i, (s'.pc i).units)
    (hdone : s'.done = v) (hright : s'.right = s.right) (hpc : ∀ j, j ≠ i → s'.pc j = s.pc j)
    (hold : (s.pc i).store = some v) (hnew : (s'.pc i).store = none) : Inv ((a, s) :: h) s' where
  init_ := hinit.trans hi.init_
  counter := hcounter
  bit := by
    rw [hdone]
    exact bit_of_store hold
  done := by rw [hdone, stores_some hstore, lastValue_append]
  right := by rw [hright, hi.right, crossings_none hcross]
  matched := by
    rw [crossings_none hcross, stores_some hstore]
    exact hi.matched.store hold hnew fun j hj => congrArg Pc.store (hpc j hj)

/-- `fetch_add(count)`. -/
theorem Inv.fetchAdd (hi : Inv h s) {count : Nat} (hpc : s.pc i = .fetchAdd count) (hok : Bounded s (.step i))
    (hs : s.next i = some s') : Inv ((.step i, s) :: h) s' := by
  obtain ⟨hlt, hpos⟩ := hok count hpc
  have hword : word (s.counter + count) = s.counter + count := Nat.mod_eq_of_lt hlt
  have hc := hi.counter
  have hnone : (s.pc i).store = none := by
    rw [hpc]
    rfl
  have hstore := storing_none hnone
  simp only [State.next, hpc, hword] at hs
  by_cases hat : s.counter = s.init_
  · -- the counter leaves `init_`
    rw [if_pos hat] at hs
    obtain rfl := Option.some.inj hs
    have hsum := sum_setPc (s := s) (i := i) (p := .storeZero count)
    rw [hpc] at hsum
    change _ + 0 = _ + count at hsum
    refine hi.cross (i := i) (v := 0) ?_ hstore rfl ?_ rfl ?_ (fun j hj => setPc_of_ne hj) hnone ?_
    · simp only [crossing, hpc]
      exact if_pos hat
    · change s.counter + count = s.credits + ∑ j, ((s.setPc i (.storeZero count)).pc j).units
      omega
    · refine right_of_ne ?_
      change s.counter + count ≠ s.init_
      have := hpos hat
      omega
    · rw [setPc_self]
      rfl
  · -- it has left it before
    rw [if_neg hat] at hs
    obtain rfl := Option.some.inj hs
    have hsum := sum_setPc (s := s) (i := i) (p := .idle)
    rw [hpc] at hsum
    change _ + 0 = _ + 0 at hsum
    refine hi.keep ?_ hstore rfl ?_ rfl ?_ (store_setPc (s := s) (by rw [hpc]; rfl))
    · simp only [crossing, hpc]
      exact if_neg hat
    · change s.counter + count = s.credits + count + ∑ j, ((s.setPc i .idle).pc j).units
      omega
    · refine (right_of_ne ?_).trans (right_of_ne hat).symm
      change s.counter + count ≠ s.init_
      have := hi.init_
      omega

/-- `fetch_sub(1)`. What this thread takes away has been added. -/
theorem Inv.fetchSub (hi : Inv h s) (hpc : s.pc i = .fetchSub) (hs : s.next i = some s') :
    Inv ((.step i, s) :: h) s' := by
  have hc := hi.counter
  have hinit := hi.init_
  have hone : (s.pc i).units = 1 := by
    rw [hpc]
    rfl
  have hle := Threads.le_sum (fun j => (s.pc j).units) i
  have hpred : pred s.counter = s.counter - 1 := if_neg (by omega)
  have hnone : (s.pc i).store = none := by
    rw [hpc]
    rfl
  have hstore := storing_none hnone
  simp only [State.next, hpc, hpred] at hs
  by_cases hat : s.counter - 1 = s.init_
  · -- the counter comes to `init_`
    rw [if_pos hat] at hs
    obtain rfl := Option.some.inj hs
    have hsum := sum_setPc (s := s) (i := i) (p := .storeOne)
    rw [hpc] at hsum
    change _ + 1 = _ + 0 at hsum
    refine hi.cross (i := i) (v := 1) ?_ hstore rfl ?_ rfl (right_of_eq hat) (fun j hj => setPc_of_ne hj) hnone ?_
    · simp only [crossing, hpc, hpred]
      exact if_pos hat
    · change s.counter - 1 = s.credits + ∑ j, ((s.setPc i .storeOne).pc j).units
      omega
    · rw [setPc_self]
      rfl
  · -- there is more
    rw [if_neg hat] at hs
    obtain rfl := Option.some.inj hs
    have hsum := sum_setPc (s := s) (i := i) (p := .idle)
    rw [hpc] at hsum
    change _ + 1 = _ + 0 at hsum
    refine hi.keep ?_ hstore rfl ?_ rfl ?_ (store_setPc (s := s) (by rw [hpc]; rfl))
    · simp only [crossing, hpc, hpred]
      exact if_neg hat
    · change s.counter - 1 = s.credits + ∑ j, ((s.setPc i .idle).pc j).units
      omega
    · refine (right_of_ne (s := (s.setCounter _).setPc i _) hat).trans (right_of_ne ?_).symm
      omega

theorem Inv.storeZero (hi : Inv h s) {count : Nat} (hpc : s.pc i = .storeZero count) (hs : s.next i = some s') :
    Inv ((.step i, s) :: h) s' := by
  simp only [State.next, hpc] at hs
  obtain rfl := Option.some.inj hs
  have hc := hi.counter
  have hsum := sum_setPc (s := s) (i := i) (p := .idle)
  rw [hpc] at hsum
  change _ + count = _ + 0 at hsum
  refine hi.write (i := i) (v := 0) ?_ ?_ rfl ?_ rfl rfl (fun j hj => setPc_of_ne hj) ?_ ?_
  · simp only [crossing, hpc]
  · simp only [storing, hpc]
    rfl
  · change s.counter = s.credits + count + ∑ j, ((s.setPc i .idle).pc j).units
    omega
  · rw [hpc]
    rfl
  · rw [setPc_self]
    rfl

theorem Inv.storeOne (hi : Inv h s) (hpc : s.pc i = .storeOne) (hs : s.next i = some s') :
    Inv ((.step i, s) :: h) s' := by
  simp only [State.next, hpc] at hs
  obtain rfl := Option.some.inj hs
  have hc := hi.counter
  have hsum := sum_setPc (s := s) (i := i) (p := .prepareWake)
  rw [hpc] at hsum
  change _ + 0 = _ + 0 at hsum
  refine hi.write (i := i) (v := 1) ?_ ?_ rfl ?_ rfl rfl (fun j hj => setPc_of_ne hj) ?_ ?_
  · simp only [crossing, hpc]
  · simp only [storing, hpc]
    rfl
  · change s.counter = s.credits + ∑ j, ((s.setPc i .prepareWake).pc j).units
    omega
  · rw [hpc]
    rfl
  · rw [setPc_self]
    rfl

omit [DecidableEq ι] [Fintype ι] in
theorem store_woken (p : Pc) : p.woken.store = p.store := by
  cases p <;> rfl

omit [DecidableEq ι] [Fintype ι] in
theorem units_woken (p : Pc) : p.woken.units = p.units := by
  cases p <;> rfl

theorem Inv.next (hi : Inv h s) (hok : Bounded s (.step i)) (hs : s.next i = some s') :
    Inv ((.step i, s) :: h) s' := by
  cases hpc : s.pc i with
  | fetchAdd count => exact hi.fetchAdd hpc hok hs
  | fetchSub => exact hi.fetchSub hpc hs
  | storeZero count => exact hi.storeZero hpc hs
  | storeOne => exact hi.storeOne hpc hs
  | wakeAll =>
    simp only [State.next, hpc] at hs
    obtain rfl := Option.some.inj hs
    have hpc' : s.wakeAll.pc i = .wakeAll := by
      simp only [State.wakeAll, hpc]
      rfl
    have hsum := sum_setPc (s := s.wakeAll) (i := i) (p := .idle)
    have hwoken : ∑ j, (s.wakeAll.pc j).units = ∑ j, (s.pc j).units :=
      Finset.sum_congr rfl fun j _ => units_woken _
    rw [hpc', hwoken] at hsum
    change _ + 0 = _ + 0 at hsum
    have hc := hi.counter
    refine hi.keep (by simp only [crossing, hpc]) (storing_none (by rw [hpc]; rfl)) rfl ?_ rfl rfl fun j => ?_
    · change s.counter = s.credits + ∑ j, ((s.wakeAll.setPc i .idle).pc j).units
      omega
    · rw [store_setPc (s := s.wakeAll) (by rw [hpc']; rfl)]
      exact store_woken _
  | idle =>
    simp only [State.next, hpc] at hs
    cases hs
  | parked =>
    simp only [State.next, hpc] at hs
    cases hs
  | prepareWake | load | futexWait =>
    simp only [State.next, hpc] at hs
    obtain rfl := Option.some.inj hs
    refine hi.move (by simp only [crossing, hpc]) (storing_none (by rw [hpc]; rfl)) ?_ ?_ <;> rw [hpc] <;>
      first | rfl | (split <;> rfl)

theorem inv_step (hi : Inv h s) (hok : Bounded s a) (hs : step s a = some s') : Inv ((a, s) :: h) s' := by
  cases a with
  | add i count | wait i | unpark i =>
    simp only [step] at hs
    split at hs
    · next hpc =>
      obtain rfl := Option.some.inj hs
      exact hi.move rfl rfl (by rw [hpc]; rfl) (by rw [hpc]; rfl)
    · cases hs
  | done i =>
    simp only [step] at hs
    split at hs
    · next hcan =>
      obtain rfl := Option.some.inj hs
      have hsum := sum_setPc (s := s) (i := i) (p := .fetchSub)
      rw [hcan.1] at hsum
      change _ + 0 = _ + 1 at hsum
      have hc := hi.counter
      refine hi.keep rfl rfl rfl ?_ rfl rfl (store_setPc (s := s) (by rw [hcan.1]; rfl))
      change s.counter = s.credits - 1 + ∑ j, ((s.setPc i .fetchSub).pc j).units
      have := hcan.2
      omega
    · cases hs
  | step i => exact hi.next hok hs

theorem inv_init : Inv [] (init : State ι) where
  init_ := rfl
  counter := by simp [init, Pc.units]
  bit := .inr rfl
  done := rfl
  right := rfl
  matched _ := rfl

theorem inv_of_run (r : Run (system ι) Bounded h s) : Inv h s :=
  r.invariant (I := Inv) (fun _ hs => hs ▸ inv_init) fun _ _ _ _ hi hok hs => inv_step hi hok hs

omit [Fintype ι] in
theorem sleeps (hd : s.done = 1 ↔ s.counter = s.init_) (h01 : s.done = 0 ∨ s.done = 1) (hne : s.counter ≠ s.init_)
    (hpc : s.pc i = .futexWait) : step s (.step i) = some (s.setPc i .parked) := by
  simp only [step, State.next, hpc]
  rw [if_pos (h01.resolve_right fun h1 => hne (hd.1 h1))]

/-! ### Main theorem -/

/-- At rest `done_` and the counter agree exactly when the last store is that of the last crossing, or brings the same
value: so they do when the stores are made in the order of the crossings. When they agree, a `Wait` that has something
to wait for and comes to the futex goes to sleep. -/
theorem agree_at_rest (r : Run (system ι) Bounded h s) (hr : s.atRest) :
    ((s.done = 1 ↔ s.counter = s.init_) ↔ lastValue (stores h) = lastValue (crossings h)) ∧
    (stores h <+: crossings h → (s.done = 1 ↔ s.counter = s.init_)) ∧
    ((s.done = 1 ↔ s.counter = s.init_) →
      ∀ i, s.counter ≠ s.init_ → s.pc i = .futexWait → step s (.step i) = some (s.setPc i .parked)) := by
  have hi := inv_of_run r
  have hiff : (s.done = 1 ↔ s.counter = s.init_) ↔ lastValue (stores h) = lastValue (crossings h) := by
    rw [← hi.done, ← hi.right, ← right_eq_one_iff]
    have hd := hi.bit
    have hr := right_eq_zero_or_one s
    omega
  refine ⟨hiff, fun hp => hiff.2 ?_, fun hd i => sleeps hd hi.bit⟩
  rw [hi.matched.eq_of_prefix (fun i => store_of_not_writes (hr i)) hp]

/-- Thread `1` adds a task while thread `0` is about to store 1 for the one before; both store in their order, and
thread `2` goes to sleep. -/
theorem agree_at_rest_in_order : ∃ h s, Run (system (Fin 3)) Bounded h s ∧ s.atRest ∧
    (crossings h = [(0, 0), (0, 1), (1, 0)] ∧ stores h <+: crossings h) ∧
    (s.counter = 1 ∧ s.init_ = 0 ∧ s.done ≠ 1) ∧ step s (.step 2) = some (s.setPc 2 .parked) := by
  have r : Run (system (Fin 3)) Bounded [] init := .init rfl
  have r := r.step (a := Act.add 0 1) trivial rfl
  have r := r.step (a := Act.step 0) (by rintro _ ⟨⟩; decide) rfl
  have r := r.step (a := Act.step 0) nofun rfl
  have r := r.step (a := Act.done 0) trivial rfl
  have r := r.step (a := Act.step 0) nofun rfl
  have r := r.step (a := Act.add 1 1) trivial rfl
  have r := r.step (a := Act.step 1) (by rintro _ ⟨⟩; decide) rfl
  have r := r.step (a := Act.step 0) nofun rfl
  have r := r.step (a := Act.step 1) nofun rfl
  have r := r.step (a := Act.step 0) nofun rfl
  have r := r.step (a := Act.step 0) nofun rfl
  have r := r.step (a := Act.wait 2) trivial rfl
  have r := r.step (a := Act.step 2) nofun rfl
  obtain ⟨-, hprefix, hsleeps⟩ := agree_at_rest r (by decide)
  have hd := hprefix (List.prefix_refl _)
  exact ⟨_, _, r, by decide, ⟨rfl, List.prefix_refl _⟩, ⟨rfl, rfl, fun h => absurd (hd.1 h) (by decide)⟩,
    hsleeps hd 2 (by decide) rfl⟩

/-- Thread `0` is about to store 1 for the first task; thread `1` adds the second and stores 0. All calls have returned,
the second task runs, and a `Wait` that comes to the futex does not sleep. -/
theorem late_store : ∃ s : State (Fin 3), Reach (system (Fin 3)) anyStep s ∧ s.atRest ∧ s.counter = 1 ∧ s.init_ = 0 ∧
    s.done = 1 ∧ s.pc 2 = .futexWait ∧ (step s (.step 2)).map (fun s' => s'.pc 2) = some .load := by
  obtain ⟨s, hr, hp⟩ := Reach.of_exec_any (system (Fin 3))
    [.add 0 1, .step 0, .step 0, .done 0, .step 0, .add 1 1, .step 1, .step 1, .step 0, .step 0, .step 0,
      .wait 2, .step 2]
    (fun s => s.atRest ∧ s.counter = 1 ∧ s.init_ = 0 ∧ s.done = 1 ∧ s.pc 2 = .futexWait ∧
      (step s (.step 2)).map (fun s' => s'.pc 2) = some .load) rfl (by decide)
  exact ⟨s, hr, of_decide_eq_true hp⟩

end words

end ThreadPool.WaitGroup
