import ConcurrencyCourse.Cond.WaitGroup
import ConcurrencyCourse.Stdlike.Mutex

/-!
# Freeing a `WaitGroup` or a `Mutex` (cond/wait_group/tests/storage.cpp)

| here | there |
| --- | --- |
| `Wg.step` | `Done` (wait_group.hpp:27-33) with `PrepareWake(done_)` (30) as a step of its own; the rest as in `WaitGroup.step` |
| `Wg.State.touches` | the steps of `Done` that access a member: `fetch_sub` (28), `done_.store(1)` (29), `PrepareWake(done_)` (30) |
| `Mx.step` | `Mutex::Unlock` (mutex.hpp:35-40), as in `Mutex.step` |
| `Mx.State.touches` | `m_.exchange` (36), `PrepareWake(m_)` (37) |

The mutex readme (65-81) has `PrepareWake` before the write that is followed by the wakeup. Here it is after the
write in both classes, so whoever sees the write can free the object before the address in it is taken
(`touched_after_release`). Nothing is touched in runs in which nobody sees the write that early: no `Wait` finds
`done_` at 1, and no `Unlock` exchanges the word, while another thread is between its write and its `PrepareWake`
(`untouched_after_release`).
-/

namespace Cond.Storage

open Transition Function

variable {ι : Type} [DecidableEq ι]

/-! ## `WaitGroup` -/

namespace Wg

open WaitGroup (Act Pc threadStep)

structure State (ι : Type) where
  wg : WaitGroup.State ι
  /-- At `WakeAll`, with the key prepared. -/
  prepared : ι → Bool
  /-- How often a `Done` has brought the counter to zero. -/
  zeroes : Nat
  /-- Which of these times it was this thread. -/
  number : ι → Nat
  /-- The last of them after which `done_.store(1)` was made. -/
  made : Nat
  /-- `made` when the thread's `Wait` found `done_` at 1. -/
  read : ι → Nat

def State.setWg (s : State ι) (w : WaitGroup.State ι) : State ι := { s with wg := w }

/-- `PrepareWake(done_)`. -/
def State.prepare (s : State ι) (i : ι) : State ι := { s with prepared := update s.prepared i true }

/-- What the next step of thread `i` adds to the histories. -/
def State.note (s : State ι) (i : ι) : State ι :=
  match s.wg.pc i with
  | .fetchSub =>
    if s.wg.counter - 1 = 0 then { s with zeroes := s.zeroes + 1, number := update s.number i (s.zeroes + 1) } else s
  | .storeOne => { s with made := max s.made (s.number i), prepared := update s.prepared i false }
  | .load _ => if s.wg.done = 0 then s else { s with read := update s.read i s.made }
  | _ => s

def step (s : State ι) : Act ι → Option (State ι)
  | .step i =>
    if s.wg.pc i = .wakeAll ∧ s.prepared i = false then some (s.prepare i)
    else (threadStep s.wg i).map (s.note i).setWg
  | a => (WaitGroup.step s.wg a).map s.setWg

omit [DecidableEq ι] in
def init : State ι :=
  { wg := WaitGroup.init, prepared := fun _ => false, zeroes := 0, number := fun _ => 0, made := 0, read := fun _ => 0 }

variable (ι) in
def system : System (State ι) (Act ι) := ⟨fun s => s = init, step⟩

/-- In `Done`, after the `fetch_sub` that brought the counter to zero and before `PrepareWake`. -/
def State.window (s : State ι) (j : ι) : Prop :=
  s.wg.pc j = .storeOne ∨ s.wg.pc j = .wakeAll ∧ s.prepared j = false

/-- The next step of the thread is one of `Done`, and accesses a member. -/
def State.touches (s : State ι) (j : ι) : Prop := s.wg.pc j = .fetchSub ∨ s.window j

/-- Everything that was added is taken off again, and the `Wait` of `i` has returned after the `Done` that took
off the last had stored 1. -/
structure State.entitled (s : State ι) (i : ι) : Prop where
  waited : ∃ early, s.wg.pc i = .waited early
  zeroed : 0 < s.zeroes
  read : s.read i = s.zeroes
  owed : s.wg.owed = 0
  done : ∀ j, s.wg.pc j ≠ .fetchSub
  added : ∀ j count, s.wg.pc j ≠ .fetchAdd count ∧ s.wg.pc j ≠ .storeZero count

/-- No `Wait` finds `done_` at 1 while a `Done` is between the `fetch_sub` that brought the counter to zero and
its `PrepareWake`. -/
def careful (s : State ι) : Act ι → Prop
  | .step i => (∃ early, s.wg.pc i = .load early) → s.wg.done ≠ 0 → ∀ j, ¬ s.window j
  | _ => True

section steps

variable {s s' : State ι} {w w' : WaitGroup.State ι} {a : Act ι} {i j : ι}

/-- How a thread comes to the places in and after the window of `Done`, and to the end of `Wait`. -/
structure Came (w w' : WaitGroup.State ι) (a : Act ι) (j : ι) : Prop where
  storeOne : w'.pc j = .storeOne → w.pc j = .storeOne ∨ a = .step j ∧ w.pc j = .fetchSub ∧ w.counter - 1 = 0
  wakeAll : w'.pc j = .wakeAll → w.pc j = .wakeAll ∨ a = .step j ∧ w.pc j = .storeOne
  waited : ∀ early, w'.pc j = .waited early →
    w.pc j = .waited early ∨ a = .step j ∧ w.pc j = .load early ∧ w.done ≠ 0

omit [DecidableEq ι] in
theorem Came.stay (h : w'.pc j = w.pc j) : Came w w' a j :=
  ⟨fun hp => .inl (h ▸ hp), fun hp => .inl (h ▸ hp), fun _ hp => .inl (h ▸ hp)⟩

omit [DecidableEq ι] in
theorem Came.woken (h : w'.pc j = (w.pc j).woken) : Came w w' a j := by
  constructor
  · intro hp
    rw [h] at hp
    cases hj : w.pc j <;> rw [hj] at hp <;> first | exact .inl rfl | cases hp
  · intro hp
    rw [h] at hp
    cases hj : w.pc j <;> rw [hj] at hp <;> first | exact .inl rfl | cases hp
  · intro early hp
    rw [h] at hp
    cases hj : w.pc j <;> rw [hj] at hp <;> first | exact .inl hp | cases hp

/-- A move of thread `i` to another place. -/
theorem Came.move {p : Pc} (h : w'.pc = update w.pc i p) (h1 : p ≠ .storeOne) (h2 : p ≠ .wakeAll)
    (h3 : ∀ early, p ≠ .waited early) : Came w w' a j := by
  rcases eq_or_ne j i with rfl | hji
  · have hj : w'.pc j = p := by rw [h, update_self]
    exact ⟨fun hp => absurd (hj.symm.trans hp) h1, fun hp => absurd (hj.symm.trans hp) h2,
      fun e hp => absurd (hj.symm.trans hp) (h3 e)⟩
  · exact .stay (by rw [h, update_of_ne hji])

theorem threadStep_came (h : threadStep w i = some w') : Came w w' (.step i) j := by
  have hone : ∀ p, w'.pc = update w.pc i p → j ≠ i → Came w w' (.step i) j := fun p hp hji =>
    .stay (by rw [hp, update_of_ne hji])
  unfold threadStep at h
  split at h
  · cases h
  · cases h
  · cases h
  · dsimp only at h
    split at h
    · cases h
      exact .move rfl nofun nofun nofun
    · cases h
      exact .move rfl nofun nofun nofun
  · cases h
    exact .move rfl nofun nofun nofun
  · next hp =>
    dsimp only at h
    split at h
    · next hz =>
      cases h
      rcases eq_or_ne j i with rfl | hji
      · have hj : update w.pc j Pc.storeOne j = .storeOne := update_self ..
        exact ⟨fun _ => .inr ⟨rfl, hp, hz⟩, fun h => absurd (hj.symm.trans h) nofun,
          fun _ h => absurd (hj.symm.trans h) nofun⟩
      · exact hone _ rfl hji
    · cases h
      exact .move rfl nofun nofun nofun
  · next hp =>
    cases h
    rcases eq_or_ne j i with rfl | hji
    · have hj : update w.pc j Pc.wakeAll j = .wakeAll := update_self ..
      exact ⟨fun h => absurd (hj.symm.trans h) nofun, fun _ => .inr ⟨rfl, hp⟩,
        fun _ h => absurd (hj.symm.trans h) nofun⟩
    · exact hone _ rfl hji
  · cases h
    rcases eq_or_ne j i with rfl | hji
    · have hj : (w.wake.setPc j Pc.idle).pc j = .idle := update_self ..
      exact ⟨fun h => absurd (hj.symm.trans h) nofun, fun h => absurd (hj.symm.trans h) nofun,
        fun _ h => absurd (hj.symm.trans h) nofun⟩
    · exact .woken (update_of_ne hji ..)
  · next early hp =>
    cases h
    split
    · exact .move rfl nofun nofun nofun
    · next hd =>
      rcases eq_or_ne j i with rfl | hji
      · have hj : update w.pc j (Pc.waited early) j = .waited early := update_self ..
        refine ⟨fun h => absurd (hj.symm.trans h) nofun, fun h => absurd (hj.symm.trans h) nofun, fun e h => ?_⟩
        cases hj.symm.trans h
        exact .inr ⟨rfl, hp, hd⟩
      · exact .stay (update_of_ne hji ..)
  · cases h
    split
    · exact .move rfl nofun nofun nofun
    · exact .move rfl nofun nofun nofun

/-- The other actions. -/
theorem step_came (ha : ∀ i, a ≠ .step i) (h : WaitGroup.step w a = some w') : Came w w' a j := by
  unfold WaitGroup.step at h
  split at h
  · split at h <;> cases h
    exact .move rfl nofun nofun nofun
  · split at h
    · split at h <;> cases h
      exact .move rfl nofun nofun nofun
    · cases h
  · split at h <;> cases h
    exact .move rfl nofun nofun nofun
  · split at h <;> cases h
    exact .move rfl nofun nofun nofun
  · exact absurd rfl (ha _)
  · split at h <;> cases h
    exact .move rfl nofun nofun nofun

/-- A `Wait` that has returned after the last of the times has nobody in the window. -/
structure Inv (s : State ι) : Prop where
  made : s.made ≤ s.zeroes
  number : ∀ j, s.number j ≤ s.zeroes
  read : ∀ j, s.read j ≤ s.zeroes
  clear : ∀ i, (∃ early, s.wg.pc i = .waited early) → 0 < s.zeroes → s.read i = s.zeroes → ∀ j, ¬ s.window j

theorem Inv.prepare (hi : Inv s) : Inv (s.prepare i) := by
  refine ⟨hi.made, hi.number, hi.read, fun k hk hz hr j hw => hi.clear k hk hz hr j ?_⟩
  refine hw.imp_right fun ⟨hp, hf⟩ => ⟨hp, ?_⟩
  change update s.prepared i true j = false at hf
  rcases eq_or_ne j i with rfl | hji
  · rw [update_self] at hf
    cases hf
  · rwa [update_of_ne hji] at hf

omit [DecidableEq ι] in
/-- A step that notes nothing. -/
theorem Inv.setWg (hi : Inv s) (hc : ∀ j, Came s.wg w' a j) (h1 : ∀ j, a = .step j → s.wg.pc j = .fetchSub →
      s.wg.counter - 1 ≠ 0) (h2 : ∀ j, a = .step j → s.wg.pc j ≠ .storeOne)
    (h3 : ∀ j early, a = .step j → s.wg.pc j = .load early → s.wg.done = 0) : Inv (s.setWg w') := by
  refine ⟨hi.made, hi.number, hi.read, fun k ⟨early, hk⟩ hz hr j hw => ?_⟩
  have hwait : s.wg.pc k = .waited early := by
    rcases (hc k).waited early hk with h | ⟨ha, hl, hd⟩
    · exact h
    · exact absurd (h3 k early ha hl) hd
  refine hi.clear k ⟨early, hwait⟩ hz hr j ?_
  rcases hw with hw | ⟨hw, hp⟩
  · rcases (hc j).storeOne hw with h | ⟨ha, hf, h0⟩
    · exact .inl h
    · exact absurd h0 (h1 j ha hf)
  · rcases (hc j).wakeAll hw with h | ⟨ha, h⟩
    · exact .inr ⟨h, hp⟩
    · exact absurd h (h2 j ha)

theorem inv_threadStep (hi : Inv s) (hok : careful s (.step i)) (h : threadStep s.wg i = some w') :
    Inv ((s.note i).setWg w') := by
  have hc : ∀ j, Came s.wg w' (.step i) j := fun j => threadStep_came h
  have hother : s.wg.pc i ≠ .fetchSub → s.wg.pc i ≠ .storeOne → (∀ early, s.wg.pc i ≠ .load early) →
      Inv (s.setWg w') := by
    intro n1 n2 n3
    refine hi.setWg hc ?_ ?_ ?_
    · rintro _ ⟨⟩ hp
      exact absurd hp n1
    · rintro _ ⟨⟩ hp
      exact n2 hp
    · rintro _ early ⟨⟩ hp
      exact absurd hp (n3 early)
  unfold State.note
  split
  · next hp =>
    split
    · -- one more time; no `Wait` has read that late
      refine ⟨hi.made.trans (Nat.le_succ _), fun j => ?_, fun j => (hi.read j).trans (Nat.le_succ _), ?_⟩
      · change update s.number i (s.zeroes + 1) j ≤ s.zeroes + 1
        rcases eq_or_ne j i with rfl | hji
        · rw [update_self]
        · rw [update_of_ne hji]
          exact (hi.number j).trans (Nat.le_succ _)
      · intro k _ _ hr
        have hle := hi.read k
        change s.read k = s.zeroes + 1 at hr
        omega
    · next hz =>
      refine hi.setWg hc ?_ ?_ ?_
      · rintro _ ⟨⟩ -
        exact hz
      · rintro _ ⟨⟩ hp'
        exact absurd (hp.symm.trans hp') nofun
      · rintro _ early ⟨⟩ hp'
        exact absurd (hp.symm.trans hp') nofun
  · next hp =>
    refine ⟨max_le hi.made (hi.number i), hi.number, hi.read, fun k ⟨early, hk⟩ hz hr j hw => ?_⟩
    have hwait : s.wg.pc k = .waited early := by
      rcases (hc k).waited early hk with h | ⟨ha, hl, -⟩
      · exact h
      · cases ha
        exact absurd (hp.symm.trans hl) nofun
    -- the window of `i` was open before
    exact hi.clear k ⟨early, hwait⟩ hz hr i (.inl hp)
  · next early hp =>
    split
    · next hd =>
      refine hi.setWg hc ?_ ?_ ?_
      · rintro _ ⟨⟩ hp'
        exact absurd (hp.symm.trans hp') nofun
      · rintro _ ⟨⟩ hp'
        exact absurd (hp.symm.trans hp') nofun
      · rintro _ _ ⟨⟩ -
        exact hd
    · next hd =>
      have hno := hok ⟨early, hp⟩ hd
      refine ⟨hi.made, hi.number, fun j => ?_, fun k hk hz hr j hw => hno j ?_⟩
      · change update s.read i s.made j ≤ s.zeroes
        rcases eq_or_ne j i with rfl | hji
        · rw [update_self]
          exact hi.made
        · rw [update_of_ne hji]
          exact hi.read j
      · rcases hw with hw | ⟨hw, hf⟩
        · rcases (hc j).storeOne hw with h | ⟨ha, h, -⟩
          · exact .inl h
          · cases ha
            exact absurd (hp.symm.trans h) nofun
        · rcases (hc j).wakeAll hw with h | ⟨ha, h⟩
          · exact .inr ⟨h, hf⟩
          · cases ha
            exact absurd (hp.symm.trans h) nofun
  · next n1 n2 n3 => exact hother n1 n2 n3

theorem inv_step (hi : Inv s) (hok : careful s a) (h : step s a = some s') : Inv s' := by
  have hother : ∀ w', (∀ i, a ≠ .step i) → WaitGroup.step s.wg a = some w' → Inv (s.setWg w') := fun w' ha h =>
    hi.setWg (fun j => step_came ha h) (fun j h => absurd h (ha j)) (fun j h => absurd h (ha j))
      fun j _ h => absurd h (ha j)
  unfold step at h
  split at h
  · split at h
    · cases h
      exact hi.prepare
    · obtain ⟨w', hw, rfl⟩ := Option.map_eq_some_iff.1 h
      exact inv_threadStep hi hok hw
  · next hne =>
    obtain ⟨w', hw, rfl⟩ := Option.map_eq_some_iff.1 h
    exact hother w' hne hw

theorem inv_of_reach (r : Reach (system ι) careful s) : Inv s := by
  refine r.invariant (I := Inv) ?_ (fun s a s' hi hok h => inv_step hi hok h)
  rintro _ rfl
  exact ⟨le_rfl, fun _ => le_rfl, fun _ => le_rfl, fun _ _ h => absurd h (lt_irrefl 0)⟩

theorem untouched (r : Reach (system ι) careful s) (he : s.entitled i) : ¬ s.touches j := by
  rintro (h | h)
  · exact he.done j h
  · exact (inv_of_reach r).clear i he.waited he.zeroed he.read j h

end steps

end Wg

/-! ## `Mutex` -/

namespace Mx

open Stdlike.Mutex (Act Pc)

variable [Fintype ι]

structure State (ι : Type) where
  mutex : Stdlike.Mutex.State ι
  /-- Who has exchanged the word in `Unlock`, newest first. -/
  unlockers : List ι

/-- What the next step of thread `i` adds to the history. -/
def State.note (s : State ι) (i : ι) : List ι :=
  if s.mutex.pc i = .unlock then i :: s.unlockers else s.unlockers

def step (s : State ι) : Act ι → Option (State ι)
  | .step i sleeper => (s.mutex.next i sleeper).map fun m => ⟨m, s.note i⟩
  | a => (Stdlike.Mutex.step s.mutex a).map fun m => ⟨m, s.unlockers⟩

omit [DecidableEq ι] [Fintype ι] in
def init : State ι := ⟨Stdlike.Mutex.init, []⟩

variable (ι) in
def system : System (State ι) (Act ι) := ⟨fun s => s = init, step⟩

/-- The next step of the thread is one of `Unlock`, and accesses the word. -/
def State.touches (s : State ι) (j : ι) : Prop := s.mutex.pc j = .unlock ∨ s.mutex.pc j = .prepareWake

/-- Nobody is in `Lock` or holds the mutex. -/
def released : Pc → Prop
  | .idle | .prepareWake | .wakeOne => True
  | _ => False

/-- Thread `i` has locked the mutex after another thread had released it, and has unlocked it; the others have
released it before, and nobody is in `Lock`. -/
structure State.entitled (s : State ι) (i : ι) : Prop where
  last : ∃ before, s.unlockers = i :: before ∧ ∃ j ∈ before, j ≠ i
  idle : s.mutex.pc i = .idle
  released : ∀ j, released (s.mutex.pc j)

/-- No `Unlock` exchanges the word while the `Unlock` of another thread is between its exchange and its
`PrepareWake`. -/
def careful (s : State ι) : Act ι → Prop
  | .step i _ => s.mutex.pc i = .unlock → ∀ j, s.mutex.pc j ≠ .prepareWake
  | _ => True

section steps

variable {s s' : State ι} {m' : Stdlike.Mutex.State ι} {a : Act ι} {i j : ι}

/-- Only the exchange leads to `PrepareWake`. -/
theorem next_prepareWake {m : Stdlike.Mutex.State ι} {sleeper : Option ι} (h : m.next i sleeper = some m')
    (hj : m'.pc j = .prepareWake) : m.pc j = .prepareWake ∨ j = i ∧ m.pc i = .unlock := by
  have hmove : ∀ (m₀ : Stdlike.Mutex.State ι) p, m₀.pc = m.pc → p ≠ .prepareWake → m' = m₀.setPc i p →
      m.pc j = .prepareWake ∨ j = i ∧ m.pc i = .unlock := by
    rintro m₀ p h0 hp rfl
    rcases eq_or_ne j i with rfl | hji
    · rw [Stdlike.Mutex.setPc_self] at hj
      exact absurd hj hp
    · rw [Stdlike.Mutex.setPc_of_ne hji, h0] at hj
      exact .inl hj
  have hafter : ∀ c, Stdlike.Mutex.afterCmpxchg c ≠ .prepareWake := by
    intro c
    cases c <;> decide
  unfold Stdlike.Mutex.State.next at h
  split at h
  · cases h
  · cases h
  · cases h
  · exact hmove _ _ Stdlike.Mutex.cmpxchg_pc (hafter _) (Option.some.inj h).symm
  · refine hmove _ _ Stdlike.Mutex.cmpxchg_pc ?_ (Option.some.inj h).symm
    split <;> nofun
  · refine hmove _ _ rfl ?_ (Option.some.inj h).symm
    split <;> nofun
  · exact hmove _ _ Stdlike.Mutex.cmpxchg_pc (hafter _) (Option.some.inj h).symm
  · next hp =>
    obtain rfl := Option.some.inj h
    rcases eq_or_ne j i with rfl | hji
    · exact .inr ⟨rfl, hp⟩
    · rw [Stdlike.Mutex.setPc_of_ne hji] at hj
      exact .inl hj
  · exact hmove _ .wakeOne rfl nofun (Option.some.inj h).symm
  · obtain ⟨m₁, hw, rfl⟩ := Option.map_eq_some_iff.1 h
    rcases eq_or_ne j i with rfl | hji
    · rw [Stdlike.Mutex.setPc_self] at hj
      cases hj
    · rw [Stdlike.Mutex.setPc_of_ne hji] at hj
      unfold Stdlike.Mutex.State.wake at hw
      split at hw
      · next k =>
        split at hw
        · obtain rfl := Option.some.inj hw
          rcases eq_or_ne j k with rfl | hjk
          · rw [Stdlike.Mutex.setPc_self] at hj
            cases hj
          · rw [Stdlike.Mutex.setPc_of_ne hjk] at hj
            exact .inl hj
        · cases hw
      · split at hw
        · obtain rfl := Option.some.inj hw
          exact .inl hj
        · cases hw

theorem step_prepareWake {m : Stdlike.Mutex.State ι} (ha : ∀ i sleeper, a ≠ .step i sleeper)
    (h : Stdlike.Mutex.step m a = some m') (hj : m'.pc j = .prepareWake) : m.pc j = .prepareWake := by
  have hmove : ∀ i p, p ≠ .prepareWake → m' = m.setPc i p → m.pc j = .prepareWake := by
    rintro i p hp rfl
    rcases eq_or_ne j i with rfl | hji
    · rw [Stdlike.Mutex.setPc_self] at hj
      exact absurd hj hp
    · rwa [Stdlike.Mutex.setPc_of_ne hji] at hj
  unfold Stdlike.Mutex.step at h
  split at h
  · split at h
    · exact hmove _ .lock nofun (Option.some.inj h).symm
    · exact hmove _ .unlock nofun (Option.some.inj h).symm
    · cases h
  · exact absurd rfl (ha _ _)
  · split at h
    · exact hmove _ .wait nofun (Option.some.inj h).symm
    · cases h

/-- Whoever is before `PrepareWake` is the last who exchanged the word. -/
def Inv (s : State ι) : Prop := ∀ j, s.mutex.pc j = .prepareWake → s.unlockers.head? = some j

theorem inv_step (hi : Inv s) (hok : careful s a) (h : step s a = some s') : Inv s' := by
  unfold step at h
  split at h
  · next i sleeper =>
    obtain ⟨m', hm, rfl⟩ := Option.map_eq_some_iff.1 h
    intro j hj
    change (s.note i).head? = some j
    unfold State.note
    split
    · next hp =>
      rcases next_prepareWake hm hj with hj | ⟨rfl, -⟩
      · exact absurd hj (hok hp j)
      · rfl
    · next hp =>
      rcases next_prepareWake hm hj with hj | ⟨-, hp'⟩
      · exact hi j hj
      · exact absurd hp' hp
  · next hne =>
    obtain ⟨m', hm, rfl⟩ := Option.map_eq_some_iff.1 h
    exact fun j hj => hi j (step_prepareWake hne hm hj)

theorem inv_of_reach (r : Reach (system ι) careful s) : Inv s := by
  refine r.invariant (I := Inv) ?_ (fun s a s' hi hok h => inv_step hi hok h)
  rintro _ rfl j hj
  cases hj

theorem untouched (r : Reach (system ι) careful s) (he : s.entitled i) : ¬ s.touches j := by
  rintro (h | h)
  · have hr := he.released j
    rw [h] at hr
    exact hr
  · -- it is the last one, and that is `i`, whose `Unlock` has returned
    obtain ⟨before, hu, -⟩ := he.last
    have hhead := inv_of_reach r j h
    rw [hu] at hhead
    obtain rfl := Option.some.inj hhead
    exact absurd (he.idle.symm.trans h) nofun

end steps

end Mx

/-! ## Main theorem -/

/-- Once a thread is entitled to free the `WaitGroup` or the `Mutex`, nobody in `Done` or `Unlock` accesses it any
more, in every run in which no `Wait` finds `done_` at 1, and no `Unlock` exchanges the word, while another thread
is between its own write and its `PrepareWake`. -/
theorem untouched_after_release (ι : Type) [DecidableEq ι] [Fintype ι] :
    (∀ s, Reach (Wg.system ι) Wg.careful s → ∀ i, s.entitled i → ∀ j, ¬ s.touches j) ∧
    ∀ s, Reach (Mx.system ι) Mx.careful s → ∀ i, s.entitled i → ∀ j, ¬ s.touches j :=
  ⟨fun _ r _ he _ => Wg.untouched r he, fun _ r _ he _ => Mx.untouched r he⟩

/-! ### Two threads -/

instance (s : Wg.State ι) [Fintype ι] (j : ι) : Decidable (s.window j) :=
  inferInstanceAs (Decidable (s.wg.pc j = .storeOne ∨ s.wg.pc j = .wakeAll ∧ s.prepared j = false))

/-- Nobody in the window, or nobody reads. -/
def wgCheck (s : Wg.State (Fin 2)) (_ : WaitGroup.Act (Fin 2)) : Bool :=
  decide ((∀ j, ¬ s.window j) ∨ ∀ i, ∀ early, s.wg.pc i ≠ .load early)

theorem careful_of_wgCheck (s : Wg.State (Fin 2)) (a : WaitGroup.Act (Fin 2)) (h : wgCheck s a = true) :
    Wg.careful s a := by
  cases a with
  | step i =>
    rintro ⟨early, hp⟩ - j
    rcases of_decide_eq_true h with hw | hn
    · exact hw j
    · exact absurd hp (hn i early)
  | _ => trivial

/-- Nobody before `PrepareWake`, or nobody before the exchange. -/
def mxCheck (s : Mx.State (Fin 2)) (_ : Stdlike.Mutex.Act (Fin 2)) : Bool :=
  decide ((∀ j, s.mutex.pc j ≠ .prepareWake) ∨ ∀ i, s.mutex.pc i ≠ .unlock)

theorem careful_of_mxCheck (s : Mx.State (Fin 2)) (a : Stdlike.Mutex.Act (Fin 2)) (h : mxCheck s a = true) :
    Mx.careful s a := by
  cases a with
  | step i sleeper =>
    intro hp
    rcases of_decide_eq_true h with hw | hn
    · exact hw
    · exact absurd hp (hn i)
  | _ => trivial

/-- The first thread is at the end of its `Done`, the second has returned from `Wait`. -/
theorem wg_entitled {s : Wg.State (Fin 2)} (h : s.wg.pc 0 = .wakeAll ∧ s.wg.pc 1 = .waited false ∧
    s.zeroes = 1 ∧ s.read 1 = 1 ∧ s.wg.owed = 0) : s.entitled 1 := by
  obtain ⟨h0, h1, hz, hr, ho⟩ := h
  refine ⟨⟨false, h1⟩, by omega, by omega, ho, Fin.forall_fin_two.2 ⟨?_, ?_⟩, fun j count => ?_⟩
  · exact fun h => absurd (h0.symm.trans h) nofun
  · exact fun h => absurd (h1.symm.trans h) nofun
  · revert j
    refine Fin.forall_fin_two.2 ⟨?_, ?_⟩
    · exact ⟨fun h => absurd (h0.symm.trans h) nofun, fun h => absurd (h0.symm.trans h) nofun⟩
    · exact ⟨fun h => absurd (h1.symm.trans h) nofun, fun h => absurd (h1.symm.trans h) nofun⟩

/-- The first thread is in its `Unlock`, the second has locked and unlocked after it. -/
theorem mx_entitled {s : Mx.State (Fin 2)} (h : (s.mutex.pc 0 = .prepareWake ∨ s.mutex.pc 0 = .wakeOne) ∧
    s.mutex.pc 1 = .idle ∧ s.unlockers = [1, 0]) : s.entitled 1 := by
  obtain ⟨h0, h1, hu⟩ := h
  refine ⟨⟨[0], hu, 0, List.mem_singleton_self 0, by decide⟩, h1, Fin.forall_fin_two.2 ⟨?_, ?_⟩⟩
  · rcases h0 with h0 | h0
    · rw [h0]
      trivial
    · rw [h0]
      trivial
  · rw [h1]
    trivial

/-- Each time the first thread has prepared its key before the second goes on. -/
theorem untouched_when_prepared :
    (∃ s : Wg.State (Fin 2), s.entitled 1 ∧ s.wg.pc 0 = .wakeAll ∧ ∀ j, ¬ s.touches j) ∧
    ∃ s : Mx.State (Fin 2), s.entitled 1 ∧ s.mutex.pc 0 = .wakeOne ∧ ∀ j, ¬ s.touches j := by
  obtain ⟨s, r, hs⟩ := Reach.of_exec (Wg.system (Fin 2))
    [.add 0 1, .step 0, .step 0, .done 0, .step 0, .step 0, .step 0, .wait 1, .step 1]
    (fun s => s.wg.pc 0 = .wakeAll ∧ s.wg.pc 1 = .waited false ∧ s.zeroes = 1 ∧ s.read 1 = 1 ∧ s.wg.owed = 0)
    careful_of_wgCheck (s := Wg.init) rfl (by decide)
  obtain ⟨t, q, ht⟩ := Reach.of_exec (Mx.system (Fin 2))
    [.call 0, .step 0 none, .call 1, .step 1 none, .step 1 none, .call 0, .step 0 none, .step 0 none,
      .step 1 none, .step 1 none, .call 1, .step 1 none, .step 1 none, .step 1 none]
    (fun s => s.mutex.pc 0 = .wakeOne ∧ s.mutex.pc 1 = .idle ∧ s.unlockers = [1, 0])
    careful_of_mxCheck (s := Mx.init) rfl (by decide)
  have hs := of_decide_eq_true hs
  have ht := of_decide_eq_true ht
  have hwg := wg_entitled hs
  have hmx := mx_entitled ⟨.inr ht.1, ht.2⟩
  exact ⟨⟨s, hwg, hs.1, (untouched_after_release (Fin 2)).1 s r 1 hwg⟩,
    ⟨t, hmx, ht.1, (untouched_after_release (Fin 2)).2 t q 1 hmx⟩⟩

/-- The second thread goes on while the first has written and has not prepared its key. -/
theorem touched_after_release :
    (¬ ∀ s : Wg.State (Fin 2), Reach (Wg.system (Fin 2)) anyStep s →
      ∀ i, s.entitled i → ∀ j, j ≠ i → ¬ s.touches j) ∧
    ¬ ∀ s : Mx.State (Fin 2), Reach (Mx.system (Fin 2)) anyStep s →
      ∀ i, s.entitled i → ∀ j, j ≠ i → ¬ s.touches j := by
  constructor
  · intro hall
    obtain ⟨s, r, hs⟩ := Reach.of_exec_any (Wg.system (Fin 2))
      [.add 0 1, .step 0, .step 0, .done 0, .step 0, .step 0, .wait 1, .step 1]
      (fun s => (s.wg.pc 0 = .wakeAll ∧ s.wg.pc 1 = .waited false ∧ s.zeroes = 1 ∧ s.read 1 = 1 ∧ s.wg.owed = 0) ∧
        s.prepared 0 = false) (s := Wg.init) rfl (by decide)
    obtain ⟨hs, hp⟩ := of_decide_eq_true hs
    exact hall s r 1 (wg_entitled hs) 0 (by decide) (.inr (.inr ⟨hs.1, hp⟩))
  · intro hall
    obtain ⟨s, r, hs⟩ := Reach.of_exec_any (Mx.system (Fin 2))
      [.call 0, .step 0 none, .call 1, .step 1 none, .step 1 none, .call 0, .step 0 none,
        .step 1 none, .step 1 none, .call 1, .step 1 none, .step 1 none, .step 1 none]
      (fun s => s.mutex.pc 0 = .prepareWake ∧ s.mutex.pc 1 = .idle ∧ s.unlockers = [1, 0]) (s := Mx.init)
      rfl (by decide)
    have hs := of_decide_eq_true hs
    exact hall s r 1 (mx_entitled ⟨.inl hs.1, hs.2⟩) 0 (by decide) (.inr hs.1)

end Cond.Storage
