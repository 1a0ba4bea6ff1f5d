import ConcurrencyCourse.Lib.Transition

/-!
# `Promise` and `Future` with one `SharedState` (futures/std/stdlike)

| here | there |
| --- | --- |
| `Variant` | `v_` (details/shared_state.hpp 47) |
| `Setter.emplace` … `Setter.notify` | `SetValue`, `SetException` (30-44), called by `Promise` (promise.hpp 28-38) |
| `Getter.lock` … `Getter.unlock` | `Get` (16-28), called by `Future` (future.hpp 23-25) |
| `Act.makeFuture` | `MakeFuture` (promise.hpp 24-26) |
| `Act.dropPromise`, `Act.dropFuture`, `State.refs` | the two `shared_ptr`s (promise.hpp 41, future.hpp 32) |

The promise is fulfilled at most once, and there is one future, whose `Get` is called at most once: "One-shot".

`SetValue` and `SetException` emplace before they take the mutex. `emplace` destroys what is there and then constructs
the new alternative; until it has, `index()` is `npos` (`Variant.valueless`). To `Get` that is neither 0 nor 2, so it
goes on, and `std::get<1>` throws `bad_variant_access` unless a value is there by then. What the empty critical section
is for is the wake-up: whoever has seen index 0 is asleep before the mutex is taken.

`get_is_right_unless_torn` is the main theorem.
-/

namespace Contract

open Transition

variable {T E : Type}

inductive Variant (T E : Type) where
  | monostate
  | valueless
  | holds (r : Except E T)

/-- `index()`; `none` is `variant_npos`. -/
def Variant.index : Variant T E → Option Nat
  | .monostate => some 0
  | .valueless => none
  | .holds (.ok _) => some 1
  | .holds (.error _) => some 2

/-- How `Get` ends: with what was sent, returned or rethrown, or with an exception of its own. -/
inductive Outcome (T E : Type) where
  | sent (r : Except E T)
  | badVariantAccess

/-- `std::get<1>`, moved out. -/
def Variant.get1 : Variant T E → Outcome T E
  | .holds (.ok x) => .sent (.ok x)
  | _ => .badVariantAccess

/-- `std::get<2>`, moved out. -/
def Variant.get2 : Variant T E → Outcome T E
  | .holds (.error e) => .sent (.error e)
  | _ => .badVariantAccess

inductive Setter (T E : Type) where
  | idle
  | emplace (r : Except E T)
  | construct (r : Except E T)
  | lock
  | unlock
  | notify
  | returned
  | dropped

inductive Getter (T E : Type) where
  | unmade
  | idle
  | lock
  | test
  | asleep
  | which
  | get1
  | get2
  | unlock (o : Outcome T E)
  | returned (o : Outcome T E)
  | dropped

inductive Role where
  | setter
  | getter
  deriving DecidableEq

structure State (T E : Type) where
  v : Variant T E
  /-- Who has locked `mtx_`. -/
  owner : Option Role
  setter : Setter T E
  getter : Getter T E
  /-- The `use_count` of the `shared_ptr`s. -/
  refs : Nat

inductive Act (T E : Type) where
  | setValue (x : T)
  | setException (e : E)
  | makeFuture
  | get
  | setter
  | getter
  /-- The wait returns without a notification. -/
  | spurious
  | dropPromise
  | dropFuture

/-- In `SetValue` or `SetException`. -/
def Setter.inCall : Setter T E → Bool
  | .emplace _ | .construct _ | .lock | .unlock | .notify => true
  | _ => false

/-- In `Get`. -/
def Getter.inCall : Getter T E → Bool
  | .lock | .test | .asleep | .which | .get1 | .get2 | .unlock _ => true
  | _ => false

/-- `readiness_cv_.notify_one()`: nobody else waits. -/
def Getter.woken : Getter T E → Getter T E
  | .asleep => .lock
  | g => g

/-- `SetValue` and `SetException` differ in the alternative. -/
def State.set (s : State T E) (r : Except E T) : Option (State T E) :=
  match s.setter with
  | .idle => some { s with setter := .emplace r }
  | _ => none

def setterStep (s : State T E) : Option (State T E) :=
  match s.setter with
  | .idle | .returned | .dropped => none
  | .emplace r => some { s with v := .valueless, setter := .construct r }
  | .construct r => some { s with v := .holds r, setter := .lock }
  | .lock => if s.owner = none then some { s with owner := some .setter, setter := .unlock } else none
  | .unlock => some { s with owner := none, setter := .notify }
  | .notify => some { s with getter := s.getter.woken, setter := .returned }

def getterStep (s : State T E) : Option (State T E) :=
  match s.getter with
  | .unmade | .idle | .asleep | .returned _ | .dropped => none
  | .lock => if s.owner = none then some { s with owner := some .getter, getter := .test } else none
  | .test => if s.v.index = some 0 then some { s with owner := none, getter := .asleep }
      else some { s with getter := .which }
  | .which => if s.v.index = some 2 then some { s with getter := .get2 } else some { s with getter := .get1 }
  | .get1 => some { s with getter := .unlock s.v.get1 }
  | .get2 => some { s with getter := .unlock s.v.get2 }
  | .unlock o => some { s with owner := none, getter := .returned o }

def step (s : State T E) : Act T E → Option (State T E)
  | .setValue x => s.set (.ok x)
  | .setException e => s.set (.error e)
  | .makeFuture => match s.setter, s.getter with
    | .idle, .unmade | .returned, .unmade => some { s with getter := .idle, refs := s.refs + 1 }
    | _, _ => none
  | .get => match s.getter with
    | .idle => some { s with getter := .lock }
    | _ => none
  | .setter => setterStep s
  | .getter => getterStep s
  | .spurious => match s.getter with
    | .asleep => some { s with getter := .lock }
    | _ => none
  | .dropPromise => match s.setter with
    | .idle | .returned => some { s with setter := .dropped, refs := s.refs - 1 }
    | _ => none
  | .dropFuture => match s.getter with
    | .idle | .returned _ => some { s with getter := .dropped, refs := s.refs - 1 }
    | _ => none

def init : State T E := ⟨.monostate, none, .idle, .unmade, 1⟩

variable (T E) in
def system : System (State T E) (Act T E) := ⟨fun s => s = init, step⟩

/-- What is sent by a call that begins. -/
def Act.sends : Act T E → Option (Except E T)
  | .setValue x => some (.ok x)
  | .setException e => some (.error e)
  | _ => none

/-- `r` was sent. -/
def Sent (h : History (State T E) (Act T E)) (r : Except E T) : Prop := ∃ e ∈ h, e.1.sends = some r

/-- The predicate of the wait was tested in the middle of `emplace`. -/
def Torn (h : History (State T E) (Act T E)) : Prop :=
  ∃ s, (Act.getter, s) ∈ h ∧ s.getter = .test ∧ s.v = .valueless

/-! ### The invariant -/

/-- Between taking the mutex and releasing it. -/
def Getter.inside : Getter T E → Bool
  | .test | .which | .get1 | .get2 | .unlock _ => true
  | _ => false

/-- How far `emplace` is. -/
def Setter.Wrote : Setter T E → Variant T E → Prop
  | .idle, v | .emplace _, v => v = .monostate
  | .construct _, v => v = .valueless
  | .dropped, v => v = .monostate ∨ ∃ r, v = .holds r
  | _, v => ∃ r, v = .holds r

/-- What `Get` has learned by its reads of `index()`. -/
def Getter.Knows (torn : Prop) : Getter T E → Variant T E → Prop
  | .which, v => torn ∨ ∃ r, v = .holds r
  | .get1, v => torn ∨ ∃ x, v = .holds (.ok x)
  | .get2, v => ∃ e, v = .holds (.error e)
  | .unlock (.sent r), v | .returned (.sent r), v => v = .holds r
  | .unlock .badVariantAccess, _ | .returned .badVariantAccess, _ => torn
  | _, _ => True

/-- `r` is in `v_`, or on its way. -/
def State.Sends (s : State T E) (r : Except E T) : Prop :=
  s.setter = .emplace r ∨ s.setter = .construct r ∨ s.v = .holds r

/-- The references that the promise holds. -/
def Setter.refs : Setter T E → Nat
  | .dropped => 0
  | _ => 1

/-- The references that the future holds. -/
def Getter.refs : Getter T E → Nat
  | .unmade | .dropped => 0
  | _ => 1

structure Inv (h : History (State T E) (Act T E)) (s : State T E) : Prop where
  setterOwns : s.owner = some .setter ↔ s.setter = .unlock
  getterOwns : s.owner = some .getter ↔ s.getter.inside = true
  wrote : s.setter.Wrote s.v
  sent : ∀ r, Sent h r ↔ s.Sends r
  /-- Whoever sleeps has seen index 0 before the setter had the mutex. -/
  asleep : s.getter = .asleep → s.v = .monostate ∨ s.setter.inCall = true
  knows : s.getter.Knows (Torn h) s.v
  refs : s.refs = s.setter.refs + s.getter.refs

section steps

variable {h : History (State T E) (Act T E)} {s s' : State T E} {a : Act T E} {r : Except E T}
  {g : Getter T E} {v v' : Variant T E} {p p' : Prop}

theorem Getter.Knows.mono (hg : g.Knows p v) (hp : p → p') : g.Knows p' v := by
  cases g with
  | which => exact hg.imp_left hp
  | get1 => exact hg.imp_left hp
  | unlock o | returned o =>
    cases o with
    | sent r => exact hg
    | badVariantAccess => exact hp hg
  | _ => exact hg

/-- `emplace` writes while nothing is there. -/
theorem Getter.Knows.write (hg : g.Knows p v) (hv : ∀ r, v ≠ .holds r) : g.Knows p v' := by
  unfold Getter.Knows at hg ⊢
  split at hg <;> simp_all

theorem Getter.Knows.woken (hg : g.Knows p v) : g.woken.Knows p v := by
  cases g <;> first | exact trivial | exact hg

theorem sent_cons {s₀ : State T E} : Sent ((a, s₀) :: h) r ↔ a.sends = some r ∨ Sent h r := by
  simp [Sent]

theorem Torn.later {s₀ : State T E} (ht : Torn h) : Torn ((a, s₀) :: h) := by
  obtain ⟨s₁, hmem, hs₁⟩ := ht
  exact ⟨s₁, List.mem_cons_of_mem _ hmem, hs₁⟩

/-- A step that sends nothing. -/
theorem Inv.sent_later (hi : Inv h s) (ha : a.sends = none) (hs : ∀ r, s'.Sends r ↔ s.Sends r) (r : Except E T) :
    Sent ((a, s) :: h) r ↔ s'.Sends r := by
  rw [sent_cons, ha, hs r, hi.sent r]
  simp

theorem Inv.knows_later (hi : Inv h s) : s.getter.Knows (Torn ((a, s) :: h)) s.v := hi.knows.mono Torn.later

/-- The getter goes on, inside the mutex or outside of it. -/
theorem Inv.moveGetter (hi : Inv h s) (ha : a.sends = none) (hin : g.inside = s.getter.inside) (hasleep : g ≠ .asleep)
    (hknows : g.Knows (Torn ((a, s) :: h)) s.v) {n : Nat} (hn : n = s.setter.refs + g.refs) :
    Inv ((a, s) :: h) { s with getter := g, refs := n } :=
  ⟨hi.setterOwns, hin ▸ hi.getterOwns, hi.wrote, hi.sent_later ha fun _ => Iff.rfl, fun hg => absurd hg hasleep, hknows,
    hn⟩

theorem Inv.init : Inv [] (init : State T E) where
  setterOwns := by simp [Contract.init]
  getterOwns := by simp [Contract.init, Getter.inside]
  wrote := rfl
  sent r := by simp [Sent, State.Sends, Contract.init]
  asleep := by simp [Contract.init]
  knows := trivial
  refs := rfl

/-- `SetValue` or `SetException` begins. -/
theorem Inv.set (hi : Inv h s) (ha : a.sends = some r) (hs : s.set r = some s') : Inv ((a, s) :: h) s' := by
  unfold State.set at hs
  split at hs
  · next hp =>
    obtain rfl := Option.some.inj hs
    have hv : s.v = .monostate := by simpa [hp, Setter.Wrote] using hi.wrote
    have hnone : ∀ r', ¬ s.Sends r' := by simp [State.Sends, hp, hv]
    refine ⟨?_, hi.getterOwns, hv, ?_, fun _ => .inl hv, hi.knows_later, ?_⟩
    · simpa [hp] using hi.setterOwns
    · intro r'
      rw [sent_cons, hi.sent r', ha]
      simp [State.Sends, hv, hp]
    · simpa [hp, Setter.refs] using hi.refs
  · cases hs

theorem Inv.setter (hi : Inv h s) (hs : setterStep s = some s') : Inv ((.setter, s) :: h) s' := by
  have hwrote := hi.wrote
  have hrefs := hi.refs
  have howns := hi.setterOwns
  unfold setterStep at hs
  split at hs
  · cases hs
  · cases hs
  · cases hs
  · next r hp =>
    obtain rfl := Option.some.inj hs
    rw [hp] at hwrote hrefs howns
    have hv : s.v = .monostate := hwrote
    refine ⟨by simpa using howns, hi.getterOwns, rfl, ?_, fun _ => .inr rfl, ?_, hrefs⟩
    · refine hi.sent_later rfl fun r' => ?_
      simp [State.Sends, hp, hv]
    · exact hi.knows_later.write (by simp [hv])
  · next r hp =>
    obtain rfl := Option.some.inj hs
    rw [hp] at hwrote hrefs howns
    have hv : s.v = .valueless := hwrote
    refine ⟨by simpa using howns, hi.getterOwns, ⟨r, rfl⟩, ?_, fun _ => .inr rfl, ?_, hrefs⟩
    · refine hi.sent_later rfl fun r' => ?_
      simp [State.Sends, hp, hv]
    · exact hi.knows_later.write (by simp [hv])
  · next hp =>
    split at hs
    · next hfree =>
      obtain rfl := Option.some.inj hs
      rw [hp] at hwrote hrefs howns
      refine ⟨by simp, ?_, hwrote, ?_, fun _ => .inr rfl, hi.knows_later, hrefs⟩
      · simpa [hfree] using hi.getterOwns
      · refine hi.sent_later rfl fun r' => ?_
        simp [State.Sends, hp]
    · cases hs
  · next hp =>
    obtain rfl := Option.some.inj hs
    rw [hp] at hwrote hrefs howns
    have hown : s.owner = some .setter := by simpa using howns
    refine ⟨by simp, ?_, hwrote, ?_, fun _ => .inr rfl, hi.knows_later, hrefs⟩
    · simpa [hown] using hi.getterOwns
    · refine hi.sent_later rfl fun r' => ?_
      simp [State.Sends, hp]
  · next hp =>
    obtain rfl := Option.some.inj hs
    rw [hp] at hwrote hrefs howns
    refine ⟨by simpa using howns, ?_, hwrote, ?_, ?_, hi.knows_later.woken, ?_⟩
    · rw [hi.getterOwns]
      cases s.getter <;> simp [Getter.woken, Getter.inside]
    · refine hi.sent_later rfl fun r' => ?_
      simp [State.Sends, hp]
    · cases s.getter <;> simp [Getter.woken]
    · rw [hrefs]
      cases s.getter <;> simp [Getter.woken, Getter.refs, Setter.refs]

/-- A step of `Get` leaves `v_` and the setter alone. -/
theorem Inv.getter (hi : Inv h s) (hs : getterStep s = some s') : Inv ((.getter, s) :: h) s' := by
  have hknows := hi.knows_later (a := .getter)
  have hrefs := hi.refs
  have howns := hi.getterOwns
  have hsent : ∀ (o : Option Role) (g : Getter T E) (r : Except E T),
      Sent ((.getter, s) :: h) r ↔ State.Sends { s with owner := o, getter := g } r :=
    fun _ _ => hi.sent_later rfl fun _ => Iff.rfl
  unfold getterStep at hs
  split at hs
  · cases hs
  · cases hs
  · cases hs
  · cases hs
  · cases hs
  · next hp =>
    split at hs
    · next hfree =>
      obtain rfl := Option.some.inj hs
      rw [hp] at hrefs
      refine ⟨?_, by simp [Getter.inside], hi.wrote, hsent _ _, by simp, trivial, hrefs⟩
      simpa [hfree] using hi.setterOwns
    · cases hs
  · next hp =>
    rw [hp] at hrefs howns
    have hown : s.owner = some .getter := by simpa [Getter.inside] using howns
    split at hs
    · next hv =>
      obtain rfl := Option.some.inj hs
      refine ⟨?_, by simp [Getter.inside], hi.wrote, hsent _ _, fun _ => .inl ?_, trivial, hrefs⟩
      · simpa [hown] using hi.setterOwns
      · unfold Variant.index at hv
        split at hv <;> simp_all
    · next hv =>
      obtain rfl := Option.some.inj hs
      refine hi.moveGetter rfl (by rw [hp]; rfl) (by simp) ?_ hrefs
      cases hval : s.v with
      | monostate => simp [hval, Variant.index] at hv
      | valueless => exact .inl ⟨s, List.mem_cons_self, hp, hval⟩
      | holds r => exact .inr ⟨r, rfl⟩
  · next hp =>
    rw [hp] at hrefs hknows
    split at hs
    · next hv =>
      obtain rfl := Option.some.inj hs
      refine hi.moveGetter rfl (by rw [hp]; rfl) (by simp) ?_ hrefs
      unfold Variant.index at hv
      split at hv <;> simp_all [Getter.Knows]
    · next hv =>
      obtain rfl := Option.some.inj hs
      refine hi.moveGetter rfl (by rw [hp]; rfl) (by simp) ?_ hrefs
      refine hknows.imp_right fun ⟨r, hr⟩ => ?_
      cases r with
      | error e => simp [hr, Variant.index] at hv
      | ok x => exact ⟨x, hr⟩
  · next hp =>
    obtain rfl := Option.some.inj hs
    rw [hp] at hrefs hknows
    refine hi.moveGetter rfl (by rw [hp]; rfl) (by simp) ?_ hrefs
    unfold Variant.get1
    split
    · next hv => exact hv
    · next hv => exact hknows.resolve_right fun ⟨x, hx⟩ => hv x hx
  · next hp =>
    obtain rfl := Option.some.inj hs
    rw [hp] at hrefs hknows
    refine hi.moveGetter rfl (by rw [hp]; rfl) (by simp) ?_ hrefs
    obtain ⟨e, he⟩ := hknows
    simp [he, Variant.get2, Getter.Knows]
  · next o hp =>
    obtain rfl := Option.some.inj hs
    rw [hp] at hrefs howns hknows
    have hown : s.owner = some .getter := by simpa [Getter.inside] using howns
    refine ⟨?_, by simp [Getter.inside], hi.wrote, hsent _ _, by simp, ?_, hrefs⟩
    · simpa [hown] using hi.setterOwns
    · cases o <;> exact hknows

theorem Inv.step (hi : Inv h s) (hs : step s a = some s') : Inv ((a, s) :: h) s' := by
  cases a with
  | setValue x => exact hi.set rfl hs
  | setException e => exact hi.set rfl hs
  | setter => exact hi.setter hs
  | getter => exact hi.getter hs
  | makeFuture =>
    have hrefs := hi.refs
    simp only [Contract.step] at hs
    split at hs
    · next hp hg =>
      obtain rfl := Option.some.inj hs
      rw [hg] at hrefs
      exact hi.moveGetter (g := .idle) rfl (by rw [hg]; rfl) (by simp) trivial (by simp [hrefs, Getter.refs])
    · next hp hg =>
      obtain rfl := Option.some.inj hs
      rw [hg] at hrefs
      exact hi.moveGetter (g := .idle) rfl (by rw [hg]; rfl) (by simp) trivial (by simp [hrefs, Getter.refs])
    · cases hs
  | get | spurious =>
    have hrefs := hi.refs
    simp only [Contract.step] at hs
    split at hs
    · next hg =>
      obtain rfl := Option.some.inj hs
      rw [hg] at hrefs
      exact hi.moveGetter (g := .lock) rfl (by rw [hg]; rfl) (by simp) trivial hrefs
    · cases hs
  | dropPromise =>
    have hrefs := hi.refs
    have hwrote := hi.wrote
    have howns := hi.setterOwns
    have hasleep := hi.asleep
    simp only [Contract.step] at hs
    split at hs
    · next hp =>
      obtain rfl := Option.some.inj hs
      rw [hp] at hrefs hwrote howns
      refine ⟨by simpa using howns, hi.getterOwns, .inl hwrote, ?_, fun _ => .inl hwrote, hi.knows_later, ?_⟩
      · exact hi.sent_later rfl fun r => by simp [State.Sends, hp]
      · simp [hrefs, Setter.refs]
    · next hp =>
      obtain rfl := Option.some.inj hs
      rw [hp] at hrefs hwrote howns hasleep
      refine ⟨by simpa using howns, hi.getterOwns, .inr hwrote, ?_, ?_, hi.knows_later, ?_⟩
      · exact hi.sent_later rfl fun r => by simp [State.Sends, hp]
      · exact fun hg => (hasleep hg).imp_right fun h => by simp [Setter.inCall] at h
      · simp [hrefs, Setter.refs]
    · cases hs
  | dropFuture =>
    have hrefs := hi.refs
    simp only [Contract.step] at hs
    split at hs
    · next hg =>
      obtain rfl := Option.some.inj hs
      rw [hg] at hrefs
      exact hi.moveGetter (g := .dropped) rfl (by rw [hg]; rfl) (by simp) trivial (by simp [hrefs, Getter.refs])
    · next o hg =>
      obtain rfl := Option.some.inj hs
      rw [hg] at hrefs
      exact hi.moveGetter (g := .dropped) rfl (by rw [hg]; rfl) (by simp) trivial (by simp [hrefs, Getter.refs])
    · cases hs

/-! ### What follows when the result is there -/

/-- How many steps the promise can take. -/
def Setter.left : Setter T E → Nat
  | .lock => 4
  | .unlock => 3
  | .notify => 2
  | .returned => 1
  | _ => 0

/-- How many steps the future can take, when `v_` holds the result. -/
def Getter.left : Getter T E → Nat
  | .unmade => 9
  | .idle => 8
  | .asleep => 7
  | .lock => 6
  | .test => 5
  | .which => 4
  | .get1 | .get2 => 3
  | .unlock _ => 2
  | .returned _ => 1
  | .dropped => 0

theorem Getter.left_woken : g.woken.left ≤ g.left := by cases g <;> simp [Getter.woken, Getter.left]

/-- Once the result is there it stays, and no step can be repeated. -/
theorem left_lt (hi : Inv h s) (hv : s.v = .holds r) (hs : Contract.step s a = some s') :
    s'.v = .holds r ∧ s'.setter.left + s'.getter.left < s.setter.left + s.getter.left := by
  have hwrote := hi.wrote
  rw [hv] at hwrote
  cases a with
  | setValue x | setException e =>
    simp only [Contract.step, State.set] at hs
    split at hs
    · next hp => simp [hp, Setter.Wrote] at hwrote
    · cases hs
  | setter =>
    simp only [Contract.step, setterStep] at hs
    split at hs
    · cases hs
    · cases hs
    · cases hs
    · next hp => simp [hp, Setter.Wrote] at hwrote
    · next hp => simp [hp, Setter.Wrote] at hwrote
    · next hp =>
      split at hs
      · obtain rfl := Option.some.inj hs
        simp [hv, hp, Setter.left]
      · cases hs
    · next hp =>
      obtain rfl := Option.some.inj hs
      simp [hv, hp, Setter.left]
    · next hp =>
      obtain rfl := Option.some.inj hs
      have := Getter.left_woken (g := s.getter)
      simp only [hp, Setter.left]
      exact ⟨hv, by omega⟩
  | getter =>
    have hindex : s.v.index ≠ some 0 := by
      rw [hv]
      cases r <;> simp [Variant.index]
    simp only [Contract.step, getterStep] at hs
    split at hs
    · cases hs
    · cases hs
    · cases hs
    · cases hs
    · cases hs
    · next hp =>
      split at hs
      · obtain rfl := Option.some.inj hs
        simp [hv, hp, Getter.left]
      · cases hs
    · next hp =>
      rw [if_neg hindex] at hs
      obtain rfl := Option.some.inj hs
      simp [hv, hp, Getter.left]
    · next hp =>
      split at hs <;> obtain rfl := Option.some.inj hs <;> simp [hv, hp, Getter.left]
    · next hp =>
      obtain rfl := Option.some.inj hs
      simp [hv, hp, Getter.left]
    · next hp =>
      obtain rfl := Option.some.inj hs
      simp [hv, hp, Getter.left]
    · next hp =>
      obtain rfl := Option.some.inj hs
      simp [hv, hp, Getter.left]
  | makeFuture =>
    simp only [Contract.step] at hs
    split at hs
    · next hg =>
      obtain rfl := Option.some.inj hs
      simp [hv, hg, Getter.left]
    · next hg =>
      obtain rfl := Option.some.inj hs
      simp [hv, hg, Getter.left]
    · cases hs
  | get | spurious =>
    simp only [Contract.step] at hs
    split at hs
    · next hg =>
      obtain rfl := Option.some.inj hs
      simp [hv, hg, Getter.left]
    · cases hs
  | dropPromise =>
    simp only [Contract.step] at hs
    split at hs
    · next hp => simp [hp, Setter.Wrote] at hwrote
    · next hp =>
      obtain rfl := Option.some.inj hs
      simp [hv, hp, Setter.left]
    · cases hs
  | dropFuture =>
    simp only [Contract.step] at hs
    split at hs
    · next hg =>
      obtain rfl := Option.some.inj hs
      simp [hv, hg, Getter.left]
    · next hg =>
      obtain rfl := Option.some.inj hs
      simp [hv, hg, Getter.left]
    · cases hs

theorem length_le_left (hi : Inv h s) (hv : s.v = .holds r) {as : List (Act T E)}
    (hs : exec (system T E) noCheck s as = some s') : as.length ≤ s.setter.left + s.getter.left := by
  induction as generalizing h s with
  | nil => simp
  | cons a as ih =>
    rw [exec_cons] at hs
    simp only [noCheck, if_true] at hs
    split at hs
    · next s₁ hs₁ =>
      obtain ⟨hv₁, hlt⟩ := left_lt hi hv hs₁
      have hle := ih (hi.step hs₁) hv₁ hs
      simp only [List.length_cons]
      omega
    · cases hs

/-- The mutex is free, or its owner can go on. -/
theorem Inv.lock_or_owner (hi : Inv h s) (hp : s.setter = .lock ∨ s.getter = .lock) :
    (setterStep s).isSome = true ∨ (getterStep s).isSome = true := by
  cases hown : s.owner with
  | none =>
    rcases hp with hp | hp
    · exact .inl (by simp [setterStep, hp, hown])
    · exact .inr (by simp [getterStep, hp, hown])
  | some o =>
    cases o with
    | setter => exact .inl (by simp [setterStep, hi.setterOwns.1 hown])
    | getter =>
      have hin := hi.getterOwns.1 hown
      cases hg : s.getter <;> rw [hg] at hin <;> try cases hin
      all_goals refine .inr ?_
      all_goals simp only [getterStep, hg]
      · split <;> rfl
      · split <;> rfl
      all_goals rfl

/-- While the setter is in its call, one of the two can go on. -/
theorem Inv.setter_goes (hi : Inv h s) (hp : s.setter.inCall = true) :
    (setterStep s).isSome = true ∨ (getterStep s).isSome = true := by
  by_cases hlock : s.setter = .lock
  · exact hi.lock_or_owner (.inl hlock)
  · left
    cases hset : s.setter <;> simp_all [setterStep, Setter.inCall]

theorem Inv.goes (hi : Inv h s) (hg : s.getter.inCall = true) (hr : Sent h r) :
    (setterStep s).isSome = true ∨ (getterStep s).isSome = true := by
  have hsends := (hi.sent r).1 hr
  cases hget : s.getter <;> rw [hget] at hg <;> try cases hg
  case lock => exact hi.lock_or_owner (.inr hget)
  case asleep =>
    rcases hi.asleep hget with hv | hp
    · rcases hsends with hp | hp | hval
      · exact hi.setter_goes (by rw [hp]; rfl)
      · exact hi.setter_goes (by rw [hp]; rfl)
      · simp [hv] at hval
    · exact hi.setter_goes hp
  all_goals refine .inr ?_
  all_goals simp only [getterStep, hget]
  · split <;> rfl
  · split <;> rfl
  all_goals rfl

theorem Inv.sends_unique (hi : Inv h s) {r' : Except E T} (hr : s.Sends r) (hr' : s.Sends r') : r' = r := by
  have hwrote := hi.wrote
  rcases hr with hp | hp | hv
  · simp_all [State.Sends, Setter.Wrote]
  · simp_all [State.Sends, Setter.Wrote]
  · rcases hr' with hp' | hp' | hv'
    · simp [hp', hv, Setter.Wrote] at hwrote
    · simp [hp', hv, Setter.Wrote] at hwrote
    · simpa [hv, eq_comm] using hv'

end steps

section main

variable {T E : Type}

/-- After any run. `Get` ends with what was sent, and nothing else was; or the predicate was tested in the middle of
`emplace`. It never misses the notification. From the moment the result is there only 13 more steps are possible, and
until `Get` is over one of the two threads can go on. The state is there as long as somebody is in a call, and is
freed with the last of the two ends. -/
structure Correct (h : History (State T E) (Act T E)) (s : State T E) : Prop where
  sent : ∀ r, s.getter = .returned (.sent r) → ∀ r', Sent h r' ↔ r' = r
  torn : s.getter = .returned .badVariantAccess → Torn h
  awake : s.getter = .asleep → (∃ r, Sent h r) → s.setter.inCall = true
  ends : ∀ r, s.v = .holds r → ∀ as s', exec (system T E) noCheck s as = some s' → as.length ≤ 13
  goes : s.getter.inCall = true → (∃ r, Sent h r) → (setterStep s).isSome = true ∨ (getterStep s).isSome = true
  alive : s.setter.inCall = true ∨ s.getter.inCall = true → 0 < s.refs
  freed : s.refs = 0 ↔ s.setter = .dropped ∧ (s.getter = .unmade ∨ s.getter = .dropped)

theorem Inv.correct {h : History (State T E) (Act T E)} {s : State T E} (hi : Inv h s) : Correct h s := by
  refine ⟨fun r hg r' => ?_, fun hg => ?_, fun hg ⟨r, hr⟩ => ?_, fun r hv as s' hs => ?_,
    fun hg ⟨r, hr⟩ => hi.goes hg hr, fun hin => ?_, ?_⟩
  · have hv : s.v = .holds r := by simpa [hg, Getter.Knows] using hi.knows
    rw [hi.sent r']
    constructor
    · exact hi.sends_unique (.inr (.inr hv))
    · rintro rfl
      exact .inr (.inr hv)
  · simpa [hg, Getter.Knows] using hi.knows
  · rcases hi.asleep hg with hv | hp
    · rcases (hi.sent r).1 hr with hp | hp | hval
      · simp [hp, Setter.inCall]
      · simp [hp, Setter.inCall]
      · simp [hv] at hval
    · exact hp
  · have hle := length_le_left hi hv hs
    have hset : s.setter.left ≤ 4 := by cases s.setter <;> simp [Setter.left]
    have hget : s.getter.left ≤ 9 := by cases s.getter <;> simp [Getter.left]
    omega
  · rw [hi.refs]
    rcases hin with hp | hg
    · refine Nat.add_pos_left ?_ _
      cases hset : s.setter <;> simp_all [Setter.inCall, Setter.refs]
    · refine Nat.add_pos_right _ ?_
      cases hget : s.getter <;> simp_all [Getter.inCall, Getter.refs]
  · rw [hi.refs]
    cases s.setter <;> cases s.getter <;> simp [Setter.refs, Getter.refs]

/-- `Get` tests while `x` is being emplaced, and asks for the value before it is there. -/
def tear (x : T) : List (Act T E) :=
  [.makeFuture, .setValue x, .get, .getter, .setter, .getter, .getter, .getter, .setter, .getter]

theorem get_is_right_unless_torn :
    (∀ (h : History (State T E) (Act T E)) (s : State T E), Run (system T E) anyStep h s → Correct h s) ∧
      ∀ x : T, ∃ h s, Run (system T E) anyStep h s ∧ Sent h (.ok x) ∧ s.getter = .returned .badVariantAccess := by
  have hinv : ∀ (h : History (State T E) (Act T E)) (s : State T E), Run (system T E) anyStep h s → Inv h s :=
    fun h s r => r.invariant (fun _ hs => hs ▸ Inv.init) fun _ _ _ _ hi _ hs => hi.step hs
  refine ⟨fun h s r => (hinv h s r).correct, fun x => ?_⟩
  have hexec : exec (system T E) noCheck Contract.init (tear x) =
      some ⟨.holds (.ok x), none, .lock, .returned .badVariantAccess, 2⟩ := rfl
  obtain ⟨h, r⟩ := (Reach.init rfl).exec (fun _ _ _ => trivial) hexec
  exact ⟨h, _, r, ((hinv h _ r).sent _).2 (.inr (.inr rfl)), rfl⟩

end main

end Contract
