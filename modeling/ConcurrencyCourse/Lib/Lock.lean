import Mathlib.Logic.Function.Basic

/-!
# A lock and its holders

A lock is a flag that is exchanged; who holds it follows from where the threads are. `Guards b P` says
that the flag `b` is set while somebody is at a place `P` inside, and that only one is. The three rules
are for a step that neither takes nor releases the lock, for taking it, and for releasing it.
-/

namespace Lock

universe u

variable {α : Type u} {b : Bool} {P Q : α → Prop}

/-- At most one is inside, and then the flag is set. -/
structure Guards (b : Bool) (P : α → Prop) : Prop where
  locked : ∀ x, P x → b = true
  unique : ∀ x y, P x → P y → x = y

theorem Guards.mono (h : Guards b P) (hQ : ∀ x, Q x → P x) : Guards b Q :=
  ⟨fun x hx => h.locked x (hQ x hx), fun x y hx hy => h.unique x y (hQ x hx) (hQ y hy)⟩

/-- Nobody is inside while the flag is clear. -/
theorem Guards.free (h : Guards b P) (hb : b = false) (x : α) : ¬ P x := by
  intro hx
  rw [h.locked x hx] at hb
  cases hb

theorem Guards.acquire (h : Guards b P) (hb : b = false) {x : α} (hQ : ∀ y, Q y → P y ∨ y = x) :
    Guards true Q := by
  have hx : ∀ y, Q y → y = x := fun y hy => (hQ y hy).resolve_left (h.free hb y)
  exact ⟨fun _ _ => rfl, fun y z hy hz => (hx y hy).trans (hx z hz).symm⟩

theorem Guards.release (h : Guards b P) {x : α} (hx : P x) (hQ : ∀ y, Q y → P y ∧ y ≠ x) (b' : Bool) :
    Guards b' Q := by
  have hno : ∀ y, ¬ Q y := fun y hy => (hQ y hy).2 (h.unique y x (hQ y hy).1 hx)
  exact ⟨fun y hy => absurd hy (hno y), fun y _ hy => absurd hy (hno y)⟩

/-! ### Holders read off local states -/

section keyed

universe v w

variable {β : Type v} {κ : Type w} [DecidableEq α] {key : β → Option κ} {l : α → β} {k : κ} {x : α} {y : β}

/-- `x` goes on and does not enter. -/
theorem Guards.stay (h : Guards b fun z => key (l z) = some k) (hy : key y = some k → key (l x) = some k) :
    Guards b fun z => key (Function.update l x y z) = some k := by
  refine h.mono fun z hz => ?_
  rcases eq_or_ne z x with rfl | hzx
  · rw [Function.update_self] at hz
    exact hy hz
  · rwa [Function.update_of_ne hzx] at hz

theorem Guards.enter (h : Guards b fun z => key (l z) = some k) (hb : b = false) :
    Guards true fun z => key (Function.update l x y z) = some k := by
  refine h.acquire hb (x := x) fun z hz => ?_
  rcases eq_or_ne z x with rfl | hzx
  · exact .inr rfl
  · rw [Function.update_of_ne hzx] at hz
    exact .inl hz

theorem Guards.leave (h : Guards b fun z => key (l z) = some k) (hx : key (l x) = some k)
    (hy : key y ≠ some k) (b' : Bool) : Guards b' fun z => key (Function.update l x y z) = some k := by
  refine h.release (x := x) hx (fun z hz => ?_) b'
  rcases eq_or_ne z x with rfl | hzx
  · rw [Function.update_self] at hz
    exact absurd hz hy
  · rw [Function.update_of_ne hzx] at hz
    exact ⟨hz, hzx⟩

end keyed

/-! ### A mutex that knows its owner -/

section owned

universe v w

variable {β : Type v} [DecidableEq α] {P : β → Prop} {owner : Option α} {l : α → β} {x : α} {y : β}

/-- Exactly the owner is at a place `P` inside. -/
def Owned (P : β → Prop) (owner : Option α) (l : α → β) : Prop := ∀ z, P (l z) ↔ owner = some z

/-- `x` goes on, inside or outside. -/
theorem Owned.stay (h : Owned P owner l) (hy : P y ↔ P (l x)) : Owned P owner (Function.update l x y) := by
  intro z
  rcases eq_or_ne z x with rfl | hz
  · rw [Function.update_self, hy]
    exact h z
  · rw [Function.update_of_ne hz]
    exact h z

theorem Owned.take (h : Owned P none l) (hy : P y) : Owned P (some x) (Function.update l x y) := by
  intro z
  rcases eq_or_ne z x with rfl | hz
  · rw [Function.update_self]
    exact iff_of_true hy rfl
  · rw [Function.update_of_ne hz]
    exact (h z).trans (iff_of_false nofun fun he => hz (Option.some.inj he).symm)

theorem Owned.drop (h : Owned P owner l) (hx : P (l x)) (hy : ¬ P y) :
    Owned P none (Function.update l x y) := by
  have ho := (h x).1 hx
  intro z
  rcases eq_or_ne z x with rfl | hz
  · rw [Function.update_self]
    exact iff_of_false hy nofun
  · rw [Function.update_of_ne hz]
    refine iff_of_false (fun hPz => hz ?_) nofun
    exact Option.some.inj (((h z).1 hPz).symm.trans ho)

omit [DecidableEq α] in
/-- Others move, none in or out. -/
theorem Owned.congr {l' : α → β} (h : Owned P owner l) (hl : ∀ z, P (l' z) ↔ P (l z)) :
    Owned P owner l' := fun z => (hl z).trans (h z)

/-! Several mutexes: `key` is the one that is held. -/

variable {κ : Type w} {key : β → Option κ} {owners : κ → Option α} {k : κ}

/-- Each mutex has the owner that is inside. -/
def OwnedBy (key : β → Option κ) (owners : κ → Option α) (l : α → β) : Prop :=
  ∀ k, Owned (fun y => key y = some k) (owners k) l

theorem OwnedBy.stay (h : OwnedBy key owners l) (hy : key y = key (l x)) :
    OwnedBy key owners (Function.update l x y) := fun k => (h k).stay (by rw [hy])

variable [DecidableEq κ]

theorem OwnedBy.take (h : OwnedBy key owners l) (hk : owners k = none) (hx : key (l x) = none)
    (hy : key y = some k) : OwnedBy key (Function.update owners k (some x)) (Function.update l x y) := by
  intro k'
  rcases eq_or_ne k' k with rfl | hne
  · rw [Function.update_self]
    have hfree := h k'
    rw [hk] at hfree
    exact hfree.take hy
  · rw [Function.update_of_ne hne]
    exact (h k').stay (iff_of_false (fun he => hne (Option.some.inj (he.symm.trans hy)))
      (by rw [hx]; nofun))

theorem OwnedBy.drop (h : OwnedBy key owners l) (hx : key (l x) = some k) (hy : key y = none) :
    OwnedBy key (Function.update owners k none) (Function.update l x y) := by
  intro k'
  rcases eq_or_ne k' k with rfl | hne
  · rw [Function.update_self]
    exact (h k').drop hx (by rw [hy]; nofun)
  · rw [Function.update_of_ne hne]
    exact (h k').stay (iff_of_false (by rw [hy]; nofun)
      (fun he => hne (Option.some.inj (he.symm.trans hx))))

omit [DecidableEq α] [DecidableEq κ] in
theorem OwnedBy.congr {l' : α → β} (h : OwnedBy key owners l) (hl : ∀ z, key (l' z) = key (l z)) :
    OwnedBy key owners l' := fun k => (h k).congr fun z => by rw [hl z]

omit [DecidableEq α] [DecidableEq κ] in
/-- Two that hold the same mutex are one. -/
theorem OwnedBy.eq (h : OwnedBy key owners l) {z : α} (hx : key (l x) = some k) (hz : key (l z) = some k) :
    x = z := Option.some.inj (((h k x).1 hx).symm.trans ((h k z).1 hz))

end owned

end Lock
