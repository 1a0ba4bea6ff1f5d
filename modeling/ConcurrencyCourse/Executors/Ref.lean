import ConcurrencyCourse.SharedPtr.Assignment

/-!
# `Ref` and `RefCounted` (tasks/executors/exe/support/refer/{ref,ref_counted}.hpp)

Objects that are `RefCounted`, each with some `Ref`s as members; one thread. A `Ref` is a variable or a member of an
object, and a member is gone when the object is deleted.

| here | there |
| --- | --- |
| `Heap.obj`, `Heap.refCount` | `obj_` (ref.hpp 151), and `ref_count_` (ref_counted.hpp 52) with numbers that do not wrap: a `size_t` is one of them below 2^64 `Ref`s to an object |
| `releaseRef` | `ReleaseRef`, `DestroySelf` (ref_counted.hpp 24-28, 47-49) |
| `destroyWith` | the `~Ref` (ref.hpp 51-55) of each member; it leaves `obj_` as it is |
| `assign` | `operator=` (ref.hpp 89-92): `SwapWith`, and `~that` when it returns |
| `copyAssign`, `moveAssign`, … | how `that` is made (ref.hpp 24-79; `New`, `RefFromThis` in ref_counted.hpp 38-40, 58-62) |
| `reset` | `Reset` (ref.hpp 94-99) |

`operator=` releases the old object when the pointers are swapped, and touches nothing afterwards. So it is right for
whatever the objects refer to, also where the assignments of `SharedPtr` are not (`SharedPtr/Assignment.lean`). `Reset`
writes `obj_` after the release: it must not be called on a `Ref` that is a member of what only this `Ref` keeps.
-/

namespace Refer

open Function Transition
open SharedPtr.Assignment (Loc Fault inside fields depth refs)

structure Heap (ν : Type) {β : Type} (arity : β → Nat) where
  obj : Loc ν arity → Option β
  refCount : β → Int
  /-- The object has not been deleted. -/
  alive : β → Bool

section model

variable {ν β : Type} {arity : β → Nat}

/-- The storage of the `Ref` has not been freed. -/
def Heap.live (h : Heap ν arity) (l : Loc ν arity) : Bool := (inside l).all h.alive

/-- The read of `obj_`. -/
def Heap.get (h : Heap ν arity) (l : Loc ν arity) : Except Fault (Option β) :=
  if h.live l then .ok (h.obj l) else .error .freed

variable [DecidableEq ν] [DecidableEq β]

/-- The write of `obj_`. -/
def Heap.set (h : Heap ν arity) (l : Loc ν arity) (c : Option β) : Except Fault (Heap ν arity) :=
  if h.live l then .ok { h with obj := update h.obj l c } else .error .freed

def Heap.addCount (h : Heap ν arity) (b : β) (n : Int) : Heap ν arity :=
  { h with refCount := update h.refCount b (h.refCount b + n) }

def Heap.free (h : Heap ν arity) (b : β) : Heap ν arity := { h with alive := update h.alive b false }

/-- `if (IsValid()) AddRef()`. -/
def addRef (h : Heap ν arity) : Option β → Except Fault (Heap ν arity)
  | none => .ok h
  | some b => if h.alive b then .ok (h.addCount b 1) else .error .freed

/-- `~Ref`, with what releases the object. -/
def destroyWith (releaseRef : Heap ν arity → β → Except Fault (Heap ν arity)) (h : Heap ν arity)
    (l : Loc ν arity) : Except Fault (Heap ν arity) :=
  (h.get l).bind fun
    | none => .ok h
    | some c => releaseRef h c

/-- The destructors of the members. -/
def destroyAll (releaseRef : Heap ν arity → β → Except Fault (Heap ν arity)) :
    List (Loc ν arity) → Heap ν arity → Except Fault (Heap ν arity)
  | [], h => .ok h
  | l :: ls, h => (destroyWith releaseRef h l).bind (destroyAll releaseRef ls)

/-- `ReleaseRef`. -/
def releaseRef : Nat → Heap ν arity → β → Except Fault (Heap ν arity)
  | 0, _, _ => .error .depth
  | n + 1, h, b =>
    if h.alive b then
      if h.refCount b = 1 then
        (destroyAll (releaseRef n) (fields b) (h.addCount b (-1))).map fun h => h.free b
      else .ok (h.addCount b (-1))
    else .error .freed

/-- `new T`, at the address `b`, with the count that `Adopt` takes over. -/
def Heap.create (h : Heap ν arity) (b : β) : Heap ν arity where
  obj l := if inside l = some b then none else h.obj l
  refCount := update h.refCount b 1
  alive := update h.alive b true

variable [Fintype β]

/-- `~Ref` of a temporary. -/
def release (h : Heap ν arity) : Option β → Except Fault (Heap ν arity)
  | none => .ok h
  | some c => releaseRef (depth β) h c

/-- `x = that`, by value. -/
def assign (h : Heap ν arity) (x : Loc ν arity) (that : Option β) : Except Fault (Heap ν arity) :=
  (h.get x).bind fun old => (h.set x that).bind fun h => release h old

/-- `x = Ref(b)`: a raw pointer is counted; so does `RefFromThis`. -/
def assignRaw (h : Heap ν arity) (x : Loc ν arity) (b : Option β) : Except Fault (Heap ν arity) :=
  (addRef h b).bind fun h => assign h x b

/-- `x = y`. -/
def copyAssign (h : Heap ν arity) (x y : Loc ν arity) : Except Fault (Heap ν arity) :=
  (h.get y).bind fun c => assignRaw h x c

/-- `x = std::move(y)`. -/
def moveAssign (h : Heap ν arity) (x y : Loc ν arity) : Except Fault (Heap ν arity) :=
  (h.get y).bind fun c => (h.set y none).bind fun h => assign h x c

/-- `x = New<T>()`. -/
def assignNew (h : Heap ν arity) (x : Loc ν arity) (b : β) : Except Fault (Heap ν arity) :=
  assign (h.create b) x (some b)

/-- `x.Reset()`. -/
def reset (h : Heap ν arity) (x : Loc ν arity) : Except Fault (Heap ν arity) :=
  (h.get x).bind fun
    | none => .ok h
    | some c => (releaseRef (depth β) h c).bind fun h => h.set x none

inductive Act (ν : Type) {β : Type} (arity : β → Nat) where
  | new (x : Loc ν arity) (b : β)
  /-- From a raw pointer, or from `nullptr`. -/
  | raw (x : Loc ν arity) (b : Option β)
  | copy (x y : Loc ν arity)
  | move (x y : Loc ν arity)
  | reset (x : Loc ν arity)

def Act.run (h : Heap ν arity) : Act ν arity → Except Fault (Heap ν arity)
  | .new x b => assignNew h x b
  | .raw x b => assignRaw h x b
  | .copy x y => copyAssign h x y
  | .move x y => moveAssign h x y
  | .reset x => Refer.reset h x

/-- The `Ref`s, and the raw pointer, are those of objects that are there; `new` gets memory that is free. -/
def Act.usable (h : Heap ν arity) : Act ν arity → Bool
  | .new x b => h.live x && !h.alive b
  | .raw x b => h.live x && b.all h.alive
  | .copy x y | .move x y => h.live x && h.live y
  | .reset x => h.live x

/-- Any statements, as long as none has gone wrong. -/
def step (h : Heap ν arity) (a : Act ν arity) : Option (Heap ν arity) :=
  if a.usable h then (a.run h).toOption else none

def init : Heap ν arity where
  obj _ := none
  refCount _ := 0
  alive _ := false

variable (ν) (arity) in
def system : System (Heap ν arity) (Act ν arity) := ⟨fun h => h = init, step⟩

end model

/-! ### What it is for -/

section spec

variable {ν β : Type} [Fintype ν] [DecidableEq ν] [Fintype β] [DecidableEq β] {arity : β → Nat}

/-- Each `Ref`, and the temporary `that`, refers to an object that is there, and each object is referred to as
often as its counter says, and at least once. -/
structure Heap.Holds (h : Heap ν arity) (that : Option β) : Prop where
  target : ∀ l c, h.live l = true → h.obj l = some c → h.alive c = true
  temporary : ∀ c, that = some c → h.alive c = true
  count : ∀ c, h.alive c = true → h.refCount c =
    ((Finset.univ.filter fun l => h.live l = true ∧ h.obj l = some c).card : Int) + if that = some c then 1 else 0
  pos : ∀ c, h.alive c = true → 0 < h.refCount c

/-- From `h`, when the `Ref`s that are not gone are `f`: exactly the objects that are not kept any more are gone. -/
structure After (h : Heap ν arity) (f : Loc ν arity → Option β) (h' : Heap ν arity) : Prop where
  alive : ∀ c, h'.alive c = true ↔ h.alive c = true ∧ ¬ Ownership.Dies f inside (fun l => h.live l = true) c
  obj : ∀ l, h'.live l = true → h'.obj l = f l

/-- The `Ref` is a member of an object that is kept, directly or through others, only by itself. -/
def KeepsItself (h : Heap ν arity) (x : Loc ν arity) : Prop :=
  Ownership.Lost h.obj inside (fun l => h.live l = true ∧ l ≠ x) x

/-- What is there, with the object that the statement makes. -/
def Act.heap (h : Heap ν arity) : Act ν arity → Heap ν arity
  | .new _ b => h.create b
  | _ => h

/-- The `Ref`s after the statement. -/
def Act.refs (h : Heap ν arity) : Act ν arity → Loc ν arity → Option β
  | .new x b => update (h.create b).obj x (some b)
  | .raw x b => update h.obj x b
  | .copy x y => update h.obj x (h.obj y)
  | .move x y => update (update h.obj y none) x (h.obj y)
  | .reset x => update h.obj x none

def Act.careful (h : Heap ν arity) : Act ν arity → Prop
  | .reset x => ¬ KeepsItself h x
  | _ => True

variable (ν arity) in
structure Correct : Prop where
  /-- In every run of any statements each object has as many references as it counts, and is there as long as
  it has one. -/
  counts : ∀ h, Reach (system ν arity) anyStep h → h.Holds none
  /-- Every statement touches what is there only, sets its `Ref`s, and deletes what they do not keep. -/
  careful : ∀ h, Reach (system ν arity) anyStep h → ∀ a : Act ν arity, a.usable h = true → a.careful h →
    ∃ h', a.run h = .ok h' ∧ After (a.heap h) (a.refs h) h'
  /-- But a `Reset` of what keeps itself writes to memory that it has freed. -/
  careless : ∀ h, Reach (system ν arity) anyStep h → ∀ a : Act ν arity, a.usable h = true → ¬ a.careful h →
    a.run h = .error .freed

end spec

/-! ### The destructors -/

theorem ok_of_bind {ε α γ : Type} {x : Except ε α} {k : α → Except ε γ} {c : γ} (h : x.bind k = .ok c) :
    ∃ a, x = .ok a ∧ k a = .ok c := by
  cases x with
  | error e => cases h
  | ok a => exact ⟨a, rfl, h⟩

theorem ok_of_map {ε α γ : Type} {x : Except ε α} {k : α → γ} {c : γ} (h : x.map k = .ok c) :
    ∃ a, x = .ok a ∧ k a = c := by
  cases x with
  | error e => cases h
  | ok a => exact ⟨a, rfl, Except.ok.inj h⟩

section release

open SharedPtr.Assignment (incrementCounter resetWith resetAll mem_fields nodup_fields)

variable {ν β : Type} [DecidableEq ν] [DecidableEq β] {arity : β → Nat} {D D₁ : Loc ν arity → Prop}
  {h h' h₁ : Heap ν arity} {g g' g₁ : SharedPtr.Assignment.Heap ν arity} {E : β → Prop} {l : Loc ν arity} {b : β}

omit [DecidableEq ν] [DecidableEq β] in
/-- `h` as a heap of blocks without transient references. -/
def Heap.plain (h : Heap ν arity) : SharedPtr.Assignment.Heap ν arity := ⟨h.obj, h.refCount, fun _ => 0, h.alive⟩

/-- The same objects. The members in `D` have been destroyed: there `g` has `nullptr`, and `h` what was there. -/
structure Sim (D : Loc ν arity → Prop) (h : Heap ν arity) (g : SharedPtr.Assignment.Heap ν arity) : Prop where
  refCount : g.strong = h.refCount
  transient : ∀ c, g.transient c = 0
  alive : g.alive = h.alive
  obj : ∀ l, ¬ D l → g.ctrl l = h.obj l
  gone : ∀ l, D l → ∃ d, inside l = some d ∧ h.refCount d ≤ 0

/-- Between `h` and `h'` counters go down, and the members of objects whose counters come to zero, and of `E`, are
destroyed. -/
structure Falls (E : β → Prop) (D D' : Loc ν arity → Prop) (h h' : Heap ν arity) : Prop where
  obj : h'.obj = h.obj
  le : ∀ c, h'.refCount c ≤ h.refCount c
  same : ∀ c, h.refCount c ≤ 0 → h'.alive c = h.alive c
  fell : ∀ l, D' l → ¬ D l → ∃ d, inside l = some d ∧ (0 < h.refCount d ∨ E d)

omit [DecidableEq ν] in
theorem Sim.addCount (s : Sim D h g) : Sim D (h.addCount b (-1)) (g.addCounter b (-1) 0) where
  refCount := by
    change update g.strong b (g.strong b + -1) = update h.refCount b (h.refCount b + -1)
    rw [s.refCount]
  transient c := by
    change update g.transient b (g.transient b + 0) c = 0
    rw [add_zero, update_eq_self]
    exact s.transient c
  alive := s.alive
  obj := s.obj
  gone l hl := by
    obtain ⟨d, hd, hz⟩ := s.gone l hl
    refine ⟨d, hd, ?_⟩
    change update h.refCount b (h.refCount b + -1) d ≤ 0
    rcases eq_or_ne d b with rfl | hdb
    · rw [update_self]
      omega
    · rwa [update_of_ne hdb]

omit [DecidableEq ν] in
theorem addCount_le (c : β) : (h.addCount b (-1)).refCount c ≤ h.refCount c := by
  change update h.refCount b (h.refCount b + -1) c ≤ h.refCount c
  rcases eq_or_ne c b with rfl | hcb
  · rw [update_self]
    omega
  · rw [update_of_ne hcb]

omit [DecidableEq ν] in
theorem Falls.addCount : Falls E D D h (h.addCount b (-1)) :=
  ⟨rfl, addCount_le, fun _ _ => rfl, fun _ hl hno => absurd hl hno⟩

omit [DecidableEq ν] in
theorem Sim.free (s : Sim D h g) : Sim D (h.free b) (g.free b) where
  refCount := s.refCount
  transient := s.transient
  alive := by
    change update g.alive b false = update h.alive b false
    rw [s.alive]
  obj := s.obj
  gone := s.gone

variable (ν arity) in
/-- `ReleaseRef` deletes the same objects as `DecrementStrong`, although the pointers of destroyed members stay. -/
def Simulates (n : Nat) : Prop :=
  ∀ (D : Loc ν arity → Prop) (h : Heap ν arity) (g g' : SharedPtr.Assignment.Heap ν arity) (b : β), Sim D h g →
    incrementCounter n g b (-1) 0 = .ok g' →
    ∃ h' D', releaseRef n h b = .ok h' ∧ Sim D' h' g' ∧ Falls (fun _ => False) D D' h h'

omit [DecidableEq ν] [DecidableEq β] in
theorem Sim.get (s : Sim D h g) (hD : ¬ D l) : h.get l = g.get l := by
  unfold Heap.get SharedPtr.Assignment.Heap.get Heap.live SharedPtr.Assignment.Heap.live
  rw [s.obj l hD, s.alive]

/-- `~SharedPtr` has set the member to null. -/
theorem Sim.destroyed (s : Sim D h g) (hl : inside l = some b) (hz : h.refCount b ≤ 0) :
    Sim (fun l' => D l' ∨ l' = l) h { g with ctrl := update g.ctrl l none } where
  refCount := s.refCount
  transient := s.transient
  alive := s.alive
  obj l' hl' := by
    rw [not_or] at hl'
    exact (update_of_ne hl'.2 ..).trans (s.obj l' hl'.1)
  gone l' hl' := by
    rcases hl' with hl' | rfl
    · exact s.gone l' hl'
    · exact ⟨b, hl, hz⟩

omit [DecidableEq ν] [DecidableEq β] in
theorem Falls.destroyed (f : Falls (fun _ => False) D D₁ h h₁) (hl : inside l = some b) :
    Falls (· = b) D (fun l' => D₁ l' ∨ l' = l) h h₁ where
  obj := f.obj
  le := f.le
  same := f.same
  fell l' hl' hno := by
    rcases hl' with hl' | rfl
    · obtain ⟨d, hd, hpos⟩ := f.fell l' hl' hno
      exact ⟨d, hd, .inl (hpos.resolve_right id)⟩
    · exact ⟨b, hl, .inr rfl⟩

omit [DecidableEq ν] [DecidableEq β] in
theorem Falls.refl : Falls E D D h h :=
  ⟨rfl, fun _ => le_rfl, fun _ _ => rfl, fun _ hl hno => absurd hl hno⟩

theorem ctrl_of_set {o : Option β} (hs : g.set l o = .ok g') : g' = { g with ctrl := update g.ctrl l o } := by
  unfold SharedPtr.Assignment.Heap.set at hs
  split at hs
  · exact (Except.ok.inj hs).symm
  · cases hs

/-- One member: `~SharedPtr` sets it to null when the object is released, `~Ref` does not. -/
theorem sim_destroyWith {n : Nat} (ih : Simulates ν arity n) (s : Sim D h g) (hl : inside l = some b)
    (hz : h.refCount b ≤ 0) (hD : ¬ D l)
    (hrun : resetWith (fun g c => incrementCounter n g c (-1) 0) g l = .ok g') :
    ∃ h' D', destroyWith (releaseRef n) h l = .ok h' ∧ Sim D' h' g' ∧ Falls (· = b) D D' h h' ∧
      ∀ l', l' ≠ l → inside l' = some b → D' l' → D l' := by
  obtain ⟨o, hget, hrun⟩ := ok_of_bind hrun
  unfold destroyWith
  rw [s.get hD, hget]
  cases o with
  | none =>
    cases hrun
    exact ⟨h, D, rfl, s, .refl, fun _ _ _ => id⟩
  | some c =>
    obtain ⟨g₁, hg, hset⟩ := ok_of_bind hrun
    obtain ⟨h₁, D₁, hrun₁, s₁, f⟩ := ih D h g g₁ c s hg
    obtain rfl := ctrl_of_set hset
    refine ⟨h₁, fun l' => D₁ l' ∨ l' = l, hrun₁, s₁.destroyed hl ((f.le b).trans hz), f.destroyed hl,
      fun l' hne hin hl' => ?_⟩
    -- the counter of this object was at zero before
    by_contra hno
    obtain ⟨d, hd, hpos⟩ := f.fell l' (hl'.resolve_right hne) hno
    obtain rfl := Option.some.inj (hd.symm.trans hin)
    exact absurd (hpos.resolve_right id) (not_lt.2 hz)

omit [DecidableEq ν] [DecidableEq β] in
theorem Falls.trans {D' : Loc ν arity → Prop} (p : Falls E D D₁ h h₁) (q : Falls E D₁ D' h₁ h') :
    Falls E D D' h h' where
  obj := q.obj.trans p.obj
  le c := (q.le c).trans (p.le c)
  same c hz := (q.same c ((p.le c).trans hz)).trans (p.same c hz)
  fell l hl hno := by
    by_cases h₁ : D₁ l
    · exact p.fell l h₁ hno
    · obtain ⟨d, hd, hpos⟩ := q.fell l hl h₁
      exact ⟨d, hd, hpos.imp (fun hp => hp.trans_le (p.le d)) id⟩

theorem sim_destroyAll {n : Nat} (ih : Simulates ν arity n) (ls : List (Loc ν arity)) (hnodup : ls.Nodup)
    (hin : ∀ l ∈ ls, inside l = some b) (hD : ∀ l ∈ ls, ¬ D l) (s : Sim D h g) (hz : h.refCount b ≤ 0)
    (hrun : resetAll (fun g c => incrementCounter n g c (-1) 0) ls g = .ok g') :
    ∃ h' D', destroyAll (releaseRef n) ls h = .ok h' ∧ Sim D' h' g' ∧ Falls (· = b) D D' h h' := by
  induction ls generalizing D h g with
  | nil =>
    cases hrun
    exact ⟨h, D, rfl, s, .refl⟩
  | cons l ls ihl =>
    obtain ⟨hnot, hnodup⟩ := List.nodup_cons.1 hnodup
    obtain ⟨hl, hin⟩ := List.forall_mem_cons.1 hin
    obtain ⟨hDl, hD⟩ := List.forall_mem_cons.1 hD
    obtain ⟨g₁, hg, hrun⟩ := ok_of_bind hrun
    obtain ⟨h₁, D₁, hrun₁, s₁, f₁, hrest⟩ := sim_destroyWith ih s hl hz hDl hg
    -- the other members of this object are as they were
    have hD₁ : ∀ l' ∈ ls, ¬ D₁ l' := fun l' hl' hd =>
      hD l' hl' (hrest l' (ne_of_mem_of_not_mem hl' hnot) (hin l' hl') hd)
    obtain ⟨h', D', hrun', s', f'⟩ := ihl hnodup hin hD₁ s₁ ((f₁.le b).trans hz) hrun
    refine ⟨h', D', ?_, s', f₁.trans f'⟩
    rw [destroyAll, hrun₁]
    exact hrun'

theorem simulates (n : Nat) : Simulates ν arity n := by
  induction n with
  | zero =>
    intro D h g g' b _ hrun
    cases hrun
  | succ n ih =>
    intro D h g g' b s hrun
    rw [incrementCounter, s.alive] at hrun
    cases ha : h.alive b with
    | false =>
      rw [ha] at hrun
      cases hrun
    | true =>
      rw [ha, if_pos rfl] at hrun
      rw [releaseRef, ha, if_pos rfl]
      have s₀ := s.addCount (b := b)
      have hself : (g.addCounter b (-1) 0).strong b = h.refCount b + -1 := by
        rw [← s.refCount]
        exact update_self ..
      by_cases hone : h.refCount b = 1
      · rw [if_pos ⟨by omega, s₀.transient b⟩] at hrun
        rw [if_pos hone]
        obtain ⟨g₁, hg, rfl⟩ := ok_of_map hrun
        have hz : (h.addCount b (-1)).refCount b ≤ 0 := by
          rw [← s₀.refCount, hself]
          omega
        have hin : ∀ l ∈ (fields b : List (Loc ν arity)), inside l = some b := fun l => mem_fields.1
        have hD : ∀ l ∈ (fields b : List (Loc ν arity)), ¬ D l := by
          intro l hl hDl
          obtain ⟨d, hd, hzero⟩ := s.gone l hDl
          obtain rfl := Option.some.inj (hd.symm.trans (hin l hl))
          omega
        obtain ⟨h₁, D', hrun₁, s₁, f⟩ := sim_destroyAll ih (fields b) nodup_fields hin hD s₀ hz hg
        refine ⟨h₁.free b, D', by rw [hrun₁]; rfl, s₁.free, f.obj, fun c => (f.le c).trans (addCount_le c),
          fun c hc => ?_, fun l hl hno => ?_⟩
        · have hcb : c ≠ b := by
            rintro rfl
            omega
          exact (update_of_ne hcb ..).trans (f.same c ((addCount_le c).trans hc))
        · obtain ⟨d, hd, hpos | rfl⟩ := f.fell l hl hno
          · exact ⟨d, hd, .inl (hpos.trans_le (addCount_le d))⟩
          · exact ⟨d, hd, .inl (by omega)⟩
      · rw [if_neg fun hc => hone (by have := hc.1; omega)] at hrun
        rw [if_neg hone]
        cases hrun
        exact ⟨_, D, rfl, s₀, .addCount⟩

end release

/-! ### One release -/

section after

variable {ν β : Type} [Fintype ν] [DecidableEq ν] [Fintype β] [DecidableEq β] {arity : β → Nat}
  {h h₀ h₁ h' : Heap ν arity} {K U : Finset (Loc ν arity)} {f : Loc ν arity → Option β} {that : Option β}
  {x y l : Loc ν arity} {b c : β}

open SharedPtr.Assignment (handles others mem_handles mem_others handles_eq_insert live_of_inside refs_eq_zero
  refs_congr refs_insert Ready Released)

/-- What `release` does, in terms of what is kept. -/
theorem release_ok {pin : Option β} (r : Ready h.plain K pin) :
    ∃ h' U, release h pin = .ok h' ∧ h'.obj = h.obj ∧ Released h.plain K U h'.plain := by
  obtain ⟨g, U, hrun, hr⟩ := r.release
  cases pin with
  | none =>
    cases hrun
    exact ⟨h, U, rfl, rfl, hr⟩
  | some b =>
    have s : Sim (fun _ => False) h h.plain := ⟨rfl, fun _ => rfl, rfl, fun _ _ => rfl, fun _ hl => hl.elim⟩
    obtain ⟨h', D, hrun', s', hf⟩ := simulates (depth β) _ h h.plain g b s hrun
    refine ⟨h', U, hrun', hf.obj, ?_, hr.kept, ?_, fun _ _ => rfl, fun l _ => congrFun hf.obj l⟩
    · intro c
      rw [← hr.alive c, s'.alive]
      rfl
    · intro c hc
      change h'.alive c = true at hc
      rw [← s'.alive] at hc
      rw [← hr.strong c hc, s'.refCount]
      rfl

omit [Fintype ν] [DecidableEq ν] [Fintype β] in
/-- An object that is there is referred to. -/
theorem refCount_pos (r : Released h.plain K U h'.plain) (hc : h'.alive c = true) : 0 < h'.refCount c := by
  have hcount : h'.refCount c = refs U h.obj c := r.strong c hc
  by_contra hno
  have hzero : refs U h.obj c = 0 := by omega
  refine ((r.alive c).1 hc).2 fun l hl hobj => ?_
  by_contra hlost
  exact refs_eq_zero.1 hzero l ((r.kept l).2 ⟨hl, hlost⟩) hobj

omit [Fintype ν] [DecidableEq ν] [Fintype β] in
theorem alive_of_kept (r : Released h.plain K U h'.plain) (hl : l ∈ U) (hobj : h.obj l = some c)
    (hc : h.alive c = true) : h'.alive c = true := by
  obtain ⟨hK, hlost⟩ := (r.kept l).1 hl
  exact (r.alive c).2 ⟨hc, fun hdies => hlost (hdies l hK hobj)⟩

omit [DecidableEq ν] [DecidableEq β] in
theorem live_eq_handles : (fun l : Loc ν arity => h.live l = true) = (· ∈ handles h.plain) :=
  funext fun _ => propext (mem_handles (h := h.plain)).symm

/-- When a pending release comes last, it leaves what is kept by the `Ref`s. -/
theorem release_after {pin : Option β} (r : Ready h.plain (handles h.plain) pin) :
    ∃ h', release h pin = .ok h' ∧ h'.Holds none ∧ After h h.obj h' := by
  obtain ⟨h', U, hrun, hobj, hr⟩ := release_ok r
  have hU : ∀ l, l ∈ U ↔ h'.live l = true := fun l => by
    rw [hr.kept, mem_handles]
    exact hr.live_iff.symm
  refine ⟨h', hrun, ⟨fun l c hl hc => ?_, nofun, fun c hc => ?_, fun c hc => refCount_pos hr hc⟩, fun c => ?_,
    fun l _ => congrFun hobj l⟩
  · rw [hobj] at hc
    have hlU := (hU l).2 hl
    exact alive_of_kept hr hlU hc (r.target l ((hr.kept l).1 hlU).1 c hc)
  · have hcount : h'.refCount c = refs U h.obj c := hr.strong c hc
    rw [hcount, if_neg nofun, add_zero]
    unfold refs
    congr 2
    ext l
    rw [Finset.mem_filter, Finset.mem_filter, hU, hobj]
    exact (and_iff_right (Finset.mem_univ l)).symm
  · rw [live_eq_handles]
    exact hr.alive c

/-- `x = that`: the temporary is now `x`, and the old object is the temporary. -/
theorem Heap.Holds.ready (w : h.Holds that) (hx : h.live x = true) :
    Ready { h with obj := update h.obj x that }.plain (handles h.plain) (h.obj x) where
  live l hl := mem_handles.1 hl
  target l hl c hc := by
    change update h.obj x that l = some c at hc
    rcases eq_or_ne l x with rfl | hne
    · rw [update_self] at hc
      exact w.temporary c hc
    · rw [update_of_ne hne] at hc
      exact w.target l c (mem_handles.1 hl) hc
  count c hc := by
    have hcount : h.refCount c = refs (handles h.plain) h.obj c + if that = some c then 1 else 0 := by
      rw [w.count c hc]
      unfold refs handles
      rw [Finset.filter_filter]
      rfl
    change h.refCount c = (refs (handles h.plain) (update h.obj x that) c : Int) + _
    have hxo : x ∉ others h.plain x := fun hm => (mem_others.1 hm).2 rfl
    have hrest : refs (others h.plain x) (update h.obj x that) c = refs (others h.plain x) h.obj c :=
      refs_congr fun l hl => update_of_ne (mem_others.1 hl).2 ..
    rw [hcount, handles_eq_insert (h := h.plain) hx, refs_insert hxo,
      refs_insert hxo, update_self, hrest, Int.natCast_add, Int.natCast_add]
    split <;> split <;> simp only [Int.natCast_one, Int.natCast_zero] <;> omega
  pos := w.pos
  transient _ _ := rfl
  stray l hl hd c _ := by
    obtain ⟨d, hd, ha⟩ := hd
    exact absurd (mem_handles.2 (live_of_inside hd ha)) hl
  pinned c hc := w.target x c hx hc

theorem Heap.Holds.assign (w : h.Holds that) (hx : h.live x = true) :
    ∃ h', assign h x that = .ok h' ∧ h'.Holds none ∧ After h (update h.obj x that) h' := by
  obtain ⟨h', hrun, hh, ha⟩ := release_after (h := { h with obj := update h.obj x that }) (w.ready hx)
  refine ⟨h', ?_, hh, ha.alive, ha.obj⟩
  have hget : h.get x = .ok (h.obj x) := if_pos hx
  have hset : h.set x that = .ok { h with obj := update h.obj x that } := if_pos hx
  unfold Refer.assign
  rw [hget]
  simp only [Except.bind, hset]
  exact hrun

/-! ### The temporary -/

omit [DecidableEq ν] in
theorem Heap.Holds.addRef {o : Option β} (w : h.Holds none) (ho : ∀ c, o = some c → h.alive c = true) :
    ∃ h₁, addRef h o = .ok h₁ ∧ h₁.Holds o ∧ h₁.obj = h.obj ∧ h₁.alive = h.alive := by
  cases o with
  | none => exact ⟨h, rfl, w, rfl, rfl⟩
  | some b =>
    have hb := ho b rfl
    have hcount : ∀ c, (h.addCount b 1).refCount c = h.refCount c + if some b = some c then 1 else 0 := by
      intro c
      change update h.refCount b (h.refCount b + 1) c = _
      rcases eq_or_ne c b with rfl | hcb
      · rw [update_self, if_pos rfl]
      · rw [update_of_ne hcb, if_neg fun he => hcb (Option.some.inj he).symm, add_zero]
    refine ⟨h.addCount b 1, if_pos hb, ⟨w.target, ho, fun c hc => ?_, fun c hc => ?_⟩, rfl, rfl⟩
    · have hw := w.count c hc
      rw [if_neg nofun, add_zero] at hw
      rw [hcount, hw]
      rfl
    · have hpos := w.pos c hc
      rw [hcount]
      split <;> omega

/-- `that.Release()`: the temporary takes over the reference of `y`. -/
theorem Heap.Holds.take (w : h.Holds none) (hy : h.live y = true) :
    { h with obj := update h.obj y none }.Holds (h.obj y) where
  target l c hl hc := by
    change update h.obj y none l = some c at hc
    rcases eq_or_ne l y with rfl | hne
    · rw [update_self] at hc
      cases hc
    · rw [update_of_ne hne] at hc
      exact w.target l c hl hc
  temporary c hc := w.target y c hy hc
  count c hc := by
    have hw := w.count c hc
    rw [if_neg nofun, add_zero] at hw
    have hset : (Finset.univ.filter fun l => h.live l = true ∧ update h.obj y none l = some c) =
        (Finset.univ.filter fun l => h.live l = true ∧ h.obj l = some c).erase y := by
      ext l
      rcases eq_or_ne l y with rfl | hne
      · simp
      · simp [hne]
    change h.refCount c =
      ((Finset.univ.filter fun l => h.live l = true ∧ update h.obj y none l = some c).card : Int) + _
    rw [hw, hset]
    by_cases hyc : h.obj y = some c
    · have hmem : y ∈ Finset.univ.filter fun l => h.live l = true ∧ h.obj l = some c := by simp [hy, hyc]
      rw [if_pos hyc, ← Finset.card_erase_add_one hmem, Int.natCast_add, Int.natCast_one]
    · rw [if_neg hyc, Finset.erase_eq_of_notMem (by simp [hyc]), add_zero]
  pos := w.pos

omit [DecidableEq ν] in
/-- The new object has no `Ref` yet but the temporary. -/
theorem Heap.Holds.create (w : h.Holds none) (hb : h.alive b = false) : (h.create b).Holds (some b) := by
  have hold : ∀ {c}, h.alive c = true → c ≠ b := by
    rintro c hc rfl
    rw [hb] at hc
    cases hc
  have halive : ∀ {c}, c ≠ b → (h.create b).alive c = h.alive c := fun hcb => update_of_ne hcb ..
  -- a `Ref` that is not null is an old one
  have hlive : ∀ l c, ((h.create b).live l = true ∧ (h.create b).obj l = some c) ↔
      (h.live l = true ∧ h.obj l = some c) := by
    intro l c
    change _ ∧ (if inside l = some b then none else h.obj l) = some c ↔ _
    unfold Heap.live
    rcases hl : inside l with _ | d
    · simp
    · by_cases hdb : d = b
      · simp [hdb, hb]
      · simp [hdb, halive hdb]
  refine ⟨fun l c hl hc => ?_, fun c hc => ?_, fun c hc => ?_, fun c hc => ?_⟩
  · obtain ⟨hl, hc⟩ := (hlive l c).1 ⟨hl, hc⟩
    have ha := w.target l c hl hc
    rwa [halive (hold ha)]
  · cases hc
    exact update_self ..
  · simp only [hlive]
    rcases eq_or_ne c b with rfl | hcb
    · have hnone : (Finset.univ.filter fun l => h.live l = true ∧ h.obj l = some c) = ∅ := by
        refine Finset.filter_eq_empty_iff.2 fun l _ hl => ?_
        exact hold (w.target l c hl.1 hl.2) rfl
      rw [hnone, if_pos rfl]
      exact update_self ..
    · rw [halive hcb] at hc
      have hw := w.count c hc
      rw [if_neg nofun] at hw
      rw [if_neg fun he => hcb (Option.some.inj he).symm]
      exact (update_of_ne hcb ..).trans hw
  · rcases eq_or_ne c b with rfl | hcb
    · have hone : (h.create c).refCount c = 1 := update_self ..
      rw [hone]
      exact Int.one_pos
    · rw [halive hcb] at hc
      exact (w.pos c hc).trans_eq (update_of_ne hcb ..).symm

omit [Fintype ν] [DecidableEq ν] [Fintype β] in
theorem live_create (hx : h.live x = true) : (h.create b).live x = true := by
  unfold Heap.live at hx ⊢
  rcases hi : inside x with _ | d
  · rfl
  · rw [hi] at hx
    change update h.alive b true d = true
    rcases eq_or_ne d b with rfl | hdb
    · exact update_self ..
    · rw [update_of_ne hdb]
      exact hx

/-! ### The statements -/

theorem assignRaw_ok {o : Option β} (w : h.Holds none) (hx : h.live x = true)
    (ho : ∀ c, o = some c → h.alive c = true) :
    ∃ h', assignRaw h x o = .ok h' ∧ h'.Holds none ∧ After h (update h.obj x o) h' := by
  obtain ⟨h₁, hrun, w₁, hobj, halive⟩ := w.addRef ho
  have hlive : ∀ l, h₁.live l = h.live l := fun l => by
    unfold Heap.live
    rw [halive]
  obtain ⟨h', hrun', w', ha⟩ := w₁.assign ((hlive x).trans hx)
  refine ⟨h', ?_, w', fun c => ?_, fun l hl => ?_⟩
  · unfold assignRaw
    rw [hrun]
    exact hrun'
  · rw [ha.alive, halive, hobj]
    simp only [hlive]
  · rw [ha.obj l hl, hobj]

theorem copyAssign_ok (w : h.Holds none) (hx : h.live x = true) (hy : h.live y = true) :
    ∃ h', copyAssign h x y = .ok h' ∧ h'.Holds none ∧ After h (update h.obj x (h.obj y)) h' := by
  have hget : h.get y = .ok (h.obj y) := if_pos hy
  unfold copyAssign
  rw [hget]
  exact assignRaw_ok w hx fun c hc => w.target y c hy hc

theorem moveAssign_ok (w : h.Holds none) (hx : h.live x = true) (hy : h.live y = true) :
    ∃ h', moveAssign h x y = .ok h' ∧ h'.Holds none ∧
      After h (update (update h.obj y none) x (h.obj y)) h' := by
  have hget : h.get y = .ok (h.obj y) := if_pos hy
  have hset : h.set y none = .ok { h with obj := update h.obj y none } := if_pos hy
  obtain ⟨h', hrun, w', ha⟩ := (w.take hy).assign (x := x) hx
  refine ⟨h', ?_, w', ha.alive, ha.obj⟩
  unfold moveAssign
  rw [hget]
  simp only [Except.bind, hset]
  exact hrun

theorem assignNew_ok (w : h.Holds none) (hx : h.live x = true) (hb : h.alive b = false) :
    ∃ h', assignNew h x b = .ok h' ∧ h'.Holds none ∧
      After (h.create b) (update (h.create b).obj x (some b)) h' :=
  (w.create hb).assign (live_create hx)

omit [Fintype ν] [Fintype β] in
/-- What is kept by the others is kept when `x` is null. -/
theorem lost_iff : Ownership.Lost h.obj inside (fun l => h.live l = true ∧ l ≠ x) l ↔
    Ownership.Lost (update h.obj x none) inside (fun l => h.live l = true) l := by
  constructor
  · refine Ownership.Lost.mono fun l c hl hc => .inr ⟨l, ?_⟩
    rcases eq_or_ne l x with rfl | hne
    · rw [update_self] at hc
      cases hc
    · rw [update_of_ne hne] at hc
      exact ⟨⟨hl, hne⟩, hc, id⟩
  · refine Ownership.Lost.mono fun l c hl hc => .inr ⟨l, hl.1, ?_, id⟩
    rwa [update_of_ne hl.2]

omit [Fintype ν] [Fintype β] in
theorem dies_iff : Ownership.Dies h.obj inside (fun l => h.live l = true ∧ l ≠ x) c ↔
    Ownership.Dies (update h.obj x none) inside (fun l => h.live l = true) c := by
  constructor
  · intro hd l hl hc
    rcases eq_or_ne l x with rfl | hne
    · rw [update_self] at hc
      cases hc
    · rw [update_of_ne hne] at hc
      exact lost_iff.1 (hd l ⟨hl, hne⟩ hc)
  · intro hd l hl hc
    refine lost_iff.2 (hd l hl.1 ?_)
    rwa [update_of_ne hl.2]

omit [DecidableEq ν] in
theorem Heap.Holds.plain_wf (w : h.Holds none) : h.plain.Wf where
  target := w.target
  count c hc := by
    have hw := w.count c hc
    rwa [if_neg nofun, add_zero] at hw
  pos := w.pos
  transient _ _ := rfl

theorem others_eq : (fun l : Loc ν arity => h.live l = true ∧ l ≠ x) = (· ∈ others h.plain x) :=
  funext fun _ => propext (mem_others (h := h.plain)).symm

/-- `Reset` releases the object, and then sets `x` to null, if `x` is still there. -/
theorem reset_spec (w : h.Holds none) (hx : h.live x = true) :
    ∃ (h₁ : Heap ν arity) (U : Finset (Loc ν arity)), Released h.plain (others h.plain x) U h₁.plain ∧ h₁.obj = h.obj ∧
      (h₁.live x = true ↔ ¬ KeepsItself h x) ∧ reset h x = h₁.set x none := by
  obtain ⟨h₁, U, hrun, hobj, r⟩ := release_ok (w.plain_wf.ready hx)
  have hlive : h₁.live x = true ↔ ¬ KeepsItself h x := by
    unfold KeepsItself
    rw [others_eq]
    exact r.live_iff.trans (and_iff_right hx)
  refine ⟨h₁, U, r, hobj, hlive, ?_⟩
  have hget : h.get x = .ok (h.obj x) := if_pos hx
  change release h (h.obj x) = .ok h₁ at hrun
  unfold reset
  rw [hget]
  cases hc : h.obj x with
  | none =>
    rw [hc] at hrun
    cases hrun
    have hset : h.set x none = .ok { h with obj := update h.obj x none } := if_pos hx
    have hself : update h.obj x none = h.obj := by rw [← hc, update_eq_self]
    rw [hset, hself]
    rfl
  | some c =>
    rw [hc] at hrun
    change (releaseRef (depth β) h c).bind (fun h => h.set x none) = _
    change releaseRef (depth β) h c = .ok h₁ at hrun
    rw [hrun]
    rfl

theorem reset_ok (w : h.Holds none) (hx : h.live x = true) (hk : ¬ KeepsItself h x) :
    ∃ h', reset h x = .ok h' ∧ h'.Holds none ∧ After h (update h.obj x none) h' := by
  obtain ⟨h₁, U, r, hobj, hlive, hrun⟩ := reset_spec w hx
  have hset : h₁.set x none = .ok { h₁ with obj := update h.obj x none } := by
    rw [← hobj]
    exact if_pos (hlive.2 hk)
  -- the `Ref`s that are left, but `x`
  have hU : ∀ l, l ∈ U ↔ h₁.live l = true ∧ l ≠ x := fun l => by
    have hl : h₁.live l = true ↔ _ := r.live_iff
    rw [r.kept, hl, mem_others]
    exact and_right_comm
  have hpos : ∀ c, h₁.alive c = true → 0 < h₁.refCount c := fun c => refCount_pos r
  refine ⟨_, hrun.trans hset, ⟨fun l c hl hc => ?_, nofun, fun c hc => ?_, hpos⟩, fun c => ?_, fun _ _ => rfl⟩
  · change h₁.alive c = true
    change update h.obj x none l = some c at hc
    rcases eq_or_ne l x with rfl | hne
    · rw [update_self] at hc
      cases hc
    · rw [update_of_ne hne] at hc
      have hlU := (hU l).2 ⟨hl, hne⟩
      exact alive_of_kept r hlU hc (w.target l c (mem_others.1 ((r.kept l).1 hlU).1).1 hc)
  · have hcount : h₁.refCount c = refs U h.obj c := r.strong c hc
    change h₁.refCount c =
      ((Finset.univ.filter fun l => h₁.live l = true ∧ update h.obj x none l = some c).card : Int) + _
    rw [hcount, if_neg nofun, add_zero]
    unfold refs
    congr 2
    ext l
    rcases eq_or_ne l x with rfl | hne
    · simp [hU]
    · simp [hU, hne]
  · rw [← dies_iff, others_eq]
    exact r.alive c

theorem reset_error (w : h.Holds none) (hx : h.live x = true) (hk : KeepsItself h x) :
    reset h x = .error .freed := by
  obtain ⟨h₁, U, -, -, hlive, hrun⟩ := reset_spec w hx
  rw [hrun]
  exact if_neg fun hl => hlive.1 hl hk

/-! ### Main theorem -/

omit [DecidableEq ν] in
theorem holds_init : (init : Heap ν arity).Holds none :=
  ⟨fun _ c _ hc => absurd hc.symm (Option.some_ne_none c), nofun, fun _ hc => absurd hc Bool.false_ne_true,
    fun _ hc => absurd hc Bool.false_ne_true⟩

theorem run_ok {a : Act ν arity} (w : h.Holds none) (hu : a.usable h = true) (hc : a.careful h) :
    ∃ h', a.run h = .ok h' ∧ h'.Holds none ∧ After (a.heap h) (a.refs h) h' := by
  cases a with
  | new x b =>
    obtain ⟨hx, hb⟩ := Bool.and_eq_true_iff.1 hu
    exact assignNew_ok w hx (by simpa using hb)
  | raw x o =>
    obtain ⟨hx, ho⟩ := Bool.and_eq_true_iff.1 hu
    refine assignRaw_ok w hx ?_
    rintro c rfl
    exact ho
  | copy x y =>
    obtain ⟨hx, hy⟩ := Bool.and_eq_true_iff.1 hu
    exact copyAssign_ok w hx hy
  | move x y =>
    obtain ⟨hx, hy⟩ := Bool.and_eq_true_iff.1 hu
    exact moveAssign_ok w hx hy
  | reset x => exact reset_ok w hu hc

theorem run_error {a : Act ν arity} (w : h.Holds none) (hu : a.usable h = true) (hc : ¬ a.careful h) :
    a.run h = .error .freed := by
  cases a with
  | new | raw | copy | move => exact absurd trivial hc
  | reset x => exact reset_error w hu (not_not.1 hc)

theorem holds_step {a : Act ν arity} (w : h.Holds none) (hs : step h a = some h') : h'.Holds none := by
  unfold step at hs
  split at hs
  · next hu =>
    by_cases hc : a.careful h
    · obtain ⟨h₁, hrun, w₁, -⟩ := run_ok w hu hc
      rw [hrun] at hs
      cases hs
      exact w₁
    · rw [run_error w hu hc] at hs
      cases hs
  · cases hs

theorem holds_reach (r : Reach (system ν arity) anyStep h) : h.Holds none := by
  refine r.invariant (I := fun h => h.Holds none) ?_ fun s a s' w _ hs => holds_step w hs
  rintro s rfl
  exact holds_init

end after

/-- `Ref`s count right, and their assignments are right for any objects. -/
theorem refs_count {ν β : Type} [Fintype ν] [DecidableEq ν] [Fintype β] [DecidableEq β] (arity : β → Nat) :
    Correct ν arity where
  counts _ r := holds_reach r
  careful h r a hu hc := by
    obtain ⟨h', hrun, -, ha⟩ := run_ok (holds_reach r) hu hc
    exact ⟨h', hrun, ha⟩
  careless h r a hu hc := run_error (holds_reach r) hu hc

/-- `v = New<T>(); v->m = v; v = nullptr; m.Reset()`, for a pointer to the member `m`. -/
example : let v : Loc Unit (fun _ : Fin 1 => 1) := .inl ()
    let m : Loc Unit (fun _ : Fin 1 => 1) := .inr ⟨0, 0⟩
    ((((assignNew init v 0).bind fun h => copyAssign h m v).bind fun h => assignRaw h v none).bind
      fun h => reset h m) = .error .freed := rfl

end Refer
