import ConcurrencyCourse.Lib.Ownership
import ConcurrencyCourse.Lib.Transition
import Mathlib.Data.Fintype.Card
import Mathlib.Data.Fintype.Sigma
import Mathlib.Data.Fintype.Sum

/-!
# Assignment of `SharedPtr` (tasks/lockfree/shared_ptr/shared_ptr.hpp)

A heap of control blocks, each with an object that holds handles; one thread. A handle is a variable or a field
of an object, and a field is gone when the object is deleted.

| here | there |
| --- | --- |
| `Heap.strong`, `Heap.transient` | `ControlBlock::counter` (59), with numbers that do not wrap: an `int32_t` is one of them below 2^31 handles to a block |
| `incrementCounter` | `IncrementCounter` (167-185), with `delete ctrl_ptr_` |
| `resetWith`, `reset` | `Reset` (155-160), and `~SharedPtr` (142-144) |
| `copyAssign`, `moveAssign` | 118-125, 134-140 |

Every read and write of a handle, and of a counter, checks that its memory has not been freed
(`Fault.freed`). The recursion of `delete` is given a depth; the number of the blocks is enough
(`Fault.depth`).

`copyAssign` releases the old block first and reads `that.ctrl_ptr_` afterwards. `copyAssign_iff` and
`moveAssign_iff` say when this is as if it were the other way round.
-/

namespace SharedPtr.Assignment

open Function

/-- A variable, or a field of the object of a block. -/
abbrev Loc (ν : Type) {β : Type} (arity : β → Nat) : Type := ν ⊕ (b : β) × Fin (arity b)

inductive Fault where
  | freed
  | depth
  deriving DecidableEq, Repr

structure Heap (ν : Type) {β : Type} (arity : β → Nat) where
  /-- `ctrl_ptr_`. -/
  ctrl : Loc ν arity → Option β
  strong : β → Int
  transient : β → Int
  /-- The block and its object have not been deleted. -/
  alive : β → Bool

section model

variable {ν β : Type} {arity : β → Nat}

/-- The object that the handle is stored in. -/
def inside : Loc ν arity → Option β
  | .inl _ => none
  | .inr ⟨b, _⟩ => some b

/-- The storage of the handle has not been freed. -/
def Heap.live (h : Heap ν arity) (l : Loc ν arity) : Bool := (inside l).all h.alive

/-- The fields of an object, in the order of their destruction. -/
def fields (b : β) : List (Loc ν arity) := (List.finRange (arity b)).reverse.map fun k => .inr ⟨b, k⟩

/-- The read of a handle. -/
def Heap.get (h : Heap ν arity) (l : Loc ν arity) : Except Fault (Option β) :=
  if h.live l then .ok (h.ctrl l) else .error .freed

variable [DecidableEq ν] [DecidableEq β]

/-- The write of a handle. -/
def Heap.set (h : Heap ν arity) (l : Loc ν arity) (c : Option β) : Except Fault (Heap ν arity) :=
  if h.live l then .ok { h with ctrl := update h.ctrl l c } else .error .freed

def Heap.free (h : Heap ν arity) (b : β) : Heap ν arity := { h with alive := update h.alive b false }

/-- `Reset`, with what decrements the counter. -/
def resetWith (decrement : Heap ν arity → β → Except Fault (Heap ν arity)) (h : Heap ν arity)
    (l : Loc ν arity) : Except Fault (Heap ν arity) :=
  (h.get l).bind fun
    | none => .ok h
    | some c => (decrement h c).bind fun h => h.set l none

/-- The destructors of the fields. -/
def resetAll (decrement : Heap ν arity → β → Except Fault (Heap ν arity)) :
    List (Loc ν arity) → Heap ν arity → Except Fault (Heap ν arity)
  | [], h => .ok h
  | l :: ls, h => (resetWith decrement h l).bind (resetAll decrement ls)

def Heap.addCounter (h : Heap ν arity) (b : β) (strong transient : Int) : Heap ν arity :=
  { h with
    strong := update h.strong b (h.strong b + strong)
    transient := update h.transient b (h.transient b + transient) }

/-- `IncrementCounter` of a handle to `b`. -/
def incrementCounter : Nat → Heap ν arity → β → Int → Int → Except Fault (Heap ν arity)
  | 0, _, _, _, _ => .error .depth
  | n + 1, h, b, strong, transient =>
    if h.alive b then
      let h' := h.addCounter b strong transient
      if h'.strong b = 0 ∧ h'.transient b = 0 then
        (resetAll (fun h c => incrementCounter n h c (-1) 0) (fields b) h').map fun h => h.free b
      else .ok h'
    else .error .freed

variable [Fintype β]

variable (β) in
/-- More than the blocks that there are. -/
def depth : Nat := Fintype.card β + 1

def reset (h : Heap ν arity) (l : Loc ν arity) : Except Fault (Heap ν arity) :=
  resetWith (fun h c => incrementCounter (depth β) h c (-1) 0) h l

/-- `IncrementStrong`. -/
def acquire (h : Heap ν arity) : Option β → Except Fault (Heap ν arity)
  | none => .ok h
  | some c => incrementCounter (depth β) h c 1 0

/-- `DecrementStrong`. -/
def release (h : Heap ν arity) : Option β → Except Fault (Heap ν arity)
  | none => .ok h
  | some c => incrementCounter (depth β) h c (-1) 0

/-- `x = y`. -/
def copyAssign (h : Heap ν arity) (x y : Loc ν arity) : Except Fault (Heap ν arity) :=
  if x = y then .ok h
  else
    (reset h x).bind fun h => (h.get y).bind fun c => (h.set x c).bind fun h => acquire h c

/-- `x = std::move(y)`. -/
def moveAssign (h : Heap ν arity) (x y : Loc ν arity) : Except Fault (Heap ν arity) :=
  if x = y then .ok h
  else
    (reset h x).bind fun h => (h.get y).bind fun c => (h.set y none).bind fun h => h.set x c

/-! ### What it is for -/

/-- One acquisition of the block of `y`, and then one release of the old block of `x`. -/
def acquireRelease (h : Heap ν arity) (x y : Loc ν arity) : Except Fault (Heap ν arity) :=
  (h.get y).bind fun c => (acquire h c).bind fun h =>
    (h.get x).bind fun old => (h.set x c).bind fun h => release h old

/-- A transfer of the block of `y`, and then one release of the old block of `x`. -/
def transferRelease (h : Heap ν arity) (x y : Loc ν arity) : Except Fault (Heap ν arity) :=
  (h.get y).bind fun c => (h.set y none).bind fun h =>
    (h.get x).bind fun old => (h.set x c).bind fun h => release h old

end model

section invariant

variable {ν β : Type} [Fintype ν] [DecidableEq ν] [Fintype β] [DecidableEq β] {arity : β → Nat}

/-- A heap that was built with handles: each one refers to a block that is there, and each block has as many
handles as its counter says, and at least one. -/
structure Heap.Wf (h : Heap ν arity) : Prop where
  target : ∀ l c, h.live l = true → h.ctrl l = some c → h.alive c = true
  count : ∀ c, h.alive c = true →
    h.strong c = ((Finset.univ.filter fun l => h.live l = true ∧ h.ctrl l = some c).card : Int)
  pos : ∀ c, h.alive c = true → 0 < h.strong c
  transient : ∀ c, h.alive c = true → h.transient c = 0

/-- The same blocks, with the same counters, and the same handles. -/
structure Heap.Same (h h' : Heap ν arity) : Prop where
  alive : ∀ c, h'.alive c = h.alive c
  strong : ∀ c, h.alive c = true → h'.strong c = h.strong c
  transient : ∀ c, h.alive c = true → h'.transient c = h.transient c
  ctrl : ∀ l, h.live l = true → h'.ctrl l = h.ctrl l

/-- The handle is stored in an object that is owned, directly or through a chain of handles, only by `x`. -/
def OwnedBy (h : Heap ν arity) (x l : Loc ν arity) : Prop :=
  Ownership.Lost h.ctrl inside (fun l => h.live l = true ∧ l ≠ x) l

end invariant

/-! ### Counting handles -/

section refs

variable {L β : Type} [DecidableEq L] [DecidableEq β] {U : Finset L} {f f' : L → Option β} {l : L} {c : β}

/-- The handles to `c`. -/
def refs (U : Finset L) (f : L → Option β) (c : β) : Nat := (U.filter fun l => f l = some c).card

omit [DecidableEq L] in
theorem refs_eq_zero : refs U f c = 0 ↔ ∀ l ∈ U, f l ≠ some c := by
  unfold refs
  rw [Finset.card_eq_zero, Finset.filter_eq_empty_iff]

omit [DecidableEq L] in
theorem refs_congr (h : ∀ l ∈ U, f' l = f l) : refs U f' c = refs U f c := by
  unfold refs
  rw [Finset.filter_congr fun l hl => by rw [h l hl]]

theorem refs_erase (hl : l ∈ U) (hc : f l = some c) : refs U f c = refs (U.erase l) f c + 1 := by
  unfold refs
  rw [Finset.filter_erase, Finset.card_erase_add_one]
  exact Finset.mem_filter.2 ⟨hl, hc⟩

theorem refs_erase_of_ne (hc : f l ≠ some c) : refs (U.erase l) f c = refs U f c := by
  unfold refs
  rw [Finset.filter_erase, Finset.erase_eq_of_notMem]
  exact fun hl => hc (Finset.mem_filter.1 hl).2

theorem refs_insert (hl : l ∉ U) : refs (insert l U) f c = refs U f c + if f l = some c then 1 else 0 := by
  unfold refs
  rw [Finset.filter_insert]
  split
  · rw [Finset.card_insert_of_notMem fun h => hl (Finset.mem_filter.1 h).1]
  · rfl

end refs

/-! ### What the destructors have done so far -/

section cascade

variable {ν β : Type} [Fintype ν] [DecidableEq ν] [Fintype β] [DecidableEq β] {arity : β → Nat}
  {h₀ h h' h₁ h₂ : Heap ν arity} {K U U' U₁ U₂ : Finset (Loc ν arity)} {pin : Option β} {E E₁ E₂ : Loc ν arity → Prop}
  {b c : β} {l : Loc ν arity}

/-- What goes of `h₀` when only the handles in `K` are kept. -/
def Goes (h₀ : Heap ν arity) (K : Finset (Loc ν arity)) : β → Prop :=
  Ownership.Dies h₀.ctrl inside (· ∈ K)

/-- Between two steps of the destructors: `U` are the handles in `K` that were not reset yet, and `pin` is the
block whose counter is about to be decremented. A block whose counter has come to zero is being deleted, or
was deleted. -/
structure Mid (h₀ : Heap ν arity) (K U : Finset (Loc ν arity)) (pin : Option β) (h : Heap ν arity) : Prop where
  sub : U ⊆ K
  ctrl : ∀ l ∈ U, h.ctrl l = h₀.ctrl l
  count : ∀ c, h₀.alive c = true → 0 < h.strong c →
    h.strong c = refs U h₀.ctrl c + if pin = some c then 1 else 0
  zero : ∀ c, h₀.alive c = true → h.strong c ≤ 0 → pin ≠ some c ∧ ∀ l ∈ U, h₀.ctrl l ≠ some c
  transient : ∀ c, h₀.alive c = true → h.transient c = 0
  alive : ∀ c, h₀.alive c = true → 0 < h.strong c → h.alive c = true
  old : ∀ c, h.alive c = true → h₀.alive c = true
  done : ∀ l ∈ K, l ∉ U → ∃ d, inside l = some d ∧ h₀.alive d = true ∧ h.strong d ≤ 0
  goes : ∀ c, h₀.alive c = true → h.strong c ≤ 0 → Goes h₀ K c

/-- `l` is a field of a block whose counter comes to zero between `h` and `h'`. -/
def Falls (h₀ h h' : Heap ν arity) (l : Loc ν arity) : Prop :=
  ∃ d, inside l = some d ∧ h₀.alive d = true ∧ 0 < h.strong d ∧ h'.strong d ≤ 0

/-- What happens between `h` and `h'`: the blocks whose counters come to zero are deleted, and only their
fields, and those in `E`, are reset. -/
structure Post (h₀ : Heap ν arity) (E : Loc ν arity → Prop) (h : Heap ν arity) (U : Finset (Loc ν arity))
    (h' : Heap ν arity) (U' : Finset (Loc ν arity)) : Prop where
  sub : U' ⊆ U
  le : ∀ c, h'.strong c ≤ h.strong c
  deleted : ∀ c, h₀.alive c = true → 0 < h.strong c → h'.strong c ≤ 0 →
    h'.alive c = false ∧ ∀ l, inside l = some c → l ∉ U'
  same : ∀ c, h.strong c ≤ 0 → h'.alive c = h.alive c
  rest : ∀ l ∈ U, l ∉ U' → E l ∨ Falls h₀ h h' l
  ctrl : ∀ l, h'.ctrl l = h.ctrl l ∨ h'.ctrl l = none ∧ (E l ∨ Falls h₀ h h' l)

omit [Fintype ν] [DecidableEq ν] [Fintype β] [DecidableEq β] in
theorem Falls.of_first (hf : Falls h₀ h h₁ l) (hle : ∀ c, h₂.strong c ≤ h₁.strong c) : Falls h₀ h h₂ l := by
  obtain ⟨d, hd, ha, hpos, hz⟩ := hf
  exact ⟨d, hd, ha, hpos, (hle d).trans hz⟩

omit [Fintype ν] [DecidableEq ν] [Fintype β] [DecidableEq β] in
theorem Falls.of_second (hf : Falls h₀ h₁ h₂ l) (hle : ∀ c, h₁.strong c ≤ h.strong c) : Falls h₀ h h₂ l := by
  obtain ⟨d, hd, ha, hpos, hz⟩ := hf
  exact ⟨d, hd, ha, hpos.trans_le (hle d), hz⟩

omit [Fintype ν] [Fintype β] in
theorem Post.trans (p : Post h₀ E₁ h U h₁ U₁) (q : Post h₀ E₂ h₁ U₁ h₂ U₂) :
    Post h₀ (fun l => E₁ l ∨ E₂ l) h U h₂ U₂ where
  sub := q.sub.trans p.sub
  le c := (q.le c).trans (p.le c)
  deleted c ha hpos hz := by
    by_cases h1 : h₁.strong c ≤ 0
    · obtain ⟨hdel, hno⟩ := p.deleted c ha hpos h1
      exact ⟨(q.same c h1).trans hdel, fun l hl hl2 => hno l hl (q.sub hl2)⟩
    · exact q.deleted c ha (not_le.1 h1) hz
  same c hz := (q.same c ((p.le c).trans hz)).trans (p.same c hz)
  rest l hl hl2 := by
    by_cases hl1 : l ∈ U₁
    · rcases q.rest l hl1 hl2 with he | hf
      · exact .inl (.inr he)
      · exact .inr (hf.of_second p.le)
    · rcases p.rest l hl hl1 with he | hf
      · exact .inl (.inl he)
      · exact .inr (hf.of_first q.le)
  ctrl l := by
    rcases q.ctrl l with hq | ⟨hq, he⟩
    · rcases p.ctrl l with hp | ⟨hp, he⟩
      · exact .inl (hq.trans hp)
      · refine .inr ⟨hq.trans hp, ?_⟩
        rcases he with he | hf
        · exact .inl (.inl he)
        · exact .inr (hf.of_first q.le)
    · refine .inr ⟨hq, ?_⟩
      rcases he with he | hf
      · exact .inl (.inr he)
      · exact .inr (hf.of_second p.le)

/-- A handle that is not kept, in a block of `h₀`, refers to the block whose counter is about to be decremented,
or to one that is being deleted. -/
def Stray (h₀ : Heap ν arity) (K : Finset (Loc ν arity)) (pin : Option β) (h : Heap ν arity) : Prop :=
  ∀ l ∉ K, (∃ d, inside l = some d ∧ h₀.alive d = true) → ∀ c, h.ctrl l = some c →
    pin = some c ∨ h.strong c ≤ 0 ∧ h.alive c = true

/-- The blocks whose counter is above zero. -/
def positive (h₀ h : Heap ν arity) : Finset β := Finset.univ.filter fun c => h₀.alive c = true ∧ 0 < h.strong c

omit [Fintype ν] [DecidableEq ν] [DecidableEq β] in
theorem positive_subset (hle : ∀ c, h'.strong c ≤ h.strong c) : positive h₀ h' ⊆ positive h₀ h := by
  intro c hc
  obtain ⟨-, ha, hpos⟩ := Finset.mem_filter.1 hc
  exact Finset.mem_filter.2 ⟨Finset.mem_univ _, ha, hpos.trans_le (hle c)⟩

omit [Fintype ν] [DecidableEq ν] [Fintype β] [DecidableEq β] in
theorem Stray.next (hs : Stray h₀ K none h) (p : Post h₀ E h U h' U') : Stray h₀ K none h' := by
  intro l hl hd c hc
  rcases p.ctrl l with he | ⟨he, -⟩
  · rcases hs l hl hd c (he ▸ hc) with h1 | ⟨hz, ha⟩
    · cases h1
    · exact .inr ⟨(p.le c).trans hz, (p.same c hz).trans ha⟩
  · rw [he] at hc
    cases hc

omit [Fintype ν] [DecidableEq ν] [Fintype β] [DecidableEq β] in
theorem live_of_inside (hl : inside l = some b) (ha : h.alive b = true) : h.live l = true := by
  rw [Heap.live, hl]
  exact ha

omit [Fintype ν] [DecidableEq ν] in
/-- The counter goes down, to zero or not. -/
theorem Mid.decrement (m : Mid h₀ K U (some b) h) (hb : h.alive b = true) :
    Mid h₀ K U none (h.addCounter b (-1) 0) ∧ 0 < h.strong b ∧
      ((h.addCounter b (-1) 0).strong b = 0 → positive h₀ (h.addCounter b (-1) 0) ⊂ positive h₀ h) ∧
      0 ≤ (h.addCounter b (-1) 0).strong b := by
  have hb₀ := m.old b hb
  have hpos : 0 < h.strong b := by
    by_contra hz
    exact (m.zero b hb₀ (not_lt.1 hz)).1 rfl
  have hcount := m.count b hb₀ hpos
  rw [if_pos rfl] at hcount
  have hself : (h.addCounter b (-1) 0).strong b = h.strong b + -1 := update_self ..
  have hne : ∀ c, c ≠ b → (h.addCounter b (-1) 0).strong c = h.strong c := fun c hc => update_of_ne hc ..
  have hle : ∀ c, (h.addCounter b (-1) 0).strong c ≤ h.strong c := by
    intro c
    rcases eq_or_ne c b with rfl | hc
    · omega
    · exact (hne c hc).le
  have hnone : (h.addCounter b (-1) 0).strong b ≤ 0 → ∀ l ∈ U, h₀.ctrl l ≠ some b := by
    intro hz
    refine refs_eq_zero.1 ?_
    omega
  refine ⟨⟨m.sub, m.ctrl, ?_, ?_, ?_, ?_, m.old, ?_, ?_⟩, hpos, ?_, by omega⟩
  · intro c hc hp
    rw [if_neg nofun]
    rcases eq_or_ne c b with rfl | hcb
    · omega
    · rw [hne c hcb] at hp ⊢
      rw [m.count c hc hp, if_neg fun he => hcb (Option.some.inj he).symm]
  · intro c hc hz
    refine ⟨nofun, ?_⟩
    rcases eq_or_ne c b with rfl | hcb
    · exact hnone hz
    · rw [hne c hcb] at hz
      exact (m.zero c hc hz).2
  · intro c hc
    change update h.transient b (h.transient b + 0) c = 0
    rw [Int.add_zero, update_eq_self]
    exact m.transient c hc
  · exact fun c hc hp => m.alive c hc (hp.trans_le (hle c))
  · intro l hl hlU
    obtain ⟨d, hd, hda, hz⟩ := m.done l hl hlU
    exact ⟨d, hd, hda, (hle d).trans hz⟩
  · intro c hc hz
    rcases eq_or_ne c b with rfl | hcb
    · -- every handle to it was reset, inside of a block that goes
      intro l hl hlc
      have hlU : l ∉ U := fun hU => hnone hz l hU hlc
      obtain ⟨d, hd, hda, hzd⟩ := m.done l hl hlU
      exact .intro l d hd (m.goes d hda hzd)
    · rw [hne c hcb] at hz
      exact m.goes c hc hz
  · intro hz
    refine Finset.ssubset_iff_subset_ne.2 ⟨positive_subset hle, fun he => ?_⟩
    have hin : b ∈ positive h₀ (h.addCounter b (-1) 0) := by
      rw [he]
      exact Finset.mem_filter.2 ⟨Finset.mem_univ _, hb₀, hpos⟩
    have := (Finset.mem_filter.1 hin).2.2
    omega

omit [Fintype ν] [Fintype β] in
/-- A handle in a block that is being deleted is about to be reset. -/
theorem Mid.take (m : Mid h₀ K U none h) (hlU : l ∈ U) (hl : inside l = some b) (hb : h₀.alive b = true)
    (hz : h.strong b ≤ 0) : Mid h₀ K (U.erase l) (h₀.ctrl l) h where
  sub := (Finset.erase_subset ..).trans m.sub
  ctrl l' hl' := m.ctrl l' (Finset.mem_of_mem_erase hl')
  count c hc hpos := by
    rw [m.count c hc hpos, if_neg nofun, add_zero]
    split
    · next he => rw [refs_erase hlU he, Int.natCast_add, Int.natCast_one]
    · next he => rw [refs_erase_of_ne he, add_zero]
  zero c hc hzc :=
    ⟨(m.zero c hc hzc).2 l hlU, fun l' hl' => (m.zero c hc hzc).2 l' (Finset.mem_of_mem_erase hl')⟩
  transient := m.transient
  alive := m.alive
  old := m.old
  done l' hl' hl'U := by
    rcases eq_or_ne l' l with rfl | hne
    · exact ⟨b, hl, hb, hz⟩
    · exact m.done l' hl' fun hU => hl'U (Finset.mem_erase.2 ⟨hne, hU⟩)
  goes := m.goes

omit [Fintype ν] [Fintype β] in
theorem Mid.setNone (m : Mid h₀ K U none h) (hlU : l ∉ U) :
    Mid h₀ K U none { h with ctrl := update h.ctrl l none } where
  sub := m.sub
  ctrl l' hl' := by
    have hne : l' ≠ l := by
      rintro rfl
      exact hlU hl'
    exact (update_of_ne hne ..).trans (m.ctrl l' hl')
  count := m.count
  zero := m.zero
  transient := m.transient
  alive := m.alive
  old := m.old
  done := m.done
  goes := m.goes

omit [Fintype ν] [Fintype β] in
/-- The handle is set to null after its block was released. -/
theorem Post.setNone (p : Post h₀ (fun _ => False) h U h' U') :
    Post h₀ (· = l) h U { h' with ctrl := update h'.ctrl l none } U' where
  sub := p.sub
  le := p.le
  deleted := p.deleted
  same := p.same
  rest l' hl' hl'U := .inr ((p.rest l' hl' hl'U).resolve_left id)
  ctrl l' := by
    rcases eq_or_ne l' l with rfl | hne
    · exact .inr ⟨update_self .., .inl rfl⟩
    · rcases p.ctrl l' with he | ⟨he, hf⟩
      · exact .inl ((update_of_ne hne ..).trans he)
      · exact .inr ⟨(update_of_ne hne ..).trans he, .inr (hf.resolve_left id)⟩

omit [Fintype ν] [Fintype β] in
/-- A handle that was taken out of the count. -/
theorem Post.of_erase (p : Post h₀ (· = l) h (U.erase l) h' U') : Post h₀ (· = l) h U h' U' where
  sub := p.sub.trans (Finset.erase_subset ..)
  le := p.le
  deleted := p.deleted
  same := p.same
  rest l' hl' hl'U := by
    rcases eq_or_ne l' l with rfl | hne
    · exact .inl rfl
    · exact p.rest l' (Finset.mem_erase.2 ⟨hne, hl'⟩) hl'U
  ctrl := p.ctrl

omit [Fintype ν] [DecidableEq ν] [Fintype β] [DecidableEq β] in
theorem Post.imp (p : Post h₀ E₁ h U h' U') (himp : ∀ l, E₁ l → E₂ l) : Post h₀ E₂ h U h' U' where
  sub := p.sub
  le := p.le
  deleted := p.deleted
  same := p.same
  rest l hl hlU := (p.rest l hl hlU).imp_left (himp l)
  ctrl l := (p.ctrl l).imp_right fun h => ⟨h.1, h.2.imp_left (himp l)⟩

omit [Fintype ν] [DecidableEq ν] [Fintype β] [DecidableEq β] in
theorem Post.refl : Post h₀ E h U h U where
  sub := Finset.Subset.refl _
  le _ := le_rfl
  deleted _ _ hpos hz := absurd hpos (not_lt.2 hz)
  same _ _ := rfl
  rest _ hl hlU := absurd hl hlU
  ctrl _ := .inl rfl

omit [Fintype ν] [Fintype β] in
/-- One more decrement of a counter that is not above zero comes to nothing. -/
theorem incrementCounter_stray {n : Nat} (hn : 0 < n) (m : Mid h₀ K U none h) (hc : h.alive c = true)
    (hz : h.strong c ≤ 0) : incrementCounter n h c (-1) 0 = .ok (h.addCounter c (-1) 0) ∧
      Mid h₀ K U none (h.addCounter c (-1) 0) ∧
      Post h₀ (fun _ => False) h U (h.addCounter c (-1) 0) U := by
  obtain ⟨n, rfl⟩ := Nat.exists_eq_succ_of_ne_zero hn.ne'
  have hself : (h.addCounter c (-1) 0).strong c = h.strong c + -1 := update_self ..
  have hne : ∀ d, d ≠ c → (h.addCounter c (-1) 0).strong d = h.strong d := fun d hd => update_of_ne hd ..
  have hle : ∀ d, (h.addCounter c (-1) 0).strong d ≤ h.strong d := by
    intro d
    rcases eq_or_ne d c with rfl | hd
    · omega
    · exact (hne d hd).le
  have hzero : ∀ d, (h.addCounter c (-1) 0).strong d ≤ 0 → h.strong d ≤ 0 := by
    intro d hd
    rcases eq_or_ne d c with rfl | hdc
    · exact hz
    · rwa [hne d hdc] at hd
  refine ⟨?_, ⟨m.sub, m.ctrl, ?_, ?_, ?_, ?_, m.old, ?_, ?_⟩, Finset.Subset.refl _, hle, ?_, fun _ _ => rfl,
    fun l hl hlU => absurd hl hlU, fun _ => .inl rfl⟩
  · rw [incrementCounter, if_pos hc]
    exact if_neg fun h0 => by omega
  · intro d hd hpos
    have hdc : d ≠ c := by
      rintro rfl
      omega
    rw [hne d hdc] at hpos ⊢
    exact m.count d hd hpos
  · exact fun d hd hzd => m.zero d hd (hzero d hzd)
  · intro d hd
    change update h.transient c (h.transient c + 0) d = 0
    rw [Int.add_zero, update_eq_self]
    exact m.transient d hd
  · exact fun d hd hpos => m.alive d hd (hpos.trans_le (hle d))
  · intro l hl hlU
    obtain ⟨d, hd, hda, hzd⟩ := m.done l hl hlU
    exact ⟨d, hd, hda, (hle d).trans hzd⟩
  · exact fun d hd hzd => m.goes d hd (hzero d hzd)
  · intro d hd hpos hzd
    exact absurd (hzero d hzd) (not_le.2 hpos)

omit [Fintype ν] in
/-- One field of a block that is being deleted. -/
theorem resetWith_spec {n : Nat} (ht : ∀ l ∈ K, ∀ c, h₀.ctrl l = some c → h₀.alive c = true)
    (ih : ∀ (h : Heap ν arity) (U : Finset (Loc ν arity)) (c : β), Mid h₀ K U (some c) h →
      Stray h₀ K (some c) h → (positive h₀ h).card < n → h.alive c = true →
      ∃ h' U', incrementCounter n h c (-1) 0 = .ok h' ∧ Mid h₀ K U' none h' ∧
        Post h₀ (fun _ => False) h U h' U')
    (m : Mid h₀ K U none h) (hs : Stray h₀ K none h) (hn : (positive h₀ h).card < n)
    (hl : inside l = some b) (hb : h.alive b = true) (hz : h.strong b ≤ 0) (hlU : l ∈ K → l ∈ U) :
    ∃ h' U', resetWith (fun h c => incrementCounter n h c (-1) 0) h l = .ok h' ∧ Mid h₀ K U' none h' ∧
      Post h₀ (· = l) h U h' U' ∧ l ∉ U' := by
  have hb₀ := m.old b hb
  have hget : h.get l = .ok (h.ctrl l) := if_pos (live_of_inside hl hb)
  unfold resetWith
  rw [hget]
  by_cases hlK : l ∈ K
  · have hmem := hlU hlK
    have hctrl := m.ctrl l hmem
    have mt := m.take hmem hl hb₀ hz
    cases hc : h₀.ctrl l with
    | none =>
      rw [hc] at hctrl mt
      rw [hctrl]
      exact ⟨h, U.erase l, rfl, mt, Post.refl.of_erase, Finset.notMem_erase l U⟩
    | some c =>
      rw [hc] at hctrl mt
      rw [hctrl]
      have hcpos : 0 < h.strong c := by
        by_contra hcz
        exact (mt.zero c (ht l hlK c hc) (not_lt.1 hcz)).1 rfl
      have hst : Stray h₀ K (some c) h := by
        intro l' hl' hd c' hc'
        exact (hs l' hl' hd c' hc').imp nofun id
      obtain ⟨h', U', hrun, m', p'⟩ := ih h (U.erase l) c mt hst hn (m.alive c (ht l hlK c hc) hcpos)
      have hlU' : l ∉ U' := fun hU => Finset.notMem_erase l U (p'.sub hU)
      refine ⟨_, U', ?_, m'.setNone hlU', p'.setNone.of_erase, hlU'⟩
      simp only [Except.bind, hrun]
      exact if_pos (live_of_inside hl ((p'.same b hz).trans hb))
  · have hlU' : l ∉ U := fun hU => hlK (m.sub hU)
    cases hc : h.ctrl l with
    | none => exact ⟨h, U, rfl, m, Post.refl, hlU'⟩
    | some c =>
      rcases hs l hlK ⟨b, hl, hb₀⟩ c hc with h1 | ⟨hcz, hca⟩
      · cases h1
      · obtain ⟨hrun, m', p'⟩ := incrementCounter_stray (Nat.zero_lt_of_lt hn) m hca hcz
        refine ⟨_, U, ?_, m'.setNone hlU', p'.setNone, hlU'⟩
        simp only [Except.bind, hrun]
        exact if_pos (live_of_inside hl hb)

omit [Fintype ν] in
/-- The fields of a block that is being deleted. -/
theorem resetAll_spec {n : Nat} (ht : ∀ l ∈ K, ∀ c, h₀.ctrl l = some c → h₀.alive c = true)
    (ih : ∀ (h : Heap ν arity) (U : Finset (Loc ν arity)) (c : β), Mid h₀ K U (some c) h →
      Stray h₀ K (some c) h → (positive h₀ h).card < n → h.alive c = true →
      ∃ h' U', incrementCounter n h c (-1) 0 = .ok h' ∧ Mid h₀ K U' none h' ∧
        Post h₀ (fun _ => False) h U h' U') (ls : List (Loc ν arity)) :
    ∀ {h : Heap ν arity} {U : Finset (Loc ν arity)}, Mid h₀ K U none h → Stray h₀ K none h →
      (positive h₀ h).card < n → ls.Nodup → (∀ l ∈ ls, inside l = some b) → h.alive b = true →
      h.strong b ≤ 0 → (∀ l ∈ ls, l ∈ K → l ∈ U) →
      ∃ h' U', resetAll (fun h c => incrementCounter n h c (-1) 0) ls h = .ok h' ∧ Mid h₀ K U' none h' ∧
        Post h₀ (· ∈ ls) h U h' U' ∧ ∀ l ∈ ls, l ∉ U' := by
  induction ls with
  | nil =>
    intro h U m _ _ _ _ _ _ _
    exact ⟨h, U, rfl, m, Post.refl, nofun⟩
  | cons l ls ihl =>
    intro h U m hs hn hnd hin hb hz hlU
    obtain ⟨hl, hnd'⟩ := List.nodup_cons.1 hnd
    obtain ⟨h₁, U₁, hrun₁, m₁, p₁, hl₁⟩ := resetWith_spec ht ih m hs hn (hin l List.mem_cons_self) hb hz
      (hlU l List.mem_cons_self)
    have hb₁ : h₁.alive b = true := (p₁.same b hz).trans hb
    have hn₁ : (positive h₀ h₁).card < n := (Finset.card_le_card (positive_subset p₁.le)).trans_lt hn
    have hlU₁ : ∀ l' ∈ ls, l' ∈ K → l' ∈ U₁ := by
      intro l' hl' hK
      by_contra hno
      rcases p₁.rest l' (hlU l' (List.mem_cons_of_mem _ hl') hK) hno with rfl | ⟨d, hd, -, hpos, -⟩
      · exact hl hl'
      · rw [hin l' (List.mem_cons_of_mem _ hl')] at hd
        cases hd
        exact absurd hz (not_le.2 hpos)
    obtain ⟨h₂, U₂, hrun₂, m₂, p₂, hl₂⟩ := ihl m₁ (hs.next p₁) hn₁ hnd'
      (fun l' hl' => hin l' (List.mem_cons_of_mem _ hl')) hb₁ ((p₁.le b).trans hz) hlU₁
    refine ⟨h₂, U₂, ?_, m₂, (p₁.trans p₂).imp fun l' he => ?_, fun l' hl' => ?_⟩
    · rw [resetAll, hrun₁]
      exact hrun₂
    · exact List.mem_cons.2 he
    · rcases List.mem_cons.1 hl' with rfl | hl'
      · exact fun hU => hl₁ (p₂.sub hU)
      · exact hl₂ l' hl'

omit [Fintype ν] [DecidableEq ν] [Fintype β] [DecidableEq β] in
theorem mem_fields {l : Loc ν arity} : l ∈ fields b ↔ inside l = some b := by
  unfold fields
  rw [List.mem_map]
  constructor
  · rintro ⟨k, -, rfl⟩
    rfl
  · intro hl
    rcases l with v | ⟨d, k⟩
    · cases hl
    · cases hl
      exact ⟨k, List.mem_reverse.2 (List.mem_finRange k), rfl⟩

omit [Fintype ν] [DecidableEq ν] [Fintype β] [DecidableEq β] in
theorem nodup_fields : (fields b : List (Loc ν arity)).Nodup := by
  refine List.Nodup.map ?_ (List.nodup_reverse.2 (List.nodup_finRange _))
  intro k k' hk
  cases hk
  rfl

/-- `DecrementStrong`, with all that is deleted on the way. -/
theorem incrementCounter_spec (ht : ∀ l ∈ K, ∀ c, h₀.ctrl l = some c → h₀.alive c = true) (n : Nat) :
    ∀ (h : Heap ν arity) (U : Finset (Loc ν arity)) (b : β), Mid h₀ K U (some b) h →
      Stray h₀ K (some b) h → (positive h₀ h).card < n → h.alive b = true →
      ∃ h' U', incrementCounter n h b (-1) 0 = .ok h' ∧ Mid h₀ K U' none h' ∧
        Post h₀ (fun _ => False) h U h' U' := by
  induction n with
  | zero => exact fun h U b _ _ hn => absurd hn (Nat.not_lt_zero _)
  | succ n ih =>
    intro h U b m hs hn hb
    have hb₀ := m.old b hb
    obtain ⟨m₁, hpos, hpositive, hnonneg⟩ := m.decrement hb
    have hself : (h.addCounter b (-1) 0).strong b = h.strong b + -1 := update_self ..
    have hne : ∀ c, c ≠ b → (h.addCounter b (-1) 0).strong c = h.strong c := fun c hc => update_of_ne hc ..
    have htr := m₁.transient b hb₀
    have hle : ∀ c, (h.addCounter b (-1) 0).strong c ≤ h.strong c := by
      intro c
      rcases eq_or_ne c b with rfl | hc
      · omega
      · exact (hne c hc).le
    rw [incrementCounter, if_pos hb]
    dsimp only
    set h₁ := h.addCounter b (-1) 0
    split
    · next hzero =>
      -- the destructors of its fields, and then the block is gone
      have hz₁ : h₁.strong b ≤ 0 := hzero.1.le
      have hs₁ : Stray h₀ K none h₁ := by
        intro l hl hd c hc
        rcases hs l hl hd c hc with he | ⟨hz, ha⟩
        · cases he
          exact .inr ⟨hz₁, hb⟩
        · exact .inr ⟨(hle c).trans hz, ha⟩
      have hn₁ : (positive h₀ h₁).card < n :=
        Nat.lt_of_lt_of_le (Finset.card_lt_card (hpositive hzero.1)) (Nat.lt_succ_iff.1 hn)
      have hU : ∀ l ∈ (fields b : List (Loc ν arity)), l ∈ K → l ∈ U := by
        intro l hl hK
        by_contra hno
        obtain ⟨d, hd, -, hzd⟩ := m.done l hK hno
        rw [mem_fields.1 hl] at hd
        cases hd
        omega
      obtain ⟨h₂, U₂, hrun, m₂, p₂, hl₂⟩ := resetAll_spec ht ih (fields b) m₁ hs₁ hn₁ nodup_fields
        (fun l hl => mem_fields.1 hl) hb hz₁ hU
      have hz₂ : h₂.strong b ≤ 0 := (p₂.le b).trans hz₁
      have hfree : ∀ c, c ≠ b → (h₂.free b).alive c = h₂.alive c := fun c hc => update_of_ne hc ..
      have hgone : (h₂.free b).alive b = false := update_self ..
      have hfalls : ∀ l, Falls h₀ h₁ h₂ l → Falls h₀ h h₂ l := fun l hf => hf.of_second hle
      have hfields : ∀ l ∈ (fields b : List (Loc ν arity)), Falls h₀ h h₂ l :=
        fun l hl => ⟨b, mem_fields.1 hl, hb₀, hpos, hz₂⟩
      refine ⟨h₂.free b, U₂, by rw [hrun]; rfl, ⟨m₂.sub, m₂.ctrl, m₂.count, m₂.zero, m₂.transient, ?_, ?_,
        m₂.done, m₂.goes⟩, ⟨p₂.sub, fun c => (p₂.le c).trans (hle c), ?_, ?_, ?_, ?_⟩⟩
      · intro c hc hp
        have hcb : c ≠ b := by
          rintro rfl
          exact absurd hz₂ (not_le.2 hp)
        rw [hfree c hcb]
        exact m₂.alive c hc hp
      · intro c hc
        have hcb : c ≠ b := by
          rintro rfl
          rw [hgone] at hc
          cases hc
        rw [hfree c hcb] at hc
        exact m₂.old c hc
      · intro c hc hp hz
        rcases eq_or_ne c b with rfl | hcb
        · exact ⟨hgone, fun l hl => hl₂ l (mem_fields.2 hl)⟩
        · rw [hfree c hcb]
          exact p₂.deleted c hc (by rwa [hne c hcb]) hz
      · intro c hz
        have hcb : c ≠ b := by
          rintro rfl
          omega
        rw [hfree c hcb]
        exact p₂.same c ((hle c).trans hz)
      · intro l hl hl2
        rcases p₂.rest l hl hl2 with he | hf
        · exact .inr (hfields l he)
        · exact .inr (hfalls l hf)
      · intro l
        rcases p₂.ctrl l with he | ⟨he, hf⟩
        · exact .inl he
        · refine .inr ⟨he, .inr ?_⟩
          rcases hf with he' | hf
          · exact hfields l he'
          · exact hfalls l hf
    · next hnz =>
      have hb₁ : h₁.strong b ≠ 0 := fun he => hnz ⟨he, htr⟩
      refine ⟨h₁, U, rfl, m₁, Finset.Subset.refl _, hle, ?_, fun _ _ => rfl, fun l hl hlU => absurd hl hlU,
        fun _ => .inl rfl⟩
      intro c hc hp hz
      rcases eq_or_ne c b with rfl | hcb
      · omega
      · rw [hne c hcb] at hz
        exact absurd hz (not_le.2 hp)

/-! ### One release -/

/-- A heap before a release: the handles in `K`, and the reference that is to be dropped. -/
structure Ready (h₀ : Heap ν arity) (K : Finset (Loc ν arity)) (pin : Option β) : Prop where
  live : ∀ l ∈ K, h₀.live l = true
  target : ∀ l ∈ K, ∀ c, h₀.ctrl l = some c → h₀.alive c = true
  count : ∀ c, h₀.alive c = true → h₀.strong c = refs K h₀.ctrl c + if pin = some c then 1 else 0
  pos : ∀ c, h₀.alive c = true → 0 < h₀.strong c
  transient : ∀ c, h₀.alive c = true → h₀.transient c = 0
  stray : ∀ l ∉ K, (∃ d, inside l = some d ∧ h₀.alive d = true) → ∀ c, h₀.ctrl l = some c → pin = some c
  pinned : ∀ c, pin = some c → h₀.alive c = true

/-- The heap after it: what only the dropped reference has kept is gone. -/
structure Released (h₀ : Heap ν arity) (K U : Finset (Loc ν arity)) (h : Heap ν arity) : Prop where
  alive : ∀ c, h.alive c = true ↔ h₀.alive c = true ∧ ¬ Goes h₀ K c
  kept : ∀ l, l ∈ U ↔ l ∈ K ∧ ¬ Ownership.Lost h₀.ctrl inside (· ∈ K) l
  strong : ∀ c, h.alive c = true → h.strong c = refs U h₀.ctrl c
  transient : ∀ c, h.alive c = true → h.transient c = 0
  ctrl : ∀ l, h.live l = true → h.ctrl l = h₀.ctrl l

omit [Fintype ν] [DecidableEq ν] [Fintype β] [DecidableEq β] in
theorem alive_of_live (hl : h.live l = true) (hb : inside l = some b) : h.alive b = true := by
  rw [Heap.live, hb] at hl
  exact hl

omit [Fintype ν] [DecidableEq ν] [Fintype β] in
/-- When each block has a handle that is kept, nothing goes. -/
theorem not_lost_of_refs (hlive : ∀ l ∈ K, h₀.live l = true)
    (hrefs : ∀ c, h₀.alive c = true → 0 < refs K h₀.ctrl c) (hl : h₀.live l = true) :
    ¬ Ownership.Lost h₀.ctrl inside (· ∈ K) l := by
  intro hlost
  obtain ⟨d, hd, hdead⟩ : ∃ d, inside l = some d ∧ h₀.alive d ≠ true := by
    refine hlost.rule (P := fun l => ∃ d, inside l = some d ∧ h₀.alive d ≠ true) fun l d hd ih =>
      ⟨d, hd, fun ha => ?_⟩
    obtain ⟨l', hl', hc⟩ : ∃ l' ∈ K, h₀.ctrl l' = some d := by
      by_contra hno
      push Not at hno
      exact (hrefs d ha).ne' (refs_eq_zero.2 hno)
    obtain ⟨d', hd', hdead⟩ := ih l' hl' hc
    exact hdead (alive_of_live (hlive l' hl') hd')
  exact hdead (alive_of_live hl hd)

omit [Fintype ν] [DecidableEq ν] [Fintype β] in
theorem Ready.mid (r : Ready h₀ K pin) : Mid h₀ K K pin h₀ where
  sub := Finset.Subset.refl _
  ctrl _ _ := rfl
  count c hc _ := r.count c hc
  zero c hc hz := absurd (r.pos c hc) (not_lt.2 hz)
  transient := r.transient
  alive _ hc _ := hc
  old _ hc := hc
  done _ hl hno := absurd hl hno
  goes c hc hz := absurd (r.pos c hc) (not_lt.2 hz)

omit [Fintype ν] [Fintype β] in
/-- What was deleted is what goes. -/
theorem Ready.released (r : Ready h₀ K pin) (m : Mid h₀ K U none h) (p : Post h₀ (fun _ => False) h₀ K h U) :
    Released h₀ K U h := by
  -- a place that is lost is in a block whose counter is at zero
  have hlost : ∀ l, Ownership.Lost h₀.ctrl inside (· ∈ K) l →
      ∃ d, inside l = some d ∧ (h₀.alive d = true → h.strong d ≤ 0) := by
    intro l hl
    refine hl.rule (P := fun l => ∃ d, inside l = some d ∧ (h₀.alive d = true → h.strong d ≤ 0))
      fun l d hd ih => ⟨d, hd, fun ha => ?_⟩
    by_contra hz
    have hcount := m.count d ha (not_le.1 hz)
    rw [if_neg nofun] at hcount
    obtain ⟨l', hl', hc⟩ : ∃ l' ∈ U, h₀.ctrl l' = some d := by
      by_contra hno
      push Not at hno
      have := refs_eq_zero.2 hno
      omega
    obtain ⟨d', hd', hz'⟩ := ih l' (m.sub hl') hc
    have ha' := alive_of_live (r.live l' (m.sub hl')) hd'
    exact (p.deleted d' ha' (r.pos d' ha') (hz' ha')).2 l' hd' hl'
  have hgoes : ∀ c, h₀.alive c = true → (Goes h₀ K c ↔ h.strong c ≤ 0) := by
    intro c hc
    refine ⟨fun hg => ?_, m.goes c hc⟩
    by_contra hz
    have hcount := m.count c hc (not_le.1 hz)
    rw [if_neg nofun] at hcount
    obtain ⟨l', hl', hlc⟩ : ∃ l' ∈ U, h₀.ctrl l' = some c := by
      by_contra hno
      push Not at hno
      have := refs_eq_zero.2 hno
      omega
    obtain ⟨d', hd', hz'⟩ := hlost l' (hg l' (m.sub hl') hlc)
    have ha' := alive_of_live (r.live l' (m.sub hl')) hd'
    exact (p.deleted d' ha' (r.pos d' ha') (hz' ha')).2 l' hd' hl'
  have halive : ∀ c, h.alive c = true ↔ h₀.alive c = true ∧ ¬ Goes h₀ K c := by
    intro c
    constructor
    · intro hc
      have hc₀ := m.old c hc
      refine ⟨hc₀, fun hg => ?_⟩
      rw [(p.deleted c hc₀ (r.pos c hc₀) ((hgoes c hc₀).1 hg)).1] at hc
      cases hc
    · rintro ⟨hc₀, hg⟩
      exact m.alive c hc₀ (not_le.1 fun hz => hg ((hgoes c hc₀).2 hz))
  refine ⟨halive, fun l => ⟨fun hl => ⟨m.sub hl, fun hlo => ?_⟩, fun hl => ?_⟩, fun c hc => ?_, fun c hc => ?_,
    fun l hl => ?_⟩
  · obtain ⟨d, hd, hz⟩ := hlost l hlo
    have ha := alive_of_live (r.live l (m.sub hl)) hd
    exact (p.deleted d ha (r.pos d ha) (hz ha)).2 l hd hl
  · by_contra hno
    obtain ⟨d, hd, ha, hz⟩ := m.done l hl.1 hno
    exact hl.2 (.intro l d hd (m.goes d ha hz))
  · obtain ⟨hc₀, hg⟩ := (halive c).1 hc
    have hpos : 0 < h.strong c := not_le.1 fun hz => hg ((hgoes c hc₀).2 hz)
    rw [m.count c hc₀ hpos, if_neg nofun, add_zero]
  · exact m.transient c (m.old c hc)
  · rcases p.ctrl l with he | ⟨-, hf⟩
    · exact he
    · obtain ⟨d, hd, ha, hpos, hz⟩ := hf.resolve_left id
      have := alive_of_live hl hd
      rw [(p.deleted d ha hpos hz).1] at this
      cases this

theorem Ready.release (r : Ready h₀ K pin) : ∃ h U, release h₀ pin = .ok h ∧ Released h₀ K U h := by
  cases pin with
  | none =>
    refine ⟨h₀, K, rfl, ?_⟩
    exact r.released r.mid Post.refl
  | some b =>
    have hstray : Stray h₀ K (some b) h₀ := fun l hl hd c hc => .inl (r.stray l hl hd c hc)
    have hcard : (positive h₀ h₀).card < depth β := Nat.lt_succ_of_le (Finset.card_le_univ _)
    obtain ⟨h, U, hrun, m, p⟩ := incrementCounter_spec r.target (depth β) h₀ K b r.mid hstray hcard
      (r.pinned b rfl)
    exact ⟨h, U, hrun, r.released m p⟩

end cascade

/-! ### Assignment -/

section assign

variable {ν β : Type} [Fintype ν] [DecidableEq ν] [Fintype β] [DecidableEq β] {arity : β → Nat}
  {h h' h₁ h₂ : Heap ν arity} {K U U₁ U₂ : Finset (Loc ν arity)} {x y l : Loc ν arity} {c : β}

def handles (h : Heap ν arity) : Finset (Loc ν arity) := Finset.univ.filter fun l => h.live l = true

/-- The handles but `x`. -/
def others (h : Heap ν arity) (x : Loc ν arity) : Finset (Loc ν arity) := (handles h).erase x

omit [DecidableEq ν] [DecidableEq β] in
theorem mem_handles : l ∈ handles h ↔ h.live l = true := by
  unfold handles
  rw [Finset.mem_filter]
  exact and_iff_right (Finset.mem_univ _)

theorem mem_others : l ∈ others h x ↔ h.live l = true ∧ l ≠ x := by
  unfold others
  rw [Finset.mem_erase, mem_handles]
  exact and_comm

theorem ownedBy_iff : OwnedBy h x l ↔ Ownership.Lost h.ctrl inside (· ∈ others h x) l := by
  unfold OwnedBy
  have he : (fun l => h.live l = true ∧ l ≠ x) = (· ∈ others h x) := funext fun l => propext mem_others.symm
  rw [he]

omit [Fintype ν] [DecidableEq ν] [Fintype β] [DecidableEq β] in
theorem live_congr (ha : h'.alive = h.alive) (l : Loc ν arity) : h'.live l = h.live l := by
  unfold Heap.live
  rw [ha]

omit [DecidableEq ν] in
theorem Heap.Wf.count_handles (w : h.Wf) (hc : h.alive c = true) : h.strong c = refs (handles h) h.ctrl c := by
  rw [w.count c hc]
  unfold refs handles
  rw [Finset.filter_filter]

theorem Heap.Wf.count_others (w : h.Wf) (hx : h.live x = true) (hc : h.alive c = true) :
    h.strong c = refs (others h x) h.ctrl c + if h.ctrl x = some c then 1 else 0 := by
  rw [w.count_handles hc]
  unfold others
  split
  · next he => rw [refs_erase (mem_handles.2 hx) he, Int.natCast_add, Int.natCast_one]
  · next he => rw [refs_erase_of_ne he, add_zero]

/-- `Reset` of a handle that is no longer counted. -/
theorem Heap.Wf.ready (w : h.Wf) (hx : h.live x = true) : Ready h (others h x) (h.ctrl x) where
  live l hl := (mem_others.1 hl).1
  target l hl c hc := w.target l c (mem_others.1 hl).1 hc
  count c hc := w.count_others hx hc
  pos := w.pos
  transient := w.transient
  stray l hl hd c hc := by
    obtain ⟨d, hd, ha⟩ := hd
    have hlx : l = x := by
      by_contra hne
      exact hl (mem_others.2 ⟨live_of_inside hd ha, hne⟩)
    rw [← hlx, hc]
  pinned c hc := w.target x c hx hc

omit [Fintype ν] [DecidableEq ν] [Fintype β] in
theorem Released.live_iff (r : Released h K U h₁) :
    h₁.live l = true ↔ h.live l = true ∧ ¬ Ownership.Lost h.ctrl inside (· ∈ K) l := by
  rcases hl : (inside l) with _ | d
  · have hv : ∀ h : Heap ν arity, h.live l = true := fun h => by rw [Heap.live, hl]; rfl
    exact iff_of_true (hv _) ⟨hv _, Ownership.not_lost_of_outside hl⟩
  · have hv : ∀ h : Heap ν arity, h.live l = true ↔ h.alive d = true := fun h => by
      rw [Heap.live, hl]
      rfl
    rw [hv, hv, r.alive, Ownership.lost_iff]
    refine and_congr_right fun _ => not_congr ?_
    constructor
    · exact fun hg => ⟨d, hl, hg⟩
    · rintro ⟨d', hd', hg⟩
      cases hl.symm.trans hd'
      exact hg

omit [Fintype ν] in
theorem acquire_spec {o : Option β} (hc : ∀ c, o = some c → h.alive c = true ∧ 0 ≤ h.strong c) :
    ∃ h', acquire h o = .ok h' ∧ h'.ctrl = h.ctrl ∧ h'.alive = h.alive ∧ h'.transient = h.transient ∧
      ∀ c, h'.strong c = h.strong c + if o = some c then 1 else 0 := by
  cases o with
  | none => exact ⟨h, rfl, rfl, rfl, rfl, fun c => (add_zero _).symm⟩
  | some b =>
    obtain ⟨ha, hs⟩ := hc b rfl
    have hself : (h.addCounter b 1 0).strong b = h.strong b + 1 := update_self ..
    refine ⟨h.addCounter b 1 0, ?_, rfl, rfl, ?_, fun c => ?_⟩
    · change incrementCounter (Fintype.card β + 1) h b 1 0 = _
      rw [incrementCounter, if_pos ha]
      exact if_neg fun h0 => by omega
    · change update h.transient b (h.transient b + 0) = _
      rw [add_zero, update_eq_self]
    · rcases eq_or_ne c b with rfl | hcb
      · rw [hself, if_pos rfl]
      · rw [if_neg fun he => hcb (Option.some.inj he).symm, add_zero]
        exact update_of_ne hcb ..

/-- `Reset` of `x` deletes what is owned only by `x`; if `x` is in there, its storage is gone when it is to be set
to null. -/
theorem reset_spec (w : h.Wf) (hx : h.live x = true) :
    ∃ h₁ U, Released h (others h x) U h₁ ∧ (OwnedBy h x x → reset h x = .error .freed) ∧
      (¬ OwnedBy h x x → reset h x = .ok { h₁ with ctrl := update h₁.ctrl x none }) := by
  obtain ⟨h₁, U, hrun, r⟩ := (w.ready hx).release
  refine ⟨h₁, U, r, ?_⟩
  have hlive : h₁.live x = true ↔ ¬ OwnedBy h x x := by
    rw [r.live_iff, ownedBy_iff]
    exact and_iff_right hx
  have hget : h.get x = .ok (h.ctrl x) := if_pos hx
  have hreset : reset h x = match h.ctrl x with
      | none => .ok h
      | some _ => h₁.set x none := by
    unfold reset resetWith
    rw [hget]
    cases hc : h.ctrl x with
    | none => rfl
    | some b =>
      rw [hc] at hrun
      change incrementCounter (depth β) h b (-1) 0 = _ at hrun
      simp only [Except.bind, hrun]
  rw [hreset]
  cases hc : h.ctrl x with
  | none =>
    rw [hc] at hrun
    cases hrun
    refine ⟨fun ho => absurd ho (hlive.1 hx), fun _ => ?_⟩
    change Except.ok h = _
    rw [← hc, update_eq_self]
  | some b => exact ⟨fun ho => if_neg fun hl => hlive.1 hl ho, fun ho => if_pos (hlive.2 ho)⟩

/-- A handle that stays keeps its block. -/
theorem Released.target (w : h.Wf) (r : Released h (others h x) U h₁) (hy : h₁.live y = true) (hxy : y ≠ x)
    (hc : h.ctrl y = some c) : h₁.alive c = true := by
  obtain ⟨hy₀, hlost⟩ := r.live_iff.1 hy
  exact (r.alive c).2 ⟨w.target y c hy₀ hc, fun hg => hlost (hg y (mem_others.2 ⟨hy₀, hxy⟩) hc)⟩

/-- Neither handle is in what is owned only by `x`. -/
def Safe (h : Heap ν arity) (x y : Loc ν arity) : Prop := ¬ OwnedBy h x x ∧ ¬ OwnedBy h x y

theorem Released.live_of_safe (r : Released h (others h x) U h₁) (hs : Safe h x y) (hx : h.live x = true)
    (hy : h.live y = true) : h₁.live x = true ∧ h₁.live y = true :=
  ⟨r.live_iff.2 ⟨hx, ownedBy_iff.not.1 hs.1⟩, r.live_iff.2 ⟨hy, ownedBy_iff.not.1 hs.2⟩⟩

theorem copyAssign_error (w : h.Wf) (hx : h.live x = true) (hxy : x ≠ y) (hs : ¬ Safe h x y) :
    copyAssign h x y = .error .freed ∧ moveAssign h x y = .error .freed := by
  obtain ⟨h₁, U, r, herr, hok⟩ := reset_spec w hx
  unfold copyAssign moveAssign
  rw [if_neg hxy, if_neg hxy]
  by_cases hox : OwnedBy h x x
  · rw [herr hox]
    exact ⟨rfl, rfl⟩
  · have hoy : OwnedBy h x y := not_not.1 fun hoy => hs ⟨hox, hoy⟩
    have hdead : ¬ h₁.live y = true := fun hl => (r.live_iff.1 hl).2 (ownedBy_iff.1 hoy)
    have hget : Heap.get { h₁ with ctrl := update h₁.ctrl x none } y = .error .freed := if_neg hdead
    rw [hok hox]
    simp only [Except.bind, hget, and_self]

theorem copyAssign_ok (w : h.Wf) (hx : h.live x = true) (hy : h.live y = true) (hxy : x ≠ y)
    (hs : Safe h x y) : ∃ h' h₁ U, copyAssign h x y = .ok h' ∧ Released h (others h x) U h₁ ∧
      h'.alive = h₁.alive ∧ h'.transient = h₁.transient ∧
      (∀ c, h'.strong c = h₁.strong c + if h.ctrl y = some c then 1 else 0) ∧
      ∀ l, h₁.live l = true → h'.ctrl l = update h.ctrl x (h.ctrl y) l := by
  obtain ⟨h₁, U, r, -, hok⟩ := reset_spec w hx
  obtain ⟨hx₁, hy₁⟩ := r.live_of_safe hs hx hy
  have hy' : update h₁.ctrl x none y = h.ctrl y := (update_of_ne hxy.symm ..).trans (r.ctrl y hy₁)
  have hget : Heap.get { h₁ with ctrl := update h₁.ctrl x none } y = .ok (h.ctrl y) := by
    rw [← hy']
    exact if_pos hy₁
  set h₂ : Heap ν arity := { h₁ with ctrl := update (update h₁.ctrl x none) x (h.ctrl y) } with hh₂
  have hset : Heap.set { h₁ with ctrl := update h₁.ctrl x none } x (h.ctrl y) = .ok h₂ := if_pos hx₁
  obtain ⟨h', hrun, hctrl, halive, htr, hstrong⟩ := acquire_spec (h := h₂) (o := h.ctrl y) fun c hc => by
    have hc₁ := r.target w hy₁ hxy.symm hc
    refine ⟨hc₁, ?_⟩
    change 0 ≤ h₁.strong c
    rw [r.strong c hc₁]
    exact Int.natCast_nonneg _
  refine ⟨h', h₁, U, ?_, r, halive, htr, hstrong, fun l hl => ?_⟩
  · unfold copyAssign
    rw [if_neg hxy, hok hs.1]
    simp only [Except.bind, hget, hset, hrun]
  · rw [hctrl]
    change update (update h₁.ctrl x none) x (h.ctrl y) l = _
    rw [update_idem]
    rcases eq_or_ne l x with rfl | hne
    · rw [update_self, update_self]
    · rw [update_of_ne hne, update_of_ne hne]
      exact r.ctrl l hl

theorem moveAssign_ok (w : h.Wf) (hx : h.live x = true) (hy : h.live y = true) (hxy : x ≠ y)
    (hs : Safe h x y) : ∃ h' h₁ U, moveAssign h x y = .ok h' ∧ Released h (others h x) U h₁ ∧
      h'.alive = h₁.alive ∧ h'.transient = h₁.transient ∧ h'.strong = h₁.strong ∧
      ∀ l, h₁.live l = true → h'.ctrl l = update (update h.ctrl y none) x (h.ctrl y) l := by
  obtain ⟨h₁, U, r, -, hok⟩ := reset_spec w hx
  obtain ⟨hx₁, hy₁⟩ := r.live_of_safe hs hx hy
  have hy' : update h₁.ctrl x none y = h.ctrl y := (update_of_ne hxy.symm ..).trans (r.ctrl y hy₁)
  have hget : Heap.get { h₁ with ctrl := update h₁.ctrl x none } y = .ok (h.ctrl y) := by
    rw [← hy']
    exact if_pos hy₁
  have hset₁ : Heap.set { h₁ with ctrl := update h₁.ctrl x none } y none =
      .ok { h₁ with ctrl := update (update h₁.ctrl x none) y none } := if_pos hy₁
  have hset₂ : Heap.set { h₁ with ctrl := update (update h₁.ctrl x none) y none } x (h.ctrl y) =
      .ok { h₁ with ctrl := update (update (update h₁.ctrl x none) y none) x (h.ctrl y) } := if_pos hx₁
  refine ⟨{ h₁ with ctrl := update (update (update h₁.ctrl x none) y none) x (h.ctrl y) }, h₁, U, ?_, r, rfl, rfl,
    rfl, fun l hl => ?_⟩
  · unfold moveAssign
    rw [if_neg hxy, hok hs.1]
    simp only [Except.bind, hget, hset₁, hset₂]
  · rcases eq_or_ne l x with rfl | hne
    · change update (update (update h₁.ctrl l none) y none) l (h.ctrl y) l = _
      rw [update_self, update_self]
    · change update (update (update h₁.ctrl x none) y none) x (h.ctrl y) l = _
      rw [update_of_ne hne, update_of_ne hne]
      rcases eq_or_ne l y with rfl | hney
      · rw [update_self, update_self]
      · rw [update_of_ne hney, update_of_ne hney, update_of_ne hne]
        exact r.ctrl l hl

/-! ### The other order -/

/-- The handles after an assignment: `x` refers to what `y` referred to, and `y` may have been moved from. -/
structure Assigned (h : Heap ν arity) (x y : Loc ν arity) (f : Loc ν arity → Option β) : Prop where
  ne : x ≠ y
  self : f x = h.ctrl y
  moved : f y = h.ctrl y ∨ f y = none
  other : ∀ l, l ≠ x → l ≠ y → f l = h.ctrl l

section assigned

variable {f : Loc ν arity → Option β}

omit [Fintype ν] [Fintype β] in
theorem Assigned.copy (hxy : x ≠ y) : Assigned h x y (update h.ctrl x (h.ctrl y)) where
  ne := hxy
  self := update_self ..
  moved := .inl (update_of_ne hxy.symm ..)
  other _ hx _ := update_of_ne hx ..

omit [Fintype ν] [Fintype β] in
theorem Assigned.move (hxy : x ≠ y) : Assigned h x y (update (update h.ctrl y none) x (h.ctrl y)) where
  ne := hxy
  self := update_self ..
  moved := .inr ((update_of_ne hxy.symm ..).trans (update_self ..))
  other _ hx hy := (update_of_ne hx ..).trans (update_of_ne hy ..)

/-- What is kept afterwards is kept before. -/
theorem Assigned.lost (a : Assigned h x y f) (hx : h.live x = true) (hs : Safe h x y)
    (hl : Ownership.Lost f inside (· ∈ handles h) l) : Ownership.Lost h.ctrl inside (· ∈ others h x) l := by
  refine hl.mono fun l' c hl' hc => .inr ?_
  obtain ⟨hlive, hne⟩ := mem_others.1 hl'
  rcases eq_or_ne l' y with rfl | hy
  · exact ⟨x, mem_handles.2 hx, a.self.trans hc, fun hlo => absurd (ownedBy_iff.2 hlo) hs.1⟩
  · exact ⟨l', mem_handles.2 hlive, (a.other l' hne hy).trans hc, id⟩

/-- What is kept before is kept afterwards. -/
theorem Assigned.lost_iff (a : Assigned h x y f) (hx : h.live x = true) (hy : h.live y = true)
    (hs : Safe h x y) : Ownership.Lost f inside (· ∈ handles h) l ↔
      Ownership.Lost h.ctrl inside (· ∈ others h x) l := by
  refine ⟨a.lost hx hs, fun hl => hl.mono fun l' c hl' hc => .inr ?_⟩
  have hlive := mem_handles.1 hl'
  have hyo : y ∈ others h x := mem_others.2 ⟨hy, a.ne.symm⟩
  rcases eq_or_ne l' x with rfl | hne
  · refine ⟨y, hyo, a.self.symm.trans hc, fun hlo => ?_⟩
    exact absurd (ownedBy_iff.2 (a.lost hx hs hlo)) hs.2
  · refine ⟨l', mem_others.2 ⟨hlive, hne⟩, ?_, id⟩
    rcases eq_or_ne l' y with rfl | hny
    · rcases a.moved with he | he
      · exact he.symm.trans hc
      · rw [he] at hc
        cases hc
    · exact (a.other l' hne hny).symm.trans hc

theorem Assigned.goes_iff (a : Assigned h x y f) (hx : h.live x = true) (hy : h.live y = true)
    (hs : Safe h x y) : Ownership.Dies f inside (· ∈ handles h) c ↔ Goes h (others h x) c := by
  have hlost := fun l => a.lost_iff (l := l) hx hy hs
  constructor
  · intro hg l hl hc
    obtain ⟨hlive, hne⟩ := mem_others.1 hl
    rcases eq_or_ne l y with rfl | hny
    · exact absurd (ownedBy_iff.2 ((hlost x).1 (hg x (mem_handles.2 hx) (a.self.trans hc)))) hs.1
    · exact (hlost l).1 (hg l (mem_handles.2 hlive) ((a.other l hne hny).trans hc))
  · intro hg l hl hc
    have hlive := mem_handles.1 hl
    rcases eq_or_ne l x with rfl | hne
    · have hyl := hg y (mem_others.2 ⟨hy, a.ne.symm⟩) (a.self.symm.trans hc)
      exact absurd (ownedBy_iff.2 hyl) hs.2
    · refine (hlost l).2 (hg l (mem_others.2 ⟨hlive, hne⟩) ?_)
      rcases eq_or_ne l y with rfl | hny
      · rcases a.moved with he | he
        · exact he.symm.trans hc
        · rw [he] at hc
          cases hc
      · exact (a.other l hne hny).symm.trans hc

/-- The release that comes last deletes the same blocks, and leaves the same handles. -/
theorem Assigned.released (a : Assigned h x y f) (hx : h.live x = true) (hy : h.live y = true)
    (hs : Safe h x y) (r₁ : Released h (others h x) U₁ h₁) {h₀ : Heap ν arity} (hf : h₀.ctrl = f)
    (ha : h₀.alive = h.alive) (r₂ : Released h₀ (handles h) U₂ h₂) :
    (∀ c, h₂.alive c = h₁.alive c) ∧ U₂ = insert x U₁ ∧ x ∉ U₁ := by
  subst hf
  have hxo : x ∉ others h x := fun hm => (mem_others.1 hm).2 rfl
  refine ⟨fun c => Bool.eq_iff_iff.2 ?_, Finset.ext fun l => ?_, fun hm => hxo ((r₁.kept x).1 hm).1⟩
  · rw [r₁.alive, r₂.alive, ha]
    exact and_congr_right fun _ => not_congr (a.goes_iff hx hy hs)
  · rw [Finset.mem_insert, r₁.kept, r₂.kept, a.lost_iff hx hy hs, mem_handles, mem_others]
    constructor
    · rintro ⟨hl, hlo⟩
      rcases eq_or_ne l x with he | hne
      · exact .inl he
      · exact .inr ⟨⟨hl, hne⟩, hlo⟩
    · rintro (rfl | ⟨⟨hl, -⟩, hlo⟩)
      · exact ⟨hx, ownedBy_iff.not.1 hs.1⟩
      · exact ⟨hl, hlo⟩

end assigned

theorem handles_eq_insert (hx : h.live x = true) : handles h = insert x (others h x) :=
  (Finset.insert_erase (mem_handles.2 hx)).symm

/-- Acquired, and the old block of `x` not yet released. -/
theorem ready_copy (w : h.Wf) (hx : h.live x = true) (hy : h.live y = true) {h₀ : Heap ν arity}
    (hctrl : h₀.ctrl = update h.ctrl x (h.ctrl y)) (ha : h₀.alive = h.alive) (htr : h₀.transient = h.transient)
    (hstrong : ∀ c, h₀.strong c = h.strong c + if h.ctrl y = some c then 1 else 0) :
    Ready h₀ (handles h) (h.ctrl x) where
  live l hl := by
    rw [live_congr ha]
    exact mem_handles.1 hl
  target l hl c hc := by
    rw [ha]
    rw [hctrl] at hc
    rcases eq_or_ne l x with rfl | hne
    · rw [update_self] at hc
      exact w.target y c hy hc
    · rw [update_of_ne hne] at hc
      exact w.target l c (mem_handles.1 hl) hc
  count c hc := by
    rw [ha] at hc
    have hrefs : refs (handles h) h₀.ctrl c = refs (others h x) h.ctrl c + if h.ctrl y = some c then 1 else 0 := by
      rw [handles_eq_insert hx, refs_insert fun hm => (mem_others.1 hm).2 rfl, hctrl, update_self]
      congr 1
      exact refs_congr fun l hl => update_of_ne (mem_others.1 hl).2 ..
    rw [hstrong, w.count_others hx hc, hrefs, Int.natCast_add]
    split <;> split <;> simp only [Int.natCast_one, Int.natCast_zero] <;> omega
  pos c hc := by
    rw [ha] at hc
    have := w.pos c hc
    rw [hstrong]
    split <;> omega
  transient c hc := by
    rw [htr]
    exact w.transient c (ha ▸ hc)
  stray l hl hd c _ := by
    obtain ⟨d, hd, hda⟩ := hd
    exact absurd (mem_handles.2 (live_of_inside hd (ha ▸ hda))) hl
  pinned c hc := by
    rw [ha]
    exact w.target x c hx hc

theorem acquireRelease_eq (w : h.Wf) (hx : h.live x = true) (hy : h.live y = true) :
    ∃ h₀ : Heap ν arity, h₀.ctrl = update h.ctrl x (h.ctrl y) ∧ h₀.alive = h.alive ∧
      Ready h₀ (handles h) (h.ctrl x) ∧ acquireRelease h x y = release h₀ (h.ctrl x) := by
  obtain ⟨h₁, hrun, hctrl, ha, htr, hstrong⟩ := acquire_spec (h := h) (o := h.ctrl y) fun c hc =>
    ⟨w.target y c hy hc, (w.pos c (w.target y c hy hc)).le⟩
  have hx₁ : h₁.live x = true := (live_congr ha x).trans hx
  have hgety : h.get y = .ok (h.ctrl y) := if_pos hy
  have hgetx : h₁.get x = .ok (h.ctrl x) := by
    rw [← hctrl]
    exact if_pos hx₁
  have hset : h₁.set x (h.ctrl y) = .ok { h₁ with ctrl := update h₁.ctrl x (h.ctrl y) } := if_pos hx₁
  refine ⟨{ h₁ with ctrl := update h₁.ctrl x (h.ctrl y) }, by rw [hctrl], ha,
    ready_copy w hx hy (by rw [hctrl]) ha htr hstrong, ?_⟩
  unfold acquireRelease
  rw [hgety]
  simp only [Except.bind, hrun, hgetx, hset]

/-- Transferred, and the old block of `x` not yet released. -/
theorem ready_move (w : h.Wf) (hx : h.live x = true) (hy : h.live y = true) (hxy : x ≠ y) :
    Ready { h with ctrl := update (update h.ctrl y none) x (h.ctrl y) } (handles h) (h.ctrl x) where
  live l hl := mem_handles.1 hl
  target l hl c hc := by
    change update (update h.ctrl y none) x (h.ctrl y) l = some c at hc
    rcases eq_or_ne l x with rfl | hne
    · rw [update_self] at hc
      exact w.target y c hy hc
    · rw [update_of_ne hne] at hc
      rcases eq_or_ne l y with rfl | hny
      · rw [update_self] at hc
        cases hc
      · rw [update_of_ne hny] at hc
        exact w.target l c (mem_handles.1 hl) hc
  count c hc := by
    have hyo : y ∈ others h x := mem_others.2 ⟨hy, hxy.symm⟩
    -- the reference of `y` is now that of `x`
    have hrefs : refs (handles h) (update (update h.ctrl y none) x (h.ctrl y)) c = refs (others h x) h.ctrl c := by
      rw [handles_eq_insert hx, refs_insert fun hm => (mem_others.1 hm).2 rfl, update_self]
      have hrest : refs (others h x) (update (update h.ctrl y none) x (h.ctrl y)) c =
          refs ((others h x).erase y) h.ctrl c := by
        rw [← refs_erase_of_ne (l := y) (f := update (update h.ctrl y none) x (h.ctrl y))]
        · refine refs_congr fun l hl => ?_
          obtain ⟨hny, hlo⟩ := Finset.mem_erase.1 hl
          rw [update_of_ne (mem_others.1 hlo).2, update_of_ne hny]
        · rw [update_of_ne hxy.symm, update_self]
          nofun
      rw [hrest]
      split
      · next he => rw [refs_erase hyo he]
      · next he => rw [refs_erase_of_ne he, add_zero]
    change h.strong c = (refs (handles h) (update (update h.ctrl y none) x (h.ctrl y)) c : Int) + _
    rw [hrefs]
    exact w.count_others hx hc
  pos := w.pos
  transient := w.transient
  stray l hl hd c _ := by
    obtain ⟨d, hd, hda⟩ := hd
    exact absurd (mem_handles.2 (live_of_inside hd hda)) hl
  pinned c hc := w.target x c hx hc

omit [Fintype ν] in
theorem transferRelease_eq (hx : h.live x = true) (hy : h.live y = true) (hxy : x ≠ y) :
    transferRelease h x y =
      release { h with ctrl := update (update h.ctrl y none) x (h.ctrl y) } (h.ctrl x) := by
  have hgety : h.get y = .ok (h.ctrl y) := if_pos hy
  have hset₁ : h.set y none = .ok { h with ctrl := update h.ctrl y none } := if_pos hy
  have hgetx : Heap.get { h with ctrl := update h.ctrl y none } x = .ok (h.ctrl x) := by
    have he : update h.ctrl y none x = h.ctrl x := update_of_ne hxy ..
    rw [← he]
    exact if_pos hx
  have hset₂ : Heap.set { h with ctrl := update h.ctrl y none } x (h.ctrl y) =
      .ok { h with ctrl := update (update h.ctrl y none) x (h.ctrl y) } := if_pos hx
  unfold transferRelease
  rw [hgety]
  simp only [Except.bind, hset₁, hgetx, hset₂]

/-! ### Main theorem -/

/-- `x = y` touches nothing that was freed, leaves `x` with the block of `y`, and is one acquisition followed by one
release. -/
def CopyCorrect (h : Heap ν arity) (x y : Loc ν arity) : Prop :=
  ∃ h' h'', copyAssign h x y = .ok h' ∧ acquireRelease h x y = .ok h'' ∧ h'.Same h'' ∧
    h'.get x = .ok (h.ctrl y)

/-- The same for `x = std::move(y)`, with a transfer. -/
def MoveCorrect (h : Heap ν arity) (x y : Loc ν arity) : Prop :=
  ∃ h' h'', moveAssign h x y = .ok h' ∧ transferRelease h x y = .ok h'' ∧ h'.Same h'' ∧
    h'.get x = .ok (h.ctrl y)

theorem copyCorrect_of_safe (w : h.Wf) (hx : h.live x = true) (hy : h.live y = true) (hxy : x ≠ y)
    (hs : Safe h x y) : CopyCorrect h x y := by
  obtain ⟨h', h₁, U₁, hrun, r₁, ha', htr', hstrong', hctrl'⟩ := copyAssign_ok w hx hy hxy hs
  obtain ⟨h₀, hctrl₀, ha₀, hready, hspec⟩ := acquireRelease_eq w hx hy
  obtain ⟨h₂, U₂, hrun₂, r₂⟩ := hready.release
  obtain ⟨halive, rfl, hxU⟩ := (Assigned.copy hxy).released hx hy hs r₁ hctrl₀ ha₀ r₂
  have hlive : ∀ l, h'.live l = h₁.live l := live_congr ha'
  have hx₁ := (r₁.live_of_safe hs hx hy).1
  refine ⟨h', h₂, hrun, hspec.trans hrun₂, ⟨fun c => ?_, fun c hc => ?_, fun c hc => ?_, fun l hl => ?_⟩, ?_⟩
  · rw [ha', halive]
  · rw [ha'] at hc
    rw [r₂.strong c ((halive c).trans hc), hstrong', r₁.strong c hc, hctrl₀, refs_insert hxU, update_self,
      Int.natCast_add]
    have hrefs : refs U₁ (update h.ctrl x (h.ctrl y)) c = refs U₁ h.ctrl c :=
      refs_congr fun l hl => update_of_ne (ne_of_mem_of_not_mem hl hxU) ..
    rw [hrefs]
    split <;> rfl
  · rw [ha'] at hc
    rw [htr', r₁.transient c hc, r₂.transient c ((halive c).trans hc)]
  · rw [hlive] at hl
    have hl₂ : h₂.live l = true := by
      rw [live_congr (funext halive)]
      exact hl
    rw [hctrl' l hl, r₂.ctrl l hl₂, hctrl₀]
  · have hget : h'.get x = .ok (h'.ctrl x) := if_pos ((hlive x).trans hx₁)
    rw [hget, hctrl' x hx₁, update_self]

theorem moveCorrect_of_safe (w : h.Wf) (hx : h.live x = true) (hy : h.live y = true) (hxy : x ≠ y)
    (hs : Safe h x y) : MoveCorrect h x y := by
  obtain ⟨h', h₁, U₁, hrun, r₁, ha', htr', hstrong', hctrl'⟩ := moveAssign_ok w hx hy hxy hs
  have hready := ready_move w hx hy hxy
  have hspec := transferRelease_eq hx hy hxy
  set h₀ : Heap ν arity := { h with ctrl := update (update h.ctrl y none) x (h.ctrl y) } with hh₀
  have hctrl₀ : h₀.ctrl = update (update h.ctrl y none) x (h.ctrl y) := rfl
  have ha₀ : h₀.alive = h.alive := rfl
  have hstrong₀ : h₀.strong = h.strong := rfl
  obtain ⟨h₂, U₂, hrun₂, r₂⟩ := hready.release
  obtain ⟨halive, rfl, hxU⟩ := (Assigned.move hxy).released hx hy hs r₁ hctrl₀ ha₀ r₂
  have hlive : ∀ l, h'.live l = h₁.live l := live_congr ha'
  obtain ⟨hx₁, hy₁⟩ := r₁.live_of_safe hs hx hy
  have hyU : y ∈ U₁ := (r₁.kept y).2 ⟨mem_others.2 ⟨hy, hxy.symm⟩, ownedBy_iff.not.1 hs.2⟩
  refine ⟨h', h₂, hrun, hspec.trans hrun₂,
    ⟨fun c => ?_, fun c hc => ?_, fun c hc => ?_, fun l hl => ?_⟩, ?_⟩
  · rw [ha', halive]
  · rw [ha'] at hc
    rw [r₂.strong c ((halive c).trans hc), hstrong', r₁.strong c hc]
    rw [hctrl₀, refs_insert hxU, update_self]
    have hrest : refs U₁ (update (update h.ctrl y none) x (h.ctrl y)) c = refs (U₁.erase y) h.ctrl c := by
      rw [← refs_erase_of_ne (l := y) (f := update (update h.ctrl y none) x (h.ctrl y))]
      · refine refs_congr fun l hl => ?_
        obtain ⟨hny, hlU⟩ := Finset.mem_erase.1 hl
        rw [update_of_ne (ne_of_mem_of_not_mem hlU hxU), update_of_ne hny]
      · rw [update_of_ne hxy.symm, update_self]
        nofun
    rw [hrest]
    split
    · next he => rw [refs_erase hyU he]
    · next he => rw [refs_erase_of_ne he, add_zero]
  · rw [ha'] at hc
    rw [htr', r₁.transient c hc, r₂.transient c ((halive c).trans hc)]
  · rw [hlive] at hl
    have hl₂ : h₂.live l = true := by
      rw [live_congr (funext halive)]
      exact hl
    rw [hctrl' l hl, r₂.ctrl l hl₂, hctrl₀]
  · have hget : h'.get x = .ok (h'.ctrl x) := if_pos ((hlive x).trans hx₁)
    rw [hget, hctrl' x hx₁, update_self]

/-- Each block has a handle, so that the release of an acquired block deletes nothing. -/
theorem copyCorrect_self (w : h.Wf) (hx : h.live x = true) : CopyCorrect h x x := by
  obtain ⟨h₀, hctrl₀, ha₀, hready, hspec⟩ := acquireRelease_eq w hx hx
  rw [update_eq_self] at hctrl₀
  obtain ⟨h₂, U, hrun, r⟩ := hready.release
  have hnot : ∀ l, h.live l = true → ¬ Ownership.Lost h₀.ctrl inside (· ∈ handles h) l := by
    intro l hl
    refine not_lost_of_refs hready.live (fun c hc => ?_) ((live_congr ha₀ l).trans hl)
    rw [ha₀] at hc
    have hcount := w.count_handles hc
    have hpos := w.pos c hc
    rw [hctrl₀]
    omega
  have halive : ∀ c, h₂.alive c = h.alive c := by
    intro c
    refine Bool.eq_iff_iff.2 ?_
    rw [r.alive, ha₀]
    refine ⟨And.left, fun hc => ⟨hc, fun hg => ?_⟩⟩
    obtain ⟨l, hl, he⟩ : ∃ l ∈ handles h, h.ctrl l = some c := by
      by_contra hno
      push Not at hno
      have hpos := w.pos c hc
      rw [w.count_handles hc, refs_eq_zero.2 hno] at hpos
      exact absurd hpos (by decide)
    exact hnot l (mem_handles.1 hl) (hg l hl (hctrl₀ ▸ he))
  have hU : U = handles h := by
    ext l
    rw [r.kept]
    exact ⟨And.left, fun hl => ⟨hl, hnot l (mem_handles.1 hl)⟩⟩
  refine ⟨h, h₂, if_pos rfl, hspec.trans hrun, ⟨halive, fun c hc => ?_, fun c hc => ?_, fun l hl => ?_⟩, if_pos hx⟩
  · rw [r.strong c ((halive c).trans hc), hU, hctrl₀, w.count_handles hc]
  · rw [r.transient c ((halive c).trans hc), w.transient c hc]
  · rw [r.ctrl l ((live_congr (funext halive) l).trans hl), hctrl₀]

omit [Fintype ν] in
theorem moveCorrect_self (hx : h.live x = true) : MoveCorrect h x x := by
  have hgetx : h.get x = .ok (h.ctrl x) := if_pos hx
  have hset₁ : h.set x none = .ok { h with ctrl := update h.ctrl x none } := if_pos hx
  have hget₁ : Heap.get { h with ctrl := update h.ctrl x none } x = .ok none := by
    refine (if_pos hx).trans ?_
    change Except.ok (update h.ctrl x none x) = _
    rw [update_self]
  have hset₂ : Heap.set { h with ctrl := update h.ctrl x none } x (h.ctrl x) = .ok h := by
    refine (if_pos hx).trans ?_
    change Except.ok { h with ctrl := update (update h.ctrl x none) x (h.ctrl x) } = _
    rw [update_idem, update_eq_self]
  refine ⟨h, h, if_pos rfl, ?_, ⟨fun _ => rfl, fun _ _ => rfl, fun _ _ => rfl, fun _ _ => rfl⟩, hgetx⟩
  unfold transferRelease
  rw [hgetx]
  simp only [Except.bind, hset₁, hget₁, hset₂]
  rfl

/-- The assignments are right unless one of the two handles is in what only `x` keeps. -/
theorem assignment_correct_iff (h : Heap ν arity) (x y : Loc ν arity) (w : h.Wf) (hx : h.live x = true)
    (hy : h.live y = true) :
    (CopyCorrect h x y ↔ x = y ∨ ¬ OwnedBy h x x ∧ ¬ OwnedBy h x y) ∧
      (MoveCorrect h x y ↔ x = y ∨ ¬ OwnedBy h x x ∧ ¬ OwnedBy h x y) := by
  rcases eq_or_ne x y with rfl | hxy
  · exact ⟨iff_of_true (copyCorrect_self w hx) (.inl rfl), iff_of_true (moveCorrect_self hx) (.inl rfl)⟩
  by_cases hs : Safe h x y
  · exact ⟨iff_of_true (copyCorrect_of_safe w hx hy hxy hs) (.inr hs),
      iff_of_true (moveCorrect_of_safe w hx hy hxy hs) (.inr hs)⟩
  · obtain ⟨hcopy, hmove⟩ := copyAssign_error w hx hxy hs
    have hnot : ¬ (x = y ∨ Safe h x y) := fun ho => ho.elim hxy hs
    refine ⟨iff_of_false (fun hc => ?_) hnot, iff_of_false (fun hm => ?_) hnot⟩
    · obtain ⟨h', -, hrun, -⟩ := hc
      cases hcopy.symm.trans hrun
    · obtain ⟨h', -, hrun, -⟩ := hm
      cases hmove.symm.trans hrun

end assign

/-! ### Two lists -/

/-- Variable 0 owns a node, whose field owns another one; variable 1 owns a third one. -/
def lists : Heap (β := Fin 3) (Fin 2) (fun _ => 1) where
  ctrl
    | .inl v => if v = 0 then some 0 else some 2
    | .inr ⟨b, _⟩ => if b = 0 then some 1 else none
  strong _ := 1
  transient _ := 0
  alive _ := true

theorem lists_wf : lists.Wf where
  target _ _ _ _ := rfl
  count := by decide
  pos _ _ := Int.one_pos
  transient _ _ := rfl

/-- The first list is deleted. -/
theorem assignment_correct_lists :
    (CopyCorrect lists (.inl 0) (.inl 1) ∧ MoveCorrect lists (.inl 0) (.inl 1)) ∧
      (copyAssign lists (.inl 0) (.inl 1)).map (fun h => (h.alive 0, h.alive 1, h.strong 2)) =
        .ok (false, false, 2) := by
  obtain ⟨hcopy, hmove⟩ := assignment_correct_iff lists (.inl 0) (.inl 1) lists_wf rfl rfl
  have hsafe : ∀ v, ¬ OwnedBy lists (.inl 0) (.inl v) := fun _ => Ownership.not_lost_of_outside rfl
  exact ⟨⟨hcopy.2 (.inr ⟨hsafe 0, hsafe 1⟩), hmove.2 (.inr ⟨hsafe 0, hsafe 1⟩)⟩, rfl⟩

/-! ### The list of the test -/

/-- `head` owns a node, whose `next` owns a node. -/
def list : Heap (β := Fin 2) Unit (fun _ => 1) where
  ctrl
    | .inl _ => some 0
    | .inr ⟨b, _⟩ => if b = 0 then some 1 else none
  strong _ := 1
  transient _ := 0
  alive _ := true

def head : Loc (β := Fin 2) Unit (fun _ => 1) := .inl ()
def next (b : Fin 2) : Loc (β := Fin 2) Unit (fun _ => 1) := .inr ⟨b, 0⟩

theorem list_wf : list.Wf where
  target _ _ _ _ := rfl
  count := by decide
  pos _ _ := Int.one_pos
  transient _ _ := rfl

/-- `head = head->next` frees the first node, and then reads the `next` of it. -/
theorem head_next_freed :
    copyAssign list head (next 0) = .error .freed ∧ moveAssign list head (next 0) = .error .freed ∧
      ¬ ∀ (h : Heap (β := Fin 2) Unit fun _ => 1) (x y : Loc (β := Fin 2) Unit fun _ => 1),
        h.Wf → h.live x = true → h.live y = true → CopyCorrect h x y ∧ MoveCorrect h x y := by
  have hcopy : copyAssign list head (next 0) = .error .freed := rfl
  have hmove : moveAssign list head (next 0) = .error .freed := rfl
  refine ⟨hcopy, hmove, fun hall => ?_⟩
  obtain ⟨h', -, hrun, -⟩ := (hall list head (next 0) list_wf rfl rfl).1
  cases hcopy.symm.trans hrun

end SharedPtr.Assignment
