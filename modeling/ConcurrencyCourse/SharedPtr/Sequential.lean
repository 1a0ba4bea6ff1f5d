import ConcurrencyCourse.Lib.Threads
import ConcurrencyCourse.Lib.Transition
import ConcurrencyCourse.Stack.StampedPtr
import Mathlib.Tactic.LinearCombination
import Mathlib.Tactic.Ring
import Mathlib.Algebra.Order.Ring.Int

/-!
# `AtomicSharedPtr` in one thread (tasks/lockfree/shared_ptr/shared_ptr.hpp)

A program is a list of statements on handles and on one `AtomicSharedPtr`. A statement runs to its end before
the next one.

| here | there |
| --- | --- |
| `Mem.word` | `atomic_stamped_ptr_` |
| `Mem.incrementCounter` | `IncrementCounter` (167-185), with `delete ctrl_ptr_` |
| `Mem.acquireTransientRef` | 313-324 |
| `Mem.load`, `Mem.store` | `Load` (240-256), `Store` (258-267) |
| `compareExchangeWeak` | 273-296 |
| `Arg` | how an argument that is passed by value is made |

* A spurious failure in the loop of `AcquireTransientRef` changes nothing, and is left out; that of the CAS of
  `CompareExchangeWeak` is a part of the statement.
* A block may be made where another one was deleted.
* `Mem.truncated` remembers that a stamp above `kMaxStamp` was packed. The counters are unbounded here; in the
  code they are `int32_t`, which is the same below 2^31 handles.

Only `Load` takes `limit` off the stamp. A `CompareExchangeWeak` that finds another block adds one to it:
`stamp_bookkeeping` says how many of them may come between two `Load`s.
-/

namespace SharedPtr.Sequential

open Transition Function

structure Mem (β : Type) where
  word : StampedPtr β
  strong : β → Int
  transient : β → Int
  /-- Made, and not deleted. -/
  alive : β → Bool
  truncated : Bool

structure State (ν β : Type) where
  mem : Mem β
  /-- `ctrl_ptr_` of the handles. -/
  var : ν → Option β
  /-- A block was touched that had been deleted. -/
  crashed : Bool

inductive Arg (ν : Type) where
  | copy (v : ν)
  | move (v : ν)
  deriving DecidableEq, Repr

inductive Stmt (ν β : Type) where
  /-- `x = MakeShared(…)`, with what `new` returns. -/
  | make (x : ν) (b : β)
  /-- `x = y`. -/
  | copy (x y : ν)
  /-- `x = std::move(y)`. -/
  | move (x y : ν)
  /-- `x.Reset()`. -/
  | reset (x : ν)
  /-- `x = asp.Load()`. -/
  | load (x : ν)
  /-- `asp.Store(target)`. -/
  | store (target : Arg ν)
  /-- `asp.CompareExchangeWeak(expected, desired)`. -/
  | compareExchangeWeak (expected : ν) (desired : Arg ν) (spurious : Bool)
  deriving DecidableEq, Repr

section model

variable {ν β : Type} [DecidableEq ν] [DecidableEq β]

/-- `limit` of `Load`. -/
def limit : Nat := 64000

omit [DecidableEq β] in
/-- A write of the stamped word. -/
def Mem.setWord (m : Mem β) (w : StampedPtr β) : Mem β :=
  { m with word := w.packed, truncated := m.truncated || decide (StampedPtr.maxStamp < w.stamp) }

def Mem.count (m : Mem β) (b : β) (strong transient : Int) : Mem β :=
  { m with
    strong := update m.strong b (m.strong b + strong)
    transient := update m.transient b (m.transient b + transient) }

def Mem.delete (m : Mem β) (b : β) : Mem β := { m with alive := update m.alive b false }

/-- `none` when the block has been deleted. -/
def Mem.incrementCounter (m : Mem β) (h : Option β) (strong transient : Int) : Option (Mem β) :=
  match h with
  | none => some m
  | some b =>
    if m.alive b then
      let m := m.count b strong transient
      some (if m.strong b = 0 ∧ m.transient b = 0 then m.delete b else m)
    else none

/-- `new ControlBlock(data, {0, 0})` and `IncrementStrong()`. -/
def Mem.makeShared (m : Mem β) (b : β) : Option (Mem β) :=
  let m := { m with
    strong := update m.strong b 0
    transient := update m.transient b 0
    alive := update m.alive b true }
  m.incrementCounter (some b) 1 0

omit [DecidableEq β] in
def Mem.acquireTransientRef (m : Mem β) : Mem β × StampedPtr β :=
  if m.word.raw.isNone then (m, m.word) else (m.setWord m.word.incrementStamp, m.word.incrementStamp)

def Mem.load (m : Mem β) : Option (Mem β × Option β) := do
  let (m, w) := m.acquireTransientRef
  -- `ToSharedPtr`, `DecrementTransient`
  let m ← m.incrementCounter w.raw 1 0
  let m ← m.incrementCounter w.raw 0 (-1)
  if limit < w.stamp then
    let m ← m.incrementCounter w.raw 0 limit
    some (m.setWord ⟨w.raw, w.stamp - limit⟩, w.raw)
  else some (m, w.raw)

def Mem.store (m : Mem β) (target : Option β) : Option (Mem β) := do
  let m ← m.incrementCounter target 1 0
  let old := m.word
  let m := m.setWord ⟨target, 0⟩
  let m ← m.incrementCounter old.raw 1 0
  let m ← m.incrementCounter old.raw (-1) old.stamp
  -- `~old_shared_ptr`, `~target`
  let m ← m.incrementCounter old.raw (-1) 0
  m.incrementCounter target (-1) 0

/-- The parameter is constructed. -/
def State.pass (s : State ν β) : Arg ν → Option (State ν β × Option β)
  | .copy v => do
    let m ← s.mem.incrementCounter (s.var v) 1 0
    some ({ s with mem := m }, s.var v)
  | .move v => some ({ s with var := update s.var v none }, s.var v)

def compareExchangeWeak (s : State ν β) (expected : ν) (desired : Option β) (spurious : Bool) :
    Option (State ν β) := do
  let (m, w) := s.mem.acquireTransientRef
  if w.raw ≠ s.var expected then
    -- `expected = ToSharedPtr(old_stamped_ptr)`, `DecrementTransient`, `~desired`
    let m ← m.incrementCounter w.raw 1 0
    let m ← m.incrementCounter (s.var expected) (-1) 0
    let m ← m.incrementCounter w.raw 0 (-1)
    let m ← m.incrementCounter desired (-1) 0
    some { s with mem := m, var := update s.var expected w.raw }
  else if spurious = false ∧ m.word = (StampedPtr.mk (s.var expected) w.stamp).packed then
    let m := m.setWord ⟨desired, 0⟩
    let m ← m.incrementCounter desired 1 0
    let m ← m.incrementCounter (s.var expected) (-1) (w.stamp - 1)
    let m ← m.incrementCounter desired (-1) 0
    some { s with mem := m }
  else
    -- `old_shared_ptr`, `DecrementTransient`, `expected = Load()`, `~old_shared_ptr`, `~desired`
    let m ← m.incrementCounter w.raw 1 0
    let m ← m.incrementCounter w.raw 0 (-1)
    let (m, h) ← m.load
    let m ← m.incrementCounter (s.var expected) (-1) 0
    let m ← m.incrementCounter w.raw (-1) 0
    let m ← m.incrementCounter desired (-1) 0
    some { s with mem := m, var := update s.var expected h }

/-- `x = …`, from a temporary. -/
def State.assign (s : State ν β) (m : Mem β) (x : ν) (h : Option β) : Option (State ν β) := do
  let m ← m.incrementCounter (s.var x) (-1) 0
  some { s with mem := m, var := update s.var x h }

def State.exec (s : State ν β) : Stmt ν β → Option (State ν β)
  | .make x b => do
    let m ← s.mem.makeShared b
    s.assign m x (some b)
  | .copy x y =>
    if x = y then some s
    else do
      let m ← s.mem.incrementCounter (s.var x) (-1) 0
      let m ← m.incrementCounter (s.var y) 1 0
      some { s with mem := m, var := update s.var x (s.var y) }
  | .move x y =>
    if x = y then some s
    else do
      let m ← s.mem.incrementCounter (s.var x) (-1) 0
      some { s with mem := m, var := update (update s.var y none) x (s.var y) }
  | .reset x => s.assign s.mem x none
  | .load x => do
    let (m, h) ← s.mem.load
    s.assign m x h
  | .store target => do
    let (s, h) ← s.pass target
    let m ← s.mem.store h
    some { s with mem := m }
  | .compareExchangeWeak expected desired spurious => do
    let (s, h) ← s.pass desired
    Sequential.compareExchangeWeak s expected h spurious

/-- `new` does not return a block that is in use. -/
def State.enabled (s : State ν β) : Stmt ν β → Bool
  | .make _ b => !s.crashed && !s.mem.alive b
  | _ => !s.crashed

def step (s : State ν β) (a : Stmt ν β) : Option (State ν β) :=
  if s.enabled a then some ((s.exec a).getD { s with crashed := true }) else none

def init : State ν β where
  mem := { word := .null, strong := fun _ => 0, transient := fun _ => 0, alive := fun _ => false, truncated := false }
  var _ := none
  crashed := false

variable (ν β) in
def system : System (State ν β) (Stmt ν β) := ⟨fun s => s = init, step⟩

end model

/-! ### What it is for -/

section spec

variable {ν β : Type} [DecidableEq β]

/-- What the stamp and the counters are to be between two statements. -/
structure Good [Fintype ν] (s : State ν β) : Prop where
  crashed : s.crashed = false
  truncated : s.mem.truncated = false
  stored : ∀ b, s.mem.word.raw = some b →
    s.mem.transient b + s.mem.word.stamp = 0 ∧ s.mem.strong b = Threads.count (· = some b) s.var + 1
  deleted : ∀ b, s.mem.alive b = true ↔ s.mem.word.raw = some b ∨ ∃ v, s.var v = some b

/-- The stamps that the statement packs are not above `kMaxStamp`. -/
def fits (s : State ν β) : Stmt ν β → Prop
  | .load _ => s.mem.word.raw = none ∨ s.mem.word.stamp < StampedPtr.maxStamp
  | .compareExchangeWeak e d spurious => s.mem.word.raw = none ∨ s.mem.word.stamp < StampedPtr.maxStamp ∧
      (spurious = true → d ≠ .move e → s.mem.word.raw = s.var e → s.mem.word.stamp + 1 < StampedPtr.maxStamp)
  | _ => True

end spec

/-! ### What a block is owed -/

section balance

variable {β : Type} [DecidableEq β] {m : Mem β} {w : StampedPtr β} {S T S' T' : β → Int} {h : Option β}
  {ds dt : Int} {b c : β}

/-- One reference, if it is to `c`. -/
def own (h : Option β) (c : β) : Int := if h = some c then 1 else 0

@[simp] theorem own_none : own none c = 0 := rfl

theorem own_nonneg (h : Option β) (c : β) : 0 ≤ own h c := by
  unfold own
  split <;> decide

theorem own_eq_one (hc : h = some c) : own h c = 1 := if_pos hc

/-- The counters of every block, and the word. A block is deleted when both its counters are zero. -/
structure Balance (m : Mem β) (w : StampedPtr β) (S T : β → Int) : Prop where
  word : m.word = w
  truncated : m.truncated = false
  alive : ∀ c, m.alive c = true ↔ S c ≠ 0 ∨ T c ≠ 0
  strong : ∀ c, m.alive c = true → m.strong c = S c
  transient : ∀ c, m.alive c = true → m.transient c = T c

omit [DecidableEq β] in
theorem Balance.congr (a : Balance m w S T) (hS : ∀ c, S' c = S c) (hT : ∀ c, T' c = T c) : Balance m w S' T' := by
  obtain rfl : S' = S := funext hS
  obtain rfl : T' = T := funext hT
  exact a

omit [DecidableEq β] in
theorem Balance.setWord (a : Balance m w S T) {x : StampedPtr β} (hw : x.stamp ≤ StampedPtr.maxStamp) :
    Balance (m.setWord x) x S T where
  word := StampedPtr.packed_of_le hw
  truncated := by
    change (m.truncated || decide _) = false
    rw [a.truncated, Bool.false_or, decide_eq_false_iff_not]
    exact not_lt.2 hw
  alive := a.alive
  strong := a.strong
  transient := a.transient

/-- `IncrementCounter` of a block that has an owner. -/
theorem Balance.incrementCounter (a : Balance m w S T) (ds dt : Int) (hpos : ∀ c, h = some c → 0 < S c) :
    ∃ m', m.incrementCounter h ds dt = some m' ∧
      Balance m' w (fun c => S c + ds * own h c) (fun c => T c + dt * own h c) := by
  cases h with
  | none => exact ⟨m, rfl, a.congr (fun c => by simp) fun c => by simp⟩
  | some b =>
    have hb := hpos b rfl
    have halive : m.alive b = true := (a.alive b).2 (.inl hb.ne')
    have hs : (m.count b ds dt).strong b = S b + ds := by
      rw [← a.strong b halive]
      exact update_self ..
    have ht : (m.count b ds dt).transient b = T b + dt := by
      rw [← a.transient b halive]
      exact update_self ..
    have hone : own (some b) b = 1 := own_eq_one rfl
    have hne : ∀ c, c ≠ b → own (some b) c = 0 := fun c hc => if_neg fun he => hc (Option.some.inj he).symm
    refine ⟨_, if_pos halive, ?_⟩
    rw [hs, ht]
    set m' := if S b + ds = 0 ∧ T b + dt = 0 then (m.count b ds dt).delete b else m.count b ds dt with hm'
    have hstrong : m'.strong = (m.count b ds dt).strong := by rw [hm']; split <;> rfl
    have htransient : m'.transient = (m.count b ds dt).transient := by rw [hm']; split <;> rfl
    have hself : m'.alive b = true ↔ ¬ (S b + ds = 0 ∧ T b + dt = 0) := by
      rw [hm']
      split
      · next hz => exact iff_of_false (by simp [Mem.delete]) (not_not_intro hz)
      · next hz => exact iff_of_true halive hz
    have hother : ∀ c, c ≠ b → m'.alive c = m.alive c := by
      intro c hc
      rw [hm']
      split
      · exact update_of_ne hc ..
      · rfl
    refine ⟨?_, ?_, fun c => ?_, fun c hc => ?_, fun c hc => ?_⟩
    · rw [← a.word, hm']
      split <;> rfl
    · rw [← a.truncated, hm']
      split <;> rfl
    · rcases eq_or_ne c b with rfl | hcb
      · rw [hself, hone]
        omega
      · rw [hother c hcb, hne c hcb, a.alive]
        simp
    · rw [hstrong]
      rcases eq_or_ne c b with rfl | hcb
      · rw [hs, hone, mul_one]
      · have hkeep : (m.count b ds dt).strong c = m.strong c := update_of_ne hcb ..
        rw [hkeep, hne c hcb, mul_zero, add_zero]
        exact a.strong c (hother c hcb ▸ hc)
    · rw [htransient]
      rcases eq_or_ne c b with rfl | hcb
      · rw [ht, hone, mul_one]
      · have hkeep : (m.count b ds dt).transient c = m.transient c := update_of_ne hcb ..
        rw [hkeep, hne c hcb, mul_zero, add_zero]
        exact a.transient c (hother c hcb ▸ hc)

/-- A new block. -/
theorem Balance.makeShared (a : Balance m w S T) (hb : m.alive b = false) :
    ∃ m', m.makeShared b = some m' ∧ Balance m' w (fun c => S c + own (some b) c) T := by
  have hzero : S b = 0 ∧ T b = 0 := by
    by_contra hno
    have := (a.alive b).2 (by omega)
    rw [hb] at this
    cases this
  have hone : own (some b) b = 1 := own_eq_one rfl
  have hne : ∀ c, c ≠ b → own (some b) c = 0 := fun c hc => if_neg fun he => hc (Option.some.inj he).symm
  refine ⟨{ m with
    strong := update (update m.strong b 0) b 1
    transient := update (update m.transient b 0) b 0
    alive := update m.alive b true }, ?_, a.word, a.truncated, fun c => ?_, fun c hc => ?_, fun c hc => ?_⟩
  · simp [Mem.makeShared, Mem.incrementCounter, Mem.count]
  · rcases eq_or_ne c b with rfl | hcb
    · rw [hzero.1, hone]
      exact iff_of_true (update_self ..) (by omega)
    · have hkeep : update m.alive b true c = m.alive c := update_of_ne hcb ..
      rw [hne c hcb, add_zero, ← a.alive, ← hkeep]
  · rcases eq_or_ne c b with rfl | hcb
    · rw [hzero.1, hone]
      exact update_self ..
    · have hkeep : update (update m.strong b 0) b 1 c = m.strong c := by
        rw [update_of_ne hcb, update_of_ne hcb]
      have hlive : update m.alive b true c = m.alive c := update_of_ne hcb ..
      rw [hne c hcb, add_zero, ← a.strong c (hlive ▸ hc)]
      exact hkeep
  · rcases eq_or_ne c b with rfl | hcb
    · rw [hzero.2]
      exact update_self ..
    · have hkeep : update (update m.transient b 0) b 0 c = m.transient c := by
        rw [update_of_ne hcb, update_of_ne hcb]
      have hlive : update m.alive b true c = m.alive c := update_of_ne hcb ..
      rw [← a.transient c (hlive ▸ hc)]
      exact hkeep

/-! ### `AtomicSharedPtr` -/

/-- The word after `AcquireTransientRef`. -/
def acquired (w : StampedPtr β) : StampedPtr β := if w.raw.isNone then w else w.incrementStamp

omit [DecidableEq β] in
@[simp] theorem raw_acquired : (acquired w).raw = w.raw := by
  unfold acquired
  split <;> rfl

omit [DecidableEq β] in
theorem Balance.acquireTransientRef (a : Balance m w S T) (hw : (acquired w).stamp ≤ StampedPtr.maxStamp) :
    ∃ m', m.acquireTransientRef = (m', acquired w) ∧ Balance m' (acquired w) S T := by
  unfold Mem.acquireTransientRef
  unfold acquired at hw ⊢
  rw [a.word]
  split
  · exact ⟨m, rfl, a⟩
  · next hn =>
    rw [if_neg hn] at hw
    exact ⟨_, rfl, a.setWord hw⟩

/-- The word after `Load`. -/
def loaded (w : StampedPtr β) : StampedPtr β :=
  if limit < (acquired w).stamp then ⟨w.raw, (acquired w).stamp - limit⟩ else acquired w

omit [DecidableEq β] in
@[simp] theorem raw_loaded : (loaded w).raw = w.raw := by
  unfold loaded
  split
  · rfl
  · exact raw_acquired

omit [DecidableEq β] in
theorem stamp_loaded_le : (loaded w).stamp ≤ (acquired w).stamp := by
  unfold loaded
  split
  · exact Nat.sub_le ..
  · exact le_rfl

/-- How much more the stamp is. -/
theorem acquired_own (w : StampedPtr β) (c : β) :
    ((acquired w).stamp : Int) * own w.raw c = w.stamp * own w.raw c + own w.raw c := by
  unfold acquired
  split
  · next hn =>
    rw [Option.isNone_iff_eq_none.1 hn]
    simp
  · change ((w.stamp + 1 : Nat) : Int) * own w.raw c = _
    rw [Int.natCast_add, add_mul, Int.natCast_one, one_mul]

theorem Balance.load (a : Balance m w S T) (hw : (acquired w).stamp ≤ StampedPtr.maxStamp)
    (hpos : ∀ c, w.raw = some c → 0 < S c) :
    ∃ m', m.load = some (m', w.raw) ∧ Balance m' (loaded w) (fun c => S c + own w.raw c)
      fun c => T c + (w.stamp - (loaded w).stamp) * own w.raw c := by
  obtain ⟨m₀, h₀, a₀⟩ := a.acquireTransientRef hw
  obtain ⟨m₁, h₁, a₁⟩ := a₀.incrementCounter 1 0 hpos
  obtain ⟨m₂, h₂, a₂⟩ := a₁.incrementCounter (h := w.raw) 0 (-1) fun c hc => by
    have := hpos c hc
    have := own_eq_one hc
    omega
  have hT := acquired_own w
  unfold Mem.load loaded
  simp only [h₀, raw_acquired, h₁, h₂, Option.bind_eq_bind, Option.bind_some]
  split
  · next hl =>
    obtain ⟨m₃, h₃, a₃⟩ := a₂.incrementCounter (h := w.raw) 0 limit fun c hc => by
      have := hpos c hc
      have := own_eq_one hc
      omega
    refine ⟨_, by rw [h₃]; rfl, (a₃.setWord (x := ⟨w.raw, (acquired w).stamp - limit⟩) ?_).congr (fun c => ?_)
      fun c => ?_⟩
    · exact (Nat.sub_le ..).trans hw
    · ring
    · dsimp only
      rw [Int.natCast_sub hl.le]
      linear_combination -hT c
  · refine ⟨m₂, rfl, a₂.congr (fun c => by ring) fun c => ?_⟩
    linear_combination -hT c

theorem Balance.store (a : Balance m w S T) (hpos : ∀ c, own w.raw c + own h c ≤ S c) :
    ∃ m', m.store h = some m' ∧ Balance m' ⟨h, 0⟩ (fun c => S c - own w.raw c)
      fun c => T c + w.stamp * own w.raw c := by
  have hnn := fun c => own_nonneg w.raw c
  have hnn' := fun c => own_nonneg h c
  obtain ⟨m₁, h₁, a₁⟩ := a.incrementCounter (h := h) 1 0 fun c hc => by
    have := hpos c
    have := own_eq_one hc
    have := hnn c
    omega
  have a₂ := a₁.setWord (x := ⟨h, 0⟩) (Nat.zero_le _)
  obtain ⟨m₃, h₃, a₃⟩ := a₂.incrementCounter (h := w.raw) 1 0 fun c hc => by
    have := hpos c
    have := own_eq_one hc
    have := hnn' c
    omega
  obtain ⟨m₄, h₄, a₄⟩ := a₃.incrementCounter (h := w.raw) (-1) w.stamp fun c hc => by
    have := hpos c
    have := own_eq_one hc
    have := hnn' c
    omega
  obtain ⟨m₅, h₅, a₅⟩ := a₄.incrementCounter (h := w.raw) (-1) 0 fun c hc => by
    have := hpos c
    have := own_eq_one hc
    have := hnn' c
    omega
  obtain ⟨m₆, h₆, a₆⟩ := a₅.incrementCounter (h := h) (-1) 0 fun c hc => by
    have := hpos c
    have := own_eq_one hc
    omega
  refine ⟨m₆, ?_, a₆.congr (fun c => by ring) fun c => by ring⟩
  unfold Mem.store
  simp only [h₁, a₁.word, h₃, h₄, h₅, h₆, Option.bind_eq_bind, Option.bind_some]

end balance

/-! ### Statements -/

section inv

variable {ν β : Type} [Fintype ν] [DecidableEq ν] [DecidableEq β] {s s' : State ν β} {m : Mem β} {w : StampedPtr β}
  {f : ν → Option β} {h t : Option β} {x y e : ν} {b c : β} {a : Stmt ν β} {d : Arg ν} {spurious : Bool}

/-- The handles to `c`. -/
def refs (f : ν → Option β) (c : β) : Int := Threads.count (· = some c) f

theorem refs_update : refs (update f x h) c = refs f c - own (f x) c + own h c := by
  have hcount := Threads.count_update_add (p := (· = some c)) (l := f) (i := x) (x := h)
  unfold refs own
  split_ifs at hcount ⊢ <;> omega

omit [DecidableEq ν] in
theorem refs_nonneg (f : ν → Option β) (c : β) : 0 ≤ refs f c := Int.natCast_nonneg _

omit [DecidableEq ν] in
theorem own_le_refs (f : ν → Option β) (x : ν) (c : β) : own (f x) c ≤ refs f c := by
  unfold own
  split
  · next hx => exact Int.natCast_pos.2 (Threads.count_pos (p := (· = some c)) hx)
  · exact refs_nonneg f c

/-- `t` is the parameter of a call. -/
structure Inv (s : State ν β) (t : Option β) : Prop where
  crashed : s.crashed = false
  balance : Balance s.mem s.mem.word (fun c => refs s.var c + own s.mem.word.raw c + own t c)
    fun c => -(s.mem.word.stamp * own s.mem.word.raw c)
  null : s.mem.word.raw = none → s.mem.word.stamp = 0
  le : s.mem.word.stamp ≤ StampedPtr.maxStamp

omit [DecidableEq ν] in
/-- From the balance at the end of a statement. -/
theorem Inv.of_balance {S T : β → Int} (a : Balance m w S T) (hS : ∀ c, S c = refs f c + own w.raw c + own t c)
    (hT : ∀ c, T c = -(w.stamp * own w.raw c)) (hn : w.raw = none → w.stamp = 0)
    (hle : w.stamp ≤ StampedPtr.maxStamp) : Inv { mem := m, var := f, crashed := false } t := by
  obtain rfl := a.word
  exact ⟨rfl, a.congr (fun c => (hS c).symm) fun c => (hT c).symm, hn, hle⟩

omit [Fintype ν] [DecidableEq ν] [DecidableEq β] in
theorem stamp_acquired_null (hn : w.raw = none) : acquired w = w := by
  unfold acquired
  rw [hn]
  rfl

omit [Fintype ν] [DecidableEq ν] [DecidableEq β] in
theorem stamp_loaded_null (hn : w.raw = none) (h0 : w.stamp = 0) : (loaded w).stamp = 0 := by
  refine Nat.le_zero.1 (stamp_loaded_le.trans ?_)
  rw [stamp_acquired_null hn, h0]

/-- What a parameter is made from. -/
def Arg.handle (f : ν → Option β) : Arg ν → Option β
  | .copy v | .move v => f v

/-- The handle when the parameter has been made. -/
def Arg.rest (f : ν → Option β) (d : Arg ν) (e : ν) : Option β := if d = .move e then none else f e

theorem Inv.pass (i : Inv s none) (d : Arg ν) : ∃ s', s.pass d = some (s', d.handle s.var) ∧
    Inv s' (d.handle s.var) ∧ s'.mem.word = s.mem.word ∧ ∀ e, s'.var e = d.rest s.var e := by
  obtain ⟨hc, a, hn, hle⟩ := i
  cases d with
  | copy v =>
    obtain ⟨m, hm, am⟩ := a.incrementCounter (h := s.var v) 1 0 fun c hv => by
      have := own_le_refs s.var v c
      have := own_eq_one hv
      have := own_nonneg s.mem.word.raw c
      have := own_none (c := c)
      omega
    refine ⟨{ s with mem := m }, ?_, ?_, am.word, fun e => rfl⟩
    · simp only [State.pass, Arg.handle, hm, Option.bind_eq_bind, Option.bind_some]
    · rw [hc]
      exact .of_balance am (fun c => by rw [own_none, Arg.handle]; ring) (fun c => by ring) hn hle
  | move v =>
    refine ⟨{ s with var := update s.var v none }, rfl, ?_, rfl, fun e => ?_⟩
    · rw [hc]
      exact .of_balance a (fun c => by rw [refs_update, own_none, Arg.handle]; ring) (fun _ => rfl) hn hle
    · unfold Arg.rest
      split
      · next he =>
        cases he
        exact update_self ..
      · next he => exact update_of_ne (fun hev => he (by rw [hev])) ..

omit [DecidableEq ν] in
/-- What a handle refers to is counted. -/
theorem owed_pos {r : Option β} (hc : (∃ x, f x = some c) ∨ r = some c ∨ t = some c) :
    0 < refs f c + own r c + own t c := by
  have hf := refs_nonneg f c
  have hr := own_nonneg r c
  have ht := own_nonneg t c
  rcases hc with ⟨x, hc⟩ | hc | hc
  · have := own_le_refs f x c
    have := own_eq_one hc
    omega
  · have := own_eq_one hc
    omega
  · have := own_eq_one hc
    omega

/-- The word after `CompareExchangeWeak`. -/
def exchanged (w : StampedPtr β) (expected desired : Option β) (spurious : Bool) : StampedPtr β :=
  if w.raw ≠ expected then acquired w else if spurious then loaded (acquired w) else ⟨desired, 0⟩

/-- Another block is stored. -/
theorem Inv.exchange_miss (i : Inv s t) (hw : (acquired s.mem.word).stamp ≤ StampedPtr.maxStamp)
    (hmiss : s.mem.word.raw ≠ s.var e) :
    ∃ s', Sequential.compareExchangeWeak s e t spurious = some s' ∧ Inv s' none ∧ s'.mem.word = acquired s.mem.word := by
  obtain ⟨hc, a, hn, -⟩ := i
  obtain ⟨m₀, h₀, a₀⟩ := a.acquireTransientRef hw
  have hT := acquired_own s.mem.word
  have hraw : (acquired s.mem.word).raw = s.mem.word.raw := raw_acquired
  set w := s.mem.word
  have hnw := fun c => own_nonneg w.raw c
  have hnt := fun c => own_nonneg t c
  have hle := fun c => own_le_refs s.var e c
  obtain ⟨m₁, h₁, a₁⟩ := a₀.incrementCounter (h := w.raw) 1 0 fun c hc => owed_pos (.inr (.inl hc))
  obtain ⟨m₂, h₂, a₂⟩ := a₁.incrementCounter (h := s.var e) (-1) 0 fun c hc => by
    have := own_eq_one hc
    have := hle c; have := hnw c; have := hnt c
    omega
  obtain ⟨m₃, h₃, a₃⟩ := a₂.incrementCounter (h := w.raw) 0 (-1) fun c hc => by
    have := own_eq_one hc
    have := hle c; have := hnt c
    omega
  obtain ⟨m₄, h₄, a₄⟩ := a₃.incrementCounter (h := t) (-1) 0 fun c hc => by
    have := own_eq_one hc
    have := hle c; have := hnw c
    omega
  refine ⟨{ s with mem := m₄, var := update s.var e w.raw }, ?_, ?_, a₄.word⟩
  · unfold Sequential.compareExchangeWeak
    simp only [h₀, hraw, if_pos hmiss, h₁, h₂, h₃, h₄, Option.bind_eq_bind, Option.bind_some]
  rw [hc]
  refine .of_balance a₄ (fun c => ?_) (fun c => ?_) (fun h => ?_) hw
  · rw [refs_update, hraw, own_none]
    ring
  · rw [hraw]
    linear_combination hT c
  · rw [hraw] at h
    rw [stamp_acquired_null h]
    exact hn h

theorem Inv.exchange_succeed (i : Inv s t) (hw : (acquired s.mem.word).stamp ≤ StampedPtr.maxStamp)
    (hmatch : s.mem.word.raw = s.var e) :
    ∃ s', Sequential.compareExchangeWeak s e t false = some s' ∧ Inv s' none ∧ s'.mem.word = ⟨t, 0⟩ := by
  obtain ⟨hc, a, -, -⟩ := i
  obtain ⟨m₀, h₀, a₀⟩ := a.acquireTransientRef hw
  have hT := acquired_own s.mem.word
  have hraw : (acquired s.mem.word).raw = s.mem.word.raw := raw_acquired
  set w := s.mem.word
  have hnw := fun c => own_nonneg w.raw c
  have hnt := fun c => own_nonneg t c
  have hle := fun c => own_le_refs s.var e c
  -- the CAS finds the word that it expects
  have hcas : m₀.word = (StampedPtr.mk (s.var e) (acquired w).stamp).packed := by
    rw [a₀.word, ← hmatch, ← hraw]
    exact (StampedPtr.packed_of_le hw).symm
  have a₁ := a₀.setWord (x := ⟨t, 0⟩) (Nat.zero_le _)
  obtain ⟨m₂, h₂, a₂⟩ := a₁.incrementCounter (h := t) 1 0 fun c hc => owed_pos (.inr (.inr hc))
  obtain ⟨m₃, h₃, a₃⟩ := a₂.incrementCounter (h := s.var e) (-1) ((acquired w).stamp - 1) fun c hc => by
    have := own_eq_one hc
    have := hle c; have := hnw c; have := hnt c
    omega
  obtain ⟨m₄, h₄, a₄⟩ := a₃.incrementCounter (h := t) (-1) 0 fun c hc => by
    have := own_eq_one hc
    have := hle c; have := hnw c
    omega
  refine ⟨{ s with mem := m₄ }, ?_, ?_, a₄.word⟩
  · unfold Sequential.compareExchangeWeak
    simp only [h₀, hraw, if_neg (not_not_intro hmatch), true_and, if_pos hcas, h₂, h₃, h₄, Option.bind_eq_bind,
      Option.bind_some]
  rw [hc]
  refine .of_balance a₄ (fun c => ?_) (fun c => ?_) (fun _ => rfl) (Nat.zero_le _)
  · rw [hmatch, own_none]
    ring
  · have := hT c
    rw [hmatch] at this ⊢
    linear_combination this

/-- The CAS fails for no reason, and `expected` is loaded once more. -/
theorem Inv.exchange_fail (i : Inv s t) (hw : (acquired s.mem.word).stamp ≤ StampedPtr.maxStamp)
    (hw2 : (acquired (acquired s.mem.word)).stamp ≤ StampedPtr.maxStamp) (hmatch : s.mem.word.raw = s.var e) :
    ∃ s', Sequential.compareExchangeWeak s e t true = some s' ∧ Inv s' none ∧
      s'.mem.word = loaded (acquired s.mem.word) := by
  obtain ⟨hc, a, hn, -⟩ := i
  obtain ⟨m₀, h₀, a₀⟩ := a.acquireTransientRef hw
  have hT := acquired_own s.mem.word
  have hraw : (acquired s.mem.word).raw = s.mem.word.raw := raw_acquired
  set w := s.mem.word
  have hnr := fun c => refs_nonneg s.var c
  have hnw := fun c => own_nonneg w.raw c
  have hnt := fun c => own_nonneg t c
  have hle := fun c => own_le_refs s.var e c
  obtain ⟨m₁, h₁, a₁⟩ := a₀.incrementCounter (h := w.raw) 1 0 fun c hc => owed_pos (.inr (.inl hc))
  obtain ⟨m₂, h₂, a₂⟩ := a₁.incrementCounter (h := w.raw) 0 (-1) fun c hc => by
    have := own_eq_one hc
    have := hnr c; have := hnt c
    omega
  obtain ⟨m₃, h₃, a₃⟩ := a₂.load hw2 fun c hc => by
    rw [hraw] at hc
    have := own_eq_one hc
    have := hnr c; have := hnt c
    omega
  rw [hraw] at h₃ a₃
  obtain ⟨m₄, h₄, a₄⟩ := a₃.incrementCounter (h := s.var e) (-1) 0 fun c hc => by
    have := own_eq_one hc
    have := hle c; have := hnw c; have := hnt c
    omega
  obtain ⟨m₅, h₅, a₅⟩ := a₄.incrementCounter (h := w.raw) (-1) 0 fun c hc => by
    have := own_eq_one hc
    have := hle c; have := hnt c
    omega
  obtain ⟨m₆, h₆, a₆⟩ := a₅.incrementCounter (h := t) (-1) 0 fun c hc => by
    have := own_eq_one hc
    have := hle c; have := hnw c
    omega
  refine ⟨{ s with mem := m₆, var := update s.var e w.raw }, ?_, ?_, a₆.word⟩
  · unfold Sequential.compareExchangeWeak
    simp only [h₀, hraw, if_neg (not_not_intro hmatch), Bool.true_eq_false, false_and, if_false, h₁, h₂, h₃, h₄, h₅, h₆,
      Option.bind_eq_bind, Option.bind_some]
  rw [hc]
  refine .of_balance a₆ (fun c => ?_) (fun c => ?_) (fun h => ?_) (stamp_loaded_le.trans hw2)
  · rw [refs_update, raw_loaded, hraw, own_none]
    ring
  · rw [raw_loaded, hraw]
    linear_combination hT c
  · rw [raw_loaded, hraw] at h
    refine stamp_loaded_null (hraw.trans h) ?_
    rw [stamp_acquired_null h]
    exact hn h

theorem Inv.compareExchangeWeak (i : Inv s t) (hw : (acquired s.mem.word).stamp ≤ StampedPtr.maxStamp)
    (hs : spurious = true → s.mem.word.raw = s.var e →
      (acquired (acquired s.mem.word)).stamp ≤ StampedPtr.maxStamp) :
    ∃ s', Sequential.compareExchangeWeak s e t spurious = some s' ∧ Inv s' none ∧
      s'.mem.word = exchanged s.mem.word (s.var e) t spurious := by
  unfold exchanged
  split
  · next hmiss => exact i.exchange_miss hw hmiss
  · next hmatch =>
    replace hmatch : s.mem.word.raw = s.var e := not_not.1 hmatch
    cases spurious with
    | false => exact i.exchange_succeed hw hmatch
    | true => exact i.exchange_fail hw (hs rfl hmatch) hmatch

omit [Fintype ν] [DecidableEq ν] [DecidableEq β] in
theorem acquired_le_iff : (acquired w).stamp ≤ StampedPtr.maxStamp ↔
    w.raw = none ∧ w.stamp ≤ StampedPtr.maxStamp ∨ w.raw ≠ none ∧ w.stamp < StampedPtr.maxStamp := by
  unfold acquired
  cases hraw : w.raw with
  | none => simp
  | some b =>
    simp only [Option.isNone_some, Bool.false_eq_true, if_false, reduceCtorEq, false_and, ne_eq, not_false_iff,
      true_and, false_or]
    exact Iff.rfl

omit [Fintype ν] [DecidableEq ν] [DecidableEq β] in
theorem acquired_le (hw : w.raw = none ∨ w.stamp < StampedPtr.maxStamp) (hle : w.stamp ≤ StampedPtr.maxStamp) :
    (acquired w).stamp ≤ StampedPtr.maxStamp := by
  rw [acquired_le_iff]
  by_cases hn : w.raw = none
  · exact .inl ⟨hn, hle⟩
  · exact .inr ⟨hn, hw.resolve_left hn⟩

theorem Inv.assign {S T : β → Int} (hc : s.crashed = false) (a : Balance m w S T) (x : ν) (h : Option β)
    (hS : ∀ c, S c = refs s.var c + own w.raw c + own h c) (hT : ∀ c, T c = -(w.stamp * own w.raw c))
    (hn : w.raw = none → w.stamp = 0) (hle : w.stamp ≤ StampedPtr.maxStamp) :
    ∃ s', s.assign m x h = some s' ∧ Inv s' none ∧ s'.mem.word = w := by
  obtain ⟨m', hm, am⟩ := a.incrementCounter (h := s.var x) (-1) 0 fun c hx => by
    have := own_eq_one hx
    have := own_le_refs s.var x c
    have := own_nonneg w.raw c
    have := own_nonneg h c
    have := hS c
    omega
  refine ⟨_, by simp only [State.assign, hm, Option.bind_eq_bind, Option.bind_some]; rfl, ?_, am.word⟩
  rw [hc]
  refine .of_balance am (fun c => ?_) (fun c => ?_) hn hle
  · rw [hS, refs_update, own_none]
    ring
  · rw [hT]
    ring

/-- The word after a statement. -/
def after (s : State ν β) : Stmt ν β → StampedPtr β
  | .load _ => loaded s.mem.word
  | .store d => ⟨d.handle s.var, 0⟩
  | .compareExchangeWeak e d spurious => exchanged s.mem.word (d.rest s.var e) (d.handle s.var) spurious
  | _ => s.mem.word

theorem Inv.exec (i : Inv s none) (he : s.enabled a = true) (hf : fits s a) :
    ∃ s', s.exec a = some s' ∧ Inv s' none ∧ s'.mem.word = after s a := by
  have hb := i.balance
  have hnw := fun c => own_nonneg s.mem.word.raw c
  cases a with
  | make x b =>
    have hfresh : s.mem.alive b = false := by
      have := (Bool.and_eq_true_iff.1 he).2
      exact Bool.not_eq_true' .. ▸ this
    obtain ⟨m, hm, am⟩ := hb.makeShared hfresh
    obtain ⟨s', hs', hi⟩ := Inv.assign i.crashed am x (some b) (fun c => by rw [own_none, add_zero])
      (fun _ => rfl) i.null i.le
    exact ⟨s', by simp only [State.exec, hm, hs', Option.bind_eq_bind, Option.bind_some], hi⟩
  | copy x y =>
    simp only [State.exec]
    split
    · exact ⟨s, rfl, i, rfl⟩
    · next hxy =>
      have hle := fun c => own_le_refs s.var x c
      obtain ⟨m₁, h₁, a₁⟩ := hb.incrementCounter (h := s.var x) (-1) 0 fun c hx => owed_pos (.inl ⟨x, hx⟩)
      obtain ⟨m₂, h₂, a₂⟩ := a₁.incrementCounter (h := s.var y) 1 0 fun c hy => by
        -- `y` is another handle
        have hkeep := own_le_refs (update s.var x none) y c
        rw [refs_update, update_of_ne (Ne.symm hxy), own_eq_one hy, own_none] at hkeep
        have := hnw c
        rw [own_none]
        omega
      refine ⟨_, by simp only [h₁, h₂, Option.bind_eq_bind, Option.bind_some]; rfl, ?_, a₂.word⟩
      rw [i.crashed]
      exact .of_balance a₂ (fun c => by rw [refs_update, own_none]; ring) (fun c => by ring) i.null i.le
  | move x y =>
    simp only [State.exec]
    split
    · exact ⟨s, rfl, i, rfl⟩
    · next hxy =>
      obtain ⟨m₁, h₁, a₁⟩ := hb.incrementCounter (h := s.var x) (-1) 0 fun c hx => owed_pos (.inl ⟨x, hx⟩)
      refine ⟨_, by simp only [h₁, Option.bind_eq_bind, Option.bind_some]; rfl, ?_, a₁.word⟩
      rw [i.crashed]
      refine .of_balance a₁ (fun c => ?_) (fun c => by ring) i.null i.le
      rw [refs_update, refs_update, update_of_ne hxy, own_none]
      ring
  | reset x =>
    exact Inv.assign i.crashed hb x none (fun _ => rfl) (fun _ => rfl) i.null i.le
  | load x =>
    have hle := acquired_le hf i.le
    obtain ⟨m, hm, am⟩ := hb.load hle fun c hc => owed_pos (.inr (.inl hc))
    obtain ⟨s', hs', hi⟩ := Inv.assign i.crashed am x s.mem.word.raw
      (fun c => by rw [raw_loaded, own_none]; ring) (fun c => by rw [raw_loaded]; ring)
      (fun hn => stamp_loaded_null (raw_loaded.symm.trans hn) (i.null (raw_loaded.symm.trans hn)))
      (stamp_loaded_le.trans hle)
    exact ⟨s', by simp only [State.exec, hm, hs', Option.bind_eq_bind, Option.bind_some], hi⟩
  | store d =>
    obtain ⟨s₁, hp, i₁, -, -⟩ := i.pass d
    obtain ⟨m, hm, am⟩ := i₁.balance.store (h := d.handle s.var) fun c => by
      have := refs_nonneg s₁.var c
      omega
    refine ⟨_, by simp only [State.exec, hp, hm, Option.bind_eq_bind, Option.bind_some]; rfl, ?_, am.word⟩
    rw [i₁.crashed]
    exact .of_balance am (fun c => by rw [own_none]; ring) (fun c => by ring) (fun _ => rfl) (Nat.zero_le _)
  | compareExchangeWeak e d spurious =>
    obtain ⟨s₁, hp, i₁, hword, hvar⟩ := i.pass d
    have hle : (acquired s₁.mem.word).stamp ≤ StampedPtr.maxStamp := by
      rw [hword]
      exact acquired_le (hf.imp_right And.left) i.le
    obtain ⟨s', hs', hi⟩ := i₁.compareExchangeWeak hle fun (hsp : spurious = true)
        (hmatch : s₁.mem.word.raw = s₁.var e) => by
      refine acquired_le ?_ hle
      rw [raw_acquired]
      by_cases hn : s₁.mem.word.raw = none
      · exact .inl hn
      · refine .inr ?_
        rw [hvar, Arg.rest] at hmatch
        split at hmatch
        · exact absurd hmatch hn
        · next hd =>
          rw [hword] at hn hmatch
          have hlt := (hf.resolve_left hn).2 hsp hd hmatch
          unfold acquired
          rw [hword, Option.isNone_eq_false_iff.2 (Option.isSome_iff_ne_none.2 hn)]
          exact hlt
    rw [hword, hvar] at hi
    exact ⟨s', by simp only [State.exec, hp, hs', Option.bind_eq_bind, Option.bind_some], hi⟩

omit [DecidableEq ν] in
theorem inv_init : Inv (init : State ν β) none where
  crashed := rfl
  balance := by
    refine ⟨rfl, rfl, fun c => iff_of_false Bool.false_ne_true ?_, nofun, nofun⟩
    have hzero : refs (fun _ : ν => (none : Option β)) c = 0 :=
      congrArg Nat.cast (Threads.count_eq_zero.2 fun _ => nofun)
    simp [hzero, init, StampedPtr.null]
  null _ := rfl
  le := Nat.zero_le _

omit [DecidableEq ν] in
theorem Inv.good (i : Inv s none) : Good s where
  crashed := i.crashed
  truncated := i.balance.truncated
  stored b hb := by
    have halive := (i.balance.alive b).2 (.inl (owed_pos (.inr (.inl hb))).ne')
    have hone := own_eq_one hb
    have hs := i.balance.strong b halive
    have ht := i.balance.transient b halive
    rw [hone, own_none, add_zero] at hs
    rw [hone, mul_one] at ht
    exact ⟨by rw [ht]; exact neg_add_cancel _, hs⟩
  deleted b := by
    rw [i.balance.alive]
    constructor
    · intro hne
      by_contra hno
      obtain ⟨hw, hv⟩ := not_or.1 hno
      have hzero : own s.mem.word.raw b = 0 := if_neg hw
      have hrefs : refs s.var b = 0 :=
        congrArg Nat.cast (Threads.count_eq_zero.2 fun v hvb => hv ⟨v, hvb⟩)
      rw [hzero, hrefs, own_none] at hne
      simp at hne
    · rintro (hw | hv)
      · exact .inl (owed_pos (.inr (.inl hw))).ne'
      · exact .inl (owed_pos (.inl hv)).ne'

/-! ### A stamp that is too large -/

omit [Fintype ν] [DecidableEq ν] in
theorem incrementCounter_kept {m' : Mem β} {ds dt : Int} (hm : m.incrementCounter h ds dt = some m') :
    m'.word = m.word ∧ m'.truncated = m.truncated := by
  unfold Mem.incrementCounter at hm
  split at hm
  · cases hm
    exact ⟨rfl, rfl⟩
  · split at hm
    · cases hm
      split <;> exact ⟨rfl, rfl⟩
    · cases hm

omit [Fintype ν] [DecidableEq ν] [DecidableEq β] in
theorem truncated_setWord (ht : m.truncated = true) : (m.setWord w).truncated = true := by
  change (m.truncated || _) = true
  rw [ht, Bool.true_or]

omit [Fintype ν] [DecidableEq ν] [DecidableEq β] in
theorem truncated_acquire (ht : m.truncated = true ∨
      m.word.stamp ≤ StampedPtr.maxStamp ∧ StampedPtr.maxStamp < (acquired m.word).stamp) :
    m.acquireTransientRef.1.truncated = true := by
  unfold Mem.acquireTransientRef
  unfold acquired at ht
  split
  · next hn =>
    rw [if_pos hn] at ht
    exact ht.resolve_right fun hc => absurd hc.2 (not_lt.2 hc.1)
  · next hn =>
    rw [if_neg hn] at ht
    rcases ht with ht | ⟨-, ht⟩
    · exact truncated_setWord ht
    · change (m.truncated || decide _) = true
      rw [decide_eq_true ht, Bool.or_true]

omit [Fintype ν] [DecidableEq ν] in
theorem truncated_load {m' : Mem β} (hm : m.load = some (m', h))
    (ht : m.acquireTransientRef.1.truncated = true) : m'.truncated = true := by
  unfold Mem.load at hm
  simp only [Option.bind_eq_bind, Option.bind_eq_some_iff] at hm
  obtain ⟨m₁, h₁, m₂, h₂, hm⟩ := hm
  have ht₂ : m₂.truncated = true := by
    rw [(incrementCounter_kept h₂).2, (incrementCounter_kept h₁).2]
    exact ht
  split at hm
  · obtain ⟨m₃, h₃, hm⟩ := Option.bind_eq_some_iff.1 hm
    cases hm
    refine truncated_setWord ?_
    rw [(incrementCounter_kept h₃).2]
    exact ht₂
  · cases hm
    exact ht₂

omit [Fintype ν] in
theorem truncated_compareExchangeWeak (hs : Sequential.compareExchangeWeak s e t spurious = some s')
    (ht : s.mem.acquireTransientRef.1.truncated = true ∨
      spurious = true ∧ s.mem.acquireTransientRef.2.raw = s.var e ∧
        s.mem.acquireTransientRef.1.word.stamp ≤ StampedPtr.maxStamp ∧
        StampedPtr.maxStamp < (acquired s.mem.acquireTransientRef.1.word).stamp) : s'.mem.truncated = true := by
  unfold Sequential.compareExchangeWeak at hs
  generalize s.mem.acquireTransientRef = mw at hs ht
  obtain ⟨m, w⟩ := mw
  dsimp only at hs ht
  split at hs
  · next hne =>
    replace ht := ht.resolve_right fun hc => hne hc.2.1
    simp only [Option.bind_eq_bind, Option.bind_eq_some_iff] at hs
    obtain ⟨m₁, h₁, m₂, h₂, m₃, h₃, m₄, h₄, hs⟩ := hs
    cases hs
    rw [(incrementCounter_kept h₄).2, (incrementCounter_kept h₃).2, (incrementCounter_kept h₂).2,
      (incrementCounter_kept h₁).2]
    exact ht
  · split at hs
    · next hsucc =>
      replace ht := ht.resolve_right fun hc => by
        rw [hc.1] at hsucc
        cases hsucc.1
      simp only [Option.bind_eq_bind, Option.bind_eq_some_iff] at hs
      obtain ⟨m₂, h₂, m₃, h₃, m₄, h₄, hs⟩ := hs
      cases hs
      rw [(incrementCounter_kept h₄).2, (incrementCounter_kept h₃).2, (incrementCounter_kept h₂).2]
      exact truncated_setWord ht
    · simp only [Option.bind_eq_bind, Option.bind_eq_some_iff] at hs
      obtain ⟨m₁, h₁, m₂, h₂, ⟨m₃, h⟩, h₃, m₄, h₄, m₅, h₅, m₆, h₆, hs⟩ := hs
      cases hs
      have hkept : m₂.word = m.word ∧ m₂.truncated = m.truncated := by
        rw [(incrementCounter_kept h₂).1, (incrementCounter_kept h₂).2]
        exact incrementCounter_kept h₁
      rw [(incrementCounter_kept h₆).2, (incrementCounter_kept h₅).2, (incrementCounter_kept h₄).2]
      refine truncated_load h₃ (truncated_acquire ?_)
      rw [hkept.1, hkept.2]
      exact ht.imp_right fun hc => hc.2.2

theorem truncated_exec (i : Inv s none) (hf : ¬ fits s a) (hs : s.exec a = some s') : s'.mem.truncated = true := by
  have hword : ∀ {w : StampedPtr β}, w.raw ≠ none → (acquired w).stamp = w.stamp + 1 := by
    intro w hn
    unfold acquired
    rw [Option.isNone_eq_false_iff.2 (Option.isSome_iff_ne_none.2 hn)]
    rfl
  cases a with
  | make | copy | move | reset | store => exact absurd trivial hf
  | load x =>
    obtain ⟨hn, hlt⟩ := not_or.1 hf
    simp only [State.exec, State.assign, Option.bind_eq_bind, Option.bind_eq_some_iff] at hs
    obtain ⟨⟨m, h⟩, h₁, m₂, h₂, hs⟩ := hs
    cases hs
    rw [(incrementCounter_kept h₂).2]
    refine truncated_load h₁ (truncated_acquire (.inr ⟨i.le, ?_⟩))
    rw [hword hn]
    omega
  | compareExchangeWeak e d spurious =>
    obtain ⟨hn, hno⟩ := not_or.1 hf
    obtain ⟨s₁, hp, i₁, hw₁, hvar⟩ := i.pass d
    simp only [State.exec, hp, Option.bind_eq_bind, Option.bind_some] at hs
    refine truncated_compareExchangeWeak hs ?_
    by_cases hlt : s.mem.word.stamp < StampedPtr.maxStamp
    · have hle := acquired_le (.inr hlt) i.le
      obtain ⟨m₀, h₀, a₀⟩ := i₁.balance.acquireTransientRef (hw₁ ▸ hle)
      rw [h₀, a₀.word, hw₁]
      obtain ⟨hsp, hrest⟩ := Classical.not_imp.1 fun hsp => hno ⟨hlt, hsp⟩
      obtain ⟨hd, hrest⟩ := Classical.not_imp.1 hrest
      obtain ⟨hmatch, hbig⟩ := Classical.not_imp.1 hrest
      refine .inr ⟨hsp, ?_, hle, ?_⟩
      · rw [raw_acquired, hvar, Arg.rest, if_neg hd]
        exact hmatch
      · rw [hword (by rw [raw_acquired]; exact hn), hword hn]
        omega
    · refine .inl (truncated_acquire (.inr ⟨i₁.le, ?_⟩))
      rw [hw₁, hword hn]
      omega

/-- After a run whose statements fit, the next one goes on well exactly when it fits, too. -/
theorem good_iff_fits (i : Inv s none) (hs : (system ν β).step s a = some s') : Good s' ↔ fits s a := by
  simp only [system, step] at hs
  split at hs
  · next he =>
    refine ⟨fun hg => ?_, fun hf => ?_⟩
    · by_contra hf
      cases hx : s.exec a with
      | none =>
        rw [hx] at hs
        cases hs
        cases hg.crashed
      | some s₁ =>
        rw [hx] at hs
        cases hs
        have ht := truncated_exec i hf hx
        exact Bool.false_ne_true (hg.truncated.symm.trans ht)
    · obtain ⟨s₁, hx, hi, -⟩ := i.exec he hf
      rw [hx] at hs
      cases hs
      exact hi.good
  · cases hs

end inv

/-! ### What a program does to the stamp -/

section program

variable {ν β : Type} [DecidableEq ν] [DecidableEq β]

/-- How often the statement adds one to the stamp. -/
def acquires (s : State ν β) : Stmt ν β → Nat
  | .load _ => if s.mem.word.raw.isNone then 0 else 1
  | .compareExchangeWeak e d spurious =>
    if s.mem.word.raw.isNone then 0
    else if s.mem.word.raw = d.rest s.var e ∧ spurious = true then 2
    else 1
  | _ => 0

/-- A new word is stored, with a stamp of zero. -/
def replaces (s : State ν β) : Stmt ν β → Bool
  | .store _ => true
  | .compareExchangeWeak e d spurious => !spurious && decide (s.mem.word.raw = d.rest s.var e)
  | _ => false

/-- The statement comes to the test of `limit`. A CAS that fails for no reason is followed by a `Load`. -/
def loads (s : State ν β) : Stmt ν β → Bool
  | .load _ => true
  | .compareExchangeWeak e d spurious => spurious && decide (s.mem.word.raw = d.rest s.var e)
  | _ => false

/-- Additions since the word was last replaced. -/
def sinceReplaced : History (State ν β) (Stmt ν β) → Nat
  | [] => 0
  | (a, s) :: h => if replaces s a then 0 else sinceReplaced h + acquires s a

/-- Additions since then and since the last test of `limit`: only `CompareExchangeWeak`s that find another
block are left. -/
def sinceLoaded : History (State ν β) (Stmt ν β) → Nat
  | [] => 0
  | (a, s) :: h => if replaces s a || loads s a then 0 else sinceLoaded h + acquires s a

/-- No more than `kMaxStamp` additions to one word, or no more than `c` from one `Load` to the next. -/
def Spaced (c : Nat) : History (State ν β) (Stmt ν β) → Prop
  | [] => True
  | (a, s) :: h => Spaced c h ∧
    (sinceReplaced h + acquires s a ≤ StampedPtr.maxStamp ∨ sinceLoaded h + acquires s a ≤ c)

/-- What `limit` leaves to the failing CASes. -/
def room : Nat := StampedPtr.maxStamp - limit

end program

section spaced

variable {ν β : Type} [DecidableEq ν] [DecidableEq β] {s s' : State ν β} {w : StampedPtr β} {a : Stmt ν β}
  {h : History (State ν β) (Stmt ν β)}

omit [DecidableEq β] in
theorem stamp_acquired : (acquired w).stamp = w.stamp + if w.raw.isNone then 0 else 1 := by
  unfold acquired
  split <;> rfl

omit [DecidableEq β] in
/-- The limit of `Load` brings every stamp down that fits. -/
theorem stamp_loaded_le_limit (hw : (acquired w).stamp ≤ StampedPtr.maxStamp) : (loaded w).stamp ≤ limit := by
  unfold loaded
  unfold limit StampedPtr.maxStamp at *
  split
  · change (acquired w).stamp - 64000 ≤ 64000
    omega
  · next hl => exact not_lt.1 hl

theorem fits_of_acquires (hle : s.mem.word.stamp + acquires s a ≤ StampedPtr.maxStamp) : fits s a := by
  cases a with
  | make | copy | move | reset | store => trivial
  | load x =>
    refine or_iff_not_imp_left.2 fun hn => ?_
    rw [acquires, if_neg (by rwa [Option.isNone_iff_eq_none])] at hle
    exact hle
  | compareExchangeWeak e d spurious =>
    refine or_iff_not_imp_left.2 fun hn => ?_
    rw [acquires, if_neg (by rwa [Option.isNone_iff_eq_none])] at hle
    refine ⟨by split at hle <;> omega, fun hsp hd hmatch => ?_⟩
    rw [if_pos ⟨by rw [Arg.rest, if_neg hd]; exact hmatch, hsp⟩] at hle
    exact hle

/-- No statement adds more. -/
theorem stamp_after_le : (after s a).stamp ≤ s.mem.word.stamp + acquires s a := by
  cases a with
  | make | copy | move | reset => exact le_rfl
  | store => exact Nat.zero_le _
  | load x => exact stamp_loaded_le.trans stamp_acquired.le
  | compareExchangeWeak e d spurious =>
    simp only [after, exchanged, acquires]
    split
    · next hne =>
      rw [stamp_acquired, if_neg fun hc : s.mem.word.raw = d.rest s.var e ∧ spurious = true => hne hc.1]
    · next hmatch =>
      split
      · next hsp =>
        have hboth : s.mem.word.raw = d.rest s.var e ∧ spurious = true := ⟨not_not.1 hmatch, hsp⟩
        refine stamp_loaded_le.trans ?_
        rw [stamp_acquired, stamp_acquired, raw_acquired, if_pos hboth]
        split <;> omega
      · exact Nat.zero_le _

theorem stamp_after_of_replaces (hr : replaces s a = true) : (after s a).stamp = 0 := by
  cases a with
  | make | copy | move | reset | load => cases hr
  | store => rfl
  | compareExchangeWeak e d spurious =>
    obtain ⟨hsp, hmatch⟩ := Bool.and_eq_true_iff.1 hr
    simp only [after, exchanged]
    rw [if_neg (not_not_intro (of_decide_eq_true hmatch)), if_neg (by simpa using hsp)]

theorem stamp_after_of_loads (hl : loads s a = true)
    (hle : s.mem.word.stamp + acquires s a ≤ StampedPtr.maxStamp) : (after s a).stamp ≤ limit := by
  cases a with
  | make | copy | move | reset | store => cases hl
  | load x => exact stamp_loaded_le_limit (stamp_acquired.le.trans hle)
  | compareExchangeWeak e d spurious =>
    obtain ⟨hsp, hmatch⟩ := Bool.and_eq_true_iff.1 hl
    replace hmatch := of_decide_eq_true hmatch
    simp only [after, exchanged, acquires] at hle ⊢
    rw [if_neg (not_not_intro hmatch), if_pos hsp]
    refine stamp_loaded_le_limit (le_trans ?_ hle)
    have hboth : s.mem.word.raw = d.rest s.var e ∧ spurious = true := ⟨hmatch, hsp⟩
    rw [stamp_acquired, stamp_acquired, raw_acquired, if_pos hboth]
    split <;> omega

/-- The stamp is not above either count. -/
theorem inv_of_spaced [Fintype ν] (r : Run (system ν β) anyStep h s) (hsp : Spaced room h) :
    Inv s none ∧ s.mem.word.stamp ≤ sinceReplaced h ∧ s.mem.word.stamp ≤ limit + sinceLoaded h := by
  refine r.invariant (I := fun h s => Spaced room h →
    Inv s none ∧ s.mem.word.stamp ≤ sinceReplaced h ∧ s.mem.word.stamp ≤ limit + sinceLoaded h) ?_ ?_ hsp
  · rintro s rfl -
    exact ⟨inv_init, le_rfl, Nat.zero_le _⟩
  · rintro h s a s' ih - hs ⟨hsp, hnext⟩
    obtain ⟨i, hreplaced, hloaded⟩ := ih hsp
    have hle : s.mem.word.stamp + acquires s a ≤ StampedPtr.maxStamp := by
      rcases hnext with hnext | hnext
      · omega
      · have : limit + room = StampedPtr.maxStamp := rfl
        omega
    simp only [system, step] at hs
    split at hs
    · next he =>
      obtain ⟨s₁, hx, i₁, hafter⟩ := i.exec he (fits_of_acquires hle)
      rw [hx] at hs
      cases hs
      have hadd := stamp_after_le (s := s) (a := a)
      refine ⟨i₁, ?_⟩
      simp only [Option.getD_some, hafter, sinceReplaced, sinceLoaded]
      by_cases hr : replaces s a = true
      · rw [stamp_after_of_replaces hr]
        exact ⟨Nat.zero_le _, Nat.zero_le _⟩
      · rw [if_neg hr]
        refine ⟨by omega, ?_⟩
        split
        · next hl => exact stamp_after_of_loads ((Bool.or_eq_true_iff.1 hl).resolve_left hr) hle
        · omega
    · cases hs

end spaced

/-! ### Runs that come close -/

section runs

variable {ν β : Type} [Fintype ν] [DecidableEq ν] [DecidableEq β] {s : State ν β} {a : Stmt ν β} {b : β} {x e : ν}
  {c w n m k : Nat} {h : History (State ν β) (Stmt ν β)}

/-- `b` is stored with stamp `w`, after `n` additions, `m` of them since the last `Load`. -/
structure Added (c : Nat) (b : β) (w n m : Nat) (h : History (State ν β) (Stmt ν β)) (s : State ν β) : Prop where
  run : Run (system ν β) anyStep h s
  inv : Inv s none
  word : s.mem.word = ⟨some b, w⟩
  replaced : sinceReplaced h = n
  loaded : sinceLoaded h = m
  spaced : Spaced c h

theorem Inv.next (i : Inv s none) (he : s.enabled a = true) (hf : fits s a) :
    ∃ s', (system ν β).step s a = some s' ∧ s.exec a = some s' ∧ Inv s' none ∧ s'.mem.word = after s a := by
  obtain ⟨s', hx, i', hafter⟩ := i.exec he hf
  refine ⟨s', ?_, hx, i', hafter⟩
  simp only [system, step]
  rw [if_pos he, hx]
  rfl

omit [DecidableEq ν] in
theorem Inv.enabled (i : Inv s none) (hfree : ∀ x b, a ≠ .make x b) : s.enabled a = true := by
  have hc : (!s.crashed) = true := by
    rw [i.crashed]
    rfl
  cases a with
  | make x b => exact absurd rfl (hfree x b)
  | _ => exact hc

/-- `x = asp.Load()`. -/
theorem Added.load (p : Added c b w n m h s) (hw : w < StampedPtr.maxStamp)
    (hn : n + 1 ≤ StampedPtr.maxStamp ∨ m + 1 ≤ c) (x : ν) :
    ∃ h', ∃ s' : State ν β, Added c b (if limit < w + 1 then w + 1 - limit else w + 1) (n + 1) 0 h' s' := by
  have hone : acquires s (.load x) = 1 := by simp [acquires, p.word]
  obtain ⟨s', hstep, -, i', hafter⟩ := p.inv.next (a := .load x) (p.inv.enabled nofun) (.inr (by rw [p.word]; exact hw))
  refine ⟨_, s', .step p.run trivial hstep, i', ?_, ?_, rfl, p.spaced, ?_⟩
  · rw [hafter]
    simp only [after, Sequential.loaded, acquired, p.word, Option.isNone_some, Bool.false_eq_true, if_false,
      StampedPtr.incrementStamp]
    split <;> rfl
  · change sinceReplaced h + acquires s (.load x) = n + 1
    rw [p.replaced, hone]
  · rw [p.replaced, p.loaded, hone]
    exact hn

/-- `e.Reset()`, so that `e` is not what is stored. -/
theorem Added.reset (p : Added c b w n m h s) (hn : n ≤ StampedPtr.maxStamp ∨ m ≤ c) (e : ν) :
    ∃ h', ∃ s' : State ν β, Added c b w n m h' s' ∧ s'.var e = none := by
  obtain ⟨s', hstep, hx, i', hafter⟩ := p.inv.next (a := .reset e) (p.inv.enabled nofun) trivial
  refine ⟨_, s', ⟨.step p.run trivial hstep, i', hafter.trans p.word, p.replaced, p.loaded, p.spaced, ?_⟩, ?_⟩
  · rw [p.replaced, p.loaded]
    exact hn
  · simp only [State.exec, State.assign, Option.bind_eq_bind, Option.bind_eq_some_iff] at hx
    obtain ⟨m, -, hx⟩ := hx
    cases hx
    exact update_self ..

theorem Added.acquires_miss (p : Added c b w n m h s) (e : ν) :
    acquires s (.compareExchangeWeak e (.copy e) false) = 1 := by
  simp [acquires, p.word]

/-- `e.Reset()` and `asp.CompareExchangeWeak(e, e)`, which fails. -/
theorem Added.miss (p : Added c b w n m h s) (hw : w < StampedPtr.maxStamp)
    (hn : n + 1 ≤ StampedPtr.maxStamp ∨ m + 1 ≤ c) (e : ν) :
    ∃ h', ∃ s' : State ν β, Added c b (w + 1) (n + 1) (m + 1) h' s' := by
  obtain ⟨h₁, s₁, p₁, he⟩ := p.reset (hn.imp Nat.le_of_succ_le Nat.le_of_succ_le) e
  have hone := p₁.acquires_miss e
  have hrest : Arg.rest s₁.var (.copy e) e = none := he
  obtain ⟨s', hstep, -, i', hafter⟩ := p₁.inv.next (a := .compareExchangeWeak e (.copy e) false)
    (p₁.inv.enabled nofun) (.inr ⟨by rw [p₁.word]; exact hw, nofun⟩)
  refine ⟨_, s', .step p₁.run trivial hstep, i', ?_, ?_, ?_, p₁.spaced, ?_⟩
  · rw [hafter]
    simp [after, exchanged, acquired, p₁.word, hrest, StampedPtr.incrementStamp]
  · simp [sinceReplaced, replaces, p₁.word, hrest, hone, p₁.replaced]
  · simp [sinceLoaded, replaces, loads, p₁.word, hrest, hone, p₁.loaded]
  · rw [p₁.replaced, p₁.loaded, hone]
    exact hn

theorem Added.loads (p : Added c b 0 0 0 h s) (x : ν) (hk : k ≤ limit) :
    ∃ h', ∃ s' : State ν β, Added c b k k 0 h' s' := by
  induction k with
  | zero => exact ⟨h, s, p⟩
  | succ k ih =>
    obtain ⟨h₁, s₁, p₁⟩ := ih (Nat.le_of_succ_le hk)
    have hroom : limit ≤ StampedPtr.maxStamp := by decide
    obtain ⟨h', s', p'⟩ := p₁.load (hk.trans hroom) (.inl (hk.trans hroom)) x
    rw [if_neg (not_lt.2 hk)] at p'
    exact ⟨h', s', p'⟩

theorem Added.misses (p : Added c b w n m h s) (e : ν) (hw : w + k ≤ StampedPtr.maxStamp)
    (hn : n + k ≤ StampedPtr.maxStamp) : ∃ h', ∃ s' : State ν β, Added c b (w + k) (n + k) (m + k) h' s' := by
  induction k with
  | zero => exact ⟨h, s, p⟩
  | succ k ih =>
    obtain ⟨h₁, s₁, p₁⟩ := ih (Nat.le_of_succ_le hw) (Nat.le_of_succ_le hn)
    exact p₁.miss hw (.inl hn) e

/-- One more does not fit. -/
theorem Added.overflows (p : Added c b StampedPtr.maxStamp n m h s) (hn : n + 1 ≤ StampedPtr.maxStamp ∨ m + 1 ≤ c)
    (e : ν) : ∃ h', ∃ s' : State ν β, Run (system ν β) anyStep h' s' ∧ Spaced c h' ∧ ¬ Good s' := by
  obtain ⟨h₁, s₁, p₁, -⟩ := p.reset (hn.imp Nat.le_of_succ_le Nat.le_of_succ_le) e
  have he : s₁.enabled (.compareExchangeWeak e (.copy e) false) = true := p₁.inv.enabled nofun
  obtain ⟨s', hstep⟩ : ∃ s', (system ν β).step s₁ (.compareExchangeWeak e (.copy e) false) = some s' :=
    ⟨_, if_pos he⟩
  refine ⟨_, s', .step p₁.run trivial hstep, ⟨p₁.spaced, ?_⟩, fun hg => ?_⟩
  · rw [p₁.replaced, p₁.loaded, p₁.acquires_miss e]
    exact hn
  · rcases (good_iff_fits p₁.inv hstep).1 hg with hnull | ⟨hlt, -⟩
    · rw [p₁.word] at hnull
      cases hnull
    · rw [p₁.word] at hlt
      exact lt_irrefl _ hlt

/-- `e = MakeShared(…)` and `asp.Store(e)`. -/
theorem added_zero (c : Nat) (b : β) (e : ν) : ∃ h, ∃ s : State ν β, Added c b 0 0 0 h s := by
  obtain ⟨s₁, hstep₁, hx, i₁, -⟩ := (inv_init (ν := ν) (β := β)).next (a := .make e b) rfl trivial
  have he : s₁.var e = some b := by
    simp only [State.exec, State.assign, Option.bind_eq_bind, Option.bind_eq_some_iff] at hx
    obtain ⟨m, -, m', -, hx⟩ := hx
    cases hx
    exact update_self ..
  obtain ⟨s₂, hstep₂, -, i₂, hafter⟩ := i₁.next (a := .store (.copy e)) (i₁.enabled nofun) trivial
  refine ⟨_, s₂, .step (.step (.init rfl) trivial hstep₁) trivial hstep₂, i₂, ?_, rfl, rfl, ⟨⟨trivial, ?_⟩, ?_⟩⟩
  · rw [hafter]
    exact congrArg (StampedPtr.mk · 0) he
  · exact .inl (Nat.zero_le _)
  · exact .inl (Nat.zero_le _)

end runs

/-! ### Main theorem -/

/-- A program that spaces its failing CASes keeps the books, and does not when there may be one more of them. -/
theorem stamp_bookkeeping {ν β : Type} [Fintype ν] [DecidableEq ν] [DecidableEq β] :
    (∀ h (s : State ν β), Run (system ν β) anyStep h s → Spaced room h →
      Good s ∧ s.mem.word.stamp ≤ sinceReplaced h ∧ s.mem.word.stamp ≤ limit + sinceLoaded h) ∧
    ∀ (_ : ν) (_ : β) (c : Nat), room < c →
      ∃ h, ∃ s : State ν β, Run (system ν β) anyStep h s ∧ Spaced c h ∧ ¬ Good s := by
  refine ⟨fun h s r hsp => ?_, fun e b c hc => ?_⟩
  · obtain ⟨i, hle⟩ := inv_of_spaced r hsp
    exact ⟨i.good, hle⟩
  · obtain ⟨h₀, s₀, p₀⟩ := added_zero (ν := ν) c b e
    obtain ⟨h₁, s₁, p₁⟩ := p₀.loads e (k := limit) le_rfl
    obtain ⟨h₂, s₂, p₂⟩ := p₁.misses e (k := room) le_rfl le_rfl
    rw [Nat.zero_add] at p₂
    exact p₂.overflows (.inr hc) e

/-- After 64000 `Load`s, 1534 failing CASes, a `Load` and one more failing CAS. -/
theorem stamp_bookkeeping_many : ∃ h, ∃ s : State (Fin 1) Unit, Run (system (Fin 1) Unit) anyStep h s ∧
    Spaced room h ∧ sinceReplaced h = 65536 ∧ Good s ∧ s.mem.word = ⟨some (), 1536⟩ ∧ s.mem.transient () = -1536 := by
  obtain ⟨h₀, s₀, p₀⟩ := added_zero (ν := Fin 1) room () 0
  obtain ⟨h₁, s₁, p₁⟩ := p₀.loads 0 (k := limit) le_rfl
  obtain ⟨h₂, s₂, p₂⟩ := p₁.misses 0 (k := 1534) (by decide) (by decide)
  obtain ⟨h₃, s₃, p₃⟩ := p₂.load (by decide) (.inl (by decide)) 0
  obtain ⟨h, s, p⟩ := p₃.miss (by decide) (.inr (by decide)) 0
  obtain ⟨hg, -⟩ := stamp_bookkeeping.1 h s p.run p.spaced
  have hw : s.mem.word = ⟨some (), 1536⟩ := p.word
  have ht := (hg.stored () (by rw [hw])).1
  rw [hw] at ht
  exact ⟨h, s, p.run, p.spaced, p.replaced, hg, hw, eq_neg_of_add_eq_zero_left ht⟩

/-- After 65535 failed `CompareExchangeWeak`s the next one packs a stamp of 65536. -/
theorem failed_cas_truncates :
    ¬ ∀ s : State (Fin 2) Unit, Reach (system (Fin 2) Unit) anyStep s → Good s := by
  intro hall
  obtain ⟨h₀, s₀, p₀⟩ := added_zero (ν := Fin 2) StampedPtr.maxStamp.succ () 0
  obtain ⟨h₁, s₁, p₁⟩ := p₀.misses 1 (k := StampedPtr.maxStamp) (Nat.zero_add _).le (Nat.zero_add _).le
  rw [Nat.zero_add] at p₁
  obtain ⟨h, s, r, -, hg⟩ := p₁.overflows (.inr le_rfl) 1
  exact hg (hall s ⟨h, r⟩)

end SharedPtr.Sequential
