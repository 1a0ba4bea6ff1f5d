import ConcurrencyCourse.Lib.Threads
import ConcurrencyCourse.SharedPtr.Asp

/-!
# `AtomicSharedPtr`: the balance of references

What an operation owns of block `b` is what its program counter will own when the pending updates
are done, less these updates: `Op.hold` strong references, `Op.thold` transient ones. A step moves
references between the operation, the registers (one strong reference for the pointer, the stamp
for the transient ones) and the counters of the block; nothing is created or lost (`opStep_strong`,
`opStep_transient`). The one exception is the window after a publishing CAS, where the strong counter
is one too low (`Op.window`).

`Op.WF` says that the operation owns a reference to every block it touches when it touches it.
-/

namespace SharedPtr

open StampedPtr Function

/-- `1` for a handle of block `b`. -/
def is (h : Handle) (b : Nat) : Int := if h = some b then 1 else 0

@[simp] theorem is_none (b : Nat) : is none b = 0 := by simp [is]

@[simp] theorem is_self (b : Nat) : is (some b) b = 1 := by simp [is]

theorem is_nonneg (h : Handle) (b : Nat) : 0 ≤ is h b := by
  unfold is; split <;> omega

theorem is_some_ne {b c : Nat} (h : c ≠ b) : is (some c) b = 0 := by simp [is, h]

theorem is_eq_zero {h : Handle} {b : Nat} : is h b = 0 ↔ h ≠ some b := by
  unfold is; split <;> simp_all

/-! ## What the pending updates add -/

def dstrong : List Instr → Nat → Int
  | [], _ => 0
  | .inc c ds _ :: l, b => (if c = b then ds else 0) + dstrong l b
  | .pub _ :: l, b | .del _ :: l, b => dstrong l b

def dtransient : List Instr → Nat → Int
  | [], _ => 0
  | .inc c _ dt :: l, b => (if c = b then dt else 0) + dtransient l b
  | .pub _ :: l, b | .del _ :: l, b => dtransient l b

/-- The increments of published handles that are still missing in the counter. -/
def window : List Instr → Nat → Int
  | [], _ => 0
  | .pub c :: l, b => is (some c) b + window l b
  | .inc _ _ _ :: l, b | .del _ :: l, b => window l b

/-- The pending deletions. -/
def dels : List Instr → Nat → Nat
  | [], _ => 0
  | .del c :: l, b => (if c = b then 1 else 0) + dels l b
  | .inc _ _ _ :: l, b | .pub _ :: l, b => dels l b

section lists

variable (l l' : List Instr) (b : Nat)

@[simp] theorem dstrong_append : dstrong (l ++ l') b = dstrong l b + dstrong l' b := by
  induction l with
  | nil => simp [dstrong]
  | cons i l ih => cases i <;> simp [dstrong, ih, Int.add_assoc]

@[simp] theorem dtransient_append : dtransient (l ++ l') b = dtransient l b + dtransient l' b := by
  induction l with
  | nil => simp [dtransient]
  | cons i l ih => cases i <;> simp [dtransient, ih, Int.add_assoc]

@[simp] theorem window_append : window (l ++ l') b = window l b + window l' b := by
  induction l with
  | nil => simp [window]
  | cons i l ih => cases i <;> simp [window, ih, Int.add_assoc]

@[simp] theorem dels_append : dels (l ++ l') b = dels l b + dels l' b := by
  induction l with
  | nil => simp [dels]
  | cons i l ih => cases i <;> simp [dels, ih, Nat.add_assoc]

@[simp] theorem dstrong_incs (h : Handle) (ds dt : Int) : dstrong (incs h ds dt) b = ds * is h b := by
  cases h with
  | none => simp [incs, dstrong]
  | some c => by_cases hc : c = b <;> simp [incs, dstrong, is, hc]

@[simp] theorem dtransient_incs (h : Handle) (ds dt : Int) :
    dtransient (incs h ds dt) b = dt * is h b := by
  cases h with
  | none => simp [incs, dtransient]
  | some c => by_cases hc : c = b <;> simp [incs, dtransient, is, hc]

@[simp] theorem window_incs (h : Handle) (ds dt : Int) : window (incs h ds dt) b = 0 := by
  cases h <;> simp [incs, window]

@[simp] theorem dels_incs (h : Handle) (ds dt : Int) : dels (incs h ds dt) b = 0 := by
  cases h <;> simp [incs, dels]

@[simp] theorem dstrong_pubs (h : Handle) : dstrong (h.toList.map .pub) b = 0 := by
  cases h <;> simp [dstrong]

@[simp] theorem dtransient_pubs (h : Handle) : dtransient (h.toList.map .pub) b = 0 := by
  cases h <;> simp [dtransient]

@[simp] theorem window_pubs (h : Handle) : window (h.toList.map .pub) b = is h b := by
  cases h <;> simp [window]

@[simp] theorem dels_pubs (h : Handle) : dels (h.toList.map .pub) b = 0 := by
  cases h <;> simp [dels]

theorem window_nonneg : 0 ≤ window l b := by
  induction l with
  | nil => simp [window]
  | cons i l ih =>
    cases i with
    | pub c => have := is_nonneg (some c) b; simp only [window]; omega
    | inc => exact ih
    | del => exact ih

end lists

/-! ## What an operation owns -/

def Ret.hold : Ret → Nat → Int
  | .value, _ => 0
  | .casFail exp old des, b => is exp b + is old b + is des b

def Cont.hold : Cont → Nat → Int
  | .load ret, b => ret.hold b
  | .cas exp des, b => is exp b + is des b

def Res.hold : Res → Nat → Int
  | .unit, _ => 0
  | .loaded h, b => is h b
  | .copied c, b => 2 * is (some c) b
  | .cas _ exp, b => is exp b

/-- The strong references when the pending updates are done. -/
def Pc.hold {ρ : Type} : Pc ρ → Nat → Int
  | .idle, _ => 0
  | .acqLoad _ k, b | .acqCas _ k _, b => k.hold b
  | .loadEnd _ w ret, b | .loadStore _ w ret, b => is w.raw b + ret.hold b
  | .exchange _ target, b => 2 * is target b
  | .casTry _ _ exp des, b => is exp b + is des b
  | .done res, b => res.hold b

/-- The transient references then. -/
def Pc.thold {ρ : Type} : Pc ρ → Nat → Int
  | .casTry _ w _ _, b => is w.raw b
  | .loadStore _ w _, b => limit * is w.raw b
  | _, _ => 0

theorem Ret.hold_nonneg (ret : Ret) (b : Nat) : 0 ≤ ret.hold b := by
  cases ret with
  | value => exact le_refl _
  | casFail exp old des =>
    have := is_nonneg exp b
    have := is_nonneg old b
    have := is_nonneg des b
    simp only [Ret.hold]; omega

theorem Pc.hold_nonneg {ρ : Type} (pc : Pc ρ) (b : Nat) : 0 ≤ pc.hold b := by
  cases pc with
  | idle => exact le_refl _
  | acqLoad r k | acqCas r k curr =>
    cases k with
    | load ret => exact ret.hold_nonneg b
    | cas exp des =>
      have := is_nonneg exp b
      have := is_nonneg des b
      simp only [Pc.hold, Cont.hold]; omega
  | loadEnd r w ret | loadStore r w ret =>
    have := is_nonneg w.raw b
    have := ret.hold_nonneg b
    simp only [Pc.hold]; omega
  | exchange r target => have := is_nonneg target b; simp only [Pc.hold]; omega
  | casTry r w exp des =>
    have := is_nonneg exp b
    have := is_nonneg des b
    simp only [Pc.hold]; omega
  | done res =>
    cases res with
    | unit => exact le_refl _
    | loaded h => exact is_nonneg h b
    | copied c => have := is_nonneg (some c) b; simp only [Pc.hold, Res.hold]; omega
    | cas s exp => exact is_nonneg exp b

theorem Pc.thold_nonneg {ρ : Type} (pc : Pc ρ) (b : Nat) : 0 ≤ pc.thold b := by
  cases pc with
  | casTry r w exp des => exact is_nonneg w.raw b
  | loadStore r w ret => have := is_nonneg w.raw b; simp only [Pc.thold, limit]; omega
  | _ => exact le_refl _

def Op.hold {ρ : Type} (op : Op ρ) (b : Nat) : Int := op.pc.hold b - dstrong op.todo b

def Op.thold {ρ : Type} (op : Op ρ) (b : Nat) : Int := op.pc.thold b - dtransient op.todo b

def Op.window {ρ : Type} (op : Op ρ) (b : Nat) : Int := SharedPtr.window op.todo b

def Op.dels {ρ : Type} (op : Op ρ) (b : Nat) : Nat := SharedPtr.dels op.todo b

/-- The instruction touches a block that the operation owns a reference to. -/
def Touchable {ρ : Type} (op : Op ρ) : Instr → Prop
  | .inc b _ _ => 1 ≤ op.hold b ∨ 1 ≤ op.thold b
  | .pub b => 1 ≤ op.hold b
  | .del _ => True

/-- At each point of the pending updates: the next one touches an owned block, and transient
references are owed only by who owns a strong one. -/
def WFFrom {ρ : Type} (pc : Pc ρ) : List Instr → Prop
  | [] => True
  | i :: l => Touchable ⟨pc, i :: l⟩ i ∧
      (∀ b, 0 ≤ Op.hold ⟨pc, i :: l⟩ b ∧ (Op.hold ⟨pc, i :: l⟩ b = 0 → 0 ≤ Op.thold ⟨pc, i :: l⟩ b)) ∧
      WFFrom pc l

def Op.WF {ρ : Type} (op : Op ρ) : Prop := WFFrom op.pc op.todo

theorem Op.WF.nonneg {ρ : Type} {op : Op ρ} (h : op.WF) (b : Nat) :
    0 ≤ op.hold b ∧ (op.hold b = 0 → 0 ≤ op.thold b) := by
  obtain ⟨pc, todo⟩ := op
  cases todo with
  | nil =>
    simp only [Op.hold, Op.thold, dstrong, dtransient, Int.sub_zero]
    exact ⟨pc.hold_nonneg b, fun _ => pc.thold_nonneg b⟩
  | cons i l => exact h.2.1 b

/-! ## The registers -/

def stampOf (w : StampedPtr Nat) (b : Nat) : Int := if w.raw = some b then w.stamp else 0

section regs

variable {ρ : Type} [Fintype ρ]

/-- The registers that hold `b`. -/
def Mem.regs (m : Mem ρ) (b : Nat) : Int := ∑ r, is (m.reg r).raw b

/-- The transient references that were taken from the registers since they hold `b`. -/
def Mem.stamps (m : Mem ρ) (b : Nat) : Int := ∑ r, stampOf (m.reg r) b

theorem Mem.regs_nonneg (m : Mem ρ) (b : Nat) : 0 ≤ m.regs b :=
  Finset.sum_nonneg fun _ _ => is_nonneg _ _

variable [DecidableEq ρ]

theorem regs_setReg (m : Mem ρ) (r : ρ) (w : StampedPtr Nat) (b : Nat) :
    (m.setReg r w).regs b = m.regs b + (is w.raw b - is (m.reg r).raw b) :=
  Threads.sum_update_of_eq (fun w : StampedPtr Nat => is w.raw b) m.reg r w.packed _
    (by rw [raw_packed]; omega)

theorem stamps_setReg (m : Mem ρ) (r : ρ) {w : StampedPtr Nat} (hw : w.stamp ≤ maxStamp) (b : Nat) :
    (m.setReg r w).stamps b = m.stamps b + (stampOf w b - stampOf (m.reg r) b) :=
  Threads.sum_update_of_eq (fun w : StampedPtr Nat => stampOf w b) m.reg r w.packed _
    (by rw [packed_of_le hw]; omega)

end regs

/-! ## A step of an operation -/

variable {ρ : Type}

/-- What `acquired` owns: what was there before, and the transient reference. -/
theorem acquired_owns (r : ρ) (w : StampedPtr Nat) (k : Cont) (b : Nat) :
    (acquired r w k).hold b = k.hold b ∧ (acquired r w k).thold b = is w.raw b ∧
      (acquired r w k).window b = 0 ∧ (acquired r w k).dels b = 0 := by
  cases k with
  | load ret => simp [acquired, Op.hold, Op.thold, Op.window, Op.dels, Pc.hold, Pc.thold, Cont.hold]
  | cas exp des =>
    by_cases hw : w.raw = exp
    · simp [acquired, Op.hold, Op.thold, Op.window, Op.dels, Pc.hold, Pc.thold, Cont.hold, hw,
        dstrong, dtransient, window, dels]
    · simp [acquired, Op.hold, Op.thold, Op.window, Op.dels, Pc.hold, Pc.thold, Cont.hold, hw,
        Res.hold]
      omega

theorem loadRet_owns (h : Handle) (ret : Ret) (b : Nat) :
    (loadRet h ret : Op ρ).hold b = is h b + ret.hold b ∧ (loadRet h ret : Op ρ).thold b = 0 ∧
      (loadRet h ret : Op ρ).window b = 0 ∧ (loadRet h ret : Op ρ).dels b = 0 := by
  cases ret with
  | value => simp [loadRet, Op.hold, Op.thold, Op.window, Op.dels, Pc.hold, Pc.thold, Res.hold,
      Ret.hold, dstrong, dtransient, window, dels]
  | casFail exp old des =>
    simp [loadRet, Op.hold, Op.thold, Op.window, Op.dels, Pc.hold, Pc.thold, Res.hold, Ret.hold]
    omega

/-- A loop iteration without the CAS. -/
theorem acquireLoop_owns (r : ρ) (k : Cont) (w : StampedPtr Nat) (b : Nat) :
    (acquireLoop r k w).hold b = k.hold b ∧ (acquireLoop r k w).thold b = 0 ∧
      (acquireLoop r k w).window b = 0 ∧ (acquireLoop r k w).dels b = 0 := by
  unfold acquireLoop
  split
  · rename_i hw
    have := acquired_owns r w k b
    rwa [hw, is_none] at this
  · simp [Op.hold, Op.thold, Op.window, Op.dels, Pc.hold, Pc.thold, dstrong, dtransient, window, dels]

/-- The stamp fits into 16 bits. -/
def WordOk (w : StampedPtr Nat) : Prop := w.stamp ≤ maxStamp

/-- The words an operation has in its locals. -/
def Pc.Ok : Pc ρ → Prop
  | .acqCas _ _ curr => WordOk curr ∧ curr.raw ≠ none
  | .loadEnd _ w _ => WordOk w
  | .loadStore _ w _ => w.stamp + limit ≤ maxStamp
  | .casTry _ w exp _ => WordOk w ∧ w.raw = exp
  | _ => True

/-- The steps that may forget references do not: no stamp wraps (a CAS that finds what it expects counts, also if it
fails for no reason), and the `Store` of `Load` finds the pair that was acquired. -/
def Pc.Careful [DecidableEq ρ] (m : Mem ρ) : Pc ρ → Prop
  | .acqCas r _ curr => m.reg r = curr → curr.stamp + 1 ≤ maxStamp
  | .loadStore r w _ => m.reg r = ⟨w.raw, w.stamp + limit⟩
  | _ => True

theorem acquired_ok (r : ρ) {w : StampedPtr Nat} (hw : WordOk w) (k : Cont) :
    (acquired r w k).pc.Ok := by
  cases k with
  | load ret => exact hw
  | cas exp des =>
    by_cases h : w.raw = exp
    · simp [acquired, h, Pc.Ok, hw]
    · simp [acquired, h, Pc.Ok]

theorem acquireLoop_ok (r : ρ) {w : StampedPtr Nat} (hw : WordOk w) (k : Cont) :
    (acquireLoop r k w).pc.Ok := by
  unfold acquireLoop
  split
  · exact acquired_ok r hw k
  · exact ⟨hw, by assumption⟩

theorem loadRet_ok (h : Handle) (ret : Ret) : (loadRet h ret : Op ρ).pc.Ok := by
  cases ret <;> trivial

section step

variable [DecidableEq ρ] {m m' : Mem ρ} {op op' : Op ρ} {pc : Pc ρ} {sp : Bool}

/-- The words stay within 16 bits. -/
theorem pcStep_ok (hw : ∀ r, WordOk (m.reg r)) (hok : pc.Ok) (hc : pc.Careful m)
    (h : pcStep m sp pc = some (m', op')) : (∀ r, WordOk (m'.reg r)) ∧ op'.pc.Ok := by
  have hset : ∀ r (w : StampedPtr Nat), ∀ r', WordOk ((m.setReg r w).reg r') := by
    intro r w r'
    by_cases hr : r' = r
    · subst hr; simp only [Mem.setReg, update_self]; exact stamp_packed_le w
    · simp only [Mem.setReg, update_of_ne hr]; exact hw r'
  cases pc with
  | idle | done => cases h
  | acqLoad r k =>
    simp only [pcStep, Option.some.injEq, Prod.mk.injEq] at h
    obtain ⟨rfl, rfl⟩ := h
    exact ⟨hw, acquireLoop_ok r (hw r) k⟩
  | acqCas r k curr =>
    simp only [pcStep] at h
    split at h <;> simp only [Option.some.injEq, Prod.mk.injEq] at h <;> obtain ⟨rfl, rfl⟩ := h
    · rename_i hcas
      rw [packed_of_le hok.1] at hcas
      exact ⟨hset r _, acquired_ok r (show WordOk curr.incrementStamp from hc hcas.2) k⟩
    · exact ⟨hw, acquireLoop_ok r (hw r) k⟩
  | loadEnd r w ret =>
    simp only [pcStep, Option.some.injEq, Prod.mk.injEq] at h
    obtain ⟨rfl, rfl⟩ := h
    refine ⟨hw, ?_⟩
    have : w.stamp ≤ maxStamp := hok
    split
    · simp only [Pc.Ok]; omega
    · exact loadRet_ok _ _
  | loadStore r w ret =>
    simp only [pcStep, Option.some.injEq, Prod.mk.injEq] at h
    obtain ⟨rfl, rfl⟩ := h
    exact ⟨hset r _, loadRet_ok _ _⟩
  | exchange r target =>
    simp only [pcStep, Option.some.injEq, Prod.mk.injEq] at h
    obtain ⟨rfl, rfl⟩ := h
    exact ⟨hset r _, trivial⟩
  | casTry r w exp des =>
    simp only [pcStep] at h
    split at h <;> simp only [Option.some.injEq, Prod.mk.injEq] at h <;> obtain ⟨rfl, rfl⟩ := h
    · exact ⟨hset r _, trivial⟩
    · exact ⟨hw, trivial⟩

theorem pcStep_frame (h : pcStep m sp pc = some (m', op')) :
    m'.strong = m.strong ∧ m'.transient = m.transient ∧ m'.allocs = m.allocs ∧
      m'.deleted = m.deleted := by
  cases pc <;> simp only [pcStep, reduceCtorEq] at h
  all_goals
    try split at h
    all_goals
      simp only [Option.some.injEq, Prod.mk.injEq] at h
      obtain ⟨rfl, -⟩ := h
      exact ⟨rfl, rfl, rfl, rfl⟩

variable [Fintype ρ]

/-- An access to a register moves strong references between the operation and the registers. -/
theorem pcStep_hold (hok : pc.Ok) (hc : pc.Careful m) (h : pcStep m sp pc = some (m', op')) (b : Nat) :
    op'.hold b + m'.regs b = pc.hold b + m.regs b + op'.window b := by
  cases pc with
  | idle | done => cases h
  | acqLoad r k =>
    simp only [pcStep, Option.some.injEq, Prod.mk.injEq] at h
    obtain ⟨rfl, rfl⟩ := h
    obtain ⟨h1, -, h2, -⟩ := acquireLoop_owns r k (m.reg r) b
    simp only [h1, h2, Pc.hold]; omega
  | acqCas r k curr =>
    simp only [pcStep] at h
    split at h <;> simp only [Option.some.injEq, Prod.mk.injEq] at h <;> obtain ⟨rfl, rfl⟩ := h
    · rename_i hcas
      obtain ⟨h1, -, h2, -⟩ := acquired_owns r curr.incrementStamp k b
      rw [regs_setReg, h1, h2, hcas.2, raw_packed]
      simp only [Pc.hold, incrementStamp]; omega
    · obtain ⟨h1, -, h2, -⟩ := acquireLoop_owns r k (m.reg r) b
      simp only [h1, h2, Pc.hold]; omega
  | loadEnd r w ret =>
    simp only [pcStep, Option.some.injEq, Prod.mk.injEq] at h
    obtain ⟨rfl, rfl⟩ := h
    split
    · simp [Op.hold, Op.window, Pc.hold]
    · obtain ⟨h1, -, h2, -⟩ := loadRet_owns (ρ := ρ) w.raw ret b
      simp only [h1, h2, Pc.hold]; omega
  | loadStore r w ret =>
    simp only [pcStep, Option.some.injEq, Prod.mk.injEq] at h
    obtain ⟨rfl, rfl⟩ := h
    have hreg : m.reg r = ⟨w.raw, w.stamp + limit⟩ := hc
    obtain ⟨h1, -, h2, -⟩ := loadRet_owns (ρ := ρ) w.raw ret b
    rw [regs_setReg, h1, h2, hreg]
    simp only [Pc.hold]; omega
  | exchange r target =>
    simp only [pcStep, Option.some.injEq, Prod.mk.injEq] at h
    obtain ⟨rfl, rfl⟩ := h
    rw [regs_setReg]
    simp [Op.hold, Op.window, Pc.hold, Res.hold]; omega
  | casTry r w exp des =>
    simp only [pcStep] at h
    split at h <;> simp only [Option.some.injEq, Prod.mk.injEq] at h <;> obtain ⟨rfl, rfl⟩ := h
    · rename_i hcas
      rw [regs_setReg, hcas.2, raw_packed]
      simp [Op.hold, Op.window, Pc.hold, Res.hold]; omega
    · rw [hok.2]
      simp [Op.hold, Op.window, Pc.hold, Cont.hold, Ret.hold]; omega

/-- And transient references between the operation and the stamps. -/
theorem pcStep_thold (hok : pc.Ok) (hc : pc.Careful m) (h : pcStep m sp pc = some (m', op'))
    (b : Nat) : m'.stamps b + pc.thold b = m.stamps b + op'.thold b := by
  cases pc with
  | idle | done => cases h
  | acqLoad r k =>
    simp only [pcStep, Option.some.injEq, Prod.mk.injEq] at h
    obtain ⟨rfl, rfl⟩ := h
    obtain ⟨-, h1, -, -⟩ := acquireLoop_owns r k (m.reg r) b
    simp only [h1, Pc.thold]
  | acqCas r k curr =>
    simp only [pcStep] at h
    split at h <;> simp only [Option.some.injEq, Prod.mk.injEq] at h <;> obtain ⟨rfl, rfl⟩ := h
    · rename_i hcas
      rw [packed_of_le hok.1] at hcas
      obtain ⟨-, h1, -, -⟩ := acquired_owns r curr.incrementStamp k b
      rw [stamps_setReg m r (hc hcas.2), h1, hcas.2]
      by_cases hb : curr.raw = some b <;> simp [hb, Pc.thold, incrementStamp, stampOf, is]
    · obtain ⟨-, h1, -, -⟩ := acquireLoop_owns r k (m.reg r) b
      simp only [h1, Pc.thold]
  | loadEnd r w ret =>
    simp only [pcStep, Option.some.injEq, Prod.mk.injEq] at h
    obtain ⟨rfl, rfl⟩ := h
    split
    · simp [Op.thold, Pc.thold]
    · obtain ⟨-, h1, -, -⟩ := loadRet_owns (ρ := ρ) w.raw ret b
      simp only [h1, Pc.thold]
  | loadStore r w ret =>
    simp only [pcStep, Option.some.injEq, Prod.mk.injEq] at h
    obtain ⟨rfl, rfl⟩ := h
    have hreg : m.reg r = ⟨w.raw, w.stamp + limit⟩ := hc
    have hok : w.stamp + limit ≤ maxStamp := hok
    obtain ⟨-, h1, -, -⟩ := loadRet_owns (ρ := ρ) w.raw ret b
    rw [stamps_setReg m r (by omega), h1, hreg]
    simp only [Pc.thold, stampOf, is]
    split <;> push_cast <;> omega
  | exchange r target =>
    simp only [pcStep, Option.some.injEq, Prod.mk.injEq] at h
    obtain ⟨rfl, rfl⟩ := h
    rw [stamps_setReg m r (Nat.zero_le _)]
    simp only [Op.thold, Pc.thold, stampOf, is, dtransient_append, dtransient_incs]
    split <;> split <;> omega
  | casTry r w exp des =>
    simp only [pcStep] at h
    split at h <;> simp only [Option.some.injEq, Prod.mk.injEq] at h <;> obtain ⟨rfl, rfl⟩ := h
    · rename_i hcas
      have hw : (StampedPtr.mk exp w.stamp).packed = ⟨exp, w.stamp⟩ := packed_of_le hok.1
      rw [hw] at hcas
      rw [stamps_setReg m r (Nat.zero_le _), hcas.2]
      simp only [Op.thold, Pc.thold, stampOf, hok.2, is, dtransient_append, dtransient_incs,
        dtransient_pubs]
      split <;> split <;> omega
    · simp [Op.thold, Pc.thold]

/-- No step forgets a transient reference. -/
theorem opStep_thold {inner : Nat → Handle} (hok : op.pc.Ok)
    (hc : op.todo = [] → op.pc.Careful m) (h : opStep inner m sp op = some (m', op')) (b : Nat) :
    m'.transient b + m'.stamps b + op.thold b = m.transient b + m.stamps b + op'.thold b := by
  have hdropped : ∀ (m : Mem ρ) (c : Nat), dtransient (m.dropped c) b = 0 := fun m c => by
    unfold Mem.dropped; split <;> rfl
  unfold opStep at h
  split at h
  · rename_i htodo
    have h1 := pcStep_thold hok (hc htodo) h b
    have h2 := (pcStep_frame h).2.1
    have h3 : op.thold b = op.pc.thold b := by simp [Op.thold, htodo, dtransient]
    rw [h2]; omega
  · rename_i c ds dt l htodo
    simp only [Option.some.injEq, Prod.mk.injEq] at h
    obtain ⟨rfl, rfl⟩ := h
    have h1 : (m.count c ds dt).stamps b = m.stamps b := rfl
    simp only [Op.thold, htodo, dtransient_append, hdropped, dtransient, h1]
    by_cases hcb : c = b
    · subst hcb
      have h2 : (m.count c ds dt).transient c = m.transient c + dt := update_self ..
      rw [if_pos rfl]; omega
    · have h2 : (m.count c ds dt).transient b = m.transient b := update_of_ne (fun e => hcb e.symm) ..
      rw [if_neg hcb]; omega
  · rename_i c l htodo
    simp only [Option.some.injEq, Prod.mk.injEq] at h
    obtain ⟨rfl, rfl⟩ := h
    have h1 : (m.count c 1 0).stamps b = m.stamps b := rfl
    have h2 : (m.count c 1 0).transient b = m.transient b := by
      by_cases hcb : b = c
      · subst hcb; simp [Mem.count]
      · exact update_of_ne hcb ..
    simp only [Op.thold, htodo, dtransient_append, hdropped, dtransient, h1]
    omega
  · rename_i c l htodo
    simp only [Option.some.injEq, Prod.mk.injEq] at h
    obtain ⟨rfl, rfl⟩ := h
    have h1 : (m.delete c).stamps b = m.stamps b := rfl
    have h2 : (m.delete c).transient b = m.transient b := rfl
    simp only [Op.thold, htodo, dtransient_append, dtransient, dtransient_incs, h1]
    omega

end step

end SharedPtr
