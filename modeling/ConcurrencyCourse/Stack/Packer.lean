import ConcurrencyCourse.Stack.StampedPtr
import Mathlib.Logic.Equiv.Defs

/-!
# `Packer` (lockfree/stack/atomic_stamped_ptr.hpp 54-106)

Bit-level model: a `uintptr_t`, a `uint64_t` and a `T*` are `BitVec 64`. lockfree/shared_ptr/atomic_stamped_ptr.hpp
has the same `Packer` (52-101).

| here | there |
| --- | --- |
| `kFreeBitsMask`, `kMaxStamp` | the constants; `1 << kFreeBits` is an `int`, 32 bits wide |
| `pack`, `unpack` | `Pack` (69), `Unpack` (74) |
| `getBit`, `setFreeBits`, `clearFreeBits`, `toCanonicalForm` | the same, 79-98 |
| `compareExchangeWeak` | `AtomicStampedPtr::CompareExchangeWeak` (148); `spurious` fails although the words are equal |

`packs_words` is the main theorem. `unpack_pack_word` ties the words to `StampedPtr`, with which the stacks work.
-/

namespace Packer

abbrev Word := BitVec 64

/-- `StampedPtr<T>`. -/
structure Stamped where
  rawPtr : Word
  stamp : Word
  deriving DecidableEq, Repr

/-- `IncrementStamp`. -/
def Stamped.incrementStamp (p : Stamped) : Stamped := ⟨p.rawPtr, p.stamp + 1⟩

def kFreeBits : Nat := 16

def kFreeBitsShift : Nat := 64 - kFreeBits

def kFreeBitsMask : Word := ((1#32 <<< kFreeBits) - 1#32).signExtend 64 <<< kFreeBitsShift

def kMaxStamp : Word := ((1#32 <<< kFreeBits) - 1#32).signExtend 64

def getBit (mask : Word) (index : Nat) : Word := (mask >>> index) &&& 1

def setFreeBits (mask : Word) : Word := mask ||| kFreeBitsMask

def clearFreeBits (mask : Word) : Word := mask &&& ~~~kFreeBitsMask

def toCanonicalForm (ptr : Word) : Word :=
  if getBit ptr 47 ≠ 0 then setFreeBits ptr else clearFreeBits ptr

def getStamp (packedPtr : Word) : Word := packedPtr >>> kFreeBitsShift

def getRawPointer (packedPtr : Word) : Word := toCanonicalForm packedPtr

def pack (p : Stamped) : Word := clearFreeBits p.rawPtr ||| (p.stamp <<< kFreeBitsShift)

def unpack (packedPtr : Word) : Stamped := ⟨getRawPointer packedPtr, getStamp packedPtr⟩

/-- The word afterwards, `expected` afterwards, and whether it succeeded. -/
def compareExchangeWeak (word : Word) (expected desired : Stamped) (spurious : Bool) : Word × Stamped × Bool :=
  if spurious = false ∧ word = pack expected then (pack desired, expected, true)
  else (word, unpack word, false)

/-! ### Bit by bit -/

theorem getLsbD_mask (i : Nat) : kFreeBitsMask.getLsbD i = (decide (48 ≤ i) && decide (i < 64)) := by
  by_cases h : i < 64
  · have hall : ∀ j : Fin 64, kFreeBitsMask.getLsbD j = decide (48 ≤ j.val) := by decide
    simp only [hall ⟨i, h⟩, h, decide_true, Bool.and_true]
  · simp only [BitVec.getLsbD_of_ge _ _ (Nat.le_of_not_lt h), h, decide_false, Bool.and_false]

theorem getLsbD_setFreeBits (w : Word) {i : Nat} (hi : i < 64) :
    (setFreeBits w).getLsbD i = (w.getLsbD i || decide (48 ≤ i)) := by
  simp only [setFreeBits, BitVec.getLsbD_or, getLsbD_mask, hi, decide_true, Bool.and_true]

theorem getLsbD_clearFreeBits (w : Word) {i : Nat} (hi : i < 64) :
    (clearFreeBits w).getLsbD i = (w.getLsbD i && decide (i < 48)) := by
  simp only [clearFreeBits, BitVec.getLsbD_and, BitVec.getLsbD_not, getLsbD_mask, hi, decide_true, Bool.and_true,
    Bool.true_and]
  by_cases h : 48 ≤ i
  · simp [h]
  · simp [h, Nat.lt_of_not_le h]

theorem getBit_ne_zero (w : Word) (i : Nat) : getBit w i ≠ 0 ↔ w.getLsbD i = true := by
  constructor
  · intro h
    by_contra hbit
    apply h
    apply BitVec.eq_of_getLsbD_eq
    intro j hj
    rcases Nat.eq_zero_or_pos j with rfl | hpos
    · simpa [getBit] using hbit
    · simp [getBit, BitVec.getLsbD_one, Nat.ne_of_gt hpos]
  · intro hbit h
    have h0 : (getBit w i).getLsbD 0 = false := by rw [h]; rfl
    simp [getBit, hbit] at h0

/-- Bits 48 to 63 become bit 47. -/
theorem getLsbD_toCanonicalForm (w : Word) {i : Nat} (hi : i < 64) :
    (toCanonicalForm w).getLsbD i = if i < 48 then w.getLsbD i else w.getLsbD 47 := by
  unfold toCanonicalForm
  split
  · next h =>
    rw [getBit_ne_zero] at h
    rw [getLsbD_setFreeBits w hi, h]
    by_cases hlt : i < 48
    · simp [hlt, Nat.not_le_of_lt hlt]
    · simp [hlt, Nat.le_of_not_lt hlt]
  · next h =>
    rw [getBit_ne_zero, Bool.not_eq_true] at h
    rw [getLsbD_clearFreeBits w hi, h]
    by_cases hlt : i < 48 <;> simp [hlt]

/-- The pointer below bit 48, the stamp from there on. -/
theorem getLsbD_pack (p : Stamped) {i : Nat} (hi : i < 64) :
    (pack p).getLsbD i = if i < 48 then p.rawPtr.getLsbD i else p.stamp.getLsbD (i - 48) := by
  simp only [pack, BitVec.getLsbD_or, getLsbD_clearFreeBits _ hi, BitVec.getLsbD_shiftLeft, kFreeBitsShift, kFreeBits]
  by_cases h : i < 48 <;> simp [h, hi]

theorem getLsbD_getStamp (w : Word) (i : Nat) : (getStamp w).getLsbD i = w.getLsbD (48 + i) := by
  simp only [getStamp, kFreeBitsShift, kFreeBits, BitVec.getLsbD_ushiftRight]

theorem getLsbD_maxStamp (i : Nat) : kMaxStamp.getLsbD i = decide (i < 16) := by
  by_cases h : i < 64
  · have hall : ∀ j : Fin 64, kMaxStamp.getLsbD j = decide (j.val < 16) := by decide
    exact hall ⟨i, h⟩
  · rw [BitVec.getLsbD_of_ge _ _ (Nat.le_of_not_lt h), eq_comm, decide_eq_false_iff_not]
    omega

/-! ### The pairs in use -/

/-- Bits 48 to 63 equal bit 47. -/
def Canonical (p : Word) : Prop := ∀ i : Fin 64, 48 ≤ i.val → p.getLsbD i = p.getLsbD 47

instance (p : Word) : Decidable (Canonical p) := inferInstanceAs (Decidable (∀ _, _))

/-- A canonical pointer, and a stamp of 16 bits. -/
structure Stamped.InUse (p : Stamped) : Prop where
  canonical : Canonical p.rawPtr
  stamp : p.stamp.toNat < 2 ^ 16

instance (p : Stamped) : Decidable p.InUse :=
  decidable_of_iff (Canonical p.rawPtr ∧ p.stamp.toNat < 2 ^ 16) ⟨fun h => ⟨h.1, h.2⟩, fun h => ⟨h.1, h.2⟩⟩

theorem toCanonicalForm_of_canonical {p : Word} (hp : Canonical p) : toCanonicalForm p = p := by
  apply BitVec.eq_of_getLsbD_eq
  intro i hi
  rw [getLsbD_toCanonicalForm p hi]
  by_cases hlt : i < 48
  · rw [if_pos hlt]
  · rw [if_neg hlt]
    exact (hp ⟨i, hi⟩ (Nat.le_of_not_lt hlt)).symm

theorem canonical_toCanonicalForm (w : Word) : Canonical (toCanonicalForm w) := by
  intro i hi
  rw [getLsbD_toCanonicalForm w i.isLt, getLsbD_toCanonicalForm w (by omega), if_neg (Nat.not_lt_of_le hi)]
  rfl

theorem inUse_unpack (w : Word) : (unpack w).InUse := by
  refine ⟨canonical_toCanonicalForm w, ?_⟩
  have hlt := w.isLt
  simp only [unpack, getStamp, kFreeBitsShift, kFreeBits, BitVec.toNat_ushiftRight, Nat.shiftRight_eq_div_pow]
  omega

/-! ### Round trips -/

theorem pack_unpack (w : Word) : pack (unpack w) = w := by
  apply BitVec.eq_of_getLsbD_eq
  intro i hi
  rw [getLsbD_pack _ hi]
  by_cases hlt : i < 48
  · rw [if_pos hlt]
    exact (getLsbD_toCanonicalForm w hi).trans (if_pos hlt)
  · rw [if_neg hlt]
    have hadd : 48 + (i - 48) = i := by omega
    exact (getLsbD_getStamp w _).trans (by rw [hadd])

/-- Bit 47 of the word is a bit of the pointer, so it comes back canonical; of the stamp 16 bits come back. -/
theorem unpack_pack {p : Stamped} (hp : Canonical p.rawPtr) :
    unpack (pack p) = ⟨p.rawPtr, p.stamp &&& kMaxStamp⟩ := by
  have hptr : getRawPointer (pack p) = p.rawPtr := by
    apply BitVec.eq_of_getLsbD_eq
    intro i hi
    rw [getRawPointer, getLsbD_toCanonicalForm _ hi, getLsbD_pack p hi, getLsbD_pack p (by omega)]
    by_cases hlt : i < 48
    · simp only [hlt, if_true]
    · rw [if_neg hlt, if_pos (by omega)]
      exact (hp ⟨i, hi⟩ (Nat.le_of_not_lt hlt)).symm
  have hstamp : getStamp (pack p) = p.stamp &&& kMaxStamp := by
    apply BitVec.eq_of_getLsbD_eq
    intro i hi
    rw [getLsbD_getStamp, BitVec.getLsbD_and, getLsbD_maxStamp]
    by_cases hlt : i < 16
    · rw [getLsbD_pack p (by omega), if_neg (by omega)]
      simp [hlt]
    · rw [BitVec.getLsbD_of_ge _ _ (by omega)]
      simp [hlt]
  rw [unpack, hptr, hstamp]

theorem unpack_pack_of_inUse {p : Stamped} (hp : p.InUse) : unpack (pack p) = p := by
  have hstamp : p.stamp &&& kMaxStamp = p.stamp := by
    apply BitVec.eq_of_getLsbD_eq
    intro i hi
    rw [BitVec.getLsbD_and, getLsbD_maxStamp]
    by_cases hlt : i < 16
    · simp [hlt]
    · have hzero : p.stamp.getLsbD i = false := by
        apply Nat.testBit_lt_two_pow
        exact Nat.lt_of_lt_of_le hp.stamp (Nat.pow_le_pow_right (by decide) (Nat.le_of_not_lt hlt))
      simp [hzero]
  rw [unpack_pack hp.canonical, hstamp]

/-- A word is a pair in use, and the other way round. -/
def packing : Word ≃ { p : Stamped // p.InUse } where
  toFun w := ⟨unpack w, inUse_unpack w⟩
  invFun p := pack p.1
  left_inv := pack_unpack
  right_inv p := Subtype.ext (unpack_pack_of_inUse p.2)

/-- Two pairs in use with the same word are the same pair. -/
theorem pack_eq_iff {w : Word} {p : Stamped} (hp : p.InUse) : w = pack p ↔ unpack w = p := by
  constructor
  · rintro rfl
    exact unpack_pack_of_inUse hp
  · rintro rfl
    exact (pack_unpack w).symm

theorem Stamped.InUse.increment {p : Stamped} (hp : p.InUse) (hs : p.stamp.toNat < 65535) :
    p.incrementStamp.InUse := by
  refine ⟨hp.canonical, ?_⟩
  have hadd : p.incrementStamp.stamp.toNat = (p.stamp.toNat + 1) % 2 ^ 64 := BitVec.toNat_add ..
  rw [hadd]
  omega

theorem compareExchange_iff {w : Word} {expected : Stamped} (hp : expected.InUse) (desired : Stamped) (spurious : Bool) :
    (compareExchangeWeak w expected desired spurious).2.2 = true ↔ spurious = false ∧ unpack w = expected := by
  rw [← pack_eq_iff hp]
  unfold compareExchangeWeak
  split
  · next h => exact ⟨fun _ => h, fun _ => rfl⟩
  · next h => exact ⟨fun hf => Bool.noConfusion hf, fun h' => absurd h' h⟩

/-- `Pack` and `Unpack` are inverse to each other on all words and on the pairs in use; a CAS of the word is a CAS of
the pair; and one more on the stamp leaves the pointer. -/
theorem packs_words :
    (∀ w, pack (unpack w) = w) ∧
    (∀ p s : Word, Canonical p → s.toNat < 2 ^ 16 → unpack (pack ⟨p, s⟩) = ⟨p, s⟩) ∧
    (∀ w expected desired spurious, expected.InUse →
      ((compareExchangeWeak w expected desired spurious).2.2 = true ↔ spurious = false ∧ unpack w = expected)) ∧
    ∀ w (p s : Word), Canonical p → s.toNat < 65535 →
      (compareExchangeWeak w ⟨p, s⟩ (Stamped.incrementStamp ⟨p, s⟩) false).2.2 = true →
      (unpack w).rawPtr = p ∧
        unpack (compareExchangeWeak w ⟨p, s⟩ (Stamped.incrementStamp ⟨p, s⟩) false).1 = ⟨p, s + 1⟩ := by
  refine ⟨pack_unpack, fun p s hp hs => unpack_pack_of_inUse ⟨hp, hs⟩,
    fun w expected desired spurious hp => compareExchange_iff hp desired spurious, fun w p s hp hs h => ?_⟩
  have hin : Stamped.InUse ⟨p, s⟩ := ⟨hp, Nat.lt_succ_of_lt hs⟩
  have heq : unpack w = ⟨p, s⟩ := ((compareExchange_iff hin _ false).1 h).2
  refine ⟨by rw [heq], ?_⟩
  rw [compareExchangeWeak, if_pos ⟨rfl, (pack_eq_iff hin).2 heq⟩]
  exact unpack_pack_of_inUse (hin.increment hs)

/-- An address of the upper half, with a stamp. -/
theorem packs_words_upper : unpack (pack ⟨0xFFFF800000001000#64, 7#64⟩) = ⟨0xFFFF800000001000#64, 7#64⟩ :=
  packs_words.2.1 _ _ (by decide) (by decide)

/-! ### The pairs of the stacks -/

/-- A `T*` that is not null. -/
abbrev Address := { p : Word // Canonical p ∧ p ≠ 0 }

/-- A `StampedPtr` as the machine has it. -/
def toStamped (p : StampedPtr Address) : Stamped := ⟨p.raw.elim 0 (·.1), BitVec.ofNat 64 p.stamp⟩

theorem canonical_toStamped (p : StampedPtr Address) : Canonical (toStamped p).rawPtr := by
  unfold toStamped
  cases p.raw with
  | none => exact fun i _ => (BitVec.getLsbD_zero).trans (BitVec.getLsbD_zero).symm
  | some a => exact a.2.1

theorem ofNat_and_maxStamp (n : Nat) : BitVec.ofNat 64 n &&& kMaxStamp = BitVec.ofNat 64 (n % 2 ^ 16) := by
  apply BitVec.eq_of_toNat_eq
  have hmask : kMaxStamp.toNat = 2 ^ 16 - 1 := by decide
  rw [BitVec.toNat_and, hmask, Nat.and_two_pow_sub_one_eq_mod, BitVec.toNat_ofNat, BitVec.toNat_ofNat]
  omega

/-- A load after a store gives the pair that `StampedPtr.packed` says. -/
theorem unpack_pack_word (p : StampedPtr Address) : unpack (pack (toStamped p)) = toStamped p.packed := by
  rw [unpack_pack (canonical_toStamped p)]
  simp only [toStamped, StampedPtr.packed, ofNat_and_maxStamp]

/-- Pairs that are packed have the same word only if they are the same. -/
theorem toStamped_inj {p q : StampedPtr Address} (h : toStamped p.packed = toStamped q.packed) :
    p.packed = q.packed := by
  obtain ⟨hraw, hstamp⟩ := Stamped.mk.inj h
  have hraw : p.raw = q.raw := by
    change p.raw.elim 0 (·.1) = q.raw.elim 0 (·.1) at hraw
    cases hp : p.raw with
    | none =>
      cases hq : q.raw with
      | none => rfl
      | some b =>
        rw [hp, hq] at hraw
        exact absurd hraw.symm b.2.2
    | some a =>
      cases hq : q.raw with
      | none =>
        rw [hp, hq] at hraw
        exact absurd hraw a.2.2
      | some b =>
        rw [hp, hq] at hraw
        exact congrArg some (Subtype.ext hraw)
  have hstamp := congrArg BitVec.toNat hstamp
  rw [BitVec.toNat_ofNat, BitVec.toNat_ofNat] at hstamp
  have hp := p.stamp_packed_le
  have hq := q.stamp_packed_le
  rw [StampedPtr.maxStamp] at hp hq
  have hstamp : p.packed.stamp = q.packed.stamp := by omega
  change StampedPtr.mk p.raw p.packed.stamp = StampedPtr.mk q.raw q.packed.stamp
  rw [hraw, hstamp]

/-- The CAS of the stacks, which compares packed pairs, is the CAS of the words. -/
theorem pack_word_iff (p q : StampedPtr Address) : pack (toStamped p) = pack (toStamped q) ↔ p.packed = q.packed := by
  constructor
  · intro h
    apply toStamped_inj
    rw [← unpack_pack_word, h, unpack_pack_word]
  · intro h
    rw [← pack_unpack (pack (toStamped p)), unpack_pack_word, h, ← unpack_pack_word, pack_unpack]

end Packer
