import Mathlib.Algebra.Group.Nat.Defs

/-!
# `StampedPtr` and `AtomicStampedPtr` (lockfree/stack/atomic_stamped_ptr.hpp)

A raw pointer and a stamp. `AtomicStampedPtr` keeps the pair in one 64-bit word with 16 bits for
the stamp: `Pack` shifts the stamp left by 48, so only `stamp % 2 ^ 16` survives. The pointer
itself survives (the addresses in use are canonical). `packed` is `Unpack(Pack(p))`, what a
later load of the word returns, and a CAS on packed words compares packed pairs.

lockfree/shared_ptr/atomic_stamped_ptr.hpp is the same class without the memory orders.
-/

/-- `StampedPtr<T>`; `none` is `nullptr`. -/
structure StampedPtr (β : Type) where
  raw : Option β
  stamp : Nat
  deriving DecidableEq, Repr

namespace StampedPtr

variable {β : Type}

/-- `StampedPtr{nullptr, 0}`. -/
def null : StampedPtr β := ⟨none, 0⟩

/-- `kMaxStamp`. -/
def maxStamp : Nat := 2 ^ 16 - 1

/-- `IncrementStamp`. -/
def incrementStamp (p : StampedPtr β) : StampedPtr β := ⟨p.raw, p.stamp + 1⟩

/-- `Unpack(Pack(p))`. -/
def packed (p : StampedPtr β) : StampedPtr β := ⟨p.raw, p.stamp % 2 ^ 16⟩

theorem packed_of_le {p : StampedPtr β} (h : p.stamp ≤ maxStamp) : p.packed = p := by
  cases p with
  | mk raw stamp =>
    simp only [packed, maxStamp, mk.injEq, true_and] at h ⊢
    omega

@[simp] theorem packed_null : (null : StampedPtr β).packed = null := rfl

@[simp] theorem raw_packed (p : StampedPtr β) : p.packed.raw = p.raw := rfl

theorem stamp_packed_le (p : StampedPtr β) : p.packed.stamp ≤ maxStamp := by
  simp only [packed, maxStamp]; omega

end StampedPtr
