import Mathlib.Algebra.Order.Ring.Nat
import Mathlib.Data.UInt

/-!
# Serial numbers

Sequence numbers are 32-bit words compared by the sign of their difference. Seen from a base
word, a number is an offset; the signed difference of two numbers is the difference of their
offsets as long as that fits in 32 bits, wherever the base lies.
-/

namespace SerialNumber

/-- `(int32_t)(a - b)`. -/
def signedDiff (a b : UInt32) : ℤ := (a - b).toBitVec.toInt

/-- How far `a` lies after `base`. -/
def offset (base a : UInt32) : ℕ := (a - base).toNat

theorem offset_eq (base a : UInt32) :
    offset base a = (2 ^ 32 - base.toNat + a.toNat) % 2 ^ 32 := UInt32.toNat_sub a base

@[simp]
theorem offset_self (base : UInt32) : offset base base = 0 := by
  rw [offset, UInt32.sub_self]; rfl

theorem offset_add {base a : UInt32} {n : ℕ} (h : offset base a + n < 2 ^ 32) :
    offset base (a + UInt32.ofNat n) = offset base a + n := by
  rw [offset_eq] at h
  rw [offset_eq, offset_eq base a, UInt32.toNat_add, UInt32.toNat_ofNat']
  omega

theorem offset_offset (base : UInt32) {a b : UInt32} (h : offset base b ≤ offset base a) :
    offset b a = offset base a - offset base b := by
  rw [offset_eq, offset_eq] at h
  rw [offset_eq, offset_eq base a, offset_eq base b]
  have hb := b.toNat_lt
  omega

theorem signedDiff_eq (base : UInt32) {a b : UInt32} (hab : offset base a < offset base b + 2 ^ 31)
    (hba : offset base b ≤ offset base a + 2 ^ 31) :
    signedDiff a b = (offset base a : ℤ) - offset base b := by
  rw [signedDiff, BitVec.toInt_eq_toNat_cond, UInt32.toNat_toBitVec, UInt32.toNat_sub]
  rw [offset_eq base a, offset_eq base b] at *
  have hb := b.toNat_lt
  split <;> omega

end SerialNumber
