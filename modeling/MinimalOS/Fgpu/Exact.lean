import Mathlib.Algebra.Order.Field.Basic
import Mathlib.Algebra.Order.Field.Rat
import MinimalOS.Fgpu.Machine

/-!
# Exact arithmetic

The machine over an ordered field: sums, products and comparisons are those of the field, decimal
constants are the rational numbers they denote. What hardware and library functions compute,
reciprocals included, is left open; a quotient is a product with a reciprocal.
-/

namespace MinimalOS.Fgpu

/-- The functions that are not field operations, and the floats behind `k_zero`. -/
structure Functions (K : Type) where
  ofBits : ℕ → K
  floor : K → K
  sqrt : K → K
  exp2 : K → K
  log2 : K → K
  sin : K → K
  rcp : K → K
  behind : ℕ → K

variable {K : Type} [Field K] [LinearOrder K]

def Arith.exact (F : Functions K) : Arith K where
  lit := fun q => (q : K)
  ofBits := F.ofBits
  add := (· + ·)
  sub := (· - ·)
  mul := (· * ·)
  div := fun a b => a * F.rcp b
  neg := (- ·)
  lt := fun a b => decide (a < b)
  le := fun a b => decide (a ≤ b)
  eq := fun a b => decide (a = b)
  floor := F.floor
  sqrt := F.sqrt
  exp2 := F.exp2
  log2 := F.log2
  sin := F.sin
  behind := F.behind

/-- The exact arithmetic over the functions `F`. -/
abbrev Functions.arith (F : Functions K) : Arith K := Arith.exact F

section Laws

variable (F : Functions K)

@[simp]
theorem exact_zero : (Arith.exact F).zero = 0 := Rat.cast_zero

@[simp]
theorem exact_one : (Arith.exact F).one = 1 := Rat.cast_one

@[simp]
theorem exact_lit (q : ℚ) : (Arith.exact F).lit q = (q : K) := rfl

@[simp]
theorem exact_add (a b : K) : (Arith.exact F).add a b = a + b := rfl

@[simp]
theorem exact_sub (a b : K) : (Arith.exact F).sub a b = a - b := rfl

@[simp]
theorem exact_mul (a b : K) : (Arith.exact F).mul a b = a * b := rfl

@[simp]
theorem exact_div (a b : K) : (Arith.exact F).div a b = a * F.rcp b := rfl

@[simp]
theorem exact_neg (a : K) : (Arith.exact F).neg a = -a := rfl

@[simp]
theorem exact_lt (a b : K) : (Arith.exact F).lt a b = decide (a < b) := rfl

@[simp]
theorem exact_le (a b : K) : (Arith.exact F).le a b = decide (a ≤ b) := rfl

@[simp]
theorem exact_eq (a b : K) : (Arith.exact F).eq a b = decide (a = b) := rfl

@[simp]
theorem exact_mAbs [IsStrictOrderedRing K] (x : K) : (Arith.exact F).mAbs x = |x| := by
  unfold Arith.mAbs
  rw [exact_lt, exact_zero, exact_neg]
  by_cases h : x < 0
  · rw [if_pos (decide_eq_true h), abs_of_neg h]
  · rw [if_neg (by simpa using h), abs_of_nonneg (not_lt.mp h)]

end Laws

/-- Rational arithmetic, with the functions left as the identity. -/
def ratFunctions : Functions ℚ where
  ofBits := fun w => w
  floor := id
  sqrt := id
  exp2 := id
  log2 := id
  sin := id
  rcp := fun x => x⁻¹
  behind := fun n => n

end MinimalOS.Fgpu
