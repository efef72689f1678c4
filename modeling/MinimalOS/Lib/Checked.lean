import Mathlib.Data.Int.Bitwise
import Mathlib.Data.List.Range
import Mathlib.Tactic

/-!
# Checked 64-bit arithmetic

Signed machine words as integers: a result outside the range is `none`. The bit operations are
those of two's complement words. Loops in `Option` have one rule, `foldlM_range_some`: an
invariant that every pass keeps, with every pass succeeding.
-/

namespace MinimalOS.Checked

def int64 (x : ℤ) : Option ℤ := if -2 ^ 63 ≤ x ∧ x < 2 ^ 63 then some x else none

def and64 (x y : ℤ) : ℤ := (BitVec.ofInt 64 x &&& BitVec.ofInt 64 y).toInt

def xor64 (x y : ℤ) : ℤ := (BitVec.ofInt 64 x ^^^ BitVec.ofInt 64 y).toInt

variable {x y : ℤ} {n : ℕ}

theorem int64_of_range (hlo : -2 ^ 63 ≤ x) (hhi : x < 2 ^ 63) : int64 x = some x :=
  if_pos ⟨hlo, hhi⟩

theorem toInt_ofInt (hlo : -2 ^ 63 ≤ x) (hhi : x < 2 ^ 63) : (BitVec.ofInt 64 x).toInt = x := by
  rw [BitVec.toInt_ofInt]
  exact Int.bmod_eq_of_le (by norm_num; omega) (by norm_num; omega)

theorem and64_mask (x : ℤ) (k : ℕ) (hk : k ≤ 62) : and64 x (2 ^ k - 1) = x % 2 ^ k := by
  have hpow : (2 : ℕ) ^ k ≤ 2 ^ 62 := Nat.pow_le_pow_right (by decide) hk
  have hpos : 0 < (2 : ℕ) ^ k := Nat.pos_of_neZero _
  have hmask : (BitVec.ofInt 64 ((2 : ℤ) ^ k - 1)).toNat = 2 ^ k - 1 := by
    have hcast : ((2 : ℤ) ^ k - 1) = ((2 ^ k - 1 : ℕ) : ℤ) := by push_cast [hpos]; rfl
    rw [hcast, BitVec.ofInt_natCast, BitVec.toNat_ofNat, Nat.mod_eq_of_lt (by omega)]
  have hnat : (BitVec.ofInt 64 x &&& BitVec.ofInt 64 (2 ^ k - 1)).toNat =
      (x % 2 ^ 64).toNat % 2 ^ k := by
    rw [BitVec.toNat_and, hmask, Nat.and_two_pow_sub_one_eq_mod]
    rfl
  have hdvd : ((2 : ℤ) ^ k) ∣ 2 ^ 64 := pow_dvd_pow 2 (by omega)
  rw [and64, BitVec.toInt_eq_toNat_of_lt (by rw [hnat]; omega), hnat]
  rw [Int.natCast_emod, Int.toNat_of_nonneg (Int.emod_nonneg _ (by norm_num)), Nat.cast_pow,
    Nat.cast_ofNat, Int.emod_emod_of_dvd _ hdvd]

theorem xor64_exchange (hlo : -2 ^ 63 ≤ y) (hhi : y < 2 ^ 63) :
    xor64 x (and64 (-1) (xor64 x y)) = y := by
  have hones : BitVec.ofInt 64 (-1) = BitVec.allOnes 64 := rfl
  simp only [xor64, and64, BitVec.ofInt_toInt, hones, BitVec.allOnes_and]
  rw [← BitVec.xor_assoc, BitVec.xor_self, BitVec.zero_xor]
  exact toInt_ofInt hlo hhi

theorem xor64_comm (x y : ℤ) : xor64 x y = xor64 y x := by rw [xor64, xor64, BitVec.xor_comm]

theorem xor64_keep (hlo : -2 ^ 63 ≤ x) (hhi : x < 2 ^ 63) : xor64 x (and64 0 y) = x := by
  have hzero : BitVec.ofInt 64 0 = 0#64 := rfl
  simp only [xor64, and64, BitVec.ofInt_toInt, hzero, BitVec.zero_and, BitVec.xor_zero]
  exact toInt_ofInt hlo hhi

theorem bind_of_some {α β : Type} {x : Option α} {a : α} {f : α → Option β} (h : x = some a) :
    x >>= f = f a := by
  rw [h]
  rfl

theorem foldlM_range_some {α : Type*} {f : α → ℕ → Option α} {a : α} (P : ℕ → α → Prop)
    (hstart : P 0 a) (hstep : ∀ i < n, ∀ a, P i a → ∃ a', f a i = some a' ∧ P (i + 1) a') :
    ∃ a', (List.range n).foldlM f a = some a' ∧ P n a' := by
  induction n with
  | zero => exact ⟨a, rfl, hstart⟩
  | succ n ih =>
    obtain ⟨b, hb, hPb⟩ := ih fun i hi => hstep i (by omega)
    obtain ⟨c, hc, hPc⟩ := hstep n (by omega) b hPb
    refine ⟨c, ?_, hPc⟩
    rw [List.range_succ, List.foldlM_append, hb]
    simp [hc]

theorem ofFnM_some {α : Type} {f : Fin n → Option α} {g : Fin n → α} (h : ∀ i, f i = some (g i)) :
    Vector.ofFnM f = some (Vector.ofFn g) := by
  rw [funext h]
  exact Vector.ofFnM_pure

end MinimalOS.Checked
