import Mathlib.Data.Nat.Digits.Lemmas
import Mathlib.Tactic

/-!
# Texts that hold their own length

A text of `x` bytes and a decimal number is `x + decLen n` bytes long when the number is `n`. A
writer that puts the length of one draft into the next comes to rest when the number of digits
does. Two drafts are enough unless the digits carry it over a power of ten.
-/

namespace OwnLength

/-- How many decimal digits a number has; zero has one. -/
def decLen (n : ℕ) : ℕ := (Nat.toDigits 10 n).length

theorem decLen_pos (n : ℕ) : 0 < decLen n := Nat.length_toDigits_pos

variable {n k x d : ℕ}

theorem decLen_le_iff (hk : 0 < k) : decLen n ≤ k ↔ n < 10 ^ k :=
  Nat.length_toDigits_le_iff (by decide) hk

theorem lt_pow_decLen (n : ℕ) : n < 10 ^ decLen n := (decLen_le_iff (decLen_pos n)).mp le_rfl

theorem decLen_mono {m : ℕ} (h : m ≤ n) : decLen m ≤ decLen n :=
  (decLen_le_iff (decLen_pos n)).mpr (h.trans_lt (lt_pow_decLen n))

theorem add_le_pow_succ (k : ℕ) : 10 ^ k + (k + 1) ≤ 10 ^ (k + 1) := by
  have hk : k < 10 ^ k := Nat.lt_pow_self (by decide)
  omega

/-- A number that its own digits carry to a power of ten has as many digits as that power has
noughts. -/
theorem decLen_eq_of_carry (hlow : x + d < 10 ^ k) (hhigh : 10 ^ k ≤ x + k) :
    decLen (x + d) = k := by
  cases k with
  | zero =>
    omega
  | succ k =>
    refine le_antisymm ((decLen_le_iff (Nat.succ_pos k)).mpr hlow) (not_lt.mp fun hlt => ?_)
    have hbig := add_le_pow_succ k
    have hsmall : x + d < 10 ^ k := by
      rcases Nat.eq_zero_or_pos k with rfl | hk
      · exact absurd hlt (not_lt.mpr (decLen_pos _))
      · exact (decLen_le_iff hk).mp (Nat.le_of_lt_succ hlt)
    omega

/-- **The second draft.** Starting from a number with `d` digits, and no more than its successor
has, the third draft is as long as the second unless a power of ten lies between them. -/
theorem settled_iff (hd : d ≤ decLen (x + d)) :
    decLen (x + decLen (x + d)) = decLen (x + d) ↔ ¬ ∃ k, x + d < 10 ^ k ∧ 10 ^ k ≤ x + k := by
  constructor
  · rintro heq ⟨k, hlow, hhigh⟩
    have hlt := lt_pow_decLen (x + decLen (x + d))
    rw [heq, decLen_eq_of_carry hlow hhigh] at hlt
    omega
  · intro h
    refine le_antisymm ((decLen_le_iff (decLen_pos _)).mpr ?_) (decLen_mono (by omega))
    by_contra hge
    exact h ⟨decLen (x + d), lt_pow_decLen _, not_lt.mp hge⟩

end OwnLength
