import Mathlib.Algebra.BigOperators.Intervals
import Mathlib.Algebra.Order.BigOperators.Group.Finset
import Mathlib.Tactic

/-!
# Numbers as vectors of signed limbs

A vector of `n` integers stands for `∑ limb i * B ^ i`. The limbs need not be digits: `value_put`
says what a change of one limb does to the number, `carryAt` moves what is above the base of one
limb to the next (from the last to the first with a weight), and for limbs that are digits the
number determines them (`digit_of_sum`).
-/

namespace MinimalOS.Limbs

open Finset

variable {n : ℕ}

/-- Limb `i`, zero behind the last. -/
def limb (v : Vector ℤ n) (i : ℕ) : ℤ := v[i]?.getD 0

def put (v : Vector ℤ n) (i : ℕ) (x : ℤ) : Vector ℤ n := v.setIfInBounds i x

/-- The number that the limbs stand for to the base `B`. -/
def value (B : ℤ) (v : Vector ℤ n) : ℤ := ∑ i ∈ range n, limb v i * B ^ i

variable {i : ℕ} {v : Vector ℤ n} {B w : ℤ} {f : ℕ → ℤ}

theorem limb_put (v : Vector ℤ n) (x : ℤ) (j : ℕ) (hi : i < n) :
    limb (put v i x) j = if j = i then x else limb v j := by
  unfold limb put
  rw [Vector.getElem?_setIfInBounds]
  by_cases h : j = i
  · rw [if_pos h.symm, if_pos hi, if_pos h]
    rfl
  · rw [if_neg (Ne.symm h), if_neg h]

theorem limb_put_self (v : Vector ℤ n) (x : ℤ) (hi : i < n) : limb (put v i x) i = x := by
  rw [limb_put v x i hi, if_pos rfl]

theorem limb_put_ne (v : Vector ℤ n) {j : ℕ} (x : ℤ) (hi : i < n) (hj : j ≠ i) :
    limb (put v i x) j = limb v j := by
  rw [limb_put v x j hi, if_neg hj]

theorem limb_ofFn (f : Fin n → ℤ) (hi : i < n) : limb (Vector.ofFn f) i = f ⟨i, hi⟩ := by
  rw [limb, Vector.getElem?_ofFn, dif_pos hi]
  rfl

theorem limb_replicate_zero (i : ℕ) : limb (Vector.replicate n (0 : ℤ)) i = 0 := by
  rw [limb, Vector.getElem?_replicate]
  split <;> rfl

theorem limb_of_le (v : Vector ℤ n) (h : n ≤ i) : limb v i = 0 := by
  rw [limb, Vector.getElem?_eq_none h]
  rfl

theorem limb_ext {w : Vector ℤ n} (h : ∀ i < n, limb v i = limb w i) : v = w := by
  ext i hi
  have hlimb := h i hi
  rwa [limb, limb, Vector.getElem?_eq_getElem hi, Vector.getElem?_eq_getElem hi] at hlimb

theorem value_congr {m : ℕ} (hm : n = m)
    (h : ∀ i < n, limb v i = f i) : value B v = ∑ i ∈ range m, f i * B ^ i := by
  subst hm
  exact sum_congr rfl fun i hi => by rw [h i (mem_range.mp hi)]

theorem value_put (B : ℤ) (v : Vector ℤ n) (x : ℤ) (hi : i < n) :
    value B (put v i x) = value B v + (x - limb v i) * B ^ i := by
  have hmem : i ∈ range n := mem_range.mpr hi
  have hrest : ∑ j ∈ (range n).erase i, limb (put v i x) j * B ^ j =
      ∑ j ∈ (range n).erase i, limb v j * B ^ j :=
    sum_congr rfl fun j hj => by rw [limb_put_ne v x hi (mem_erase.mp hj).1]
  unfold value
  rw [← add_sum_erase _ _ hmem, ← add_sum_erase _ _ hmem, hrest, limb_put_self v x hi]
  ring

theorem value_replicate_zero (B : ℤ) : value B (Vector.replicate n (0 : ℤ)) = 0 :=
  sum_eq_zero fun i _ => by rw [limb_replicate_zero, zero_mul]

/-! ## Digits -/

theorem sum_digits_bounds {k : ℕ} (h : ∀ i < k, 0 ≤ f i ∧ f i < B) :
    0 ≤ ∑ i ∈ range k, f i * B ^ i ∧ ∑ i ∈ range k, f i * B ^ i < B ^ k := by
  induction k with
  | zero => simp
  | succ k ih =>
    obtain ⟨hlo, hhi⟩ := ih fun i hi => h i (by omega)
    obtain ⟨h0, hB⟩ := h k (by omega)
    have hpow : 0 ≤ B ^ k := pow_nonneg (by omega) k
    rw [sum_range_succ]
    constructor
    · positivity
    · have hstep : f k * B ^ k ≤ (B - 1) * B ^ k := mul_le_mul_of_nonneg_right (by omega) hpow
      rw [pow_succ]
      linarith

theorem digit_of_sum {k j : ℕ} (h : ∀ i < k, 0 ≤ f i ∧ f i < B) (hj : j < k) :
    (∑ i ∈ range k, f i * B ^ i) / B ^ j % B = f j := by
  obtain ⟨h0, hB⟩ := h j hj
  obtain ⟨hlo, hhi⟩ := sum_digits_bounds fun i (hi : i < j) => h i (by omega)
  obtain ⟨m, rfl⟩ : ∃ m, k = j + (1 + m) := ⟨k - j - 1, by omega⟩
  -- the digits above `j` make a multiple of the next power
  have hhigh : ∑ i ∈ range m, f (j + (1 + i)) * B ^ (j + (1 + i)) =
      B ^ j * (B * ∑ i ∈ range m, f (j + (1 + i)) * B ^ i) := by
    rw [mul_sum, mul_sum]
    exact sum_congr rfl fun i _ => by rw [pow_add]; ring
  have hsplit : ∑ i ∈ range (j + (1 + m)), f i * B ^ i = (∑ i ∈ range j, f i * B ^ i) +
      B ^ j * (f j + B * ∑ i ∈ range m, f (j + (1 + i)) * B ^ i) := by
    rw [sum_range_add, sum_range_add, hhigh]
    simp
    ring
  have hpow : B ^ j ≠ 0 := pow_ne_zero _ (by omega)
  rw [hsplit, Int.add_mul_ediv_left _ _ hpow, Int.ediv_eq_zero_of_lt hlo hhi, zero_add,
    Int.add_mul_emod_self_left, Int.emod_eq_of_lt h0 hB]

theorem sum_pairs {R : Type*} [CommSemiring R] (b : R) (f : ℕ → R) (m : ℕ) :
    ∑ i ∈ range (2 * m), f i * b ^ i =
      ∑ i ∈ range m, (f (2 * i) + f (2 * i + 1) * b) * (b ^ 2) ^ i := by
  induction m with
  | zero => simp
  | succ m ih =>
    rw [show 2 * (m + 1) = 2 * m + 1 + 1 from rfl, sum_range_succ, sum_range_succ, ih,
      sum_range_succ]
    ring

theorem value_sub_limb_bounds (hn : 0 < n) (h : ∀ i < n, 0 < i → 0 ≤ limb v i ∧ limb v i < B) :
    0 ≤ (value B v - limb v 0) ∧ (1 < n → value B v - limb v 0 ≤ B ^ n - B) := by
  obtain ⟨m, rfl⟩ : ∃ m, n = m + 1 := ⟨n - 1, by omega⟩
  have hhigh : value B v - limb v 0 = B * ∑ i ∈ range m, limb v (i + 1) * B ^ i := by
    rw [value, sum_range_succ', mul_sum, pow_zero, mul_one, add_sub_cancel_right]
    exact sum_congr rfl fun i _ => by ring
  obtain ⟨hlo, hhi⟩ := sum_digits_bounds fun i (hi : i < m) => h (i + 1) (by omega) (by omega)
  rw [hhigh, pow_succ]
  constructor
  · rcases m.eq_zero_or_pos with rfl | hm
    · simp
    · exact mul_nonneg (by have := h 1 (by omega) (by omega); omega) hlo
  · intro h1
    have hB : 0 ≤ B := by have := h 1 (by omega) (by omega); omega
    have hle : B * ∑ i ∈ range m, limb v (i + 1) * B ^ i ≤ B * (B ^ m - 1) :=
      mul_le_mul_of_nonneg_left (by omega) hB
    linarith

/-! ## Carries -/

/-- What is above the base of limb `i` goes to the next limb, from the last limb to the first
with weight `w`. -/
def carryAt (B w : ℤ) (v : Vector ℤ n) (i : ℕ) : Vector ℤ n :=
  if i + 1 = n then put (put v i (limb v i % B)) 0 (limb v 0 + limb v i / B * w)
  else put (put v i (limb v i % B)) (i + 1) (limb v (i + 1) + limb v i / B)

theorem limb_carryAt (v : Vector ℤ n) (j : ℕ) (hi : i + 1 < n) : limb (carryAt B w v i) j =
      if j = i + 1 then limb v (i + 1) + limb v i / B
      else if j = i then limb v i % B else limb v j := by
  rw [carryAt, if_neg (by omega), limb_put _ _ _ hi, limb_put _ _ _ (by omega)]

theorem limb_carryAt_last (v : Vector ℤ n) (j : ℕ) (hi : i + 1 = n) : limb (carryAt B w v i) j =
      if j = 0 then limb v 0 + limb v i / B * w
      else if j = i then limb v i % B else limb v j := by
  rw [carryAt, if_pos hi, limb_put _ _ _ (by omega), limb_put _ _ _ (by omega)]

theorem value_carryAt (v : Vector ℤ n) (hi : i + 1 < n) :
    value B (carryAt B w v i) = value B v := by
  rw [carryAt, if_neg (by omega), value_put _ _ _ hi, value_put _ _ _ (by omega),
    limb_put_ne _ _ (by omega) (by omega)]
  have hdiv := Int.emod_add_mul_ediv (limb v i) B
  linear_combination B ^ i * hdiv

theorem value_carryAt_last (v : Vector ℤ (n + 2)) :
    value B (carryAt B w v (n + 1)) = value B v - limb v (n + 1) / B * (B ^ (n + 2) - w) := by
  rw [carryAt, if_pos rfl, value_put _ _ _ (by omega), value_put _ _ _ (by omega),
    limb_put_ne _ _ (by omega) (by omega)]
  have hdiv := Int.emod_add_mul_ediv (limb v (n + 1)) B
  linear_combination B ^ (n + 1) * hdiv

end MinimalOS.Limbs
