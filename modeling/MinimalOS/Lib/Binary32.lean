import Mathlib

/-!
# Single precision

Rounding of a rational number to the nearest value of the binary32 format, ties to the even
significand, with no bound on the exponent. Rounding is monotone and moves no value of the format;
beyond `2 ^ 23` every value is an integer.
-/

namespace Binary32

/-- The nearest integer, a tie going to the even one. -/
def roundEven (q : ℚ) : ℤ :=
  if Int.fract q < 1 / 2 ∨ Int.fract q = 1 / 2 ∧ 2 ∣ ⌊q⌋ then ⌊q⌋ else ⌊q⌋ + 1

/-- The exponent of the last place of the significand. -/
def lastPlace (x : ℚ) : ℤ := if x = 0 then -149 else max (Int.log 2 |x| - 23) (-149)

def rnd (x : ℚ) : ℚ := roundEven (x / 2 ^ lastPlace x) * 2 ^ lastPlace x

def Value (x : ℚ) : Prop := ∃ m k : ℤ, |m| < 2 ^ 24 ∧ -149 ≤ k ∧ x = m * 2 ^ k

theorem roundEven_intCast (n : ℤ) : roundEven n = n := by
  simp [roundEven]

theorem roundEven_mono : Monotone roundEven := by
  intro x y h
  have hfloor := Int.floor_mono h
  unfold roundEven
  rcases hfloor.lt_or_eq with hlt | heq
  · split_ifs <;> omega
  · -- with one floor, the test at `y` implies the one at `x`
    have hfract : Int.fract x ≤ Int.fract y := by
      rw [Int.fract, Int.fract, heq]
      linarith
    rw [heq]
    split_ifs with hx hy hy
    · rfl
    · omega
    · refine absurd ?_ hx
      rcases hy with hy | ⟨hy, heven⟩
      · exact Or.inl (hfract.trans_lt hy)
      · exact (hfract.trans_eq hy).lt_or_eq.imp_right fun h => ⟨h, heven⟩
    · rfl

theorem lastPlace_pos (x : ℚ) : (0 : ℚ) < 2 ^ lastPlace x := zpow_pos two_pos _

theorem le_lastPlace (x : ℚ) : -149 ≤ lastPlace x := by
  unfold lastPlace
  split_ifs <;> omega

theorem abs_lt_lastPlace (x : ℚ) : |x| < 2 ^ (lastPlace x + 24) := by
  rcases eq_or_ne x 0 with rfl | hx
  · rw [abs_zero]
    exact zpow_pos two_pos _
  · refine (Int.lt_zpow_succ_log_self Nat.one_lt_two |x|).trans_le
      (zpow_le_zpow_right₀ one_le_two ?_)
    rw [lastPlace, if_neg hx]
    omega

variable {x : ℚ} {k e : ℤ}

/-- Above the least last place, the leading place is a bound from below. -/
theorem lastPlace_le_abs (h : -149 < lastPlace x) : 2 ^ (lastPlace x + 23) ≤ |x| := by
  have hx : x ≠ 0 := by
    rintro rfl
    simp [lastPlace] at h
  rw [lastPlace, if_neg hx] at h ⊢
  rw [max_eq_left (by omega), sub_add_cancel]
  exact Int.zpow_log_le_self Nat.one_lt_two (abs_pos.mpr hx)

section Bounds

variable {x z : ℚ} {n : ℤ} (hz : z = n * 2 ^ lastPlace x)

include hz

/-- A bound that is a whole number of last places stays a bound. -/
theorem rnd_le (h : x ≤ z) : rnd x ≤ z := by
  rw [hz] at h ⊢
  have hn := roundEven_mono ((div_le_iff₀ (lastPlace_pos x)).mpr h)
  rw [roundEven_intCast] at hn
  exact mul_le_mul_of_nonneg_right (by exact_mod_cast hn) (lastPlace_pos x).le

theorem le_rnd (h : z ≤ x) : z ≤ rnd x := by
  rw [hz] at h ⊢
  have hn := roundEven_mono ((le_div_iff₀ (lastPlace_pos x)).mpr h)
  rw [roundEven_intCast] at hn
  exact mul_le_mul_of_nonneg_right (by exact_mod_cast hn) (lastPlace_pos x).le

end Bounds

theorem zpow_eq_mul (h : k ≤ e) : (2 : ℚ) ^ e = (2 ^ (e - k).toNat : ℤ) * 2 ^ k := by
  rw [Int.cast_pow, Int.cast_ofNat, ← zpow_natCast, ← zpow_add₀ two_ne_zero]
  congr 1
  omega

theorem neg_zpow_eq_mul (h : k ≤ e) : -(2 : ℚ) ^ e = (-2 ^ (e - k).toNat : ℤ) * 2 ^ k := by
  rw [Int.cast_neg, neg_mul, ← zpow_eq_mul h]

/-- The leading place of `y` separates it from what has a finer last place. -/
theorem rnd_le_rnd_of_lt {y : ℚ} (hlt : lastPlace x < lastPlace y) :
    (x ≤ y → rnd x ≤ rnd y) ∧ (y ≤ x → rnd y ≤ rnd x) := by
  have hy := lastPlace_le_abs ((le_lastPlace x).trans_lt hlt)
  have hx : |x| < 2 ^ (lastPlace y + 23) :=
    (abs_lt_lastPlace x).trans_le (zpow_le_zpow_right₀ one_le_two (by omega))
  obtain ⟨hlow, hhigh⟩ := abs_lt.mp hx
  rcases le_abs'.mp hy with hneg | hpos
  · refine ⟨fun h => absurd hlow (h.trans hneg).not_gt, fun _ => ?_⟩
    exact (rnd_le (neg_zpow_eq_mul (by omega)) hneg).trans
      (le_rnd (neg_zpow_eq_mul (by omega)) hlow.le)
  · refine ⟨fun _ => ?_, fun h => absurd hhigh (hpos.trans h).not_gt⟩
    exact (rnd_le (zpow_eq_mul (by omega)) hhigh.le).trans (le_rnd (zpow_eq_mul (by omega)) hpos)

theorem rnd_mono : Monotone rnd := by
  intro x y h
  rcases lt_trichotomy (lastPlace x) (lastPlace y) with hlt | heq | hlt
  · exact (rnd_le_rnd_of_lt hlt).1 h
  · unfold rnd
    rw [heq]
    refine mul_le_mul_of_nonneg_right ?_ (lastPlace_pos y).le
    exact_mod_cast roundEven_mono (div_le_div_of_nonneg_right h (lastPlace_pos y).le)
  · exact (rnd_le_rnd_of_lt hlt).2 h

theorem abs_mul_zpow_lt {m : ℤ} (h : |m| < 2 ^ 24) (k : ℤ) : |(m : ℚ) * 2 ^ k| < 2 ^ (24 + k) := by
  rw [abs_mul, abs_of_pos (zpow_pos (two_pos : (0 : ℚ) < 2) k), zpow_add₀ two_ne_zero]
  exact mul_lt_mul_of_pos_right (by exact_mod_cast h) (zpow_pos two_pos k)

theorem rnd_of_value (h : Value x) : rnd x = x := by
  obtain ⟨m, k, hm, hk, hx⟩ := h
  have habs := abs_mul_zpow_lt hm k
  rw [← hx] at habs
  -- a coarser last place would put `|x|` below its own leading place
  have hle : lastPlace x ≤ k := by
    by_contra hlt
    have hlow := lastPlace_le_abs (x := x) (by omega)
    exact (habs.trans_le (zpow_le_zpow_right₀ one_le_two (by omega))).not_ge hlow
  have hz : x = (m * 2 ^ (k - lastPlace x).toNat : ℤ) * 2 ^ lastPlace x := by
    conv_lhs => rw [hx, zpow_eq_mul hle]
    push_cast
    ring
  exact le_antisymm (rnd_le hz le_rfl) (le_rnd hz le_rfl)

theorem value_rnd (x : ℚ) : Value (rnd x) := by
  have hx := abs_lt_lastPlace x
  rw [zpow_add₀ two_ne_zero, mul_comm] at hx
  have hm : |x / 2 ^ lastPlace x| ≤ ((2 ^ 24 : ℤ) : ℚ) := by
    rw [abs_div, abs_of_pos (lastPlace_pos x), div_le_iff₀ (lastPlace_pos x)]
    exact_mod_cast hx.le
  obtain ⟨hlow, hhigh⟩ := abs_le.mp hm
  have hlow' := roundEven_mono hlow
  have hhigh' := roundEven_mono hhigh
  rw [← Int.cast_neg, roundEven_intCast] at hlow'
  rw [roundEven_intCast] at hhigh'
  unfold rnd
  rcases (abs_le.mpr ⟨hlow', hhigh'⟩).lt_or_eq with hlt | heq
  · exact ⟨_, _, hlt, le_lastPlace x, rfl⟩
  · -- a full significand moves up by one place
    obtain ⟨s, hs, hr⟩ : ∃ s : ℤ, |s| < 2 ^ 24 ∧ roundEven (x / 2 ^ lastPlace x) = s * 2 := by
      rcases (abs_eq (by norm_num)).mp heq with h | h
      · exact ⟨2 ^ 23, by norm_num, by rw [h]; norm_num⟩
      · exact ⟨-2 ^ 23, by norm_num, by rw [h]; norm_num⟩
    refine ⟨s, lastPlace x + 1, hs, by linarith [le_lastPlace x], ?_⟩
    rw [hr, zpow_add_one₀ two_ne_zero]
    push_cast
    ring

theorem value_intCast {n : ℤ} (h : |n| < 2 ^ 24) : Value n := ⟨n, 0, h, by norm_num, by simp⟩

/-- A value that is not an integer is small. -/
theorem Value.int_or_small (h : Value x) : (∃ n : ℤ, x = n) ∨ |x| < 2 ^ 23 := by
  obtain ⟨m, k, hm, -, rfl⟩ := h
  rcases le_or_gt 0 k with hk | hk
  · lift k to ℕ using hk
    exact Or.inl ⟨m * 2 ^ k, by push_cast; rfl⟩
  · have h23 : (2 : ℚ) ^ (24 + k) ≤ 2 ^ (23 : ℤ) := zpow_le_zpow_right₀ one_le_two (by omega)
    exact Or.inr ((abs_mul_zpow_lt hm k).trans_le (by exact_mod_cast h23))

end Binary32
