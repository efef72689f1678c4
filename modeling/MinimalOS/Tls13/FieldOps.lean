import MinimalOS.Tls13.X25519

/-!
# Field operations without overflow

What each operation of the source does to the number its limbs stand for, together with how far
the limbs can be from their digits. A product is `Tight` whenever the limbs of its factors are
at most `2 ^ 18`, which leaves room for the sums and differences of the ladder between two
products.
-/

namespace MinimalOS.Tls13

open Checked Limbs Finset Option

def feVal (a : Fe) : ℤ := value (2 ^ 16) a

/-- Every limb is at most `b` in absolute value. -/
def Within (b : ℤ) (a : Fe) : Prop := ∀ i < 16, -b ≤ limb a i ∧ limb a i ≤ b

/-- Digits, but for the first limb, which may be one wrap-around off. -/
structure Tight (a : Fe) : Prop where
  low : -38 ≤ limb a 0 ∧ limb a 0 ≤ 2 ^ 16 + 37
  high : ∀ i < 16, 0 < i → 0 ≤ limb a i ∧ limb a i < 2 ^ 16

variable {a b : Fe} {f : ℕ → ℤ}

theorem Tight.within (h : Tight a) : Within (2 ^ 17) a := by
  intro i hi
  rcases i.eq_zero_or_pos with rfl | hpos
  · have := h.low
    omega
  · have := h.high i hi hpos
    omega

/-! ## Carries -/

theorem carryStep_eq (a : Fe) {i : ℕ} (hi : i < 16) (hx : -2 ^ 61 ≤ limb a i ∧ limb a i ≤ 2 ^ 61)
    (hy : -2 ^ 61 ≤ limb a ((i + 1) % 16) ∧ limb a ((i + 1) % 16) ≤ 2 ^ 61) :
    carryStep a i = some (carryAt (2 ^ 16) 38 a i) := by
  have hnext : (i + 1) % 16 < 16 := Nat.mod_lt _ (by decide)
  have hne : (i + 1) % 16 ≠ i := by omega
  have hcarry : (limb a i + 2 ^ 16) >>> (16 : ℕ) = limb a i / 2 ^ 16 + 1 := by
    rw [Int.shiftRight_eq_div_pow]
    omega
  generalize hnx : (i + 1) % 16 = next at *
  simp only [carryStep, bind_eq_bind, hnx]
  rw [int64_of_range (by omega) (by omega), bind_some, limb_put_self _ _ hi, hcarry,
    limb_put_ne _ _ hi hne, int64_of_range (by omega) (by omega), bind_some]
  have hexcess : wrapCarry i (limb a i / 2 ^ 16 + 1 - 1) =
      some (if i = 15 then 37 * (limb a i / 2 ^ 16) else 0) := by
    unfold wrapCarry
    split
    · rw [int64_of_range (by omega) (by omega), add_sub_cancel_right]
    · rfl
  rw [hexcess, bind_some]
  generalize hw : (if i = 15 then 37 * (limb a i / 2 ^ 16) else 0) = w
  rw [int64_of_range (by omega) (by omega), bind_some, int64_of_range (by omega) (by omega),
    bind_some, int64_of_range (by omega) (by omega), bind_some,
    limb_put_ne _ _ hnext (Ne.symm hne), limb_put_self _ _ hi, int64_of_range (by omega) (by omega),
    bind_some]
  refine congrArg some (limb_ext fun j hj => ?_)
  rw [limb_put _ _ _ hi, limb_put _ _ _ hnext, limb_put _ _ _ hi]
  by_cases h15 : i = 15
  · rw [if_pos h15] at hw
    obtain rfl : next = 0 := by omega
    rw [limb_carryAt_last _ _ (by omega)]
    split_ifs <;> omega
  · rw [if_neg h15] at hw
    obtain rfl : next = i + 1 := by omega
    rw [limb_carryAt _ _ (by omega)]
    split_ifs <;> omega

/-- A carry pass. `K i` bounds what reaches limb `i` from below, and `K 16` what wraps around. -/
theorem feCarry_spec (a : Fe) (K : ℕ → ℤ) (hzero : 0 ≤ K 0)
    (hsize : ∀ i < 16, -2 ^ 60 ≤ limb a i - K i ∧ limb a i + K i ≤ 2 ^ 60)
    (hK : ∀ i < 16, ∀ x, limb a i - K i ≤ x → x ≤ limb a i + K i →
      -K (i + 1) ≤ x / 2 ^ 16 ∧ x / 2 ^ 16 ≤ K (i + 1)) :
    ∃ c q, feCarry a = some c ∧ (∀ i < 16, 0 < i → 0 ≤ limb c i ∧ limb c i < 2 ^ 16) ∧
      (0 ≤ limb c 0 - 38 * q ∧ limb c 0 - 38 * q < 2 ^ 16) ∧ (-K 16 ≤ q ∧ q ≤ K 16) ∧
      feVal c = feVal a - q * (2 ^ 256 - 38) := by
  have hstep : ∀ i < 15, ∀ c : Fe,
      ((∀ j < i, 0 ≤ limb c j ∧ limb c j < 2 ^ 16) ∧
        (limb a i - K i ≤ limb c i ∧ limb c i ≤ limb a i + K i) ∧
        (∀ j < 16, i < j → limb c j = limb a j) ∧ feVal c = feVal a) →
      ∃ c', carryStep c i = some c' ∧
        (∀ j < i + 1, 0 ≤ limb c' j ∧ limb c' j < 2 ^ 16) ∧
        (limb a (i + 1) - K (i + 1) ≤ limb c' (i + 1) ∧
          limb c' (i + 1) ≤ limb a (i + 1) + K (i + 1)) ∧
        (∀ j < 16, i + 1 < j → limb c' j = limb a j) ∧ feVal c' = feVal a := by
    rintro i hi c ⟨hdigits, ⟨hlo, hhi⟩, hrest, hval⟩
    have hs := hsize i (by omega)
    have hs' := hsize (i + 1) (by omega)
    have hq := hK i (by omega) _ hlo hhi
    have hnext := hrest (i + 1) (by omega) (by omega)
    have hmod : (i + 1) % 16 = i + 1 := Nat.mod_eq_of_lt (by omega)
    refine ⟨_, carryStep_eq c (by omega) (by omega) (by rw [hmod, hnext]; omega), ?_, ?_, ?_, ?_⟩
    · intro j hj
      rw [limb_carryAt _ _ (by omega), if_neg (by omega)]
      split
      · omega
      · exact hdigits j (by omega)
    · rw [limb_carryAt _ _ (by omega), if_pos rfl, hnext]
      omega
    · intro j hj hij
      rw [limb_carryAt _ _ (by omega), if_neg (by omega), if_neg (by omega)]
      exact hrest j hj (by omega)
    · rw [← hval]
      exact value_carryAt c (by omega)
  obtain ⟨c, hc, hdigits, ⟨hlo, hhi⟩, -, hval⟩ := foldlM_range_some (n := 15) _
    (⟨by omega, by omega, fun _ _ _ => rfl, rfl⟩ : (∀ j < 0, 0 ≤ limb a j ∧ limb a j < 2 ^ 16) ∧
      (limb a 0 - K 0 ≤ limb a 0 ∧ limb a 0 ≤ limb a 0 + K 0) ∧
      (∀ j < 16, 0 < j → limb a j = limb a j) ∧ feVal a = feVal a) hstep
  -- the last limb wraps around to the first
  have hs := hsize 15 (by omega)
  have h0 := hdigits 0 (by omega)
  have hlast := carryStep_eq c (i := 15) (by omega) (by omega) (by norm_num; omega)
  refine ⟨carryAt (2 ^ 16) 38 c 15, limb c 15 / 2 ^ 16, ?_, ?_, ?_, hK 15 (by omega) _ hlo hhi, ?_⟩
  · rw [feCarry, List.range_succ, List.foldlM_append, hc]
    simp [hlast]
  · intro j hj hpos
    rw [limb_carryAt_last _ _ rfl, if_neg (by omega)]
    split
    · omega
    · exact hdigits j (by omega)
  · rw [limb_carryAt_last _ _ rfl, if_pos rfl]
    omega
  · rw [← hval]
    exact value_carryAt_last c

/-! ## Sums and products -/

theorem feVal_ofFn : feVal (Vector.ofFn fun i : Fin 16 => f i) =
    ∑ i ∈ range 16, f i * (2 ^ 16) ^ i :=
  value_congr rfl fun _ hi => limb_ofFn _ hi

/-- An element computed limb by limb, without an overflow. -/
theorem ofFnM_spec {C : ℤ} (hf : ∀ i < 16, -C ≤ f i ∧ f i ≤ C) (hC : C < 2 ^ 63) :
    ∃ c, Vector.ofFnM (fun i : Fin 16 => int64 (f i)) = some c ∧ Within C c ∧
      feVal c = ∑ i ∈ range 16, f i * (2 ^ 16) ^ i := by
  have hlimb : ∀ i : Fin 16, int64 (f i) = some (f i) := fun i => by
    have := hf i i.isLt
    exact int64_of_range (by omega) (by omega)
  refine ⟨_, ofFnM_some hlimb, fun i hi => ?_, feVal_ofFn⟩
  rw [limb_ofFn _ hi]
  exact hf i hi

section Sums

variable {a b : Fe} {A B : ℤ} (ha : Within A a) (hb : Within B b) (hsize : A + B < 2 ^ 63)

include ha hb hsize

theorem feAdd_spec : ∃ c, feAdd a b = some c ∧ Within (A + B) c ∧ feVal c = feVal a + feVal b := by
  obtain ⟨c, hc, hin, hval⟩ := ofFnM_spec (f := fun i => limb a i + limb b i) (fun i hi => by
    have := ha i hi
    have := hb i hi
    omega) hsize
  refine ⟨c, hc, hin, ?_⟩
  rw [hval, feVal, feVal, value, value, ← sum_add_distrib]
  exact sum_congr rfl fun i _ => add_mul _ _ _

theorem feSub_spec : ∃ c, feSub a b = some c ∧ Within (A + B) c ∧ feVal c = feVal a - feVal b := by
  obtain ⟨c, hc, hin, hval⟩ := ofFnM_spec (f := fun i => limb a i - limb b i) (fun i hi => by
    have := ha i hi
    have := hb i hi
    omega) hsize
  refine ⟨c, hc, hin, ?_⟩
  rw [hval, feVal, feVal, value, value, ← sum_sub_distrib]
  exact sum_congr rfl fun i _ => sub_mul _ _ _

end Sums

section

variable (ha : Within (2 ^ 18) a) (hb : Within (2 ^ 18) b)

include ha hb

theorem mul_limbs_bounds {i j : ℕ} (hi : i < 16) (hj : j < 16) :
    -2 ^ 36 ≤ limb a i * limb b j ∧ limb a i * limb b j ≤ 2 ^ 36 := by
  rw [← abs_le, abs_mul]
  calc |limb a i| * |limb b j| ≤ 2 ^ 18 * 2 ^ 18 :=
        mul_le_mul (abs_le.mpr (ha i hi)) (abs_le.mpr (hb j hj)) (abs_nonneg _) (by norm_num)
    _ = 2 ^ 36 := by norm_num

theorem mul_row {i : ℕ} (hi : i < 16) (t : Vector ℤ 31)
    (ht : ∀ k < 31, -(i * 2 ^ 36) ≤ limb t k ∧ limb t k ≤ i * 2 ^ 36) :
    ∃ t', (List.range 16).foldlM (mulStep a b i) t = some t' ∧
      (∀ k < 31, -((i + 1 : ℕ) * 2 ^ 36) ≤ limb t' k ∧ limb t' k ≤ (i + 1 : ℕ) * 2 ^ 36) ∧
      value (2 ^ 16) t' = value (2 ^ 16) t + limb a i * (2 ^ 16) ^ i * feVal b := by
  -- the columns below `i + j` have got their term of this row
  obtain ⟨t', hrun, hlow, -, hval⟩ := foldlM_range_some (n := 16) (f := mulStep a b i) (a := t)
    (fun j u => (∀ k < 31, -((i + 1 : ℕ) * 2 ^ 36) ≤ limb u k ∧ limb u k ≤ (i + 1 : ℕ) * 2 ^ 36) ∧
      (∀ k < 31, i + j ≤ k → limb u k = limb t k) ∧
      value (2 ^ 16) u = value (2 ^ 16) t +
        limb a i * (2 ^ 16) ^ i * ∑ m ∈ range j, limb b m * (2 ^ 16) ^ m)
    ⟨fun k hk => by have := ht k hk; push_cast; omega, fun _ _ _ => rfl, by simp⟩ (by
      rintro j hj u ⟨hlow, hhigh, hval⟩
      have hm := mul_limbs_bounds ha hb hi hj
      have hcol := hhigh (i + j) (by omega) (by omega)
      have hold := ht (i + j) (by omega)
      have hstep : mulStep a b i u j =
          some (put u (i + j) (limb u (i + j) + limb a i * limb b j)) := by
        rw [mulStep, int64_of_range (by omega) (by omega)]
        simp only [bind_eq_bind, bind_some]
        rw [int64_of_range (by rw [hcol]; omega) (by rw [hcol]; omega)]
        rfl
      refine ⟨_, hstep, fun k hk => ?_, fun k hk hle => ?_, ?_⟩
      · rw [limb_put _ _ _ (by omega)]
        split
        · rw [hcol]
          push_cast
          omega
        · exact hlow k hk
      · rw [limb_put_ne _ _ (by omega) (by omega)]
        exact hhigh k hk (by omega)
      · rw [value_put _ _ _ (by omega), hval, sum_range_succ, pow_add]
        ring)
  exact ⟨t', hrun, hlow, hval⟩

theorem mul_columns :
    ∃ t, (List.range 16).foldlM (fun t i => (List.range 16).foldlM (mulStep a b i) t)
        (Vector.replicate 31 0) = some t ∧
      (∀ k < 31, -2 ^ 40 ≤ limb t k ∧ limb t k ≤ 2 ^ 40) ∧
      value (2 ^ 16) t = feVal a * feVal b := by
  obtain ⟨t, hrun, hbound, hval⟩ := foldlM_range_some (n := 16)
    (f := fun t i => (List.range 16).foldlM (mulStep a b i) t) (a := Vector.replicate 31 0)
    (fun i t => (∀ k < 31, -((i : ℕ) * 2 ^ 36) ≤ limb t k ∧ limb t k ≤ (i : ℕ) * 2 ^ 36) ∧
      value (2 ^ 16) t = (∑ m ∈ range i, limb a m * (2 ^ 16) ^ m) * feVal b)
    ⟨fun k _ => by rw [limb_replicate_zero]; simp, by rw [value_replicate_zero]; simp⟩ (by
      rintro i hi t ⟨hbound, hval⟩
      obtain ⟨t', hrun, hbound', hval'⟩ := mul_row ha hb hi t hbound
      refine ⟨t', hrun, hbound', ?_⟩
      rw [hval', hval, sum_range_succ]
      ring)
  exact ⟨t, hrun, fun k hk => by have := hbound k hk; push_cast at this; omega, hval⟩

end

theorem foldColumns_spec {t : Vector ℤ 31}
    (ht : ∀ k < 31, -2 ^ 40 ≤ limb t k ∧ limb t k ≤ 2 ^ 40) :
    ∃ c k, foldColumns t = some c ∧ Within (2 ^ 46) c ∧
      feVal c = value (2 ^ 16) t - k * (2 ^ 256 - 38) := by
  have hlimb : ∀ i : Fin 16,
      (if i.val < 15 then do int64 (limb t i + (← int64 (38 * limb t (i + 16))))
        else some (limb t i)) = some (limb t i + 38 * limb t (16 + i)) := fun i => by
    have h1 := ht i (by omega)
    split
    · have h2 := ht (i + 16) (by omega)
      rw [int64_of_range (by omega) (by omega)]
      simp only [bind_eq_bind, bind_some]
      rw [int64_of_range (by omega) (by omega), add_comm 16]
    · rw [limb_of_le t (i := 16 + i.val) (by omega), mul_zero, add_zero]
  refine ⟨_, ∑ i ∈ range 15, limb t (16 + i) * (2 ^ 16) ^ i, ofFnM_some hlimb, fun i hi => ?_, ?_⟩
  · have h1 := ht i (by omega)
    have h2 : -2 ^ 40 ≤ limb t (16 + i) ∧ limb t (16 + i) ≤ 2 ^ 40 := by
      by_cases h : 16 + i < 31
      · exact ht _ h
      · rw [limb_of_le t (by omega)]
        norm_num
    rw [limb_ofFn _ hi]
    dsimp only
    omega
  · have hhigh : ∑ i ∈ range 15, limb t (16 + i) * (2 ^ 16) ^ (16 + i) =
        2 ^ 256 * ∑ i ∈ range 15, limb t (16 + i) * (2 ^ 16) ^ i := by
      rw [mul_sum]
      exact sum_congr rfl fun i _ => by ring
    have hlow : ∑ i ∈ range 16, (38 * limb t (16 + i)) * (2 ^ 16) ^ i =
        38 * ∑ i ∈ range 15, limb t (16 + i) * (2 ^ 16) ^ i := by
      rw [sum_range_succ, limb_of_le t (by omega), mul_sum, mul_zero, zero_mul, add_zero]
      exact sum_congr rfl fun i _ => by ring
    have hsplit : value (2 ^ 16) t = ∑ i ∈ range 16, limb t i * (2 ^ 16) ^ i +
        ∑ i ∈ range 15, limb t (16 + i) * (2 ^ 16) ^ (16 + i) := sum_range_add _ 16 15
    rw [feVal_ofFn (f := fun i => limb t i + 38 * limb t (16 + i)), hsplit, hhigh]
    simp only [add_mul, sum_add_distrib]
    rw [hlow]
    ring

theorem feCarry_twice (ha : Within (2 ^ 46) a) :
    ∃ b c q, feCarry a = some b ∧ feCarry b = some c ∧ Tight c ∧
      feVal c = feVal a - q * (2 ^ 256 - 38) := by
  obtain ⟨b, q₁, hb, hhigh, hlow, hq₁, hval₁⟩ := feCarry_spec a (fun i => if i = 0 then 0 else 2 ^ 31)
    (le_refl _)
    (fun i hi => by have := ha i hi; split <;> omega)
    (fun i hi x hlo hhi => by
      have := ha i hi
      rw [if_neg (by omega)]
      split at hlo <;> omega)
  -- the first limb is large now; its excess is used up in the next two
  obtain ⟨c, q₂, hc, hhigh₂, hlow₂, hq₂, hval₂⟩ := feCarry_spec b
    (fun i => if i = 0 then 0 else if i = 1 then 2 ^ 22 else if i = 2 then 2 ^ 7 else 1)
    (le_refl _)
    (fun i hi => by
      rcases i.eq_zero_or_pos with rfl | hpos
      · norm_num at hq₁ ⊢
        omega
      · have := hhigh i hi hpos
        split_ifs <;> omega)
    (fun i hi x hlo hhi => by
      rcases i.eq_zero_or_pos with rfl | hpos
      · norm_num at hq₁ hlo hhi ⊢
        omega
      · have := hhigh i hi hpos
        rw [if_neg (by omega)] at hlo hhi ⊢
        rw [if_neg (by omega)]
        split_ifs at hlo hhi ⊢ <;> omega)
  refine ⟨b, c, q₁ + q₂, hb, hc, ⟨?_, hhigh₂⟩, ?_⟩
  · norm_num at hq₂
    omega
  · rw [hval₂, hval₁]
    ring

theorem feMul_spec (ha : Within (2 ^ 18) a) (hb : Within (2 ^ 18) b) :
    ∃ c k, feMul a b = some c ∧ Tight c ∧ feVal c = feVal a * feVal b - k * (2 ^ 256 - 38) := by
  obtain ⟨t, ht, hcols, htval⟩ := mul_columns ha hb
  obtain ⟨u, k, hu, hbound, huval⟩ := foldColumns_spec hcols
  obtain ⟨v, c, q, hv, hc, htight, hcval⟩ := feCarry_twice hbound
  refine ⟨c, k + q, ?_, htight, ?_⟩
  · exact bind_eq_some_iff.mpr ⟨t, ht, bind_eq_some_iff.mpr ⟨u, hu, bind_eq_some_iff.mpr ⟨v, hv, hc⟩⟩⟩
  · rw [hcval, huval, htval]
    ring

end MinimalOS.Tls13
