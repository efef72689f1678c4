import MinimalOS.Tls13.FieldOps

/-!
# X25519 is the function of RFC 7748

The ladder of the source keeps its four field elements `Tight`, and step by step they are the
four of the RFC. The inversion is the power `p - 2`, and packing gives the canonical bytes. As
every result of the source's arithmetic was checked, no limb or accumulator overflows on the way.
-/

namespace MinimalOS.Tls13

open Checked Limbs Finset Option Int

/-- The element of the field that limbs stand for. -/
def feField (a : Fe) : F25519 := (feVal a : ℤ)

theorem prime25519_cast : (prime25519 : ℤ) = 2 ^ 255 - 19 := by norm_num [prime25519]

instance : NeZero prime25519 := ⟨by norm_num [prime25519]⟩

theorem wrap_eq_zero : ((2 ^ 256 - 38 : ℤ) : F25519) = 0 :=
  (ZMod.intCast_zmod_eq_zero_iff_dvd _ prime25519).mpr ⟨2, by rw [prime25519_cast]; norm_num⟩

variable {a b t : Fe} {s : Ladder}

theorem feMul_field (ha : Within (2 ^ 18) a) (hb : Within (2 ^ 18) b) :
    ∃ c, feMul a b = some c ∧ Tight c ∧ feField c = feField a * feField b := by
  obtain ⟨c, k, hc, htight, hval⟩ := feMul_spec ha hb
  refine ⟨c, hc, htight, ?_⟩
  rw [feField, hval, cast_sub, cast_mul, cast_mul, wrap_eq_zero, mul_zero, sub_zero]
  rfl

theorem feSquare_field (ha : Within (2 ^ 18) a) :
    ∃ c, feSquare a = some c ∧ Tight c ∧ feField c = feField a * feField a := feMul_field ha ha

theorem Within.mono {A B : ℤ} (h : Within A a) (hle : A ≤ B) : Within B a := fun i hi => by
  have := h i hi
  omega

theorem Tight.loose (h : Tight a) : Within (2 ^ 18) a := h.within.mono (by norm_num)

theorem feAdd_field (ha : Tight a) (hb : Tight b) :
    ∃ c, feAdd a b = some c ∧ Within (2 ^ 18) c ∧ feField c = feField a + feField b := by
  obtain ⟨c, hc, hwithin, hval⟩ := feAdd_spec ha.within hb.within (by norm_num)
  refine ⟨c, hc, hwithin.mono (by norm_num), ?_⟩
  rw [feField, hval, cast_add]
  rfl

theorem feSub_field (ha : Tight a) (hb : Tight b) :
    ∃ c, feSub a b = some c ∧ Within (2 ^ 18) c ∧ feField c = feField a - feField b := by
  obtain ⟨c, hc, hwithin, hval⟩ := feSub_spec ha.within hb.within (by norm_num)
  refine ⟨c, hc, hwithin.mono (by norm_num), ?_⟩
  rw [feField, hval, cast_sub]
  rfl

/-! ## Inversion -/

/-- The exponent bits that the positions below `i` contribute. -/
def invertBits : ℕ → ℕ
  | 0 => 0
  | i + 1 => (if i ≠ 2 ∧ i ≠ 4 then 2 ^ i else 0) + invertBits i

/-- Square, and multiply where the exponent has a bit. -/
theorem invertLoop_spec (ha : Tight a) (i : ℕ) (c : Fe) (hc : Tight c) :
    ∃ d, invertLoop a i c = some d ∧ Tight d ∧
      feField d = feField c ^ 2 ^ i * feField a ^ invertBits i := by
  induction i generalizing c with
  | zero => exact ⟨c, rfl, hc, by simp [invertBits]⟩
  | succ i ih =>
    obtain ⟨s, hs, hst, hsf⟩ := feMul_field hc.loose hc.loose
    have hpow : feField s ^ 2 ^ i = feField c ^ 2 ^ (i + 1) := by
      rw [hsf, ← sq, ← pow_mul, pow_succ' 2]
    simp only [invertLoop, feSquare, hs, bind_eq_bind, bind_some, invertBits]
    by_cases hbit : i ≠ 2 ∧ i ≠ 4
    · obtain ⟨m, hm, hmt, hmf⟩ := feMul_field hst.loose ha.loose
      obtain ⟨d, hd, hdt, hdf⟩ := ih m hmt
      refine ⟨d, ?_, hdt, ?_⟩
      · rw [if_pos hbit, hm]
        exact hd
      · rw [hdf, hmf, if_pos hbit, mul_pow, hpow, pow_add (feField a), mul_assoc]
    · obtain ⟨d, hd, hdt, hdf⟩ := ih s hst
      refine ⟨d, ?_, hdt, ?_⟩
      · rw [if_neg hbit]
        exact hd
      · rw [hdf, if_neg hbit, zero_add, hpow]

theorem invertBits_add (i : ℕ) : invertBits (i + 5) + 21 = 2 ^ (i + 5) := by
  induction i with
  | zero => rfl
  | succ i ih =>
    rw [show i + 1 + 5 = i + 5 + 1 from rfl, invertBits, if_pos (by omega), pow_succ 2 (i + 5)]
    omega

/-- The inverse as a power. -/
theorem feInvert_spec (ha : Tight a) :
    ∃ d, feInvert a = some d ∧ Tight d ∧ feField d = feField a ^ (prime25519 - 2) := by
  obtain ⟨d, hd, hdt, hdf⟩ := invertLoop_spec ha 254 a ha
  refine ⟨d, hd, hdt, ?_⟩
  have hexp : 2 ^ 254 + invertBits 254 = prime25519 - 2 := by
    have hbits := invertBits_add 249
    simp only [Nat.reduceAdd] at hbits
    unfold prime25519
    omega
  rw [hdf, ← pow_add, hexp]

/-! ## Selection -/

theorem feSelect_zero (ha : Within (2 ^ 18) a) (hb : Within (2 ^ 18) b) :
    feSelect a b 0 = (a, b) := by
  refine Prod.ext (limb_ext fun i hi => ?_) (limb_ext fun i hi => ?_)
  · have := ha i hi
    exact (limb_ofFn _ hi).trans (xor64_keep (x := limb a i) (by omega) (by omega))
  · have := hb i hi
    exact (limb_ofFn _ hi).trans (xor64_keep (x := limb b i) (by omega) (by omega))

theorem feSelect_one (ha : Within (2 ^ 18) a) (hb : Within (2 ^ 18) b) :
    feSelect a b 1 = (b, a) := by
  refine Prod.ext (limb_ext fun i hi => ?_) (limb_ext fun i hi => ?_)
  · have := hb i hi
    exact (limb_ofFn _ hi).trans (xor64_exchange (y := limb b i) (by omega) (by omega))
  · have := ha i hi
    refine (limb_ofFn _ hi).trans ?_
    dsimp only
    rw [xor64_comm (limb a i)]
    exact xor64_exchange (by omega) (by omega)

/-! ## Unpacking -/

theorem feUnpack_spec (b : Bytes32) :
    Tight (feUnpack b) ∧ feVal (feUnpack b) = (decodeLittleEndian b % 2 ^ 255 : ℕ) := by
  set f : ℕ → ℤ := fun i =>
    ((byte32 b (2 * i)).toNat : ℤ) + ((byte32 b (2 * i + 1)).toNat : ℤ) * 2 ^ 8 with hf
  set out : Fe := Vector.ofFn fun i : Fin 16 => f i with hout
  have hdigit : ∀ i, 0 ≤ f i ∧ f i < 2 ^ 16 := fun i => by
    have := (byte32 b (2 * i)).toNat_lt
    have := (byte32 b (2 * i + 1)).toNat_lt
    simp only [hf]
    omega
  have hlimb : ∀ i < 16, limb out i = f i := fun i hi => limb_ofFn _ hi
  have hval : value (2 ^ 16) out = decodeLittleEndian b := by
    rw [value_congr rfl hlimb, decodeLittleEndian]
    push_cast
    exact (sum_pairs (256 : ℤ) (fun i => ((byte32 b i).toNat : ℤ)) 16).symm
  have hunpack : feUnpack b = put out 15 (limb out 15 % 2 ^ 15) := by
    rw [← and64_mask _ 15 (by decide)]
    rfl
  rw [hunpack]
  have h15 := hdigit 15
  have hdigits : ∀ i < 16, 0 ≤ limb (put out 15 (limb out 15 % 2 ^ 15)) i ∧
      limb (put out 15 (limb out 15 % 2 ^ 15)) i < 2 ^ 16 := fun i hi => by
    rw [limb_put _ _ _ (by decide)]
    split
    · omega
    · rw [hlimb i hi]
      exact hdigit i
  refine ⟨⟨by have := hdigits 0 (by decide); omega, fun i hi _ => hdigits i hi⟩, ?_⟩
  have hlow := sum_digits_bounds fun i (_ : i < 15) => hdigit i
  have hsplit : (decodeLittleEndian b : ℤ) =
      ∑ i ∈ range 15, f i * (2 ^ 16) ^ i + f 15 * (2 ^ 16) ^ 15 := by
    rw [← hval, value_congr rfl hlimb, sum_range_succ]
  rw [natCast_emod, Nat.cast_pow, Nat.cast_ofNat, feVal, value_put _ _ _ (by decide), hval,
    hsplit, hlimb 15 (by decide)]
  generalize ∑ i ∈ range 15, f i * (2 ^ 16) ^ i = low at hlow
  generalize f 15 = top at h15
  norm_num at hlow ⊢
  omega

/-! ## Packing -/

/-- Limbs that are digits to the base `2 ^ 16`. -/
def Digits (a : Fe) : Prop := ∀ i < 16, 0 ≤ limb a i ∧ limb a i < 2 ^ 16

theorem Digits.within (h : Digits a) : Within (2 ^ 18) a := fun i hi => by
  have := h i hi
  omega

theorem feCarry_digits (ha : Digits a) :
    ∃ c, feCarry a = some c ∧ Digits c ∧ feVal c = feVal a := by
  obtain ⟨c, q, hc, hhigh, hlow, hq, hval⟩ := feCarry_spec a (fun _ => 0) (le_refl _)
    (fun i hi => by have := ha i hi; omega)
    (fun i hi x hlo hhi => by have := ha i hi; omega)
  obtain rfl : q = 0 := by omega
  refine ⟨c, hc, fun i hi => ?_, by rw [hval]; ring⟩
  rcases i.eq_zero_or_pos with rfl | hpos
  · omega
  · exact hhigh i hi hpos

theorem feCarry_tight (ha : Tight a) :
    ∃ c k, feCarry a = some c ∧ Digits c ∧ feVal c = feVal a - k * (2 ^ 256 - 38) := by
  have hlowa := ha.low
  obtain ⟨c, q, hc, hhigh, hlow, hq, hval⟩ := feCarry_spec a (fun i => if i = 0 then 0 else 1)
    (le_refl _)
    (fun i hi => by have := ha.within i hi; split <;> omega)
    (fun i hi x hlo hhi => by
      rcases i.eq_zero_or_pos with rfl | hpos
      · norm_num at hlo hhi ⊢
        omega
      · have := ha.high i hi hpos
        rw [if_neg (by omega)] at hlo hhi ⊢
        omega)
  refine ⟨c, q, hc, fun i hi => ?_, hval⟩
  rcases i.eq_zero_or_pos with rfl | hpos
  · obtain ⟨hc0, hc1⟩ := value_sub_limb_bounds (by decide) hhigh
    obtain ⟨ha0, ha1⟩ := value_sub_limb_bounds (by decide) ha.high
    have hc1 := hc1 (by decide)
    have ha1 := ha1 (by decide)
    unfold feVal at hval
    generalize value (2 ^ 16) c = valc at *
    generalize value (2 ^ 16) a = vala at *
    norm_num at hq hc1 ha1 hval
    omega
  · exact hhigh i hi hpos

variable {x : ℤ} {pos : ℕ}

theorem shift_and_one (hlo : -2 ^ 16 ≤ x) (hhi : x < 2 ^ 16) :
    and64 (x >>> (16 : ℕ)) 1 = if x < 0 then 1 else 0 := by
  have hmask := and64_mask (x >>> (16 : ℕ)) 1 (by decide)
  norm_num at hmask
  rw [hmask, shiftRight_eq_div_pow]
  split <;> omega

theorem and_digit (hlo : -2 ^ 16 ≤ x) (hhi : x < 2 ^ 16) :
    and64 x 0xffff = if x < 0 then x + 2 ^ 16 else x := by
  have hmask := and64_mask x 16 (by decide)
  norm_num at hmask
  rw [hmask]
  split <;> omega

/-- The borrow loop up to limb `k`: digits below it, nothing above it, and the difference. -/
structure Borrowing (t : Fe) (k : ℕ) (m : Fe) : Prop where
  digits : ∀ i < k, 0 ≤ limb m i ∧ limb m i < 2 ^ 16
  top : -2 ^ 16 ≤ limb m k ∧ limb m k < 2 ^ 16
  above : ∀ i, k < i → limb m i = 0
  val : feVal m = ∑ i ∈ range (k + 1), (limb t i - 0xffff) * (2 ^ 16) ^ i + 18

theorem Borrowing.step {m : Fe} {k : ℕ} (ht : Digits t) (h : Borrowing t k m) (hk : k + 1 < 16)
    (d : ℤ) (hd : 0 ≤ d ∧ d < 2 ^ 16) :
    ∃ x m', int64 (limb t (k + 1) - d) = some (limb t (k + 1) - d) ∧
      int64 (limb t (k + 1) - d - and64 (limb m k >>> (16 : ℕ)) 1) = some x ∧
      m' = put (put m (k + 1) x) k (and64 (limb m k) 0xffff) ∧
      (∀ i < k + 1, 0 ≤ limb m' i ∧ limb m' i < 2 ^ 16) ∧ limb m' (k + 1) = x ∧
      (-d - 1 ≤ x ∧ x ≤ limb t (k + 1) - d) ∧ (∀ i, k + 1 < i → limb m' i = 0) ∧
      feVal m' = feVal m + (limb t (k + 1) - d) * (2 ^ 16) ^ (k + 1) := by
  have htop := h.top
  have htk := ht (k + 1) hk
  have hmask := and_digit htop.1 htop.2
  have hborrow := shift_and_one htop.1 htop.2
  have habove := h.above (k + 1) (by omega)
  rw [hborrow, hmask]
  refine ⟨_, _, int64_of_range (by omega) (by omega), int64_of_range (by split <;> omega)
    (by split <;> omega), rfl, fun i hi => ?_, ?_, ?_, fun i hi => ?_, ?_⟩
  · rw [limb_put _ _ _ (by omega), limb_put _ _ _ hk, if_neg (by omega : i ≠ k + 1)]
    split
    · split <;> omega
    · exact h.digits i (by omega)
  · rw [limb_put_ne _ _ (by omega) (by omega), limb_put_self _ _ hk]
  · split <;> omega
  · rw [limb_put_ne _ _ (by omega) (by omega), limb_put_ne _ _ hk (by omega)]
    exact h.above i (by omega)
  · rw [feVal, value_put _ _ _ (by omega), value_put _ _ _ hk,
      limb_put_ne _ _ hk (by omega), habove, pow_succ ((2 : ℤ) ^ 16) k, feVal]
    split <;> ring

theorem borrowing_start (ht : Digits t) :
    ∃ m, (do pure (put (Vector.replicate 16 0) 0 (← int64 (limb t 0 - 0xffed))) : Option Fe) =
      some m ∧ Borrowing t 0 m := by
  have h0 := ht 0 (by decide)
  refine ⟨put (Vector.replicate 16 0) 0 (limb t 0 - 0xffed), ?_, ⟨fun i hi => ?_, ?_, ?_, ?_⟩⟩
  · rw [int64_of_range (by omega) (by omega)]
    rfl
  · omega
  · rw [limb_put_self _ _ (by decide)]
    omega
  · intro i hi
    rw [limb_put_ne _ _ (by decide) (by omega), limb_replicate_zero]
  · rw [feVal, value_put _ _ _ (by decide), value_replicate_zero, limb_replicate_zero]
    simp
    ring

theorem subtractPrime_spec (ht : Digits t) :
    ∃ m, subtractPrime t = some (m, if (2 ^ 255 - 19 : ℤ) ≤ feVal t then 1 else 0) ∧
      Within (2 ^ 18) m ∧ feVal m = feVal t - (2 ^ 255 - 19) ∧
      ((2 ^ 255 - 19 : ℤ) ≤ feVal t → Digits m) := by
  obtain ⟨m₀, hm₀, hstart⟩ := borrowing_start ht
  obtain ⟨m, hm, hloop⟩ := foldlM_range_some (n := 14) (f := borrowStep t) (Borrowing t) hstart
    (by
      intro k hk m h
      obtain ⟨x, m', hd, hx, hm', hdigits, htop, hxb, habove, hval⟩ :=
        h.step ht (by omega) 0xffff (by norm_num)
      have htk := ht (k + 1) (by omega)
      refine ⟨m', ?_, hdigits, by omega, habove, ?_⟩
      · simp only [borrowStep, hd, hx, bind_eq_bind, bind_some]
        rw [limb_put_ne _ _ (by omega) (by omega), hm']
        rfl
      · rw [hval, h.val, sum_range_succ _ (k + 1)]
        ring)
  obtain ⟨x, m', hd, hx, hm', hdigits, htop, hxb, habove, hval⟩ :=
    hloop.step ht (by omega) 0x7fff (by norm_num)
  simp only [Nat.reduceAdd] at hd hx hm' hdigits htop hxb habove hval
  have ht15 := ht 15 (by omega)
  -- the difference, and its sign as that of the top limb
  have hdiff : feVal m' = feVal t - (2 ^ 255 - 19) := by
    rw [hval, hloop.val]
    simp only [sub_mul, sum_sub_distrib]
    rw [feVal, value, sum_range_succ (fun i => limb t i * ((2 : ℤ) ^ 16) ^ i) 15]
    norm_num [sum_range_succ]
    ring
  have hlow := sum_digits_bounds hdigits
  have hsplit : feVal m' = ∑ i ∈ range 15, limb m' i * (2 ^ 16) ^ i + x * (2 ^ 16) ^ 15 := by
    rw [← htop]
    exact sum_range_succ (fun i => limb m' i * ((2 : ℤ) ^ 16) ^ i) 15
  have hsign : (2 ^ 255 - 19 : ℤ) ≤ feVal t ↔ 0 ≤ x := by
    generalize ∑ i ∈ range 15, limb m' i * (2 ^ 16) ^ i = low at *
    generalize feVal t = val at *
    norm_num at hlow hsplit hdiff ⊢
    omega
  refine ⟨m', ?_, fun i hi => ?_, hdiff, fun hle i hi => ?_⟩
  · have hchoose : UInt8.ofInt (1 - and64 (x >>> (16 : ℕ)) 1) =
        if (2 ^ 255 - 19 : ℤ) ≤ feVal t then 1 else 0 := by
      rw [shift_and_one (by omega) (by omega)]
      by_cases h : 0 ≤ x
      · rw [if_neg (by omega), if_pos (hsign.mpr h)]
        rfl
      · rw [if_pos (by omega), if_neg (fun hle => h (hsign.mp hle))]
        rfl
    have hm₀' : int64 (limb t 0 - 0xffed) = some (limb t 0 - 0xffed) :=
      int64_of_range (by have := ht 0 (by decide); omega) (by have := ht 0 (by decide); omega)
    simp only [hm₀', bind_eq_bind, bind_some] at hm₀
    obtain rfl : put (Vector.replicate 16 0) 0 (limb t 0 - 0xffed) = m₀ := Option.some.inj hm₀
    simp only [subtractPrime, hm₀', hm, hd, hx, bind_eq_bind, bind_some]
    rw [limb_put_self _ _ (by decide), limb_put_ne _ _ (by decide) (by decide), hchoose, hm']
    rfl
  · by_cases h : i < 15
    · have := hdigits i h
      omega
    · obtain rfl : i = 15 := by omega
      rw [htop]
      omega
  · by_cases h : i < 15
    · exact hdigits i h
    · obtain rfl : i = 15 := by omega
      rw [htop]
      omega

theorem reduceStep_spec (ht : Digits t) : ∃ c, reduceStep t = some c ∧ Digits c ∧
      feVal c = if (2 ^ 255 - 19 : ℤ) ≤ feVal t then feVal t - (2 ^ 255 - 19) else feVal t := by
  obtain ⟨m, hm, hwithin, hval, hdigits⟩ := subtractPrime_spec ht
  simp only [reduceStep, hm, bind_eq_bind, bind_some]
  by_cases h : (2 ^ 255 - 19 : ℤ) ≤ feVal t
  · rw [if_pos h, if_pos h, feSelect_one ht.within hwithin]
    exact ⟨m, rfl, hdigits h, hval⟩
  · rw [if_neg h, if_neg h, feSelect_zero ht.within hwithin]
    exact ⟨t, rfl, ht, rfl⟩

theorem Digits.feVal_bounds (h : Digits a) : 0 ≤ feVal a ∧ feVal a < 2 ^ 256 := by
  have := sum_digits_bounds h
  norm_num at this ⊢
  exact this

/-- Three carries and two subtractions of the prime leave the digits of the residue. -/
theorem reduce_tight (ha : Tight a) :
    ∃ t, (do let t ← feCarry (← feCarry (← feCarry a)); reduceStep (← reduceStep t) :
        Option Fe) = some t ∧ Digits t ∧ feVal t = (ZMod.val (n := prime25519) (feField a) : ℤ) := by
  obtain ⟨c₁, k, hc₁, hd₁, hv₁⟩ := feCarry_tight ha
  obtain ⟨c₂, hc₂, hd₂, hv₂⟩ := feCarry_digits hd₁
  obtain ⟨c₃, hc₃, hd₃, hv₃⟩ := feCarry_digits hd₂
  obtain ⟨r₁, hr₁, hdr₁, hvr₁⟩ := reduceStep_spec hd₃
  obtain ⟨r₂, hr₂, hdr₂, hvr₂⟩ := reduceStep_spec hdr₁
  refine ⟨r₂, ?_, hdr₂, ?_⟩
  · simp only [hc₁, hc₂, hc₃, hr₁, hr₂, bind_eq_bind, bind_some]
  · have hbounds := hd₁.feVal_bounds
    have hcanon : (ZMod.val (n := prime25519) (feField a) : ℤ) = feVal a % prime25519 :=
      ZMod.val_intCast _
    rw [hcanon, prime25519_cast, hvr₂, hvr₁, hv₃, hv₂]
    generalize feVal c₁ = val at *
    generalize feVal a = val' at *
    norm_num at hbounds hv₁ ⊢
    split_ifs <;> omega

theorem fePack_spec (ha : Tight a) : fePack a = some (encodeUCoordinate (feField a)) := by
  obtain ⟨t, ht, hdigits, hval⟩ := reduce_tight ha
  have hpack : fePack a = (do let t ← feCarry (← feCarry (← feCarry a))
                              reduceStep (← reduceStep t) : Option Fe).bind fun t =>
      some (Vector.ofFn fun j : Fin 32 => if j.val % 2 = 0 then UInt8.ofInt (limb t (j / 2))
        else UInt8.ofInt (limb t (j / 2) >>> (8 : ℕ))) := by
    simp only [fePack, bind_eq_bind, bind_assoc]
    rfl
  rw [hpack, ht, bind_some, encodeUCoordinate]
  refine congrArg some (congrArg Vector.ofFn (funext fun j => ?_))
  -- the limb that holds byte `j`
  have hlimb := digit_of_sum hdigits (j := j.val / 2) (by omega)
  rw [show ∑ i ∈ range 16, limb t i * (2 ^ 16) ^ i = _ from hval] at hlimb
  generalize ZMod.val (n := prime25519) (feField a) = u at hlimb
  have hofNat : ∀ {x : ℤ} {n : ℕ}, x % 256 = (n : ℤ) % 256 → UInt8.ofInt x = UInt8.ofNat n := by
    intro x n hmod
    apply UInt8.toNat_inj.mp
    rw [UInt8.ofInt, UInt8.toNat_ofNat', UInt8.toNat_ofNat']
    omega
  have hbyte : ((u / 256 ^ j.val : ℕ) : ℤ) =
      (u : ℤ) / (2 ^ 16) ^ (j.val / 2) / 256 ^ (j.val % 2) := by
    have hpow : (256 : ℤ) ^ j.val = (2 ^ 16) ^ (j.val / 2) * 256 ^ (j.val % 2) := by
      conv_lhs => rw [← Nat.div_add_mod j.val 2, pow_add, pow_mul]
      norm_num
    rw [natCast_ediv, Nat.cast_pow, Nat.cast_ofNat, hpow,
      ediv_ediv_of_nonneg (by positivity)]
  generalize (u : ℤ) / (2 ^ 16) ^ (j.val / 2) = word at hlimb hbyte
  split
  · rename_i heven
    rw [heven, pow_zero, ediv_one] at hbyte
    exact hofNat (by rw [hbyte, ← hlimb]; omega)
  · rename_i hodd
    rw [show j.val % 2 = 1 by omega, pow_one] at hbyte
    exact hofNat (by rw [hbyte, ← hlimb, shiftRight_eq_div_pow]; omega)

/-! ## The ladder -/

theorem byte32_toNat_lt (b : Bytes32) (i : ℕ) : (byte32 b i).toNat < 256 := (byte32 b i).toNat_lt

theorem decodeLittleEndian_byte (b : Bytes32) {i : ℕ} (hi : i < 32) :
    decodeLittleEndian b / 256 ^ i % 256 = (byte32 b i).toNat := by
  have hdigit := digit_of_sum (B := 256) (f := fun i => ((byte32 b i).toNat : ℤ)) (k := 32) (j := i)
    (fun i _ => by have := byte32_toNat_lt b i; omega) hi
  exact_mod_cast hdigit

theorem scalarBit_eq (b : Bytes32) (hpos : pos < 256) :
    scalarBit b pos = if (decodeLittleEndian b).testBit pos then 1 else 0 := by
  have hbit : (decodeLittleEndian b).testBit pos = (byte32 b (pos / 8)).toNat.testBit (pos % 8) := by
    have hpow : 256 ^ (pos / 8) = 2 ^ (8 * (pos / 8)) := by rw [pow_mul]; norm_num
    rw [← decodeLittleEndian_byte b (by omega), show (256 : ℕ) = 2 ^ 8 from rfl,
      Nat.testBit_mod_two_pow, ← show (256 : ℕ) = 2 ^ 8 from rfl, hpow, Nat.testBit_div_two_pow,
      Nat.mod_add_div]
    simp [Nat.mod_lt pos (by decide : 0 < 8)]
  rw [hbit]
  apply UInt8.toNat_inj.mp
  have hshift : (UInt8.ofNat (pos % 8)).toNat % 8 = pos % 8 := by
    rw [UInt8.toNat_ofNat']
    omega
  rw [scalarBit, UInt8.toNat_and, UInt8.toNat_shiftRight, hshift, show (1 : UInt8).toNat = 1 from rfl,
    Nat.and_one_is_mod, Nat.shiftRight_eq_div_pow, ← Nat.toNat_testBit]
  cases (byte32 b (pos / 8)).toNat.testBit (pos % 8) <;> rfl

/-- The state of the ladder over the field. -/
def Ladder.abs (s : Ladder) : RfcLadder :=
  ⟨feField s.x2, feField s.z2, feField s.x3, feField s.z3, s.swap = 1⟩

structure Ladder.Ok (s : Ladder) : Prop where
  x2 : Tight s.x2
  z2 : Tight s.z2
  x3 : Tight s.x3
  z3 : Tight s.z3
  swap : s.swap = 0 ∨ s.swap = 1

theorem Ladder.Ok.exchange (h : s.Ok) {swap : UInt8} (hswap : swap = 0 ∨ swap = 1) :
    (s.exchange swap).Ok ∧ (s.exchange swap).abs = s.abs.cswap (swap = 1) := by
  rcases hswap with rfl | rfl
  · have heq : s.exchange 0 = s := by
      simp only [Ladder.exchange, feSelect_zero h.x2.loose h.x3.loose,
        feSelect_zero h.z2.loose h.z3.loose]
    rw [heq]
    exact ⟨h, rfl⟩
  · have heq : s.exchange 1 = { s with x2 := s.x3, x3 := s.x2, z2 := s.z3, z3 := s.z2 } := by
      simp only [Ladder.exchange, feSelect_one h.x2.loose h.x3.loose,
        feSelect_one h.z2.loose h.z3.loose]
    rw [heq]
    exact ⟨⟨h.x3, h.z3, h.x2, h.z2, h.swap⟩, rfl⟩

theorem a24_tight : Tight a24 := ⟨by decide, by decide⟩

theorem feField_a24 : feField a24 = 121665 := by
  have hval : feVal a24 = 121665 := by decide +kernel
  rw [feField, hval]
  norm_num

/-- One bit of the scalar is one step of the ladder of RFC 7748. -/
theorem ladderStep_spec (scalar : Bytes32) {x : Fe} (hx : Tight x) (hpos : pos < 256) (h : s.Ok) :
    ∃ s', ladderStep scalar x pos s = some s' ∧ s'.Ok ∧
      s'.abs = s.abs.step (decodeLittleEndian scalar) (feField x) pos := by
  have hbit := scalarBit_eq scalar hpos
  have hswap : s.swap ^^^ scalarBit scalar pos = 0 ∨ s.swap ^^^ scalarBit scalar pos = 1 := by
    rw [hbit]
    rcases h.swap with hs | hs <;> rw [hs] <;> split <;> decide
  have hxor : decide (s.swap ^^^ scalarBit scalar pos = 1) =
      (decide (s.swap = 1) ^^ (decodeLittleEndian scalar).testBit pos) := by
    rw [hbit]
    rcases h.swap with hs | hs <;> rw [hs] <;>
      cases (decodeLittleEndian scalar).testBit pos <;> decide
  obtain ⟨hok, habs⟩ := h.exchange hswap
  rw [hxor] at habs
  generalize hs₁ : s.exchange (s.swap ^^^ scalarBit scalar pos) = s₁ at hok habs
  obtain ⟨a, ha, hat, haf⟩ := feAdd_field hok.x2 hok.z2
  obtain ⟨b, hb, hbt, hbf⟩ := feSub_field hok.x2 hok.z2
  obtain ⟨aa, haa, haat, haaf⟩ := feSquare_field hat
  obtain ⟨bb, hbb, hbbt, hbbf⟩ := feSquare_field hbt
  obtain ⟨e, he, het, hef⟩ := feSub_field haat hbbt
  obtain ⟨c, hc, hct, hcf⟩ := feAdd_field hok.x3 hok.z3
  obtain ⟨d, hd, hdt, hdf⟩ := feSub_field hok.x3 hok.z3
  obtain ⟨da, hda, hdat, hdaf⟩ := feMul_field hdt hat
  obtain ⟨cb, hcb, hcbt, hcbf⟩ := feMul_field hct hbt
  obtain ⟨sum, hsum, hsumt, hsumf⟩ := feAdd_field hdat hcbt
  obtain ⟨x3, hx3, hx3t, hx3f⟩ := feSquare_field hsumt
  obtain ⟨diff, hdiff, hdifft, hdifff⟩ := feSub_field hdat hcbt
  obtain ⟨sq, hsq, hsqt, hsqf⟩ := feSquare_field hdifft
  obtain ⟨z3, hz3, hz3t, hz3f⟩ := feMul_field hx.loose hsqt.loose
  obtain ⟨x2, hx2, hx2t, hx2f⟩ := feMul_field haat.loose hbbt.loose
  obtain ⟨ea, hea, heat, heaf⟩ := feMul_field het a24_tight.loose
  obtain ⟨t, ht, htt, htf⟩ := feAdd_field haat heat
  obtain ⟨z2, hz2, hz2t, hz2f⟩ := feMul_field het htt
  refine ⟨⟨x2, z2, x3, z3, scalarBit scalar pos⟩, ?_, ⟨hx2t, hz2t, hx3t, hz3t, ?_⟩, ?_⟩
  · dsimp only [ladderStep]
    rw [hs₁, bind_of_some ha, bind_of_some hb, bind_of_some haa, bind_of_some hbb, bind_of_some he,
      bind_of_some hc, bind_of_some hd, bind_of_some hda, bind_of_some hcb, bind_of_some hsum,
      bind_of_some hx3, bind_of_some hdiff, bind_of_some hsq, bind_of_some hz3, bind_of_some hx2,
      bind_of_some hea, bind_of_some ht, bind_of_some hz2]
    rfl
  · rw [hbit]
    split <;> simp
  · have hstep : s.abs.step (decodeLittleEndian scalar) (feField x) pos =
        let r := s₁.abs
        let a := r.x2 + r.z2
        let b := r.x2 - r.z2
        let e := a ^ 2 - b ^ 2
        let da := (r.x3 - r.z3) * a
        let cb := (r.x3 + r.z3) * b
        ⟨a ^ 2 * b ^ 2, e * (a ^ 2 + 121665 * e), (da + cb) ^ 2, feField x * (da - cb) ^ 2,
          (decodeLittleEndian scalar).testBit pos⟩ := by
      rw [habs]
      rfl
    rw [hstep]
    simp only [Ladder.abs, hx2f, hz2f, hx3f, hz3f, haaf, hbbf, hef, htf, heaf, feField_a24, hsumf,
      hdifff, hsqf, hdaf, hcbf, hcf, hdf, haf, hbf, hbit, RfcLadder.mk.injEq]
    refine ⟨by ring, by ring, by ring, by ring, ?_⟩
    cases (decodeLittleEndian scalar).testBit pos <;> rfl

theorem ladderLoop_spec (scalar : Bytes32) {x : Fe} (hx : Tight x) (n : ℕ) (hn : n ≤ 256)
    (h : s.Ok) : ∃ s', ladderLoop scalar x n s = some s' ∧ s'.Ok ∧
      s'.abs = RfcLadder.loop (decodeLittleEndian scalar) (feField x) n s.abs := by
  induction n generalizing s with
  | zero => exact ⟨s, rfl, h, rfl⟩
  | succ n ih =>
    obtain ⟨s₁, hs₁, hok₁, habs₁⟩ := ladderStep_spec scalar hx (by omega : n < 256) h
    obtain ⟨s₂, hs₂, hok₂, habs₂⟩ := ih (by omega) hok₁
    refine ⟨s₂, ?_, hok₂, ?_⟩
    · simp only [ladderLoop, hs₁, bind_eq_bind, bind_some, hs₂]
    · rw [habs₂, habs₁, RfcLadder.loop]

theorem feField_unpack (b : Bytes32) : feField (feUnpack b) = decodeUCoordinate b := by
  rw [feField, (feUnpack_spec b).2, cast_natCast]
  rfl

theorem feOne_tight : Tight feOne := ⟨by decide, by decide⟩

theorem feField_one : feField feOne = 1 := by
  have hval : feVal feOne = 1 := by decide +kernel
  rw [feField, hval, cast_one]

theorem feZero_tight : Tight (Vector.replicate 16 0) := ⟨by decide, by decide⟩

theorem feField_zero : feField (Vector.replicate 16 0) = 0 := by
  rw [feField, feVal, value_replicate_zero, cast_zero]

/-- **X25519.** For every scalar and every point the source computes the function of RFC 7748, and
nothing overflows on the way. -/
theorem x25519_eq_rfc7748 (scalar point : Bytes32) :
    x25519 scalar point = some (rfc7748 scalar point) := by
  have hx := (feUnpack_spec point).1
  obtain ⟨s, hs, hok, habs⟩ := ladderLoop_spec (clamp scalar) hx 255 (by decide)
    (s := ⟨feOne, Vector.replicate 16 0, feUnpack point, feOne, 0⟩)
    ⟨feOne_tight, feZero_tight, hx, feOne_tight, Or.inl rfl⟩
  have hstart : Ladder.abs ⟨feOne, Vector.replicate 16 0, feUnpack point, feOne, 0⟩ =
      ⟨1, 0, decodeUCoordinate point, 1, false⟩ := by
    have hswap : decide ((0 : UInt8) = 1) = false := rfl
    simp only [Ladder.abs, feField_one, feField_zero, feField_unpack, hswap]
  rw [hstart, feField_unpack] at habs
  obtain ⟨hok', habs'⟩ := hok.exchange hok.swap
  have hsw : decide (s.swap = 1) = s.abs.swap := rfl
  rw [hsw, habs] at habs'
  generalize hs' : s.exchange s.swap = s' at hok' habs'
  obtain ⟨zi, hzi, hzit, hzif⟩ := feInvert_spec hok'.z2
  obtain ⟨r, hr, hrt, hrf⟩ := feMul_field hok'.x2.loose hzit.loose
  have hrun : x25519 scalar point = some (encodeUCoordinate (feField r)) := by
    dsimp only [x25519]
    rw [bind_of_some hs, hs', bind_of_some hzi, bind_of_some hr, fePack_spec hrt]
  have hx2 : feField s'.x2 = s'.abs.x2 := rfl
  have hz2 : feField s'.z2 = s'.abs.z2 := rfl
  rw [hrun, hrf, hzif, hx2, hz2, habs', rfc7748, decodeScalar25519]

end MinimalOS.Tls13
