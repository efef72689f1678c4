import MinimalOS.Lib.Binary32

/-!
# Screen coordinates (`to_screen` and the box of `raster_triangle`, `modules/GPU/fgpu_raster.c`)

`to_screen` clamps the projected coordinates to a million each way and scales them by the viewport;
`raster_triangle` rounds the corners' least and largest coordinate outwards through
`f_floor` and `f_ceil`, that is through `int`, and walks the pixels between them. A conversion of a
value outside `int` gives `INT_MIN`, as the processor's does. Both axes have the same rules, so the
box is stated for one.
-/

namespace MinimalOS.Gpu

open Binary32

instance neZero_three : NeZero 3 := ⟨by decide⟩

/-- A single precision number. Signed zeros are one. -/
inductive Num
  | nan
  | inf (neg : Bool)
  | fin (x : ℚ)
  deriving DecidableEq

namespace Num

/-- The rounded value, infinite when it exceeds the format. -/
def ofRat (x : ℚ) : Num := if 2 ^ 128 ≤ |rnd x| then inf (x < 0) else fin (rnd x)

def mul : Num → Num → Num
  | fin a, fin b => ofRat (a * b)
  | inf s, fin b | fin b, inf s => if b = 0 then nan else inf (s != decide (b < 0))
  | inf s, inf t => inf (s != t)
  | _, _ => nan

/-- `1.0f / a`. -/
def recip : Num → Num
  | fin a => if a = 0 then inf false else ofRat (1 / a)
  | inf _ => fin 0
  | nan => nan

/-- `a < c` for a finite constant. -/
def below (c : ℚ) : Num → Bool
  | fin a => a < c
  | inf neg => neg
  | nan => false

/-- `a > c` for a finite constant. -/
def above (c : ℚ) : Num → Bool
  | fin a => c < a
  | inf neg => !neg
  | nan => false

end Num

/-- A viewport that `FGPU_OP_VIEWPORT` stores and `fgpu_raster_draw_layout` draws with. -/
structure Viewport where
  vpX : ℤ
  vpY : ℤ
  vpW : ℤ
  vpH : ℤ
  int32 : (-2 ^ 31 ≤ vpX ∧ vpX < 2 ^ 31) ∧ -2 ^ 31 ≤ vpY ∧ vpY < 2 ^ 31
  width : 0 < vpW ∧ vpW ≤ 8192
  height : 0 < vpH ∧ vpH ≤ 8192

/-- What `clip_near` leaves: `w > NEAR_EPS`. -/
def Clipped (clip : Fin 4 → Num) : Prop := (clip 3).above (rnd (1 / 10 ^ 5))

/-- The clamp of `nx` and `ny`, which also catches NaN. -/
def clampProjected (n : Num) : ℚ :=
  match if n.below (10 ^ 6) then n else .fin (10 ^ 6) with
  | .fin x => if -10 ^ 6 < x then x else -10 ^ 6
  | _ => -10 ^ 6

/-- `nx` (axis 0) and `ny` (axis 1) after the clamp. -/
def projected (clip : Fin 4 → Num) (axis : Fin 4) : ℚ :=
  clampProjected ((clip axis).mul (clip 3).recip)

/-- `n * 0.5f + 0.5f`. -/
def half (n : ℚ) : ℚ := rnd (rnd (n * (1 / 2)) + 1 / 2)

/-- `(float)vp + f * (float)extent`. -/
def place (vp extent : ℤ) (f : ℚ) : ℚ := rnd (rnd vp + rnd (f * rnd extent))

def Viewport.screenX (v : Viewport) (clip : Fin 4 → Num) : ℚ :=
  place v.vpX v.vpW (half (projected clip 0))

def Viewport.screenY (v : Viewport) (clip : Fin 4 → Num) : ℚ :=
  place v.vpY v.vpH (rnd (1 - half (projected clip 1)))

/-- `(int)x`. -/
def toInt (x : ℚ) : ℤ :=
  let i := if 0 ≤ x then ⌊x⌋ else ⌈x⌉
  if -2 ^ 31 ≤ i ∧ i < 2 ^ 31 then i else -2 ^ 31

def fFloor (x : ℚ) : ℚ := rnd (if x < rnd (toInt x) then (toInt x - 1).bmod (2 ^ 32) else toInt x)

def fCeil (x : ℚ) : ℚ := rnd (if rnd (toInt x) < x then (toInt x + 1).bmod (2 ^ 32) else toInt x)

/-- The pixels of one axis that the loops visit, for corners between `lo` and `hi`. -/
def boxRange (lo hi : ℚ) (clip0 clip1 : ℤ) : Option (ℤ × ℤ) :=
  let f0 := fFloor lo
  let f1 := fCeil hi
  if f1 < rnd clip0 ∨ rnd clip1 < f0 then none
  else
    let x0 := if f0 < rnd clip0 then clip0 else toInt f0
    let x1 := if rnd clip1 < f1 then clip1 else toInt f1
    if x1 ≤ x0 then none else some (x0, x1)

/-! ## Conversion through `int` -/

/-- Both conversions are exact, and so are the casts of their results to `int32_t`. -/
def Exact (x : ℚ) : Prop :=
  (fFloor x = ⌊x⌋ ∧ fCeil x = ⌈x⌉) ∧ toInt ⌊x⌋ = ⌊x⌋ ∧ toInt ⌈x⌉ = ⌈x⌉

variable {n : ℤ} {x : ℚ}

theorem toInt_of_range (h : -2 ^ 31 ≤ n ∧ n < 2 ^ 31) : toInt n = n := by
  simp only [toInt, Int.floor_intCast, Int.ceil_intCast, ite_self, if_pos h]

theorem toInt_of_outside (h : ¬ (-2 ^ 31 ≤ n ∧ n < 2 ^ 31)) : toInt n = -2 ^ 31 := by
  simp only [toInt, Int.floor_intCast, Int.ceil_intCast, ite_self, if_neg h]

theorem rnd_intCast (h : |n| < 2 ^ 24) : rnd n = n := rnd_of_value (value_intCast h)

theorem rnd_intMin : rnd ((-2 ^ 31 : ℤ) : ℚ) = -2 ^ 31 := by
  rw [rnd_of_value ⟨-1, 31, by norm_num, by norm_num, by norm_num⟩]
  norm_num

theorem exact_of_small (h : |x| < 2 ^ 23) : Exact x := by
  obtain ⟨hlow, hhigh⟩ := abs_lt.mp h
  have hfloor : -2 ^ 23 ≤ ⌊x⌋ ∧ ⌊x⌋ < 2 ^ 23 :=
    ⟨Int.le_floor.mpr (by push_cast; exact hlow.le), Int.floor_lt.mpr (by push_cast; exact hhigh)⟩
  have hceil : -2 ^ 23 < ⌈x⌉ ∧ ⌈x⌉ ≤ 2 ^ 23 :=
    ⟨Int.lt_ceil.mpr (by push_cast; exact hlow), Int.ceil_le.mpr (by push_cast; exact hhigh.le)⟩
  refine ⟨?_, toInt_of_range (by omega), toInt_of_range (by omega)⟩
  -- truncation gives a neighbour of `x`
  have hi : |toInt x| ≤ 2 ^ 23 ∧ (toInt x : ℚ) - 1 < x ∧ x < toInt x + 1 := by
    unfold toInt
    dsimp only
    split_ifs with h0 hr hr
    · exact ⟨abs_le.mpr ⟨hfloor.1, hfloor.2.le⟩, by linarith [Int.floor_le x],
        Int.lt_floor_add_one x⟩
    · omega
    · exact ⟨abs_le.mpr ⟨hceil.1.le, hceil.2⟩, by linarith [Int.ceil_lt_add_one x],
        by linarith [Int.le_ceil x]⟩
    · omega
  unfold fFloor fCeil
  generalize toInt x = i at *
  obtain ⟨hi, hpred, hsucc⟩ := hi
  have hfix : ∀ n : ℤ, |n - i| ≤ 1 → rnd (n.bmod (2 ^ 32) : ℤ) = n ∧ rnd n = n := by
    intro n hn
    rw [abs_le] at hi hn
    rw [Int.bmod_eq_of_le_mul_two (by omega) (by omega), and_self]
    exact rnd_intCast (abs_lt.mpr (by omega))
  rw [(hfix i (by simp)).2]
  constructor <;> split_ifs with hlt
  · rw [(hfix (i - 1) (by simp)).1, Int.cast_inj, eq_comm, Int.floor_eq_iff]
    push_cast
    constructor <;> linarith
  · rw [(hfix i (by simp)).2, Int.cast_inj, eq_comm, Int.floor_eq_iff]
    exact ⟨not_lt.mp hlt, hsucc⟩
  · rw [(hfix (i + 1) (by simp)).1, Int.cast_inj, eq_comm, Int.ceil_eq_iff]
    push_cast
    constructor <;> linarith
  · rw [(hfix i (by simp)).2, Int.cast_inj, eq_comm, Int.ceil_eq_iff]
    exact ⟨hpred, not_lt.mp hlt⟩

/-- **The range of `int`.** A value is converted exactly if and only if it lies in it. -/
theorem exact_iff (hx : Value x) : Exact x ↔ -2 ^ 31 ≤ x ∧ x < 2 ^ 31 := by
  rcases hx.int_or_small with ⟨n, rfl⟩ | hsmall
  · by_cases hn : -2 ^ 31 ≤ n ∧ n < 2 ^ 31
    · refine iff_of_true ?_ (by exact_mod_cast hn)
      simp [Exact, fFloor, fCeil, toInt_of_range hn, rnd_of_value hx]
    · refine iff_of_false (fun h => ?_) (by exact_mod_cast hn)
      have hf := h.1.1
      simp only [fFloor, toInt_of_outside hn, rnd_intMin, Int.floor_intCast] at hf
      split_ifs at hf with hlt
      · -- below `INT_MIN` the subtraction wraps to `INT_MAX`
        have hnonneg : (0 : ℚ) ≤ rnd (((-2 ^ 31 - 1 : ℤ).bmod (2 ^ 32) : ℤ) : ℚ) := by
          have h0 := rnd_mono (show ((0 : ℤ) : ℚ) ≤ ((-2 ^ 31 - 1 : ℤ).bmod (2 ^ 32) : ℤ) from
            Int.cast_le.mpr (by decide))
          rwa [rnd_intCast (by norm_num)] at h0
        linarith
      · rw [rnd_intMin] at hf
        have : n = -2 ^ 31 := by exact_mod_cast hf.symm
        omega
  · refine iff_of_true (exact_of_small hsmall) ?_
    rw [abs_lt] at hsmall
    constructor <;> linarith

/-! ## The pixels visited -/

theorem boxRange_visits {lo hi : ℚ} (hlo : Exact lo) (hhi : Exact hi) {clip0 clip1 px : ℤ}
    (h0 : clip0 ≤ px) (h1 : px < clip1) (hl : lo ≤ px + 1 / 2) (hh : px + 1 / 2 ≤ hi) :
    ∃ r, boxRange lo hi clip0 clip1 = some r ∧ r.1 ≤ px ∧ px < r.2 := by
  obtain ⟨⟨hf, -⟩, hf', -⟩ := hlo
  obtain ⟨⟨-, hc⟩, -, hc'⟩ := hhi
  have hfloor : ⌊lo⌋ ≤ px := Int.floor_le_iff.mpr (by linarith)
  have hceil : px < ⌈hi⌉ := Int.lt_ceil.mpr (by linarith)
  have hfix : rnd ⌊lo⌋ = ⌊lo⌋ ∧ rnd ⌈hi⌉ = ⌈hi⌉ :=
    ⟨hf ▸ rnd_of_value (value_rnd _), hc ▸ rnd_of_value (value_rnd _)⟩
  have hclip0 : rnd clip0 ≤ ⌈hi⌉ := hfix.2 ▸ rnd_mono (Int.cast_le.mpr (by omega))
  have hclip1 : ⌊lo⌋ ≤ rnd clip1 := hfix.1 ▸ rnd_mono (Int.cast_le.mpr (by omega))
  unfold boxRange
  rw [hf, hc, if_neg (not_or.mpr ⟨hclip0.not_gt, hclip1.not_gt⟩), hc', if_neg ?_]
  · refine ⟨_, rfl, ?_, ?_⟩ <;> dsimp only <;> split_ifs <;> omega
  · split_ifs <;> omega

/-- A pixel of the clip rectangle whose centre is between the corners is visited on this axis. -/
def Visits (coord : (Fin 4 → Num) → ℚ) : Prop :=
  ∀ (t : Fin 3 → Fin 4 → Num) (clip0 clip1 px : ℤ), (∀ i, Clipped (t i)) → clip0 ≤ px →
    px < clip1 → min (coord (t 0)) (min (coord (t 1)) (coord (t 2))) ≤ px + 1 / 2 →
    px + 1 / 2 ≤ max (coord (t 0)) (max (coord (t 1)) (coord (t 2))) →
    ∃ r, boxRange (min (coord (t 0)) (min (coord (t 1)) (coord (t 2))))
      (max (coord (t 0)) (max (coord (t 1)) (coord (t 2)))) clip0 clip1 = some r ∧
      r.1 ≤ px ∧ px < r.2

/-! ## The range of the coordinates -/

theorem projected_mem (clip : Fin 4 → Num) (axis : Fin 4) :
    -10 ^ 6 ≤ projected clip axis ∧ projected clip axis ≤ 10 ^ 6 := by
  unfold projected clampProjected
  cases (clip axis).mul (clip 3).recip with
  | nan => norm_num [Num.below]
  | inf neg => cases neg <;> norm_num [Num.below]
  | fin x =>
    simp only [Num.below, decide_eq_true_eq]
    split_ifs with hx <;> dsimp only <;> split_ifs <;> constructor <;> linarith

/-- A corner of the clamp's square, inside the clip volume. -/
def clampCorner (n : ℤ) : Fin 4 → Num := ![.fin n, .fin n, .fin 0, .fin 1]

theorem ofRat_intCast (h : |n| < 2 ^ 24) : Num.ofRat n = .fin n := by
  have hn : |(n : ℚ)| < 2 ^ 24 := by exact_mod_cast h
  rw [Num.ofRat, rnd_intCast h, if_neg (by linarith)]

theorem clipped_clampCorner (n : ℤ) : Clipped (clampCorner n) := by
  have hhalf : rnd (1 / 2) = 1 / 2 := rnd_of_value ⟨1, -1, by norm_num, by norm_num, by norm_num⟩
  have hle : rnd (1 / 10 ^ 5) ≤ rnd (1 / 2) := rnd_mono (by norm_num)
  show decide (rnd (1 / 10 ^ 5) < 1) = true
  rw [decide_eq_true_eq]
  linarith

theorem projected_clampCorner (h : |n| = 10 ^ 6) {axis : Fin 4} (ha : axis < 2) :
    projected (clampCorner n) axis = n := by
  have hone : Num.recip (.fin 1) = .fin 1 := by
    rw [Num.recip, div_one]
    exact_mod_cast ofRat_intCast (by norm_num)
  have hget : clampCorner n axis = .fin n := by
    match axis, ha with
    | 0, _ | 1, _ => rfl
  show clampProjected ((clampCorner n axis).mul (Num.recip (.fin 1))) = n
  rw [hget, hone, Num.mul, mul_one, ofRat_intCast (by rw [h]; norm_num)]
  rcases (abs_eq (by norm_num)).mp h with rfl | rfl <;> norm_num [clampProjected, Num.below]

theorem half_mono : Monotone half := fun _ _ h =>
  rnd_mono (by linarith [rnd_mono (mul_le_mul_of_nonneg_right h (by norm_num : (0 : ℚ) ≤ 1 / 2))])

theorem rnd_half (n : ℤ) (hx : x = n / 2) (h : |n| < 2 ^ 24) : rnd x = x :=
  rnd_of_value ⟨n, -1, h, by norm_num, by rw [hx, zpow_neg_one, div_eq_mul_inv]⟩

theorem half_max : half (10 ^ 6) = 1000001 / 2 := by
  have h : rnd (10 ^ 6 * (1 / 2)) = _ := rnd_half 1000000 (by norm_num) (by norm_num)
  rw [half, h]
  exact (rnd_half 1000001 (by norm_num) (by norm_num)).trans (by norm_num)

theorem half_min : half (-10 ^ 6) = -(999999 / 2) := by
  have h : rnd (-10 ^ 6 * (1 / 2)) = _ := rnd_half (-1000000) (by norm_num) (by norm_num)
  rw [half, h]
  exact (rnd_half (-999999) (by norm_num) (by norm_num)).trans (by norm_num)

/-- `1.0f - f` exchanges the ends. -/
theorem rnd_one_sub : rnd (1 - 1000001 / 2) = -(999999 / 2) ∧
    rnd (1 - -(999999 / 2)) = 1000001 / 2 :=
  ⟨(rnd_half (-999999) (by norm_num) (by norm_num)).trans (by norm_num),
    (rnd_half 1000001 (by norm_num) (by norm_num)).trans (by norm_num)⟩

theorem place_mono (vp : ℤ) {extent : ℤ} (h : 0 < extent) : Monotone (place vp extent) := by
  intro f g hfg
  have h0 : 0 ≤ rnd extent := by
    have h0 := rnd_mono (Int.cast_le.mpr h.le)
    rwa [rnd_intCast (by norm_num)] at h0
  exact rnd_mono (by linarith [rnd_mono (mul_le_mul_of_nonneg_right hfg h0)])

/-- The range of the factors by which an axis scales. -/
structure Ranges (factor : (Fin 4 → Num) → ℚ) : Prop where
  mem : ∀ clip, -(999999 / 2) ≤ factor clip ∧ factor clip ≤ 1000001 / 2
  low : ∃ clip, Clipped clip ∧ factor clip = -(999999 / 2)
  high : ∃ clip, Clipped clip ∧ factor clip = 1000001 / 2

/-- The ends of an axis lie in the range of `int`. -/
def Fits (vp extent : ℤ) : Prop :=
  -2 ^ 31 ≤ place vp extent (-(999999 / 2)) ∧ place vp extent (1000001 / 2) < 2 ^ 31

section Axis

variable {factor : (Fin 4 → Num) → ℚ} {vp extent : ℤ} (h : Ranges factor) (hpos : 0 < extent)

include h

theorem Ranges.fits (hall : ∀ clip, Clipped clip → Exact (place vp extent (factor clip))) :
    Fits vp extent := by
  obtain ⟨a, ha, hlow⟩ := h.low
  obtain ⟨b, hb, hhigh⟩ := h.high
  exact ⟨hlow ▸ ((exact_iff (value_rnd _)).mp (hall a ha)).1,
    hhigh ▸ ((exact_iff (value_rnd _)).mp (hall b hb)).2⟩

include hpos

theorem Ranges.exact (hfits : Fits vp extent) (clip : Fin 4 → Num) :
    Exact (place vp extent (factor clip)) :=
  (exact_iff (value_rnd _)).mpr ⟨hfits.1.trans (place_mono vp hpos (h.mem clip).1),
    (place_mono vp hpos (h.mem clip).2).trans_lt hfits.2⟩

theorem Ranges.visits (hfits : Fits vp extent) :
    Visits fun clip => place vp extent (factor clip) := by
  intro t clip0 clip1 px _ h0 h1
  refine boxRange_visits ?_ ?_ h0 h1
  · rcases min_choice (place vp extent (factor (t 0))) _ with e | e <;> rw [e]
    · exact h.exact hpos hfits _
    · rcases min_choice (place vp extent (factor (t 1))) _ with e | e <;> rw [e] <;>
        exact h.exact hpos hfits _
  · rcases max_choice (place vp extent (factor (t 0))) _ with e | e <;> rw [e]
    · exact h.exact hpos hfits _
    · rcases max_choice (place vp extent (factor (t 1))) _ with e | e <;> rw [e] <;>
        exact h.exact hpos hfits _

end Axis

theorem half_mem {n : ℚ} (h : -10 ^ 6 ≤ n ∧ n ≤ 10 ^ 6) :
    -(999999 / 2) ≤ half n ∧ half n ≤ 1000001 / 2 :=
  ⟨half_min ▸ half_mono h.1, half_max ▸ half_mono h.2⟩

theorem half_clampCorner (axis : Fin 4) (h : axis < 2) :
    half (projected (clampCorner (10 ^ 6)) axis) = 1000001 / 2 ∧
      half (projected (clampCorner (-10 ^ 6)) axis) = -(999999 / 2) := by
  rw [projected_clampCorner (by norm_num) h, projected_clampCorner (by norm_num) h, ← half_max,
    ← half_min]
  norm_num

theorem ranges_x : Ranges fun clip => half (projected clip 0) where
  mem clip := half_mem (projected_mem clip 0)
  low := ⟨_, clipped_clampCorner _, (half_clampCorner 0 (by decide)).2⟩
  high := ⟨_, clipped_clampCorner _, (half_clampCorner 0 (by decide)).1⟩

theorem ranges_y : Ranges fun clip => rnd (1 - half (projected clip 1)) where
  mem clip := by
    have hmem := half_mem (projected_mem clip 1)
    exact ⟨rnd_one_sub.1 ▸ rnd_mono (sub_le_sub_left hmem.2 1),
      rnd_one_sub.2 ▸ rnd_mono (sub_le_sub_left hmem.1 1)⟩
  low := ⟨_, clipped_clampCorner _, by
    rw [(half_clampCorner 1 (by decide)).1, rnd_one_sub.1]⟩
  high := ⟨_, clipped_clampCorner _, by
    rw [(half_clampCorner 1 (by decide)).2, rnd_one_sub.2]⟩

/-- **Conversion of screen coordinates.** The coordinates of all clipped vertices are converted
exactly, and no pixel is missed for a conversion, if and only if the viewport's clamped
coordinates fit in `int`. -/
theorem screen_exact_iff (v : Viewport) :
    ((∀ clip, Clipped clip → Exact (v.screenX clip) ∧ Exact (v.screenY clip)) ∧
      Visits v.screenX ∧ Visits v.screenY) ↔ Fits v.vpX v.vpW ∧ Fits v.vpY v.vpH := by
  constructor
  · intro h
    exact ⟨ranges_x.fits fun c hc => (h.1 c hc).1, ranges_y.fits fun c hc => (h.1 c hc).2⟩
  · intro h
    exact ⟨fun c _ => ⟨ranges_x.exact v.width.1 h.1 c, ranges_y.exact v.height.1 h.2 c⟩,
      ranges_x.visits v.width.1 h.1, ranges_y.visits v.height.1 h.2⟩

def wideViewport : Viewport := ⟨0, 0, 8192, 8192, by norm_num, by norm_num, by norm_num⟩

/-- A vertex far to the right is placed beyond `int`, and a triangle that reaches from the left
border to it is skipped. -/
theorem wide_skipped :
    Clipped (clampCorner (10 ^ 6)) ∧ wideViewport.screenX (clampCorner (10 ^ 6)) = 4096004096 ∧
      boxRange 0 4096004096 0 8192 = none := by
  have hx : rnd 4096004096 = 4096004096 :=
    rnd_of_value ⟨1000001, 12, by norm_num, by norm_num, by norm_num⟩
  have h0 : rnd 0 = 0 := rnd_of_value ⟨0, 0, by norm_num, by norm_num, by norm_num⟩
  have hw : rnd 8192 = 8192 := rnd_of_value ⟨8192, 0, by norm_num, by norm_num, by norm_num⟩
  refine ⟨clipped_clampCorner _, ?_, ?_⟩
  · rw [Viewport.screenX, (half_clampCorner 0 (by decide)).1]
    norm_num [place, wideViewport, h0, hw, hx]
  · have hint : toInt 4096004096 = -2 ^ 31 := by
      exact_mod_cast toInt_of_outside (by norm_num)
    have hceil : fCeil 4096004096 ≤ -2 ^ 30 := by
      have hc : rnd (-2 ^ 30) = -2 ^ 30 :=
        rnd_of_value ⟨-1, 30, by norm_num, by norm_num, by norm_num⟩
      rw [fCeil, hint, rnd_intMin, ← hc]
      exact rnd_mono (by norm_num [Int.bmod])
    exact if_pos (Or.inl (by rw [Int.cast_zero]; linarith))

end MinimalOS.Gpu
