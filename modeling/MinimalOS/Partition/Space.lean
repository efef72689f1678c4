import Mathlib.Data.List.DropRight
import Mathlib.Tactic

/-!
# The search for free space

`find_space` goes through the gaps between the used ranges, in order of their starts, and takes
the first one with room. A gap starts at the end of what was used before it (`cursor`), rounded
up to the alignment in 64 bits; that rounding wraps to 0 for a cursor in the last `a` numbers.
Apart from the wrap the search is exact (`findSpace_right_iff`).
-/

namespace MinimalOS.Partition

open List

def roundUp (v a : ℕ) : ℕ := (v + a - 1) % 2 ^ 64 / a * a

/-- The sort of `used_ranges`: a range goes behind the last one that does not start after it. -/
def insertRange (out : List (ℕ × ℕ)) (r : ℕ × ℕ) : List (ℕ × ℕ) :=
  out.rdropWhile (fun x => r.1 < x.1) ++ r :: out.rtakeWhile fun x => r.1 < x.1

/-- The insertion sort of `used_ranges`. -/
def sortRanges (rs : List (ℕ × ℕ)) : List (ℕ × ℕ) := rs.foldl insertRange []

/-- The loop of `find_space` over the ranges that are left, with the end of those before. -/
def findSpace (a lastExcl wantStart want : ℕ) : List (ℕ × ℕ) → ℕ → Option (ℕ × ℕ)
  | [], cursor => inGap lastExcl cursor none
  | r :: used, cursor =>
    inGap (min r.1 lastExcl) cursor
      (findSpace a lastExcl wantStart want used (max cursor r.2))
where
  /-- One gap, and what the rest of the loop gives. -/
  inGap (gapEnd cursor : ℕ) (next : Option (ℕ × ℕ)) : Option (ℕ × ℕ) :=
    let gapStart := roundUp cursor a
    if wantStart ≠ 0 then
      if cursor ≤ wantStart ∧ wantStart < gapEnd then
        let avail := gapEnd - wantStart
        let len := if want ≠ 0 then want else avail
        if len ≤ avail then some (wantStart, len) else none
      else next
    else if gapStart < gapEnd then
      let avail := gapEnd - gapStart
      let len := if want ≠ 0 then want else if a < avail then avail / a * a else avail
      if len ≤ avail ∧ 0 < len then some (gapStart, len) else next
    else next

/-! ## Sorted ranges -/

variable {out : List (ℕ × ℕ)} {v a : ℕ}

theorem mem_insertRange {r x : ℕ × ℕ} : x ∈ insertRange out r ↔ x = r ∨ x ∈ out := by
  conv_rhs => rw [← rdropWhile_append_rtakeWhile (p := fun x => decide (r.1 < x.1)) (l := out)]
  simp only [insertRange, mem_append, mem_cons]
  tauto

theorem sorted_insertRange {r : ℕ × ℕ} (h : out.Pairwise fun x y => x.1 ≤ y.1) :
    (insertRange out r).Pairwise fun x y => x.1 ≤ y.1 := by
  have hsplit := rdropWhile_append_rtakeWhile (p := fun x => decide (r.1 < x.1)) (l := out)
  rw [← hsplit] at h
  obtain ⟨hlow, hhigh, hcross⟩ := pairwise_append.mp h
  have habove : ∀ y ∈ out.rtakeWhile fun x => decide (r.1 < x.1), r.1 ≤ y.1 := fun y hy => by
    have := mem_rtakeWhile_imp hy
    simp only [decide_eq_true_eq] at this
    omega
  -- the last range that stays in front starts no later, so none of those before it does
  have hbelow : ∀ x ∈ out.rdropWhile fun x => decide (r.1 < x.1), x.1 ≤ r.1 := fun x hx => by
    have hne := ne_nil_of_mem hx
    have hlast := rdropWhile_last_not (fun x => decide (r.1 < x.1)) out hne
    simp only [decide_eq_true_eq] at hlast
    rcases mem_iff_getElem.mp hx with ⟨i, hi, rfl⟩
    rcases Nat.lt_or_ge i ((out.rdropWhile fun x => decide (r.1 < x.1)).length - 1) with hlt | hge
    · have hle := pairwise_iff_getElem.mp hlow i _ hi (by omega) hlt
      rw [getLast_eq_getElem] at hlast
      omega
    · rw [getLast_eq_getElem] at hlast
      obtain rfl : i = (out.rdropWhile fun x => decide (r.1 < x.1)).length - 1 := by omega
      omega
  refine pairwise_append.mpr ⟨hlow, pairwise_cons.mpr ⟨habove, hhigh⟩, fun x hx y hy => ?_⟩
  rcases mem_cons.mp hy with rfl | hy
  · exact hbelow x hx
  · exact hcross x hx y hy

theorem sortRanges_spec (rs : List (ℕ × ℕ)) :
    (sortRanges rs).Pairwise (fun x y => x.1 ≤ y.1) ∧ ∀ r, r ∈ sortRanges rs ↔ r ∈ rs := by
  have hloop : ∀ (rs out : List (ℕ × ℕ)), out.Pairwise (fun x y => x.1 ≤ y.1) →
      (rs.foldl insertRange out).Pairwise (fun x y => x.1 ≤ y.1) ∧
        ∀ r, r ∈ rs.foldl insertRange out ↔ r ∈ out ∨ r ∈ rs := by
    intro rs
    induction rs with
    | nil => exact fun out h => ⟨h, by simp⟩
    | cons x rs ih =>
      intro out h
      obtain ⟨hsorted, hmem⟩ := ih _ (sorted_insertRange h)
      refine ⟨hsorted, fun r => ?_⟩
      rw [foldl_cons, hmem, mem_insertRange, mem_cons]
      tauto
  obtain ⟨hsorted, hmem⟩ := hloop rs [] List.Pairwise.nil
  exact ⟨hsorted, fun r => by rw [sortRanges, hmem]; simp⟩

/-! ## Rounding -/

theorem le_roundUp (ha : 0 < a) (h : v + a ≤ 2 ^ 64) : v ≤ roundUp v a := by
  have hdiv := Nat.div_add_mod (v + a - 1) a
  have hmod := Nat.mod_lt (v + a - 1) ha
  rw [roundUp, Nat.mod_eq_of_lt (by omega), mul_comm]
  omega

theorem roundUp_le {s : ℕ} (h : v + a ≤ 2 ^ 64) (hs : v ≤ s) (hdvd : a ∣ s) : roundUp v a ≤ s := by
  obtain ⟨k, rfl⟩ := hdvd
  rcases Nat.eq_zero_or_pos a with rfl | ha
  · simp [roundUp]
  have hk : (v + a - 1) / a < k + 1 := by
    rw [Nat.div_lt_iff_lt_mul ha, add_mul, mul_comm k]
    omega
  rw [roundUp, Nat.mod_eq_of_lt (by omega), mul_comm]
  exact Nat.mul_le_mul_left a (Nat.lt_succ_iff.mp hk)

theorem roundUp_wraps (hv : v < 2 ^ 64) (ha : a ≤ 2 ^ 64) (h : 2 ^ 64 < v + a) :
    roundUp v a = 0 := by
  have hmod : (v + a - 1) % 2 ^ 64 = v + a - 1 - 2 ^ 64 := by omega
  rw [roundUp, Nat.div_eq_of_lt (by omega), zero_mul]

/-! ## One gap -/

section Search

variable {a lastExcl wantStart want : ℕ}

/-- What may be returned from between `lo` and `hi`: the requested size, if there is one, at the
requested start or else at a multiple of the alignment. -/
structure Place (a wantStart want lo hi s n : ℕ) : Prop where
  low : lo ≤ s
  high : s + n ≤ hi
  pos : 0 < n
  size : want ≠ 0 → n = want
  start : wantStart ≠ 0 → s = wantStart
  aligned : wantStart = 0 → a ∣ s

/-- A place behind `first` and before `lastExcl` that meets no used range. -/
def Fits (a lastExcl wantStart want first : ℕ) (used : List (ℕ × ℕ)) (s n : ℕ) : Prop :=
  Place a wantStart want first lastExcl s n ∧ ∀ r ∈ used, s + n ≤ r.1 ∨ r.2 ≤ s

theorem gapLen_spec (ha : 0 < a) (want : ℕ) {avail : ℕ} (h : 0 < avail) :
    (want ≠ 0 → (if want ≠ 0 then want else if a < avail then avail / a * a else avail) = want) ∧
      (want = 0 → 0 < (if want ≠ 0 then want else if a < avail then avail / a * a else avail) ∧
        (if want ≠ 0 then want else if a < avail then avail / a * a else avail) ≤ avail) := by
  refine ⟨fun hw => if_pos hw, fun hw => ?_⟩
  rw [if_neg (not_not.mpr hw)]
  split
  · rename_i hlt
    exact ⟨Nat.mul_pos (Nat.div_pos hlt.le ha) ha, Nat.div_mul_le_self _ a⟩
  · exact ⟨h, le_rfl⟩

variable {cursor : ℕ} {r : ℕ × ℕ} {used : List (ℕ × ℕ)}

/-- A gap gives a place in it. If it has none the search goes on, except behind a requested start
in this gap. -/
theorem inGap_cases (ha : 0 < a) (want gapEnd : ℕ) (next : Option (ℕ × ℕ))
    (hwrap : wantStart = 0 → cursor + a ≤ 2 ^ 64) :
    (∃ s n, findSpace.inGap a wantStart want gapEnd cursor next = some (s, n) ∧
      Place a wantStart want cursor gapEnd s n) ∨
    (¬ ∃ s n, Place a wantStart want cursor gapEnd s n) ∧
      (findSpace.inGap a wantStart want gapEnd cursor next = next ∨
        findSpace.inGap a wantStart want gapEnd cursor next = none ∧
          wantStart ≠ 0 ∧ wantStart < gapEnd) := by
  unfold findSpace.inGap
  dsimp only
  by_cases hwant : wantStart ≠ 0
  · rw [if_pos hwant]
    by_cases hin : cursor ≤ wantStart ∧ wantStart < gapEnd
    · rw [if_pos hin]
      by_cases hlen : (if want ≠ 0 then want else gapEnd - wantStart) ≤ gapEnd - wantStart
      · rw [if_pos hlen]
        exact .inl ⟨_, _, rfl, hin.1, by omega, by split_ifs <;> omega,
          fun h => if_pos h, fun _ => rfl, fun h => absurd h hwant⟩
      · rw [if_neg hlen]
        refine .inr ⟨?_, .inr ⟨rfl, hwant, hin.2⟩⟩
        rintro ⟨s, n, h⟩
        have := h.start hwant
        have := h.size
        have := h.high
        split_ifs at hlen <;> omega
    · rw [if_neg hin]
      refine .inr ⟨?_, .inl rfl⟩
      rintro ⟨s, n, h⟩
      have := h.start hwant
      exact hin ⟨this ▸ h.low, by have := h.high; have := h.pos; omega⟩
  · rw [if_neg hwant]
    have hround := le_roundUp ha (hwrap (not_not.mp hwant))
    have hleast : ∀ s n, Place a wantStart want cursor gapEnd s n → roundUp cursor a ≤ s :=
      fun s n h => roundUp_le (hwrap (not_not.mp hwant)) h.low (h.aligned (not_not.mp hwant))
    have hdvd : a ∣ roundUp cursor a := Nat.dvd_mul_left a _
    generalize roundUp cursor a = gapStart at hround hleast hdvd
    by_cases hlt : gapStart < gapEnd
    · rw [if_pos hlt]
      obtain ⟨hwanted, hmost⟩ := gapLen_spec ha want (Nat.sub_pos_of_lt hlt)
      generalize (if want ≠ 0 then want else if a < gapEnd - gapStart then
        (gapEnd - gapStart) / a * a else gapEnd - gapStart) = len at hwanted hmost
      by_cases hlen : len ≤ gapEnd - gapStart ∧ 0 < len
      · rw [if_pos hlen]
        exact .inl ⟨_, _, rfl, hround, by omega, hlen.2, hwanted,
          fun h => absurd h hwant, fun _ => hdvd⟩
      · rw [if_neg hlen]
        refine .inr ⟨?_, .inl rfl⟩
        rintro ⟨s, n, h⟩
        have := hleast s n h
        have := h.size
        have := h.high
        omega
    · rw [if_neg hlt]
      refine .inr ⟨?_, .inl rfl⟩
      rintro ⟨s, n, h⟩
      have := hleast s n h
      have := h.high
      have := h.pos
      omega

theorem fits_cons {first s n : ℕ} (hfirst : ∀ r' ∈ used, r.1 ≤ r'.1) :
    Fits a lastExcl wantStart want first (r :: used) s n ↔
      Place a wantStart want first (min r.1 lastExcl) s n ∨
        Fits a lastExcl wantStart want (max first r.2) used s n := by
  constructor
  · rintro ⟨h, hall⟩
    rcases hall r mem_cons_self with hr | hr
    · exact .inl { h with high := le_min hr h.high }
    · exact .inr ⟨{ h with low := max_le h.low hr },
        fun r' hr' => hall r' (mem_cons_of_mem _ hr')⟩
  · rintro (h | ⟨h, hall⟩)
    · have hend := le_min_iff.mp h.high
      refine ⟨{ h with high := hend.2 }, fun r' hr' => .inl ?_⟩
      rcases mem_cons.mp hr' with rfl | hr'
      · exact hend.1
      · exact hend.1.trans (hfirst r' hr')
    · have hlow := max_le_iff.mp h.low
      refine ⟨{ h with low := hlow.1 }, fun r' hr' => ?_⟩
      rcases mem_cons.mp hr' with rfl | hr'
      · exact .inr hlow.2
      · exact hall r' hr'

/-- Nothing before the gap of `s` wraps when it is rounded up. -/
def NoWrapBefore (a first : ℕ) (used : List (ℕ × ℕ)) (s : ℕ) : Prop :=
  first + a ≤ 2 ^ 64 ∧ ∀ r ∈ used, r.2 ≤ s → r.2 + a ≤ 2 ^ 64

/-- What lets the search go right: no rounding wraps, or it ends before one does. -/
def Unwrapped (a lastExcl wantStart want first : ℕ) (used : List (ℕ × ℕ)) : Prop :=
  (∀ s, NoWrapBefore a first used s) ∨
    ∃ s n, Fits a lastExcl wantStart want first used s n ∧ NoWrapBefore a first used s

theorem Unwrapped.first {first : ℕ} (h : Unwrapped a lastExcl wantStart want first used) :
    first + a ≤ 2 ^ 64 := by
  obtain h | ⟨_, _, -, h⟩ := h
  · exact (h 0).1
  · exact h.1

theorem Unwrapped.rest {first : ℕ} (hfirst : ∀ r' ∈ used, r.1 ≤ r'.1)
    (h : Unwrapped a lastExcl wantStart want first (r :: used))
    (hgap : ¬ ∃ s n, Place a wantStart want first (min r.1 lastExcl) s n) :
    Unwrapped a lastExcl wantStart want (max first r.2) used := by
  have hmax : ∀ s, NoWrapBefore a first (r :: used) s → r.2 ≤ s →
      NoWrapBefore a (max first r.2) used s := fun s h hs =>
    ⟨by have := h.1; have := h.2 r mem_cons_self hs; omega,
      fun r' hr' => h.2 r' (mem_cons_of_mem _ hr')⟩
  obtain h | ⟨s, n, hfits, h⟩ := h
  · refine .inl fun s => ⟨(hmax _ (h (max s r.2)) (le_max_right _ _)).1, fun r' hr' hs => ?_⟩
    exact (h s).2 r' (mem_cons_of_mem _ hr') hs
  · rcases (fits_cons hfirst).mp hfits with hplace | hrest
    · exact absurd ⟨s, n, hplace⟩ hgap
    · exact .inr ⟨s, n, hrest, hmax s h (max_le_iff.mp hrest.1.low).2⟩

theorem Unwrapped.cons {first : ℕ} (hfirst : ∀ r' ∈ used, r.1 ≤ r'.1) (hle : first + a ≤ 2 ^ 64)
    (h : Unwrapped a lastExcl wantStart want (max first r.2) used) :
    Unwrapped a lastExcl wantStart want first (r :: used) := by
  have hcons : ∀ s, NoWrapBefore a (max first r.2) used s →
      NoWrapBefore a first (r :: used) s := fun s h => by
    refine ⟨hle, fun r' hr' hs => ?_⟩
    rcases mem_cons.mp hr' with rfl | hr'
    · have := h.1
      omega
    · exact h.2 r' hr' hs
  obtain h | ⟨s, n, hfits, h⟩ := h
  · exact .inl fun s => hcons s (h s)
  · exact .inr ⟨s, n, (fits_cons hfirst).mpr (.inr hfits), hcons s h⟩

theorem findSpace_right (ha : 0 < a) (hsorted : used.Pairwise fun x y => x.1 ≤ y.1)
    (hwrap : wantStart = 0 → Unwrapped a lastExcl wantStart want cursor used) :
    (∀ s n, findSpace a lastExcl wantStart want used cursor = some (s, n) →
      Fits a lastExcl wantStart want cursor used s n) ∧
    ((∀ r ∈ used, r.1 < r.2) → findSpace a lastExcl wantStart want used cursor = none →
      ¬ ∃ s n, Fits a lastExcl wantStart want cursor used s n) := by
  induction used generalizing cursor with
  | nil =>
    rw [findSpace]
    obtain ⟨s, n, heq, hplace⟩ | ⟨hgap, heq⟩ :=
      inGap_cases ha want lastExcl none fun h => (hwrap h).first
    · rw [heq]
      refine ⟨fun s' n' h => ?_, fun _ h => by simp at h⟩
      obtain ⟨rfl, rfl⟩ := Prod.mk.inj (Option.some.inj h)
      exact ⟨hplace, by simp⟩
    · have hnone := heq.elim id And.left
      rw [hnone]
      exact ⟨fun s n h => by simp at h, fun _ _ ⟨s, n, h⟩ => hgap ⟨s, n, h.1⟩⟩
  | cons r used ih =>
    obtain ⟨hfirst, hrest⟩ := pairwise_cons.mp hsorted
    simp only [fits_cons hfirst]
    rw [findSpace]
    obtain ⟨s, n, heq, hplace⟩ | ⟨hgap, heq⟩ :=
      inGap_cases ha want (min r.1 lastExcl)
        (findSpace a lastExcl wantStart want used (max cursor r.2)) fun h => (hwrap h).first
    · rw [heq]
      refine ⟨fun s' n' h => ?_, fun _ h => by simp at h⟩
      obtain ⟨rfl, rfl⟩ := Prod.mk.inj (Option.some.inj h)
      exact .inl hplace
    · obtain ⟨hsound, hcomplete⟩ := ih hrest fun h => (hwrap h).rest hfirst hgap
      rcases heq with heq | ⟨heq, hwant, hin⟩ <;> rw [heq]
      · refine ⟨fun s n h => .inr (hsound s n h), fun hpos h => ?_⟩
        rintro ⟨s, n, hplace | hfits⟩
        · exact hgap ⟨s, n, hplace⟩
        · exact hcomplete (fun r hr => hpos r (mem_cons_of_mem _ hr)) h ⟨s, n, hfits⟩
      · refine ⟨fun s n h => by simp at h, fun hpos _ => ?_⟩
        rintro ⟨s, n, hplace | hfits⟩
        · exact hgap ⟨s, n, hplace⟩
        · -- the requested start lies before the range, a place of the rest behind it
          have := hpos r mem_cons_self
          have := hfits.1.start hwant
          have := (max_le_iff.mp hfits.1.low).2
          omega

/-! ## The wrap -/

theorem findSpace_wrapped (ha : 0 < a) (ha64 : a ≤ 2 ^ 64) (hlast : 0 < lastExcl)
    (hsize : want ≤ lastExcl) (hlt : cursor < 2 ^ 64) (hends : ∀ r ∈ used, r.2 < 2 ^ 64)
    (hwrap : 2 ^ 64 < cursor + a) :
    ∃ n, 0 < n ∧ findSpace a lastExcl 0 want used cursor = some (0, n) := by
  have hgap : ∀ {gapEnd cursor : ℕ} {next : Option (ℕ × ℕ)}, cursor < 2 ^ 64 →
      2 ^ 64 < cursor + a → (∃ n, 0 < n ∧ findSpace.inGap a 0 want gapEnd cursor next = some (0, n)) ∨
        findSpace.inGap a 0 want gapEnd cursor next = next ∧ (gapEnd = 0 ∨ gapEnd < want) := by
    intro gapEnd cursor next hlt hwrap
    unfold findSpace.inGap
    rw [roundUp_wraps hlt ha64 hwrap]
    dsimp only
    by_cases hpos : 0 < gapEnd
    · rw [if_pos hpos, Nat.sub_zero]
      obtain ⟨hwanted, hmost⟩ := gapLen_spec ha want hpos
      generalize (if want ≠ 0 then want else if a < gapEnd then gapEnd / a * a else gapEnd) = len
        at hwanted hmost
      by_cases hlen : len ≤ gapEnd ∧ 0 < len
      · rw [if_pos hlen]
        exact .inl ⟨len, hlen.2, rfl⟩
      · rw [if_neg hlen]
        exact .inr ⟨rfl, by omega⟩
    · rw [if_neg hpos]
      exact .inr ⟨rfl, by omega⟩
  induction used generalizing cursor with
  | nil =>
    obtain h | ⟨-, hsmall⟩ := hgap hlt hwrap
    · exact h
    · omega
  | cons r used ih =>
    rw [findSpace]
    obtain h | ⟨heq, -⟩ := hgap hlt hwrap
    · exact h
    · have := hends r mem_cons_self
      rw [heq]
      exact ih (by omega) (fun r hr => hends r (mem_cons_of_mem _ hr)) (by omega)

theorem findSpace_zero (ha : 0 < a) (ha64 : a ≤ 2 ^ 64) (hlast : 0 < lastExcl)
    (hsize : want ≤ lastExcl) (hsorted : used.Pairwise fun x y => x.1 ≤ y.1) (hlt : cursor < 2 ^ 64)
    (hends : ∀ r ∈ used, r.1 < r.2 ∧ r.2 < 2 ^ 64) (h : ¬ Unwrapped a lastExcl 0 want cursor used) :
    ∃ n, 0 < n ∧ findSpace a lastExcl 0 want used cursor = some (0, n) := by
  induction used generalizing cursor with
  | nil =>
    refine findSpace_wrapped ha ha64 hlast hsize hlt (by simp) (not_le.mp fun hle => h ?_)
    exact .inl fun s => ⟨hle, by simp⟩
  | cons r used ih =>
    obtain ⟨hfirst, hrest⟩ := pairwise_cons.mp hsorted
    have hr := hends r mem_cons_self
    rcases Nat.lt_or_ge (2 ^ 64) (cursor + a) with hwrap | hle
    · exact findSpace_wrapped ha ha64 hlast hsize hlt (fun r hr => (hends r hr).2) hwrap
    rw [findSpace]
    obtain ⟨s, n, -, hplace⟩ | ⟨-, heq | ⟨-, hwant, -⟩⟩ :=
      inGap_cases ha want (min r.1 lastExcl)
        (findSpace a lastExcl 0 want used (max cursor r.2)) fun _ => hle
    · -- a place in this gap lies before every range that is left
      refine absurd (.inr ⟨s, n, (fits_cons hfirst).mpr (.inl hplace), hle, ?_⟩) h
      intro r' hr' hs
      have := hplace.high
      have := (hends r' hr').1
      have : r.1 ≤ r'.1 := by
        rcases mem_cons.mp hr' with rfl | hr'
        · exact le_rfl
        · exact hfirst r' hr'
      omega
    · rw [heq]
      refine ih hrest (by omega) (fun r hr => hends r (mem_cons_of_mem _ hr)) fun hun => h ?_
      exact hun.cons hfirst hle
    · exact absurd rfl hwant

theorem findSpace_none (h : lastExcl = 0 ∨ lastExcl < want) (used : List (ℕ × ℕ)) (cursor : ℕ) :
    findSpace a lastExcl 0 want used cursor = none := by
  have hgap : ∀ {gapEnd cursor : ℕ}, gapEnd ≤ lastExcl →
      findSpace.inGap a 0 want gapEnd cursor none = none := by
    intro gapEnd cursor hle
    unfold findSpace.inGap
    rw [if_neg (not_not.mpr rfl)]
    split
    · rw [if_neg]
      rw [if_pos (by omega)]
      omega
    · rfl
  induction used generalizing cursor with
  | nil => rw [findSpace, hgap le_rfl]
  | cons r used ih => rw [findSpace, ih, hgap (min_le_right _ _)]

end Search

/-- The search fails exactly when nothing fits, and what it returns fits. -/
def SearchRight (a lastExcl wantStart want first : ℕ) (rs : List (ℕ × ℕ)) : Prop :=
  match findSpace a lastExcl wantStart want (sortRanges rs) first with
  | some (s, n) => Fits a lastExcl wantStart want first rs s n
  | none => ¬ ∃ s n, Fits a lastExcl wantStart want first rs s n

theorem searchRight_iff {lastExcl wantStart want first : ℕ} {rs : List (ℕ × ℕ)} :
    SearchRight a lastExcl wantStart want first rs ↔
      (∀ s n, findSpace a lastExcl wantStart want (sortRanges rs) first = some (s, n) →
        Fits a lastExcl wantStart want first (sortRanges rs) s n) ∧
      (findSpace a lastExcl wantStart want (sortRanges rs) first = none →
        ¬ ∃ s n, Fits a lastExcl wantStart want first (sortRanges rs) s n) := by
  simp only [SearchRight, Fits, (sortRanges_spec rs).2]
  rcases findSpace a lastExcl wantStart want (sortRanges rs) first with _ | ⟨s, n⟩ <;> simp

/-- **Free space.** Over any used ranges, in any order, the search is right exactly if a start
was requested, the request exceeds every bound, no rounding wraps, or something fits before
one does. -/
theorem findSpace_right_iff {a lastExcl wantStart want first : ℕ} {rs : List (ℕ × ℕ)}
    (ha : 0 < a) (ha64 : a < 2 ^ 64) (hfirst : first < 2 ^ 64)
    (hrs : ∀ r ∈ rs, r.1 < r.2 ∧ r.2 < 2 ^ 64) :
    SearchRight a lastExcl wantStart want first rs ↔
      wantStart ≠ 0 ∨ lastExcl = 0 ∨ lastExcl < want ∨
        (∀ s, NoWrapBefore a first rs s) ∨
        ∃ s n, Fits a lastExcl wantStart want first rs s n ∧ NoWrapBefore a first rs s := by
  obtain ⟨hsorted, hmem⟩ := sortRanges_spec rs
  have hends : ∀ r ∈ sortRanges rs, r.1 < r.2 ∧ r.2 < 2 ^ 64 := fun r hr => hrs r ((hmem r).mp hr)
  have hun : Unwrapped a lastExcl wantStart want first (sortRanges rs) ↔
      (∀ s, NoWrapBefore a first rs s) ∨
        ∃ s n, Fits a lastExcl wantStart want first rs s n ∧ NoWrapBefore a first rs s := by
    simp only [Unwrapped, NoWrapBefore, Fits, hmem]
  rw [← hun, searchRight_iff]
  constructor
  · rintro ⟨hsound, -⟩
    by_contra hnot
    obtain ⟨hwant, hlast, hsize, hun⟩ : wantStart = 0 ∧ 0 < lastExcl ∧ want ≤ lastExcl ∧
        ¬ Unwrapped a lastExcl wantStart want first (sortRanges rs) := by
      push Not at hnot
      exact ⟨hnot.1, by omega, by omega, hnot.2.2.2⟩
    subst hwant
    obtain ⟨n, hn, heq⟩ := findSpace_zero ha ha64.le hlast hsize hsorted hfirst hends hun
    -- a place at 0 would have been found the wrap
    have hfits := hsound 0 n heq
    refine hun (.inr ⟨0, n, hfits, ?_, fun r hr hr0 => ?_⟩)
    · have := hfits.1.low
      omega
    · omega
  · intro hcond
    by_cases hsmall : wantStart = 0 ∧ (lastExcl = 0 ∨ lastExcl < want)
    · obtain ⟨rfl, hsmall⟩ := hsmall
      rw [findSpace_none hsmall]
      refine ⟨fun s n h => by simp at h, fun _ ⟨s, n, h⟩ => ?_⟩
      have := h.1.high
      have := h.1.pos
      have := h.1.size
      omega
    · have hun : wantStart = 0 → Unwrapped a lastExcl wantStart want first (sortRanges rs) :=
        fun hwant => by
          rcases hcond with h | h | h | h
          · exact absurd hwant h
          · exact absurd ⟨hwant, .inl h⟩ hsmall
          · exact absurd ⟨hwant, .inr h⟩ hsmall
          · exact h
      obtain ⟨hsound, hcomplete⟩ := findSpace_right ha hsorted hun
      exact ⟨hsound, hcomplete fun r hr => (hends r hr).1⟩

theorem findSpace_right_two : SearchRight 2048 10000 0 100 34 [(5000, 6000), (34, 2048)] :=
  (findSpace_right_iff (by decide) (by decide) (by decide) (by simp)).mpr
    (.inr (.inr (.inr (.inl fun s => ⟨by decide, by simp⟩))))

/-- With `first_usable_lba` at the last sector number the search gives the sectors at 0. -/
theorem findSpace_wraps : ¬ SearchRight 2048 200 0 100 (2 ^ 64 - 1) [] := by
  have heq : findSpace 2048 200 0 100 (sortRanges []) (2 ^ 64 - 1) = some (0, 100) := by
    decide +kernel
  exact fun h => absurd h.1.low (by decide)

end MinimalOS.Partition
