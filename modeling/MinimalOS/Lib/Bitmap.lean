import Mathlib.Data.BitVec
import Mathlib.Data.Finset.Card
import Mathlib.Tactic

/-!
# Bit maps and their first run

A map of bits kept in words of `w` bits, with the masks a program sets and clears bits by; and the
scan for the first `count` positions in a row with some property, which keeps the start and the
length of the run it is in.
-/

namespace Bitmap

/-! ## Bits in words -/

variable {w : ℕ}

/-- Bit `i` of the map is bit `i % w` of word `i / w`. -/
abbrev Words (w : ℕ) := ℕ → BitVec w

def mask (w i : ℕ) : BitVec w := 1#w <<< (i % w)

def set (m : Words w) (i : ℕ) : Words w :=
  Function.update m (i / w) (m (i / w) ||| mask w i)

def clear (m : Words w) (i : ℕ) : Words w :=
  Function.update m (i / w) (m (i / w) &&& ~~~ mask w i)

def isClear (m : Words w) (i : ℕ) : Bool := m (i / w) &&& mask w i = 0#w

theorem getLsbD_mask (hw : 0 < w) (i k : ℕ) : (mask w i).getLsbD k = decide (k = i % w) := by
  have hi := Nat.mod_lt i hw
  unfold mask
  rw [BitVec.getLsbD_shiftLeft]
  by_cases hk : k = i % w
  · subst hk
    simp [hi, hw]
  · by_cases hlt : k < i % w
    · simp [hlt, hk]
    · have hne : k - i % w ≠ 0 := by omega
      simp [hne, hk]

theorem isClear_eq (hw : 0 < w) (m : Words w) (i : ℕ) :
    isClear m i = !(m (i / w)).getLsbD (i % w) := by
  have hbits : m (i / w) &&& mask w i = 0#w ↔ (m (i / w)).getLsbD (i % w) = false := by
    constructor
    · intro h
      have hbit := congrArg (·.getLsbD (i % w)) h
      simpa [getLsbD_mask hw] using hbit
    · intro h
      refine BitVec.eq_of_getLsbD_eq fun k _ => ?_
      rw [BitVec.getLsbD_and, getLsbD_mask hw]
      by_cases hk : k = i % w
      · simp [hk, h]
      · simp [hk]
  cases hb : (m (i / w)).getLsbD (i % w)
  · exact decide_eq_true (hbits.mpr hb)
  · exact decide_eq_false fun h => by
      rw [hbits.mp h] at hb
      cases hb

theorem eq_of_div_mod {i j : ℕ} (hdiv : i / w = j / w) (hmod : i % w = j % w) : i = j := by
  rw [← Nat.div_add_mod i w, ← Nat.div_add_mod j w, hdiv, hmod]

theorem isClear_set (hw : 0 < w) (m : Words w) (i j : ℕ) :
    isClear (set m i) j = (isClear m j && decide (j ≠ i)) := by
  rw [isClear_eq hw, isClear_eq hw]
  unfold set
  by_cases hdiv : j / w = i / w
  · rw [hdiv, Function.update_self, BitVec.getLsbD_or, getLsbD_mask hw]
    by_cases hji : j = i
    · simp [hji]
    · have hmod : j % w ≠ i % w := fun hmod => hji (eq_of_div_mod hdiv hmod)
      simp [hmod, hji]
  · have hji : j ≠ i := fun h => hdiv (by rw [h])
    rw [Function.update_of_ne hdiv]
    simp [hji]

theorem isClear_clear (hw : 0 < w) (m : Words w) (i j : ℕ) :
    isClear (clear m i) j = (isClear m j || decide (j = i)) := by
  have hj := Nat.mod_lt j hw
  rw [isClear_eq hw, isClear_eq hw]
  unfold clear
  by_cases hdiv : j / w = i / w
  · rw [hdiv, Function.update_self, BitVec.getLsbD_and, BitVec.getLsbD_not, getLsbD_mask hw]
    by_cases hji : j = i
    · simp [hji]
    · have hmod : j % w ≠ i % w := fun hmod => hji (eq_of_div_mod hdiv hmod)
      simp [hmod, hji, hj]
  · have hji : j ≠ i := fun h => hdiv (by rw [h])
    rw [Function.update_of_ne hdiv]
    simp [hji]

theorem isClear_foldl_set (hw : 0 < w) (l : List ℕ) (m : Words w) (j : ℕ) :
    isClear (l.foldl set m) j = (isClear m j && decide (j ∉ l)) := by
  induction l generalizing m with
  | nil => simp
  | cons i l ih =>
    rw [List.foldl_cons, ih, isClear_set hw, Bool.and_assoc]
    congr 1
    rw [← Bool.decide_and]
    exact decide_eq_decide.mpr (by rw [List.mem_cons, not_or])

/-! ## The first run -/

/-- `count` positions from `s` on, all below `bound`. -/
structure IsRun (free : ℕ → Bool) (bound count s : ℕ) : Prop where
  stop : s + count ≤ bound
  all : ∀ i, s ≤ i → i < s + count → free i = true

structure LowestRun (free : ℕ → Bool) (bound count s : ℕ) : Prop extends
    IsRun free bound count s where
  lowest : ∀ s', IsRun free bound count s' → s ≤ s'

/-- The scan of `n` positions from `i` on; the run it is in starts at `start` and has `len`
positions so far. It stops when the run is long enough. -/
def scan (free : ℕ → Bool) (count none : ℕ) : ℕ → ℕ → ℕ → ℕ → ℕ × ℕ
  | 0, _, start, len => (start, len)
  | n + 1, i, start, len =>
    if free i then
      if len + 1 = count then (if len = 0 then i else start, len + 1)
      else scan free count none n (i + 1) (if len = 0 then i else start) (len + 1)
    else scan free count none n (i + 1) none 0

section Scan

variable {free : ℕ → Bool} {count none bound : ℕ}

/-- What the scan knows at position `i`: the last `len` positions are a run that is too short, and
no run starts before them. -/
structure ScanInv (free : ℕ → Bool) (bound count i start len : ℕ) : Prop where
  short : len < count
  le : len ≤ i
  start : len ≠ 0 → start = i - len
  run : ∀ j, i - len ≤ j → j < i → free j = true
  before : ∀ s, IsRun free bound count s → i - len ≤ s

variable {i start len : ℕ}

theorem ScanInv.used (h : ScanInv free bound count i start len) (hi : free i = false) :
    ScanInv free bound count (i + 1) none 0 := by
  refine ⟨Nat.zero_lt_of_lt h.short, Nat.zero_le _, fun h0 => absurd rfl h0, by omega, ?_⟩
  intro s hs
  -- a run that starts at `i` or before would have `i` in it
  by_contra hlt
  have hge := h.before s hs
  have hshort := h.short
  have hfree := hs.all i (by omega) (by omega)
  rw [hi] at hfree
  cases hfree

theorem ScanInv.longer (h : ScanInv free bound count i start len) (hi : free i = true) :
    (if len = 0 then i else start) = i - len ∧
      ∀ j, i - len ≤ j → j < i + 1 → free j = true := by
  refine ⟨?_, fun j hj hj' => ?_⟩
  · split_ifs with h0
    · omega
    · exact h.start h0
  · rcases Nat.lt_succ_iff_lt_or_eq.mp hj' with hlt | rfl
    · exact h.run j hj hlt
    · exact hi

theorem scan_inv : ∀ (n : ℕ) {i start len : ℕ}, ScanInv free bound count i start len →
    i + n = bound →
    (∃ s, LowestRun free bound count s ∧ scan free count none n i start len = (s, count)) ∨
      (∀ s, ¬ IsRun free bound count s) ∧ (scan free count none n i start len).2 < count
  | 0, i, start, len, h, hbound => by
    refine Or.inr ⟨fun s hs => ?_, h.short⟩
    have hge := h.before s hs
    have hstop := hs.stop
    have hshort := h.short
    omega
  | n + 1, i, start, len, h, hbound => by
    rw [scan]
    cases hi : free i with
    | false =>
      exact scan_inv n (h.used hi) (by omega)
    | true =>
      obtain ⟨hstart, hrun⟩ := h.longer hi
      have hle := h.le
      rw [if_pos rfl, hstart]
      by_cases hlen : len + 1 = count
      · rw [if_pos hlen]
        refine Or.inl ⟨i - len, ⟨⟨by omega, fun j hj hj' => hrun j hj (by omega)⟩, ?_⟩, by rw [hlen]⟩
        exact h.before
      · rw [if_neg hlen]
        have hshort := h.short
        have hsub : i + 1 - (len + 1) = i - len := by omega
        refine scan_inv n ⟨by omega, by omega, fun _ => hsub.symm, ?_, ?_⟩ (by omega)
        · rw [hsub]
          exact hrun
        · rw [hsub]
          exact h.before

/-- **The scan** finds the lowest run, or there is none. -/
theorem scan_spec (free : ℕ → Bool) (none bound : ℕ) (hcount : 0 < count) :
    (∃ s, LowestRun free bound count s ∧ scan free count none bound 0 none 0 = (s, count)) ∨
      (∀ s, ¬ IsRun free bound count s) ∧ (scan free count none bound 0 none 0).2 < count :=
  scan_inv bound ⟨hcount, le_rfl, fun h0 => absurd rfl h0, by omega, fun s _ => Nat.zero_le s⟩
    (Nat.zero_add bound)

end Scan

theorem foldl_count (free : ℕ → Bool) (n : ℕ) :
    (List.range n).foldl (fun k i => if free i then k + 1 else k) 0 =
      ((Finset.range n).filter fun i => free i = true).card := by
  induction n with
  | zero => rfl
  | succ n ih =>
    rw [List.range_succ, List.foldl_append, ih, Finset.range_add_one, Finset.filter_insert]
    cases hn : free n
    · simp [hn]
    · simp [hn]

end Bitmap
