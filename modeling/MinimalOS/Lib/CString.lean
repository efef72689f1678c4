import Mathlib.Data.List.Infix
import Mathlib.Data.Nat.Basic
import Mathlib.Tactic

/-!
# C strings over byte lists

A pointer into a buffer is the list of bytes from that position on; the string it denotes ends
at the first NUL, or where the list ends. The search functions return the pointer they find.
Every lemma below says how a search passes over a piece of text that cannot hold what is
searched for, so that searches over a text built by concatenation are computed piece by piece.
-/

namespace CString

open List

def ascii (s : String) : List UInt8 := s.toList.map fun c => UInt8.ofNat c.toNat

def cstr (s : List UInt8) : List UInt8 := s.takeWhile (· ≠ 0)

def strchr (c : UInt8) : List UInt8 → Option (List UInt8)
  | [] => none
  | x :: xs => if x = 0 then none else if x = c then some (x :: xs) else strchr c xs

def strrchr (c : UInt8) : List UInt8 → Option (List UInt8)
  | [] => none
  | x :: xs =>
    if x = 0 then none else (strrchr c xs).or (if x = c then some (x :: xs) else none)

def strstr (needle : List UInt8) : List UInt8 → Option (List UInt8)
  | [] => none
  | x :: xs =>
    if x = 0 then none
    else if needle.isPrefixOf (x :: xs) then some (x :: xs)
    else strstr needle xs

def lineText (s : List UInt8) : List UInt8 := s.takeWhile fun c => c ≠ 0 ∧ c ≠ 10

def nonemptyAt : List UInt8 → List (List UInt8)
  | [] => []
  | x :: xs => if x = 0 then [] else [x :: xs]

/-- The lines that start after a newline of the string. -/
def laterLines : List UInt8 → List (List UInt8)
  | [] => []
  | x :: xs =>
    if x = 0 then []
    else if x = 10 then nonemptyAt xs ++ laterLines xs
    else laterLines xs

/-- The pointers a loop over the lines of a string visits. -/
def lineStarts (s : List UInt8) : List (List UInt8) := nonemptyAt s ++ laterLines s

/-- `tmp` of a decimal conversion: the digits of `v`, the last one first. -/
def uintDigits : ℕ → ℕ → List UInt8
  | 0, _ => []
  | n + 1, v => if v = 0 then [] else UInt8.ofNat (48 + v % 10) :: uintDigits n (v / 10)

/-- A 64-bit number in decimal: at most twenty digits. -/
def uintToStr (v : ℕ) : List UInt8 := if v = 0 then [48] else (uintDigits 20 v).reverse

def hexDigit (d : ℕ) : UInt8 := UInt8.ofNat (if d < 10 then 48 + d else 55 + d)

def hexDigits : ℕ → ℕ → List UInt8
  | 0, _ => []
  | n + 1, v => if v = 0 then [] else hexDigit (v % 16) :: hexDigits n (v / 16)

/-- A 64-bit number in hexadecimal: at most sixteen digits. -/
def hexToStr (v : ℕ) : List UInt8 := if v = 0 then [48] else (hexDigits 16 v).reverse

/-- What a format writes: a character of its own, or a string for a `%s`. -/
inductive Piece where
  | char (c : UInt8)
  | str (s : List UInt8)

def Piece.text : Piece → List UInt8
  | .char c => [c]
  | .str s => s

/-- One more character in a buffer of `size` bytes, which keeps the last one for the NUL. -/
def putChar (size : ℕ) (buf : List UInt8) (c : UInt8) : List UInt8 :=
  if buf.length + 1 < size then buf ++ [c] else buf

/-- The text a bounded formatter leaves. Its length is what the formatter returns. -/
def snprintf (size : ℕ) (fmt : List Piece) : List UInt8 :=
  fmt.foldl (fun buf p => p.text.foldl (putChar size) buf) []

abbrev IsDigit (c : UInt8) : Prop := 48 ≤ c ∧ c ≤ 57

def decimalValue (s : List UInt8) : ℕ := s.foldl (fun r c => r * 10 + (c.toNat - 48)) 0

/-! ## The string at a pointer -/

@[simp] theorem cstr_nil : cstr [] = [] := rfl

@[simp] theorem cstr_zero (s : List UInt8) : cstr (0 :: s) = [] := by simp [cstr]

theorem cstr_cons {x : UInt8} (s : List UInt8) (h : x ≠ 0) : cstr (x :: s) = x :: cstr s := by
  simp [cstr, h]

variable {a s r : List UInt8} {c : UInt8} {v n : ℕ}

theorem cstr_append (b : List UInt8) (h : (0 : UInt8) ∉ a) : cstr (a ++ b) = a ++ cstr b := by
  induction a with
  | nil => rfl
  | cons x xs ih =>
    simp only [mem_cons, not_or] at h
    rw [cons_append, cstr_cons _ (Ne.symm h.1), ih h.2, cons_append]

theorem zero_notMem_cstr (s : List UInt8) : (0 : UInt8) ∉ cstr s := by
  intro h
  simpa using List.all_eq_true.mp (List.all_takeWhile (p := (· ≠ (0 : UInt8))) (l := s)) 0 h

theorem cstr_eq_self (h : (0 : UInt8) ∉ s) : cstr s = s := by
  simpa using cstr_append [] h

/-! ## Searching for a character -/

theorem strchr_skip (b : List UInt8) (h0 : (0 : UInt8) ∉ a)
    (hc : c ∉ a) : strchr c (a ++ b) = strchr c b := by
  induction a with
  | nil => rfl
  | cons x xs ih =>
    simp only [mem_cons, not_or] at h0 hc
    rw [cons_append, strchr, if_neg (Ne.symm h0.1), if_neg (Ne.symm hc.1), ih h0.2 hc.2]

theorem strchr_head (b : List UInt8) (hc : c ≠ 0) : strchr c (c :: b) = some (c :: b) := by
  rw [strchr, if_neg hc, if_pos rfl]

theorem strchr_append (b : List UInt8) (h0 : (0 : UInt8) ∉ a) (hc : c ∉ a)
    (hc0 : c ≠ 0) : strchr c (a ++ c :: b) = some (c :: b) := by
  rw [strchr_skip _ h0 hc, strchr_head b hc0]

theorem strchr_eq_some (h : strchr c s = some r) :
    ∃ a, s = a ++ r ∧ (0 : UInt8) ∉ a ∧ c ∉ a ∧ r.head? = some c := by
  induction s with
  | nil => simp [strchr] at h
  | cons x xs ih =>
    rw [strchr] at h
    split at h
    · simp at h
    rename_i h0
    split at h
    · rename_i hx
      cases h
      exact ⟨[], rfl, by simp, by simp, by simp [hx]⟩
    · rename_i hx
      obtain ⟨a, rfl, ha0, hac, hr⟩ := ih h
      exact ⟨x :: a, rfl, by simp [ha0, Ne.symm h0], by simp [hac, Ne.symm hx], hr⟩

theorem notMem_of_strrchr_eq_none (h : strrchr c s = none) : c ∉ cstr s := by
  induction s with
  | nil => simp
  | cons x xs ih =>
    rw [strrchr] at h
    split at h
    · rename_i hx
      simp [hx]
    · rename_i hx
      obtain ⟨hxs, hc⟩ := Option.or_eq_none_iff.mp h
      rw [cstr_cons xs hx, mem_cons, not_or]
      refine ⟨fun heq => ?_, ih hxs⟩
      rw [if_pos heq.symm] at hc
      simp at hc

theorem strrchr_eq_some (h : strrchr c s = some r) :
    ∃ a, s = a ++ r ∧ r.head? = some c ∧ c ∉ cstr r.tail := by
  induction s with
  | nil => simp [strrchr] at h
  | cons x xs ih =>
    rw [strrchr] at h
    split at h
    · simp at h
    rcases Option.or_eq_some_iff.mp h with h | ⟨hnone, h⟩
    · obtain ⟨a, rfl, hr⟩ := ih h
      exact ⟨x :: a, rfl, hr⟩
    · split at h
      · rename_i hx
        cases h
        exact ⟨[], rfl, by simp [hx], notMem_of_strrchr_eq_none hnone⟩
      · simp at h

/-! ## Bounded formatting -/

theorem foldl_putChar (size : ℕ) (s buf : List UInt8) :
    s.foldl (putChar size) buf = buf ++ s.take (size - 1 - buf.length) := by
  induction s generalizing buf with
  | nil => simp
  | cons c s ih =>
    rw [foldl_cons, ih, putChar]
    split
    · rw [show size - 1 - buf.length = size - 1 - (buf ++ [c]).length + 1 by simp; omega,
        take_succ_cons, append_assoc, singleton_append]
    · rw [show size - 1 - buf.length = 0 by omega]
      rfl

theorem snprintf_eq (size : ℕ) (fmt : List Piece) :
    snprintf size fmt = (fmt.flatMap Piece.text).take (size - 1) := by
  have hflat : ∀ buf, fmt.foldl (fun buf p => p.text.foldl (putChar size) buf) buf =
      (fmt.flatMap Piece.text).foldl (putChar size) buf := by
    induction fmt with
    | nil => exact fun _ => rfl
    | cons p fmt ih => exact fun buf => by rw [foldl_cons, ih, flatMap_cons, foldl_append]
  rw [snprintf, hflat, foldl_putChar]
  rfl

/-! ## Searching for a string -/

section Strstr

variable {needle : List UInt8}

theorem strstr_step {x : UInt8} {xs : List UInt8} (h0 : x ≠ 0)
    (h : ¬ needle <+: x :: xs) : strstr needle (x :: xs) = strstr needle xs := by
  rw [strstr, if_neg h0, if_neg (mt isPrefixOf_iff_prefix.mp h)]

theorem strstr_here (hne : needle.head? ≠ none) (h0 : needle.head? ≠ some 0)
    (h : needle <+: s) : strstr needle s = some s := by
  cases needle with
  | nil => simp at hne
  | cons n ns =>
    obtain ⟨t, rfl⟩ := h
    have hn : n ≠ 0 := by simpa using h0
    have hpre : n :: ns <+: n :: (ns ++ t) := ⟨t, rfl⟩
    rw [cons_append, strstr, if_neg hn, if_pos <| isPrefixOf_iff_prefix.mpr hpre]

theorem strstr_skip {n : UInt8} {ns : List UInt8} (b : List UInt8) (h0 : (0 : UInt8) ∉ a)
    (hn : n ∉ a) : strstr (n :: ns) (a ++ b) = strstr (n :: ns) b := by
  induction a with
  | nil => rfl
  | cons x xs ih =>
    simp only [mem_cons, not_or] at h0 hn
    rw [cons_append, strstr_step (Ne.symm h0.1), ih h0.2 hn.2]
    intro hp
    exact hn.1 (cons_prefix_cons.mp hp).1

theorem strstr_eq_some (h : strstr needle s = some r) :
    ∃ a, s = a ++ r ∧ (0 : UInt8) ∉ a ∧ needle <+: r := by
  induction s with
  | nil => simp [strstr] at h
  | cons x xs ih =>
    rw [strstr] at h
    split at h
    · simp at h
    · rename_i hx
      split at h
      · rename_i hp
        simp only [Option.some.injEq] at h
        subst h
        exact ⟨[], rfl, by simp, isPrefixOf_iff_prefix.mp hp⟩
      · obtain ⟨a, rfl, ha, hp⟩ := ih h
        exact ⟨x :: a, rfl, by simp [Ne.symm hx, ha], hp⟩

theorem strstr_eq_none_iff (hne : needle ≠ []) (h0 : (0 : UInt8) ∉ needle) :
    strstr needle s = none ↔ ¬ needle <:+: cstr s := by
  -- a needle without NUL starts in the string exactly if it starts in its text
  have hpre : ∀ t : List UInt8, needle <+: t ↔ needle <+: cstr t := by
    intro t
    constructor
    · rintro ⟨u, rfl⟩
      exact ⟨cstr u, (cstr_append u h0).symm⟩
    · intro h
      exact h.trans ( takeWhile_prefix _)
  induction s with
  | nil => simp [strstr, hne]
  | cons x xs ih =>
    by_cases hx : x = 0
    · subst hx
      simp [strstr, hne]
    · rw [strstr, if_neg hx, cstr_cons _ hx, infix_cons_iff, ← cstr_cons _ hx, ← hpre]
      by_cases hp : needle <+: x :: xs
      · rw [if_pos <| isPrefixOf_iff_prefix.mpr hp]
        simp [hp]
      · rw [if_neg (mt isPrefixOf_iff_prefix.mp hp)]
        simp [hp, ih]

end Strstr

/-! ## Lines -/

@[simp] theorem lineStarts_zero (s : List UInt8) : lineStarts (0 :: s) = [] := by
  simp [lineStarts, nonemptyAt, laterLines]

section

variable (b : List UInt8) (h0 : (0 : UInt8) ∉ a) (hn : (10 : UInt8) ∉ a)

include b h0 hn

theorem laterLines_skip : laterLines (a ++ b) = laterLines b := by
  induction a with
  | nil => rfl
  | cons x xs ih =>
    simp only [mem_cons, not_or] at h0 hn
    rw [cons_append, laterLines, if_neg (Ne.symm h0.1), if_neg (Ne.symm hn.1), ih h0.2 hn.2]

theorem lineStarts_line : lineStarts (a ++ 10 :: b) = (a ++ 10 :: b) :: lineStarts b := by
  have hfirst : nonemptyAt (a ++ 10 :: b) = [a ++ 10 :: b] := by
    cases a with
    | nil => simp [nonemptyAt]
    | cons x xs =>
      simp only [mem_cons, not_or] at h0
      simp [nonemptyAt, Ne.symm h0.1]
  rw [lineStarts, hfirst, laterLines_skip _ h0 hn, laterLines, if_neg (by decide), if_pos rfl]
  rfl

theorem lineText_line : lineText (a ++ 10 :: b) = a := by
  rw [lineText, takeWhile_append_of_pos]
  · simp
  · intro x hx
    simp only [decide_eq_true_eq]
    exact ⟨fun h => h0 (h ▸ hx), fun h => hn (h ▸ hx)⟩

end

theorem cstr_suffix_of_mem (h : r ∈ lineStarts s) : cstr r <:+ cstr s := by
  have hfirst : ∀ s : List UInt8, r ∈ nonemptyAt s → cstr r <:+ cstr s := fun s h => by
    cases s with
    | nil => simp [nonemptyAt] at h
    | cons x s =>
      rw [nonemptyAt] at h
      split at h
      · simp at h
      · rw [mem_singleton.mp h]
  rcases mem_append.mp h with h | h
  · exact hfirst s h
  induction s with
  | nil => simp [laterLines] at h
  | cons x s ih =>
    rw [laterLines] at h
    split at h
    · simp at h
    rename_i hx
    rw [cstr_cons s hx]
    refine IsSuffix.trans ?_ (suffix_cons x _)
    split at h
    · rcases mem_append.mp h with h | h
      · exact hfirst s h
      · exact ih (mem_append_right _ h) h
    · exact ih (mem_append_right _ h) h

/-! ## Decimal numbers -/

theorem decimalValue_append_single (s : List UInt8) (c : UInt8) :
    decimalValue (s ++ [c]) = decimalValue s * 10 + (c.toNat - 48) := by
  simp [decimalValue]

theorem toNat_digit (d : ℕ) (h : d < 10) : (UInt8.ofNat (48 + d)).toNat = 48 + d := by
  rw [UInt8.toNat_ofNat']
  omega

theorem isDigit_digit (d : ℕ) (h : d < 10) : IsDigit (UInt8.ofNat (48 + d)) := by
  have hd := toNat_digit d h
  constructor <;> rw [UInt8.le_iff_toNat_le, hd] <;> simp
  omega

theorem isDigit_uintDigits (h : c ∈ uintDigits n v) : IsDigit c := by
  induction n generalizing v with
  | zero => simp [uintDigits] at h
  | succ n ih =>
    rw [uintDigits] at h
    split at h
    · simp at h
    · rcases mem_cons.mp h with rfl | h
      · exact isDigit_digit _ (Nat.mod_lt _ (by norm_num))
      · exact ih h

theorem isDigit_uintToStr (h : c ∈ uintToStr v) : IsDigit c := by
  rw [uintToStr] at h
  split at h
  · obtain rfl := mem_singleton.mp h
    decide
  · exact isDigit_uintDigits (mem_reverse.mp h)

theorem decimalValue_uintDigits (h : v < 10 ^ n) : decimalValue (uintDigits n v).reverse = v := by
  induction n generalizing v with
  | zero =>
    have : v = 0 := by simpa using h
    simp [uintDigits, decimalValue, this]
  | succ n ih =>
    rw [uintDigits]
    split
    · simp [decimalValue, *]
    · rw [reverse_cons, decimalValue_append_single, ih (by rw [pow_succ] at h; omega),
        toNat_digit _ (Nat.mod_lt _ (by norm_num))]
      omega

/-- **Decimal round trip.** -/
theorem decimalValue_uintToStr (h : v < 10 ^ 20) : decimalValue (uintToStr v) = v := by
  rw [uintToStr]
  split
  · subst v
    decide
  · exact decimalValue_uintDigits h

theorem uintToStr_ne_nil (v : ℕ) : uintToStr v ≠ [] := by
  rw [uintToStr]
  split
  · simp
  · rename_i h
    simp [uintDigits, h]

theorem length_uintDigits_le {k : ℕ} (h : v < 10 ^ k) : (uintDigits n v).length ≤ k := by
  induction n generalizing v k with
  | zero => simp [uintDigits]
  | succ n ih =>
    rw [uintDigits]
    split
    · simp
    · rename_i hv
      cases k with
      | zero => exact absurd (by simpa using h) hv
      | succ k => simpa using ih (by rw [pow_succ] at h; omega)

theorem length_uintToStr_le {k : ℕ} (hk : 0 < k) (h : v < 10 ^ k) : (uintToStr v).length ≤ k := by
  rw [uintToStr]
  split
  · exact hk
  · simpa using length_uintDigits_le h

theorem notMem_splitOn (x : UInt8) (s : List UInt8) : ∀ part ∈ s.splitOn x, x ∉ part := by
  induction s with
  | nil => simp
  | cons c s ih =>
    obtain ⟨part, rest, hs⟩ := exists_cons_of_ne_nil (splitOn_ne_nil x s)
    rw [hs, forall_mem_cons] at ih
    rw [splitOn_cons_eq_if_modifyHead, hs]
    split
    · simpa using ih
    · rename_i hc
      refine forall_mem_cons.mpr ⟨?_, ih.2⟩
      simp only [mem_cons, not_or]
      exact ⟨fun h => hc (by simp [h]), ih.1⟩

theorem foldl_mod_decimal (m : ℕ) (s : List UInt8) (r : ℕ) :
    s.foldl (fun r c => (r * 10 + (c.toNat - 48)) % m) (r % m) =
      s.foldl (fun r c => r * 10 + (c.toNat - 48)) r % m := by
  induction s generalizing r with
  | nil => rfl
  | cons c s ih =>
    rw [foldl_cons, foldl_cons, ← ih]
    congr 1
    rw [Nat.add_mod, Nat.mul_mod, Nat.mod_mod, ← Nat.mul_mod, ← Nat.add_mod]

end CString
