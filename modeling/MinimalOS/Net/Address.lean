import Mathlib.Data.Nat.Digits.Defs
import MinimalOS.Lib.CString

/-!
# Textual addresses: `ip_parse` and `ip_to_string` of `impl/net/ip.c`

The parser reads every character: digits extend the current octet, a dot ends it and anything else
is passed over. The value is that of the last four parts between dots, each by its digits modulo
256, so that a name with a digit in one of them is taken for an address.
-/

namespace MinimalOS.Net

open CString List

/-- `result` and `octet` of `ip_parse`. -/
structure IpScan where
  result : ℕ
  octet : ℕ

def IpScan.shift (m : IpScan) : ℕ := m.result * 2 ^ 8 % 2 ^ 32 + m.octet % 2 ^ 8

def ipStep (m : IpScan) (c : UInt8) : IpScan :=
  if IsDigit c then { m with octet := (m.octet * 10 + (c.toNat - 48)) % 2 ^ 32 }
  else if c = 46 then ⟨m.shift, 0⟩
  else m

def ipParse (s : List UInt8) : ℕ := ((cstr s).foldl ipStep ⟨0, 0⟩).shift

/-- The octet of `ip` that is `8 * k` bits up. -/
def octetAt (ip : UInt32) (k : ℕ) : ℕ := ip.toNat / 2 ^ (8 * k) % 2 ^ 8

def ipToString (ip : UInt32) : List UInt8 :=
  snprintf 16 [.str (uintToStr (octetAt ip 3)), .char 46, .str (uintToStr (octetAt ip 2)),
    .char 46, .str (uintToStr (octetAt ip 1)), .char 46, .str (uintToStr (octetAt ip 0))]

/-! ## The value of a string -/

/-- What the parser makes of the text between two dots. -/
def octetOf (part : List UInt8) : ℕ := decimalValue (part.filter (IsDigit ·)) % 2 ^ 8

def DottedQuad (s : List UInt8) : Prop := ((cstr s).splitOn 46).length = 4 ∧
  ∀ part ∈ (cstr s).splitOn 46, part ≠ [] ∧ (∀ c ∈ part, IsDigit c) ∧ decimalValue part < 2 ^ 8

instance (s : List UInt8) : Decidable (DottedQuad s) := inferInstanceAs (Decidable (_ ∧ _))

theorem foldl_ipStep_part {part : List UInt8} (h : 46 ∉ part) (r o : ℕ) :
    part.foldl ipStep ⟨r, o % 2 ^ 32⟩ = ⟨r, (part.filter (IsDigit ·)).foldl
      (fun o c => o * 10 + (c.toNat - 48)) o % 2 ^ 32⟩ := by
  induction part generalizing o with
  | nil => rfl
  | cons c part ih =>
    rw [mem_cons, not_or] at h
    by_cases hc : IsDigit c
    · have hstep : ipStep ⟨r, o % 2 ^ 32⟩ c = ⟨r, (o * 10 + (c.toNat - 48)) % 2 ^ 32⟩ := by
        rw [ipStep, if_pos hc, IpScan.mk.injEq]
        exact ⟨rfl, by dsimp only; omega⟩
      rw [foldl_cons, hstep, ih h.2, filter_cons_of_pos (by simpa using hc),
        foldl_cons]
    · rw [foldl_cons, ipStep, if_neg hc, if_neg (Ne.symm h.1), ih h.2,
        filter_cons_of_neg (by simpa using hc)]

theorem foldl_ipStep_parts (parts : List (List UInt8)) (hne : parts ≠ [])
    (h : ∀ part ∈ parts, 46 ∉ part) (r : ℕ) :
    (([46].intercalate parts).foldl ipStep ⟨r % 2 ^ 32, 0⟩).shift =
      (parts.map octetOf).foldl (fun r d => d + 2 ^ 8 * r) r % 2 ^ 32 := by
  -- the first part ends in `octet`, and a dot or the end of the string shifts it in
  have hfirst (part : List UInt8) (hpart : 46 ∉ part) (r : ℕ) :
      (part.foldl ipStep ⟨r % 2 ^ 32, 0⟩).shift = (octetOf part + 2 ^ 8 * r) % 2 ^ 32 := by
    have h := foldl_ipStep_part hpart (r % 2 ^ 32) 0
    rw [Nat.zero_mod] at h
    simp only [h, IpScan.shift, octetOf, decimalValue]
    omega
  induction parts generalizing r with
  | nil => exact absurd rfl hne
  | cons part rest ih =>
    rw [forall_mem_cons] at h
    cases rest with
    | nil => rw [intercalate_singleton, hfirst part h.1]; rfl
    | cons next rest =>
      rw [intercalate_cons_cons, foldl_append, foldl_append, foldl_cons,
        ipStep, if_pos rfl, hfirst part h.1]
      exact ih (cons_ne_nil next rest) h.2 _

/-- The parser's value, by the last four parts. -/
theorem ipParse_eq (s : List UInt8) : ipParse s =
    Nat.ofDigits (2 ^ 8) ((((cstr s).splitOn 46).map octetOf).reverse.take 4) := by
  have h := foldl_ipStep_parts _ (splitOn_ne_nil 46 (cstr s)) (notMem_splitOn 46 (cstr s)) 0
  rw [intercalate_splitOn, Nat.zero_mod] at h
  rw [ipParse, h, ← Nat.ofDigits_mod_pow_eq_ofDigits_take 4 (by norm_num), Nat.ofDigits_eq_foldr,
    foldr_reverse]
  · rfl
  · intro d hd
    obtain ⟨part, -, rfl⟩ := mem_map.mp (mem_reverse.mp hd)
    exact Nat.mod_lt _ (by norm_num)

theorem ofDigits_eq_zero_iff {b : ℕ} (hb : 0 < b) (l : List ℕ) :
    Nat.ofDigits b l = 0 ↔ ∀ d ∈ l, d = 0 := by
  induction l with
  | nil => simp
  | cons d l ih =>
    rw [Nat.ofDigits_cons, forall_mem_cons, ← ih, Nat.add_eq_zero_iff]
    simp [hb.ne']

theorem octetOf_uintToStr {v : ℕ} (h : v < 2 ^ 8) : octetOf (uintToStr v) = v := by
  rw [octetOf, filter_eq_self.mpr (fun c hc => by simpa using isDigit_uintToStr hc),
    decimalValue_uintToStr (by omega), Nat.mod_eq_of_lt h]

theorem ipToString_eq (ip : UInt32) : ipToString ip = [46].intercalate
    ([3, 2, 1, 0].map fun k => uintToStr (octetAt ip k)) := by
  have hlen (k : ℕ) : (uintToStr (octetAt ip k)).length ≤ 3 :=
    length_uintToStr_le (by norm_num) (by unfold octetAt; omega)
  rw [ipToString, snprintf_eq, take_of_length_le]
  · simp [Piece.text]
  · have := hlen 0
    have := hlen 1
    have := hlen 2
    have := hlen 3
    simp [Piece.text]
    omega

theorem ipParse_ipToString (ip : UInt32) : ipParse (ipToString ip) = ip.toNat := by
  have hdigit {k : ℕ} {c : UInt8} (hc : c ∈ uintToStr (octetAt ip k)) : c ≠ 0 ∧ c ≠ 46 := by
    have := isDigit_uintToStr hc
    constructor <;> rintro rfl <;> revert this <;> decide
  have hz : cstr (ipToString ip) = ipToString ip := by
    refine cstr_eq_self fun h0 => ?_
    simp [ipToString_eq] at h0
    rcases h0 with h | h | h | h <;> exact (hdigit h).1 rfl
  have hlt := ip.toNat_lt
  rw [ipParse_eq, hz, ipToString_eq, splitOn_intercalate]
  · simp [octetOf_uintToStr, octetAt, Nat.ofDigits_cons, Nat.mod_lt]
    omega
  · intro part hpart h46
    obtain ⟨k, -, rfl⟩ := mem_map.mp hpart
    exact (hdigit h46).2 rfl
  · simp

/-- **Addresses and names.** Written addresses are read back. A string that is not a dotted quad
has value 0 exactly when the digits of its last four parts are multiples of 256. -/
theorem ipParse_quad_iff (ip : UInt32) (s : List UInt8) : ipParse (ipToString ip) = ip.toNat ∧
    ((ipParse s ≠ 0 → DottedQuad s) ↔ DottedQuad s ∨
      ∀ d ∈ (((cstr s).splitOn 46).map octetOf).reverse.take 4, d = 0) := by
  refine ⟨ipParse_ipToString ip, ?_⟩
  rw [← ofDigits_eq_zero_iff (b := 2 ^ 8) (by norm_num), ← ipParse_eq]
  tauto

/-- The host `s3.example.com` is taken for `0.3.0.0`. -/
theorem hostname_parsed : ipParse (ascii "s3.example.com") = 0x00030000 ∧
    ¬ DottedQuad (ascii "s3.example.com") := by
  decide +kernel

end MinimalOS.Net
