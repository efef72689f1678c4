import MinimalOS.Lib.OwnLength

/-!
# Entries made by the explorer

`create_binary_entry` of `tools/minimafs-explorer/mfs-explorer.py` makes the text of an imported
file: a header, the content and `@END`. A Python string is a list of characters, `encode` turns it
into bytes.
-/

namespace MinimalOS.Minimafs.Explorer

open OwnLength List

def encode (s : List Char) : List UInt8 := s.flatMap String.utf8EncodeChar

def ljust (width : ℕ) (s : List Char) : List Char := s ++ List.replicate (width - s.length) ' '

/-- The part of the header before the digits of `FILELEN`. -/
def headBefore (fileFormat : List Char) : List Char :=
  "@HEADER@\n".toList ++
  "@FILETYPE:binary@\n".toList ++
  "@FILEFORMAT:".toList ++ fileFormat ++ "@\n".toList ++
  "@FILELEN:".toList

/-- The part of the header behind the digits of `FILELEN`. -/
def headBehind (filename createdDate parentFolder : List Char) : List Char :=
  "@\n".toList ++
  "@FILENAME:'".toList ++ ljust 32 filename ++ "'@\n".toList ++
  "@CREATEDDATE:'".toList ++ createdDate ++ "'@\n".toList ++
  "@LASTCHANGED:'".toList ++ createdDate ++ "'@\n".toList ++
  "@PARENTFOLDER:'".toList ++ parentFolder ++ "'@\n".toList ++
  "@RUNNABLE:False@\n".toList ++
  "@HIDDEN:False@\n".toList ++
  "@DATA@\n".toList

/-- The header as `create_binary_entry` formats it for a file length. -/
def header (filename fileFormat createdDate parentFolder : List Char) (filelen : ℕ) : List UInt8 :=
  encode (headBefore fileFormat ++ Nat.toDigits 10 filelen ++
    headBehind filename createdDate parentFolder)

def footer : List UInt8 := encode "@END\n".toList

/-- One round of the loop: the header for the length found so far, and the length with it. -/
def round (head : ℕ → List UInt8) (content : List UInt8) (s : ℕ × List UInt8) : ℕ × List UInt8 :=
  ((head s.1).length + content.length + footer.length, head s.1)

/-- `create_binary_entry` on the day `createdDate`: three rounds, starting from length zero. -/
def createBinaryEntry (filename fileFormat : List Char) (content : List UInt8)
    (parentFolder createdDate : List Char) : List UInt8 :=
  ((round (header filename fileFormat createdDate parentFolder) content)^[3] (0, [])).2 ++
    content ++ footer

/-! ## Lengths -/

@[simp] theorem encode_append (s t : List Char) : encode (s ++ t) = encode s ++ encode t :=
  flatMap_append

theorem isDigit_bounds {c : Char} (hc : c.isDigit = true) : 48 ≤ c.toNat ∧ c.toNat ≤ 57 := by
  simpa [Char.isDigit, UInt32.le_iff_toNat_le] using hc

theorem encode_digit {c : Char} (hc : c.isDigit = true) :
    String.utf8EncodeChar c = [UInt8.ofNat c.toNat] := by
  have := isDigit_bounds hc
  rw [String.utf8EncodeChar, if_pos (show c.val.toNat ≤ 0x7F from this.2.trans (by decide))]
  rfl

theorem encode_digits (n : ℕ) :
    encode (Nat.toDigits 10 n) = (Nat.toDigits 10 n).map fun c => UInt8.ofNat c.toNat := by
  rw [map_eq_flatMap]
  exact flatMap_congr fun c hc =>
    encode_digit (Nat.isDigit_of_mem_toDigits (by decide) le_rfl hc)

theorem encode_digits_injective {m n : ℕ}
    (h : encode (Nat.toDigits 10 m) = encode (Nat.toDigits 10 n)) : m = n := by
  have hback : ∀ n, (encode (Nat.toDigits 10 n)).map (fun b => Char.ofNat b.toNat) =
      Nat.toDigits 10 n := by
    intro n
    rw [encode_digits, map_map]
    refine (map_congr_left fun c hc => ?_).trans (map_id _)
    have hc := isDigit_bounds (Nat.isDigit_of_mem_toDigits (by decide) le_rfl hc)
    show Char.ofNat (UInt8.ofNat c.toNat).toNat = c
    rw [UInt8.toNat_ofNat_of_lt' (hc.2.trans_lt (by decide)), Char.ofNat_toNat]
  have hdigits : Nat.toDigits 10 m = Nat.toDigits 10 n := by
    rw [← hback m, h, hback n]
  calc m = Nat.ofDigitChars 10 (Nat.toDigits 10 m) 0 :=
        (Nat.ofDigitChars_toDigits (by decide) le_rfl).symm
    _ = n := by rw [hdigits, Nat.ofDigitChars_toDigits (by decide) le_rfl]

/-- The bytes of the header other than the digits of `FILELEN`. -/
def headerRest (filename fileFormat createdDate parentFolder : List Char) : ℕ :=
  (encode (headBefore fileFormat)).length +
    (encode (headBehind filename createdDate parentFolder)).length

variable (filename fileFormat createdDate parentFolder : List Char) (content : List UInt8)

theorem length_header (n : ℕ) :
    (header filename fileFormat createdDate parentFolder n).length =
      headerRest filename fileFormat createdDate parentFolder + decLen n := by
  rw [header, encode_append, encode_append, encode_digits, length_append, length_append,
    length_map, headerRest, decLen]
  omega

theorem header_injective {m n : ℕ}
    (h : header filename fileFormat createdDate parentFolder m =
      header filename fileFormat createdDate parentFolder n) : m = n := by
  rw [header, header] at h
  simp only [encode_append, append_cancel_left_eq,
    append_cancel_right_eq] at h
  exact encode_digits_injective h

theorem length_footer : footer.length = 5 := by decide

theorem rounds_eq {head : ℕ → List UInt8} {r x : ℕ} (hhead : ∀ n, (head n).length = r + decLen n)
    (hx : x = r + content.length + 5) :
    ((round head content)^[3] (0, [])).2 = head (x + decLen (x + 1)) := by
  have hlen : ∀ n, (head n).length + content.length + footer.length = x + decLen n := by
    intro n
    rw [hhead, length_footer]
    omega
  show head ((head ((head 0).length + content.length + footer.length)).length + content.length +
    footer.length) = _
  rw [hlen, hlen]
  rfl

theorem createBinaryEntry_exact_iff :
    (∃ n, createBinaryEntry filename fileFormat content parentFolder createdDate =
        header filename fileFormat createdDate parentFolder n ++ content ++ footer ∧
      n = (createBinaryEntry filename fileFormat content parentFolder createdDate).length) ↔
    ¬ ∃ k, headerRest filename fileFormat createdDate parentFolder + content.length + 5 + 1 < 10 ^ k ∧
      10 ^ k ≤ headerRest filename fileFormat createdDate parentFolder + content.length + 5 + k := by
  set x := headerRest filename fileFormat createdDate parentFolder + content.length + 5 with hx
  have hentry : createBinaryEntry filename fileFormat content parentFolder createdDate =
      header filename fileFormat createdDate parentFolder (x + decLen (x + 1)) ++ content ++ footer := by
    rw [createBinaryEntry, rounds_eq content
      (length_header filename fileFormat createdDate parentFolder) hx]
  have hlen : (createBinaryEntry filename fileFormat content parentFolder createdDate).length =
      x + decLen (x + decLen (x + 1)) := by
    rw [hentry, length_append, length_append, length_header, length_footer]
    omega
  rw [← settled_iff (show 1 ≤ decLen (x + 1) from decLen_pos _), hlen]
  constructor
  · rintro ⟨n, heq, hn⟩
    rw [hentry, append_cancel_right_eq, append_cancel_right_eq] at heq
    have := header_injective filename fileFormat createdDate parentFolder heq
    omega
  · intro h
    exact ⟨_, hentry, by rw [h]⟩

end MinimalOS.Minimafs.Explorer
