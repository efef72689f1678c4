import MinimalOS.Lib.CString

/-!
# `snprintf` of `impl/string.c`

`vsnprintf_internal` goes through the format once and puts what each conversion gives into the
buffer, one character at a time. A character that no longer fits is dropped, and so is its count:
the value returned is the length of the text in the buffer, which is the length of the whole
output exactly if that fits (`snprintf_returns_iff`).
-/

namespace MinimalOS.Strings

open CString

/-- An argument: a machine word, or a string, which may be `NULL`. -/
inductive Arg
  | word (w : UInt64)
  | str (s : Option (List UInt8))

/-- What stands between `%` and the conversion character. -/
structure Spec where
  zeroPad : Bool
  width : ℕ
  longlong : Bool

def longMod : List UInt8 → Bool × List UInt8
  | 108 :: 108 :: fmt => (true, fmt)
  | 108 :: fmt => (true, fmt)
  | fmt => (false, fmt)

def parseSpec (fmt : List UInt8) : Spec × List UInt8 :=
  let zeroPad : Bool := fmt.head? = some 48
  let fmt := if zeroPad then fmt.tail else fmt
  let digits := fmt.takeWhile fun c => IsDigit c
  let (longlong, fmt) := longMod (fmt.drop digits.length)
  (⟨zeroPad, decimalValue digits, longlong⟩, fmt)

/-- `va_arg` of a signed type; `int` has 32 bits. -/
def signedArg (s : Spec) (w : UInt64) : ℤ :=
  if s.longlong then w.toBitVec.toInt else w.toUInt32.toBitVec.toInt

def unsignedArg (s : Spec) (w : UInt64) : ℕ := if s.longlong then w.toNat else w.toUInt32.toNat

def intToStr (v : ℤ) : List UInt8 :=
  if v < 0 then 45 :: uintToStr v.natAbs else uintToStr v.natAbs

/-- `append_padded_to_buffer` -/
def padded (s : Spec) (pad : UInt8) (text : List UInt8) : List UInt8 :=
  List.replicate (s.width - text.length) pad ++ text

/-- The `switch`: what conversion `c` gives and the arguments it leaves. A missing or wrong argument,
the end of the format in place of `c`, and a width beyond `int` are undefined. -/
def convert (s : Spec) (c : Option UInt8) (args : List Arg) : Option (List UInt8 × List Arg) :=
  if 2 ^ 31 ≤ s.width then none
  else match c, args with
  | some 115, .str text :: args => some (cstr (text.getD (ascii "(null)")), args)        -- s
  | some 99, .word w :: args => some ([w.toUInt8], args)                                -- c
  | some 100, .word w :: args => some (padded s 32 (intToStr (signedArg s w)), args)     -- d
  | some 105, .word w :: args => some (padded s 32 (intToStr (signedArg s w)), args)     -- i
  | some 117, .word w :: args => some (padded s 32 (uintToStr (unsignedArg s w)), args)  -- u
  | some 112, .word w :: args => some (ascii "0x" ++ hexToStr w.toNat, args)             -- p
  | some c, args =>
    if c = 120 ∨ c = 88 then                                                            -- x, X
      match args with
      | .word w :: args =>
        some (padded s (if s.zeroPad then 48 else 32) (hexToStr (unsignedArg s w)), args)
      | _ => none
    else if c ∈ [115, 99, 100, 105, 117, 112] then none
    else some (if c = 37 then [37] else [37, c], args)
  | none, _ => none

/-- The loop over the format, which is at most `n` characters long. -/
def formatPieces : ℕ → List UInt8 → List Arg → Option (List Piece)
  | 0, _, _ | _, [], _ => some []
  | n + 1, c :: fmt, args =>
    if c ≠ 37 then (formatPieces n fmt args).map (Piece.char c :: ·)
    else if fmt = [] then some []
    else
      let (s, fmt) := parseSpec fmt
      (convert s fmt.head? args).bind fun (text, args) =>
        (formatPieces n fmt.tail args).map (Piece.str text :: ·)

def pieces (fmt : List UInt8) (args : List Arg) : Option (List Piece) :=
  formatPieces fmt.length (cstr fmt) args

def fullText (fmt : List UInt8) (args : List Arg) : Option (List UInt8) :=
  (pieces fmt args).map (List.flatMap Piece.text)

/-- The value `snprintf` returns: the position in the buffer, as an `int`. -/
def returned (size : ℕ) (fmt : List UInt8) (args : List Arg) : Option ℤ :=
  (pieces fmt args).map fun ps => (BitVec.ofNat 32 (snprintf size ps).length).toInt

/-- **The value returned.** It is the length of the complete output, and at least `size` exactly
if the output was cut off, just when nothing was cut off and the length is an `int`. -/
theorem snprintf_returns_iff {size : ℕ} {fmt : List UInt8} {args : List Arg} {text : List UInt8}
    {ret : ℤ} (htext : fullText fmt args = some text) (hret : returned size fmt args = some ret) :
    (ret = text.length ∧ (size ≤ ret ↔ size ≤ text.length)) ↔
      (text.length < size ∨ text = []) ∧ text.length < 2 ^ 31 := by
  obtain ⟨ps, hps, rfl⟩ := Option.map_eq_some_iff.mp htext
  obtain ⟨_, hps', rfl⟩ := Option.map_eq_some_iff.mp hret
  obtain rfl := Option.some.inj (hps.symm.trans hps')
  rw [snprintf_eq, List.length_take, BitVec.toInt_eq_toNat_cond, BitVec.toNat_ofNat,
    ← List.length_eq_zero_iff]
  generalize (ps.flatMap Piece.text).length = n
  split_ifs <;> omega

/-- `snprintf(buffer, size, "%s/%s", "abc", "def")` -/
def pathArgs : List Arg := [.str (some (ascii "abc")), .str (some (ascii "def"))]

theorem snprintf_returns_seven : returned 8 (ascii "%s/%s") pathArgs = some 7 ∧
    (7 : ℤ) = (ascii "abc/def").length ∧ ((8 : ℕ) ≤ (7 : ℤ) ↔ 8 ≤ (ascii "abc/def").length) := by
  have htext : fullText (ascii "%s/%s") pathArgs = some (ascii "abc/def") := by decide +kernel
  have hret : returned 8 (ascii "%s/%s") pathArgs = some 7 := by decide +kernel
  exact ⟨hret, (snprintf_returns_iff htext hret).mpr (by decide +kernel)⟩

/-- In four bytes the path is cut off to `abc`, and the value returned is 3. -/
theorem snprintf_cut_off : fullText (ascii "%s/%s") pathArgs = some (ascii "abc/def") ∧
    returned 4 (ascii "%s/%s") pathArgs = some 3 := by
  decide +kernel

end MinimalOS.Strings
