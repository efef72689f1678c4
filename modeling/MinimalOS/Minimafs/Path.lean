import MinimalOS.Minimafs.Text

/-!
# Paths

`minimafs_parse_path` splits `drive:path`. A drive that starts with a digit is a number, any other
one the name of a mounted drive. The number is kept in a byte while its digits are read and is
compared with the number of drives only at the end, so what is compared is the number modulo 256.
-/

namespace MinimalOS.Minimafs

open CString

abbrev maxDrives : ℕ := 99

/-- What a path is compared with: an element of `g_drives`. -/
structure NamedDrive where
  mounted : Bool
  driveName : List UInt8
  driveNumber : ℕ

/-- The loop over the digits, with the byte the number is kept in. -/
def readDriveNumber : ℕ → List UInt8 → Option ℕ
  | r, [] => some r
  | r, c :: cs =>
    if IsDigit c then readDriveNumber ((r * 10 + (c.toNat - 48)) % 2 ^ 8) cs else none

def parseDriveNumber (driveStr : List UInt8) : Option ℕ :=
  (readDriveNumber 0 driveStr).bind fun n => if maxDrives ≤ n then none else some n

def findDrive (drives : List NamedDrive) (driveStr : List UInt8) : Option ℕ :=
  (drives.find? fun drive => drive.mounted ∧ cstr drive.driveName = driveStr).map (·.driveNumber)

/-- `minimafs_parse_path`: the drive's number and the path on the drive. -/
def parsePath (drives : List NamedDrive) (path : List UInt8) : Option (ℕ × List UInt8) :=
  (strchr 0x3A path).bind fun colon =>
    let driveStr := path.take (path.length - colon.length)
    if driveStr.length = 0 ∨ 63 < driveStr.length then none
    else
      (if driveStr.head?.any fun c => IsDigit c then parseDriveNumber driveStr
        else findDrive drives driveStr).map fun n => (n, cstr colon.tail)

/-! ## The number in a byte -/

variable {s : List UInt8}

theorem readDriveNumber_digits (hs : ∀ c ∈ s, IsDigit c) (r : ℕ) :
    readDriveNumber (r % 2 ^ 8) s =
      some (s.foldl (fun r c => r * 10 + (c.toNat - 48)) r % 2 ^ 8) := by
  induction s generalizing r with
  | nil => rfl
  | cons c cs ih =>
    rw [readDriveNumber, if_pos (hs c List.mem_cons_self), List.foldl_cons,
      ← ih (fun x hx => hs x (List.mem_cons_of_mem c hx))]
    congr 1
    omega

theorem parseDriveNumber_digits (hs : ∀ c ∈ s, IsDigit c) :
    parseDriveNumber s =
      if maxDrives ≤ decimalValue s % 2 ^ 8 then none else some (decimalValue s % 2 ^ 8) := by
  rw [parseDriveNumber, show readDriveNumber 0 s = _ from readDriveNumber_digits hs 0]
  rfl

theorem colon_notMem (hs : ∀ c ∈ s, IsDigit c) : (0 : UInt8) ∉ s ∧ (0x3A : UInt8) ∉ s :=
  ⟨fun h => absurd (hs 0 h) (by decide), fun h => absurd (hs _ h) (by decide)⟩

/-- **A path with a number.** The drive is the number modulo 256. -/
theorem parsePath_digits (drives : List NamedDrive) {digits : List UInt8} (rest : List UInt8)
    (hpos : 0 < digits.length) (hlen : digits.length ≤ 63) (hdigits : ∀ c ∈ digits, IsDigit c) :
    parsePath drives (digits ++ 0x3A :: rest) =
      if maxDrives ≤ decimalValue digits % 2 ^ 8 then none
      else some (decimalValue digits % 2 ^ 8, cstr rest) := by
  obtain ⟨hzero, hcolon⟩ := colon_notMem hdigits
  have htake : (digits ++ 0x3A :: rest).take
      ((digits ++ 0x3A :: rest).length - (0x3A :: rest).length) = digits := by
    rw [List.length_append, Nat.add_sub_cancel, List.take_left]
  have hhead : (digits.head?.any fun c => IsDigit c) = true := by
    cases digits with
    | nil => exact absurd hpos (lt_irrefl 0)
    | cons c cs => simpa using hdigits c List.mem_cons_self
  rw [parsePath, strchr_append rest hzero hcolon (by decide), Option.bind_some]
  rw [htake, if_neg (by omega), parseDriveNumber_digits hdigits]
  split_ifs <;> rfl

/-- **Numbers that a byte keeps.** A path with a decimal drive number is parsed as that number,
and rejected from the number of drives on, exactly when the byte has the number itself or one that
is rejected as well. -/
theorem parsePath_number_iff (drives : List NamedDrive) (digits rest : List UInt8)
    (hpos : 0 < digits.length) (hlen : digits.length ≤ 63) (hdigits : ∀ c ∈ digits, IsDigit c) :
    parsePath drives (digits ++ 0x3A :: rest) =
        (if decimalValue digits < maxDrives then some (decimalValue digits, cstr rest) else none) ↔
      decimalValue digits < 2 ^ 8 ∨ maxDrives ≤ decimalValue digits % 2 ^ 8 := by
  rw [parsePath_digits drives rest hpos hlen hdigits]
  obtain ⟨n, hn⟩ : ∃ n, n = decimalValue digits := ⟨_, rfl⟩
  constructor
  · intro h
    by_contra hnot
    obtain ⟨hbig, hsmall⟩ := not_or.mp hnot
    -- accepted as a small number
    rw [if_neg hsmall, if_neg (by unfold maxDrives; omega)] at h
    cases h
  · rintro (hlt | hge)
    · rw [Nat.mod_eq_of_lt hlt]
      split_ifs <;> first | rfl | omega
    · rw [if_pos hge, if_neg fun hlt => ?_]
      omega

theorem parsePath_number_twelve :
    parsePath [] (ascii "12" ++ 0x3A :: ascii "/a") = some (12, ascii "/a") :=
  (parsePath_number_iff [] (ascii "12") (ascii "/a") (by decide) (by decide) (by decide +kernel)).mpr
    (Or.inl (by decide))

/-- Drive 256 is drive 0. -/
theorem parsePath_wraps : parsePath [] (ascii "256:/x") = some (0, ascii "/x") ∧
    parsePath [] (ascii "0:/x") = some (0, ascii "/x") := by
  decide

end MinimalOS.Minimafs
