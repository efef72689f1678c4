import MinimalOS.Minimafs.Text
import MinimalOS.Minimafs.Explorer

/-!
# The length a header records

`FILELEN` is the length of the whole file, the header with the digits of `FILELEN` among it. The
kernel formats the header three times, each time with the length the last header gave, and writes
the third one; `create_binary_entry` does the same from a shorter start. Both are right unless the
digits carry the length over a power of ten between the last two headers, and the kernel's sums are
modulo `2 ^ 32`.
-/

namespace MinimalOS.Minimafs

open CString OwnLength Function

/-! ## Settling a header -/

/-- The length for the header size found so far, and the size of the header that records it. -/
def settlePass (dataSize : ℕ) (s : FileMetadata × ℕ) : FileMetadata × ℕ :=
  let m := { s.1 with fileLength := u32 (s.2 + dataSize + 5) }
  (m, u32 (generateFileHeader m).length)

/-- Two passes to stabilise the header size, and the pass whose header is written. -/
def settleHeader (m : FileMetadata) (dataSize : ℕ) : FileMetadata :=
  ((settlePass dataSize)^[3] ({ m with dataLength := dataSize, fileLength := 0 }, 0)).1

/-- The metadata that `minimafs_write_file_to_disk_segments` formats for two segments. -/
def segmentsMetadata (m : FileMetadata) (seg1Len seg2Len : ℕ) : FileMetadata :=
  settleHeader m (u32 (seg1Len + seg2Len))

/-- The metadata that `minimafs_append_file` formats, for the metadata it has parsed. -/
def appendMetadata (m : FileMetadata) (lastChanged : List UInt8) (oldDataLen dataLen : ℕ) :
    FileMetadata :=
  settleHeader { m with lastChanged := lastChanged } (u32 (oldDataLen + dataLen))

/-- The bytes of a header other than the digits of `FILELEN`. -/
def headerRest (m : FileMetadata) (dataSize : ℕ) : ℕ :=
  (generateFileHeader { m with dataLength := dataSize, fileLength := 0 }).length - 1

/-! ## Decimal lengths -/

theorem decimalValue_lt {s : List UInt8} (hs : ∀ c ∈ s, IsDigit c) :
    decimalValue s < 10 ^ s.length := by
  induction s using List.reverseRecOn with
  | nil => decide
  | append_singleton s c ih =>
    have hc : c.toNat ≤ 57 := by
      have := (hs c (by simp)).2
      rwa [UInt8.le_iff_toNat_le] at this
    have hs := ih fun d hd => hs d (by simp [hd])
    rw [decimalValue_append_single, List.length_append, List.length_singleton]
    omega

theorem length_uintToStr {v : ℕ} (h : v < 10 ^ 20) : (uintToStr v).length = decLen v := by
  refine le_antisymm (length_uintToStr_le (decLen_pos v) (lt_pow_decLen v)) ?_
  rw [decLen_le_iff (List.length_pos_iff.mpr (uintToStr_ne_nil v))]
  calc v = decimalValue (uintToStr v) := (decimalValue_uintToStr h).symm
    _ < _ := decimalValue_lt fun c hc => isDigit_uintToStr hc

theorem length_generateFileHeader (m : FileMetadata) (dataSize fileLength : ℕ)
    (h : fileLength < 10 ^ 20) :
    (generateFileHeader { m with dataLength := dataSize, fileLength := fileLength }).length =
      headerRest m dataSize + decLen fileLength := by
  have hzero : (uintToStr 0).length = 1 := rfl
  rw [← length_uintToStr h]
  unfold headerRest generateFileHeader runnableText
  simp only [List.length_append]
  omega

/-! ## The three passes -/

theorem u32_lt (n : ℕ) : u32 n < 2 ^ 32 := Nat.mod_lt _ (by decide)

theorem u32_eq_self {n : ℕ} (h : n < 2 ^ 32) : u32 n = n := Nat.mod_eq_of_lt h

theorem decLen_u32_le (n : ℕ) : decLen (u32 n) ≤ 10 :=
  (decLen_le_iff (by decide)).mpr ((u32_lt n).trans (by decide))

variable (m : FileMetadata) (dataSize : ℕ)

/-- The header size that a pass finds, for the size found before it. -/
def passSize (size : ℕ) : ℕ := u32 (headerRest m dataSize + decLen (u32 (size + dataSize + 5)))

theorem settlePass_eq (fileLength size : ℕ) :
    settlePass dataSize ({ m with dataLength := dataSize, fileLength := fileLength }, size) =
      ({ m with dataLength := dataSize, fileLength := u32 (size + dataSize + 5) },
        passSize m dataSize size) := by
  unfold settlePass passSize
  rw [← length_generateFileHeader m dataSize _ ((u32_lt _).trans (by decide))]

theorem settleHeader_eq :
    settleHeader m dataSize = { m with
      dataLength := dataSize
      fileLength := u32 (passSize m dataSize (passSize m dataSize 0) + dataSize + 5) } := by
  unfold settleHeader
  simp only [iterate_succ, iterate_zero, comp_apply, id_eq,
    settlePass_eq]

/-- What a header and its data have to keep clear of: the length must fit 32 bits with ten digits,
and its own digits must not carry it over a power of ten that the first guess is below. -/
def Settles (rest dataSize : ℕ) : Prop :=
  rest + dataSize + 5 + 10 < 2 ^ 32 ∧
    ¬ ∃ k, rest + dataSize + 5 + decLen (dataSize + 5) < 10 ^ k ∧ 10 ^ k ≤ rest + dataSize + 5 + k

theorem settleHeader_fileLength (h : headerRest m dataSize + dataSize + 5 + 10 < 2 ^ 32) :
    (settleHeader m dataSize).fileLength = headerRest m dataSize + dataSize + 5 +
      decLen (headerRest m dataSize + dataSize + 5 + decLen (dataSize + 5)) := by
  have hsize : ∀ size, size + dataSize + 5 < 2 ^ 32 →
      passSize m dataSize size = headerRest m dataSize + decLen (size + dataSize + 5) := by
    intro size hsize
    have hten := decLen_u32_le (size + dataSize + 5)
    unfold passSize
    rw [u32_eq_self hsize] at hten ⊢
    exact u32_eq_self (by omega)
  have hfirst := hsize 0 (by omega)
  have hten := decLen_u32_le (0 + dataSize + 5)
  rw [u32_eq_self (by omega)] at hten
  have hten' := decLen_u32_le (passSize m dataSize 0 + dataSize + 5)
  rw [u32_eq_self (by omega)] at hten'
  rw [settleHeader_eq, hsize _ (by omega)]
  dsimp only
  rw [u32_eq_self (by omega), hfirst, Nat.zero_add]
  have hsum : headerRest m dataSize + decLen (dataSize + 5) + dataSize + 5 =
      headerRest m dataSize + dataSize + 5 + decLen (dataSize + 5) := by omega
  rw [hsum]
  omega

/-- The length that is recorded is never more than that of the file. -/
theorem settleHeader_fileLength_le
    (h : (generateFileHeader (settleHeader m dataSize)).length + dataSize + 5 + 10 < 2 ^ 32) :
    (settleHeader m dataSize).fileLength ≤
      (generateFileHeader (settleHeader m dataSize)).length + dataSize + 5 := by
  have hlen : (generateFileHeader (settleHeader m dataSize)).length =
      headerRest m dataSize + decLen (settleHeader m dataSize).fileLength :=
    length_generateFileHeader m _ _ ((u32_lt _).trans (by decide))
  have hlength := settleHeader_fileLength m dataSize (by omega)
  have hguess : decLen (dataSize + 5) ≤
      decLen (headerRest m dataSize + dataSize + 5 + decLen (dataSize + 5)) := decLen_mono (by omega)
  have hdigits : decLen (headerRest m dataSize + dataSize + 5 + decLen (dataSize + 5)) ≤
      decLen (settleHeader m dataSize).fileLength := decLen_mono (by omega)
  omega

theorem settleHeader_wraps (h : 2 ^ 32 ≤ headerRest m dataSize + dataSize + 5 + 10) :
    (settleHeader m dataSize).fileLength ≠
      headerRest m dataSize + dataSize + 5 + decLen (settleHeader m dataSize).fileLength := by
  rw [settleHeader_eq]
  dsimp only
  set size := passSize m dataSize 0
  set length := u32 (passSize m dataSize size + dataSize + 5) with hlength
  intro heq
  have hbig : ¬ decLen length ≤ 9 := by
    rw [decLen_le_iff (by decide)]
    omega
  have hmod : length = (headerRest m dataSize + decLen (u32 (size + dataSize + 5)) + dataSize + 5) %
      2 ^ 32 := by
    rw [hlength]
    unfold passSize u32
    omega
  omega

/-- **Settling.** The header that is written records the length of the file it starts. -/
theorem settleHeader_exact_iff (dataBytes : ℕ) :
    (settleHeader m (u32 dataBytes)).fileLength =
        (generateFileHeader (settleHeader m (u32 dataBytes))).length + dataBytes + 5 ↔
      Settles (headerRest m (u32 dataBytes)) dataBytes := by
  have hlen : (generateFileHeader (settleHeader m (u32 dataBytes))).length =
      headerRest m (u32 dataBytes) + decLen (settleHeader m (u32 dataBytes)).fileLength := by
    exact length_generateFileHeader m _ _ ((u32_lt _).trans (by decide))
  have hrecorded : (settleHeader m (u32 dataBytes)).fileLength < 2 ^ 32 := by
    exact u32_lt _
  rw [hlen]
  by_cases hdata : dataBytes < 2 ^ 32
  · rw [u32_eq_self hdata] at *
    by_cases hfits : headerRest m dataBytes + dataBytes + 5 + 10 < 2 ^ 32
    · rw [Settles, ← settled_iff (decLen_mono (by omega)),
        settleHeader_fileLength m dataBytes hfits]
      omega
    · have hwraps := settleHeader_wraps m dataBytes (not_lt.mp hfits)
      exact iff_of_false (fun h => hwraps (by omega)) fun h => hfits h.1
  · refine iff_of_false (fun h => by omega) fun h => ?_
    have := h.1
    omega

/-- **Recorded lengths.** A file written from segments, an appended file and an imported one carry
their own length in `FILELEN`, each exactly under the condition for its writer. -/
theorem recorded_length_exact_iff (m : FileMetadata) (lastChanged : List UInt8)
    (seg1Len seg2Len oldDataLen dataLen : ℕ)
    (filename fileFormat createdDate parentFolder : List Char) (content : List UInt8) :
    ((segmentsMetadata m seg1Len seg2Len).fileLength =
          (generateFileHeader (segmentsMetadata m seg1Len seg2Len)).length +
            (seg1Len + seg2Len) + 5 ↔
        Settles (headerRest m (u32 (seg1Len + seg2Len))) (seg1Len + seg2Len)) ∧
    ((appendMetadata m lastChanged oldDataLen dataLen).fileLength =
          (generateFileHeader (appendMetadata m lastChanged oldDataLen dataLen)).length +
            (oldDataLen + dataLen) + 5 ↔
        Settles (headerRest { m with lastChanged := lastChanged } (u32 (oldDataLen + dataLen)))
          (oldDataLen + dataLen)) ∧
    ((∃ n, Explorer.createBinaryEntry filename fileFormat content parentFolder createdDate =
          Explorer.header filename fileFormat createdDate parentFolder n ++ content ++
            Explorer.footer ∧
        n = (Explorer.createBinaryEntry filename fileFormat content parentFolder
          createdDate).length) ↔
      ¬ ∃ k, Explorer.headerRest filename fileFormat createdDate parentFolder + content.length + 5 +
          1 < 10 ^ k ∧
        10 ^ k ≤ Explorer.headerRest filename fileFormat createdDate parentFolder + content.length +
          5 + k) :=
  ⟨settleHeader_exact_iff m (seg1Len + seg2Len),
    settleHeader_exact_iff { m with lastChanged := _ } (oldDataLen + dataLen),
    Explorer.createBinaryEntry_exact_iff _ _ _ _ _⟩

theorem headerRest_parentFolder (p : List UInt8) (hm : m.parentFolder = []) :
    headerRest { m with parentFolder := p } dataSize = headerRest m dataSize + p.length := by
  have hzero : (uintToStr 0).length = 1 := rfl
  unfold headerRest generateFileHeader runnableText
  simp only [List.length_append, hm, List.length_nil]
  omega

def rootFile : FileMetadata where
  filename := ascii "a"
  filetype := ascii "text"
  fileformat := ascii "txt"
  createdDate := ascii "01Jan2026"
  lastChanged := ascii "01Jan2026"

/-- The same file in a folder with a path of 792 letters. -/
def deepFile : FileMetadata := { rootFile with parentFolder := List.replicate 792 97 }

/-- The third header is the first with a length of four digits, and records one byte less than it
starts: in the kernel for a long path, in the explorer for 781 bytes of content. -/
theorem recorded_length_short :
    (segmentsMetadata deepFile 10 0).fileLength ≠
        (generateFileHeader (segmentsMetadata deepFile 10 0)).length + (10 + 0) + 5 ∧
    ¬ ∃ n, Explorer.createBinaryEntry "a".toList "bin".toList (List.replicate 781 0) "/".toList
          "01jan2026".toList =
        Explorer.header "a".toList "bin".toList "01jan2026".toList "/".toList n ++
          List.replicate 781 0 ++ Explorer.footer ∧
      n = (Explorer.createBinaryEntry "a".toList "bin".toList (List.replicate 781 0) "/".toList
        "01jan2026".toList).length := by
  constructor
  · have hroot : headerRest rootFile 10 = 190 := by decide +kernel
    have hrest : headerRest deepFile 10 = 982 := by
      rw [deepFile, headerRest_parentFolder rootFile 10 _ rfl, hroot, List.length_replicate]
    have hten : u32 (10 + 0) = 10 := rfl
    rw [Ne, segmentsMetadata, settleHeader_exact_iff, hten, hrest]
    rintro ⟨-, h⟩
    exact h ⟨3, by decide, by decide⟩
  · rw [Explorer.createBinaryEntry_exact_iff, not_not]
    have hrest : Explorer.headerRest "a".toList "bin".toList "01jan2026".toList "/".toList = 211 := by
      decide +kernel
    exact ⟨3, by rw [hrest, List.length_replicate]; decide, by rw [hrest, List.length_replicate]; decide⟩

end MinimalOS.Minimafs
