import MinimalOS.Minimafs.Tree

/-!
# Opening a file that was written

A run that holds the text of a file opens as that file: the header gives the length of the data,
if its tag stands nowhere behind its own line, and the data are served from behind the header.
-/

namespace MinimalOS.Minimafs

open CString Fs List

variable {d : Drive} {env : Env} {m : FileMetadata} {path : List UInt8} {readOnly : Bool}
  {entry : DirEntry} {header data tail : List UInt8}

/-! ## The run of a file -/

/-- The blocks of a run hold a text and zeros behind it. -/
structure Drive.HoldsText (d : Drive) (start n : ℕ) (text : List UInt8) : Prop where
  blocks : start + n ≤ 2 ^ 32
  size : n * blockSize < 2 ^ 32
  fits : text.length ≤ n * blockSize
  run : ∀ i < n, (d.disk (start + i)).bytes = Blocks.window 0 text blockSize (i * blockSize)

variable {text : List UInt8} {totalSize block i : ℕ} {h : FileHandle} {x : Extract}

theorem Drive.HoldsText.bytes {start n : ℕ} (h : d.HoldsText start n text) :
    d.bytes start n = text ++ List.replicate (n * blockSize - text.length) 0 := by
  rw [← Blocks.image_window h.fits]
  unfold Drive.bytes Blocks.image
  refine congrArg List.flatten (map_congr_left fun i hi => ?_)
  exact h.run i (mem_range.mp hi)

/-- What stands behind the header in the buffer that the header is parsed from. -/
def behind (header data beyond : List UInt8) : List UInt8 :=
  (Blocks.window 0 (fileText header data) blockSize 0).drop header.length ++ beyond

theorem window_fileText (hheader : header.length ≤ blockSize) (beyond : List UInt8) :
    Blocks.window 0 (fileText header data) blockSize 0 ++ beyond =
      header ++ behind header data beyond := by
  have htake : (Blocks.window 0 (fileText header data) blockSize 0).take header.length = header := by
    refine ext_getElem? fun j => ?_
    rw [List.getElem?_take]
    split_ifs with hj
    · rw [Blocks.getElem?_window _ _ _ (hj.trans_le hheader), Nat.zero_add, fileText,
        List.getElem?_append_left hj, List.getElem?_eq_getElem hj]
      rfl
    · exact (List.getElem?_eq_none (not_lt.mp hj)).symm
  rw [behind, ← append_assoc]
  nth_rewrite 2 [← htake]
  rw [take_append_drop]

/-! ## The header -/

theorem extract_generate (hm : m.Printable) (hclear : Clear "DATALEN" m tail)
    (hsize : (generateFileHeader m).length + m.dataLength ≤ totalSize) (htotal : totalSize < 2 ^ 32)
    (hheader : (generateFileHeader m).length + 5 < 2 ^ 32)
    (hempty : m.dataLength = 0 → (parsed m tail).fileLength ≤ (generateFileHeader m).length + 5) :
    extract (generateFileHeader m ++ tail) entry totalSize =
      ⟨{ parsed m tail with blockOffset := entry.blockOffset, blockCount := entry.blockCount },
        (generateFileHeader m).length, m.dataLength⟩ := by
  have hlen : (parsed m tail).dataLength = m.dataLength := parsed_dataLength hm (by omega) hclear
  unfold extract
  rw [parseFileHeader_generate, dataStart_generate hm (by omega), Option.getD_some,
    Option.getD_some]
  dsimp only
  rw [hlen, u32_eq_self hheader, if_neg (show ¬ (m.dataLength = 0 ∧ (generateFileHeader m).length + 5 <
    (parsed m tail).fileLength) from fun h => absurd (hempty h.1) (not_le.mpr h.2)),
    u32_eq_self (by omega), if_neg (by omega)]

/-! ## The handle -/

theorem looks_request (henv : env.Ok) : Looks (request env) d ⟨⟩ := ⟨_, request_run (henv.heap _)⟩

theorem looks_openStreaming (henv : env.Ok) (h : FileHandle) :
    ∃ h', Looks (openStreaming env h) d h' :=
  ⟨_, looks_moment.bind fun _ => (looks_require (henv.heap _)).bind fun _ => Looks.of_pure _⟩

section

variable (henv : env.Ok) (htotal : totalSize = h.fileBlockCount * blockSize)
  (hblocks : h.fileBlockOffset + h.fileBlockCount ≤ 2 ^ 32)
  (hin : h.dataOffsetInBlocks + h.dataSize ≤ totalSize)

include henv htotal hblocks hin

theorem looks_openLoaded : ∃ h', Looks (openLoaded env h totalSize) d h' := by
  unfold openLoaded
  by_cases hzero : h.dataSize = 0
  · rw [if_pos hzero]
    exact ⟨_, Looks.of_pure _⟩
  · rw [if_neg hzero]
    refine ⟨h.loaded ((((d.run h.fileBlockOffset h.fileBlockCount).flatMap Block.bytes).drop
      h.dataOffsetInBlocks).take h.dataSize), ?_⟩
    refine (looks_request henv).attempt.bind fun t => ?_
    rw [if_neg (not_not.mpr htotal)]
    refine (looks_readBlocks henv.readOk hblocks).bind fun u => ?_
    rw [if_neg (show ¬ totalSize < h.dataOffsetInBlocks + h.dataSize by omega)]
    split_ifs with hinline
    · exact (looks_request henv).bind fun _ => Looks.of_pure _
    · exact .of_pure _

theorem looks_openData : ∃ h', Looks (openData env h totalSize) d h' := by
  unfold openData
  split_ifs
  · obtain ⟨h', hh'⟩ := looks_openStreaming henv h
    exact ⟨h', hh'.attempt.bind fun _ => Looks.of_pure _⟩
  · exact looks_openLoaded henv htotal hblocks hin

end

/-- What is read from the first block of a file with the header of `m`. -/
def reread (m : FileMetadata) (data : List UInt8) (entry : DirEntry) (beyond : List UInt8) :
    Extract where
  metadata := { parsed m (behind (generateFileHeader m) data beyond) with
    blockOffset := entry.blockOffset, blockCount := entry.blockCount }
  dataOffset := (generateFileHeader m).length
  dataLength := data.length

theorem reread_dataOffset (m : FileMetadata) (data : List UInt8) (entry : DirEntry)
    (beyond : List UInt8) :
    (reread m data entry beyond).dataOffset = (generateFileHeader m).length := by
  rw [reread]

theorem reread_dataLength (m : FileMetadata) (data : List UInt8) (entry : DirEntry)
    (beyond : List UInt8) : (reread m data entry beyond).dataLength = data.length := by
  rw [reread]

/-- What a file has to keep clear of, to be read back as it was written. -/
structure Legible (env : Env) (m : FileMetadata) (data : List UInt8) : Prop where
  printable : m.Printable
  header : (generateFileHeader m).length ≤ blockSize
  dataLength : m.dataLength = data.length
  clear : ∀ t, Clear "DATALEN" m (behind (generateFileHeader m) data (env.beyond t))
  empty : data = [] → ∀ t,
    (parsed m (behind (generateFileHeader m) data (env.beyond t))).fileLength ≤
      (generateFileHeader m).length + 5

/-- **A file that was written opens** as what was written. -/
theorem looks_openEntry (path : List UInt8) (readOnly : Bool) (henv : env.Ok) (hfile : entry.type ≠ .dir) (hm : Legible env m data)
    (htext : d.HoldsText entry.blockOffset entry.blockCount
      (fileText (generateFileHeader m) data)) :
    ∃ h t, Looks (openEntry env path readOnly entry) d h ∧
      Opened d path readOnly entry (reread m data entry (env.beyond t)) h := by
  have hsize := htext.size
  have hlen := length_fileText (generateFileHeader m) data
  have hfits := htext.fits
  rw [hlen] at hfits
  have hinside : (generateFileHeader m).length + data.length ≤ entry.blockCount * blockSize :=
    (Nat.le_add_right _ 5).trans hfits
  have hcount : 0 < entry.blockCount := by
    by_contra hzero
    rw [Nat.le_zero.mp (not_lt.mp hzero)] at hfits
    omega
  have hfirst : (d.disk entry.blockOffset).bytes =
      Blocks.window 0 (fileText (generateFileHeader m) data) blockSize 0 := by
    have := htext.run 0 hcount
    rwa [Nat.add_zero] at this
  have hnil : m.dataLength = 0 → data = [] := fun hzero =>
    eq_nil_of_length_eq_zero (hm.dataLength.symm.trans hzero)
  have hsum : (generateFileHeader m).length + m.dataLength ≤ entry.blockCount * blockSize := by
    rw [hm.dataLength]
    exact hinside
  have hheader : (generateFileHeader m).length + 5 < 2 ^ 32 :=
    (Nat.add_le_add_right hm.header 5).trans_lt (by decide)
  have hextract : ∀ t, extract ((d.disk entry.blockOffset).bytes ++ env.beyond t) entry
      (entry.blockCount * blockSize) = reread m data entry (env.beyond t) := by
    intro t
    rw [hfirst, window_fileText hm.header]
    refine (extract_generate hm.printable (hm.clear t) hsum hsize hheader
      fun hzero => hm.empty (hnil hzero) t).trans ?_
    rw [reread, hm.dataLength]
  obtain ⟨t₁, h₁⟩ := looks_request henv
  obtain ⟨t₂, h₂⟩ := looks_readBlock henv.readOk
    entry.blockOffset
  obtain ⟨t₃, h₃⟩ := looks_request henv
  obtain ⟨x, hx⟩ : ∃ x, x = reread m data entry (env.beyond t₁) := ⟨_, rfl⟩
  have hin : x.dataOffset + x.dataLength ≤ entry.blockCount * blockSize := by
    rw [hx, reread_dataOffset]
    exact hinside
  obtain ⟨h, t₄, h₄⟩ := looks_openData (d := d.later t₃) henv
    (h := FileHandle.opened path readOnly entry x) rfl htext.blocks hin
  refine ⟨h, t₁, ⟨t₄, ?_⟩, hx ▸ (openData_opened henv.readOk h₄).of_later⟩
  unfold openEntry
  rw [bind_ok (require_true hfile), bind_ok h₁]
  rw [u32_eq_self hsize, if_neg (by omega), bind_ok moment_run, Drive.later_later, bind_ok h₂,
    Drive.later_later, bind_ok h₃]
  show openData env (FileHandle.opened path readOnly entry
    (extract ((d.disk entry.blockOffset).bytes ++ env.beyond t₁) entry
      (entry.blockCount * blockSize))) (entry.blockCount * blockSize) (d.later t₃) = _
  rw [hextract, ← hx]
  exact h₄

/-! ## The file -/

theorem Drive.HoldsText.later {start n : ℕ} (h : d.HoldsText start n text) (t : ℕ) :
    (d.later t).HoldsText start n text :=
  ⟨h.blocks, h.size, h.fits, h.run⟩

theorem Found.later {parent filename : List UInt8} (h : Found d parent filename block i entry)
    (t : ℕ) : Found (d.later t) parent filename block i entry := by
  refine ⟨?_, h.index, h.entry⟩
  rw [← h.folder]
  unfold Drive.folderBlock
  rw [Drive.walk_later]
  rfl

/-- **Opening by path.** -/
theorem looks_openFile (readOnly : Bool) (henv : env.Ok) (hmounted : d.mounted = true)
    (hfound : Found d (splitLocalPath path).1 (splitLocalPath path).2 block i entry)
    (hfile : entry.type ≠ .dir) (hm : Legible env m data)
    (htext : d.HoldsText entry.blockOffset entry.blockCount
      (fileText (generateFileHeader m) data)) :
    ∃ h t, Looks (openFile env path readOnly) d h ∧
      Opened d path readOnly entry (reread m data entry (env.beyond t)) h := by
  obtain ⟨t₁, h₁⟩ := looks_request henv
  obtain ⟨t₂, h₂⟩ := (hfound.later t₁).looks henv.readOk henv.heap
  obtain ⟨h, t₃, ⟨t₄, h₄⟩, hopened⟩ := looks_openEntry path readOnly henv
    hfile hm (htext.later t₂)
  refine ⟨h, t₃, ⟨t₄, ?_⟩, hopened.of_later⟩
  unfold openFile
  rw [bind_ok get_run, bind_ok (require_true hmounted)]
  dsimp only
  rw [bind_ok h₁, bind_ok h₂]
  exact h₄

section

variable (ho : Opened d path readOnly entry x h)

include ho

theorem Opened.size : h.dataSize = x.dataLength := by
  cases ho <;> rfl

theorem Opened.position : h.position = 0 := by
  cases ho <;> rfl

theorem Opened.start : h.fileBlockOffset = entry.blockOffset := by
  cases ho <;> rfl

theorem Opened.count : h.fileBlockCount = entry.blockCount := by
  cases ho <;> rfl

theorem Opened.offset : h.dataOffsetInBlocks = x.dataOffset := by
  cases ho <;> rfl

theorem Opened.metadata : h.metadata = x.metadata := by
  cases ho <;> rfl

theorem Opened.contents :
    h.contents d = ((d.bytes entry.blockOffset entry.blockCount).drop x.dataOffset).take
      x.dataLength := by
  cases ho <;> rfl

end

section Reread

variable {h : FileHandle}
  (ho : Opened d path readOnly entry (reread m data entry beyond) h)
  (htext : d.HoldsText entry.blockOffset entry.blockCount (fileText (generateFileHeader m) data))

include ho htext

theorem Opened.contents_reread : h.contents d = data := by
  rw [ho.contents, reread_dataOffset, reread_dataLength, htext.bytes, fileText, append_assoc,
    drop_left, append_assoc, take_left]

theorem Opened.sound_reread : h.Sound := by
  have hfits := htext.fits
  rw [length_fileText] at hfits
  have hin : (generateFileHeader m).length + data.length ≤ entry.blockCount * blockSize :=
    (Nat.le_add_right _ 5).trans hfits
  have hoffset : h.dataOffsetInBlocks = (generateFileHeader m).length := by
    rw [ho.offset, reread_dataOffset]
  have hsize : h.dataSize = data.length := by rw [ho.size, reread_dataLength]
  refine ⟨⟨?_, ?_⟩, ?_, ?_⟩
  · rw [ho.start, ho.count]
    exact htext.blocks
  · rw [hoffset, hsize, ho.count]
    exact hin
  · rw [hoffset, hsize]
    exact hin.trans htext.size.le
  · rw [hsize]
    exact ((Nat.le_add_left _ _).trans hin).trans_lt htext.size

/-- **Reading the file back.** -/
theorem Opened.looks_read_reread (hread : env.Reads) (hmounted : d.mounted = true) (t : ℕ) :
    ∃ h', Looks (readFile env h h.dataSize) (d.later t) (data, h') := by
  have hsize : h.dataSize = data.length := by rw [ho.size, reread_dataLength]
  rcases ho.serves (ho.sound_reread htext) with hzero | hserves
  · obtain rfl : data = [] := eq_nil_of_length_eq_zero (hsize.symm.trans hzero)
    refine ⟨h, ?_⟩
    unfold readFile
    rw [if_pos (by rw [hzero]; exact Nat.zero_le _)]
    exact .of_pure _
  · rw [ho.contents_reread htext] at hserves
    obtain ⟨h', hlooks, -, -⟩ := hserves.read hread hmounted h.dataSize t
    rw [ho.position, drop_zero, hsize, take_length] at hlooks
    exact ⟨h', hsize ▸ hlooks⟩

end Reread

end MinimalOS.Minimafs
