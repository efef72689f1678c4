import MinimalOS.Lzss.RoundTrip
import MinimalOS.Pkg.Confined
import MinimalOS.Pkg.Zip

/-!
# Archives read as they were laid out

The patches of an archive follow one another, so the table and every payload are read back as they
were written. An entry of such a table is extracted the way its item would be created without an
archive (`recreateItem`), and so are all of them (`unzipEntries_rows`).
-/

namespace MinimalOS.Pkg

open CString Patch List Option

variable {σ : Type} {F : FileSystem σ}

/-! ## Layout -/

theorem length_strncpy (n : ℕ) (s : List UInt8) : (strncpy n s).length = n := by
  rw [strncpy, length_append, length_take, length_replicate]
  omega

theorem length_fields (f : Fields) : (fieldsLayout.enc f).length = 20 := fieldsLayout.length_enc f

variable {i size n : ℕ} {rows : List Row} {pairs : List (ZipItem × Payload)} {raw : List UInt8}
  {fs : σ}

theorem entryPatches_bounds {w : ℕ × List UInt8} (h : w ∈ entryPatches i rows) :
    entryBase i ≤ w.1 ∧ w.1 + w.2.length ≤ entryBase (i + rows.length) := by
  induction rows generalizing i with
  | nil => simp [entryPatches] at h
  | cons row rows ih =>
    rw [length_cons]
    unfold entryBase mpkgEntrySize at *
    rcases mem_cons.mp h with rfl | h
    · rw [length_strncpy]
      unfold entryBase mpkgEntrySize mpkgNameSize
      omega
    rcases mem_cons.mp h with rfl | h
    · rw [length_fields]
      unfold entryBase mpkgEntrySize mpkgNameSize
      omega
    · have := ih h
      omega

theorem entryPatches_pairwise (i : ℕ) (rows : List Row) :
    (entryPatches i rows).Pairwise Before := by
  induction rows generalizing i with
  | nil => exact List.Pairwise.nil
  | cons row rows ih =>
    have hrest : ∀ w ∈ entryPatches (i + 1) rows, entryBase i + 148 ≤ w.1 := fun w hw => by
      have := (entryPatches_bounds hw).1
      unfold entryBase mpkgEntrySize at *
      omega
    refine pairwise_cons.mpr ⟨fun w hw => ?_, pairwise_cons.mpr ⟨fun w hw => ?_, ih _⟩⟩
    · rw [Before, length_strncpy]
      rcases mem_cons.mp hw with rfl | hw
      · exact Nat.add_le_add_left (by decide) _
      · exact le_trans (Nat.add_le_add_left (by decide) _) (hrest w hw)
    · rw [Before, length_fields]
      exact le_trans (by unfold mpkgNameSize; omega) (hrest w hw)

theorem mem_entryPatches {k : ℕ} {row : Row} (h : rows[k]? = some row) (i : ℕ) :
    (entryBase (i + k), strncpy (mpkgNameSize - 1) row.item.relName) ∈ entryPatches i rows ∧
      (entryBase (i + k) + mpkgNameSize, fieldsLayout.enc row.fields) ∈ entryPatches i rows := by
  induction rows generalizing i k with
  | nil => simp at h
  | cons row' rows ih =>
    cases k with
    | zero =>
      obtain rfl : row' = row := by simpa using h
      simp [entryPatches]
    | succ k =>
      have := ih (by simpa using h) (i + 1)
      rw [show i + 1 + k = i + (k + 1) by omega] at this
      exact ⟨mem_cons_of_mem _ (mem_cons_of_mem _ this.1),
        mem_cons_of_mem _ (mem_cons_of_mem _ this.2)⟩

theorem payloadPatches_cons (row : Row) (rows : List Row) :
    payloadPatches (row :: rows) =
      (if row.item.isDir = false ∧ 0 < row.payload.bytes.length then
        [(row.dataOffset, row.payload.bytes)] else []) ++ payloadPatches rows := by
  unfold payloadPatches
  by_cases h : row.item.isDir = false ∧ 0 < row.payload.bytes.length
  · rw [filterMap_cons, if_pos h, if_pos h]
    rfl
  · rw [filterMap_cons, if_neg h, if_neg h]
    rfl

/-- The payloads lie one behind the other. -/
structure Placed (rows : List Row) (start size : ℕ) : Prop where
  le : start ≤ size
  lt : size < 2 ^ 32
  within : ∀ w ∈ payloadPatches rows, start ≤ w.1 ∧ w.1 + w.2.length ≤ size
  pairwise : (payloadPatches rows).Pairwise Before
  offset : ∀ row ∈ rows, row.dataOffset < 2 ^ 32
  length : ∀ row ∈ rows, row.item.isDir = false → row.payload.bytes.length < 2 ^ 32

theorem placeRows_spec {start : ℕ} (hstart : start < 2 ^ 32)
    (h : placeRows pairs start = some (rows, size)) :
    rows.map (fun row => (row.item, row.payload)) = pairs ∧ Placed rows start size := by
  induction pairs generalizing start rows with
  | nil =>
    obtain ⟨rfl, rfl⟩ := Prod.mk.inj (Option.some.inj h)
    exact ⟨rfl, le_rfl, hstart, by simp [payloadPatches], by simp [payloadPatches], by simp, by simp⟩
  | cons pair pairs ih =>
    obtain ⟨item, payload⟩ := pair
    rw [placeRows] at h
    split at h
    · rename_i hdir
      obtain ⟨⟨rows', size'⟩, hrest, h⟩ := bind_eq_some_iff.mp h
      obtain ⟨rfl, rfl⟩ := Prod.mk.inj (Option.some.inj h)
      obtain ⟨hmap, hplaced⟩ := ih hstart hrest
      have hpatch : payloadPatches (⟨item, payload, 0⟩ :: rows') = payloadPatches rows' := by
        rw [payloadPatches_cons, if_neg (by simp [hdir])]
        rfl
      refine ⟨by rw [map_cons, hmap], hplaced.le, hplaced.lt, ?_, ?_, ?_, ?_⟩
      · rw [hpatch]
        exact hplaced.within
      · rw [hpatch]
        exact hplaced.pairwise
      · exact forall_mem_cons.mpr ⟨by norm_num, hplaced.offset⟩
      · exact forall_mem_cons.mpr ⟨fun h => by simp [hdir] at h, hplaced.length⟩
    · split at h
      · simp at h
      rename_i hroom
      unfold uint32Max at hroom
      obtain ⟨⟨rows', size'⟩, hrest, h⟩ := bind_eq_some_iff.mp h
      obtain ⟨rfl, rfl⟩ := Prod.mk.inj (Option.some.inj h)
      obtain ⟨hmap, hplaced⟩ := ih (by omega) hrest
      have hle := hplaced.le
      refine ⟨by rw [map_cons, hmap], by omega, hplaced.lt, fun w hw => ?_, ?_,
        forall_mem_cons.mpr ⟨hstart, hplaced.offset⟩,
        forall_mem_cons.mpr ⟨fun _ => (by omega : payload.bytes.length < 2 ^ 32), hplaced.length⟩⟩
      · rw [payloadPatches_cons] at hw
        rcases mem_append.mp hw with hw | hw
        · split at hw
          · obtain rfl := mem_singleton.mp hw
            exact ⟨le_rfl, hle⟩
          · simp at hw
        · have := hplaced.within w hw
          omega
      · rw [payloadPatches_cons]
        refine pairwise_append.mpr ⟨?_, hplaced.pairwise, fun w hw v hv => ?_⟩
        · split
          · exact pairwise_singleton _ _
          · exact List.Pairwise.nil
        · split at hw
          · obtain rfl := mem_singleton.mp hw
            exact (hplaced.within v hv).1
          · simp at hw

section Archive

variable {rows : List Row} {size : ℕ} (h : Placed rows (entryBase rows.length) size)

theorem length_u32 (v : UInt32) : (Packed.u32.enc v).length = 4 := Packed.u32.length_enc v

theorem length_mpkgMagic : mpkgMagic.length = 8 := rfl

include h in
theorem archivePatches_pairwise : (archivePatches rows).Pairwise Before := by
  have hbody : ∀ w ∈ entryPatches 0 rows ++ payloadPatches rows, 16 ≤ w.1 := fun w hw => by
    have hbase : 16 ≤ entryBase 0 ∧ 16 ≤ entryBase rows.length := by
      unfold entryBase mpkgHeaderSize
      omega
    rcases mem_append.mp hw with hw | hw
    · have := entryPatches_bounds hw
      omega
    · have := h.within w hw
      omega
  have hpair : (entryPatches 0 rows ++ payloadPatches rows).Pairwise Before := by
    refine pairwise_append.mpr ⟨entryPatches_pairwise 0 rows, h.pairwise, fun w hw v hv => ?_⟩
    have := entryPatches_bounds hw
    rw [Nat.zero_add] at this
    exact this.2.trans (h.within v hv).1
  refine pairwise_cons.mpr ⟨fun w hw => ?_, pairwise_cons.mpr ⟨fun w hw => ?_,
    pairwise_cons.mpr ⟨fun w hw => ?_, hpair⟩⟩⟩
  · rw [Before, length_mpkgMagic]
    rcases mem_cons.mp hw with rfl | hw
    · exact le_rfl
    rcases mem_cons.mp hw with rfl | hw
    · exact (by decide : 0 + 8 ≤ 12)
    · have := hbody w hw
      omega
  · rw [Before, length_u32]
    rcases mem_cons.mp hw with rfl | hw
    · exact le_rfl
    · have := hbody w hw
      omega
  · rw [Before, length_u32]
    exact hbody w hw

include h in
theorem archivePatches_fits {w : ℕ × List UInt8} (hw : w ∈ archivePatches rows) :
    Fits (List.replicate size (0 : UInt8)) w := by
  have hle := h.le
  have hbase : 16 ≤ entryBase rows.length := by
    unfold entryBase mpkgHeaderSize
    omega
  rw [Fits, length_replicate]
  rcases mem_cons.mp hw with rfl | hw
  · rw [length_mpkgMagic]
    omega
  rcases mem_cons.mp hw with rfl | hw
  · rw [length_u32]
    omega
  rcases mem_cons.mp hw with rfl | hw
  · rw [length_u32]
    omega
  rcases mem_append.mp hw with hw | hw
  · have := entryPatches_bounds hw
    rw [Nat.zero_add] at this
    omega
  · exact (h.within w hw).2

include h in
theorem length_buildArchive : (buildArchive rows size).length = size := by
  rw [buildArchive, length_writeAll fun w hw => archivePatches_fits h hw, length_replicate]

variable {off : ℕ} {bytes : List UInt8}

include h in
theorem range_buildArchive (hw : (off, bytes) ∈ archivePatches rows) :
    range (buildArchive rows size) off bytes.length = bytes :=
  range_writeAll (archivePatches_pairwise h) (fun _ hw => archivePatches_fits h hw) hw

include h in
theorem readRange_buildArchive (hw : (off, bytes) ∈ archivePatches rows) :
    readRange (buildArchive rows size) off bytes.length = some bytes := by
  have hfits : off + bytes.length ≤ size := by
    simpa [Fits] using archivePatches_fits h hw
  rw [readRange]
  split
  · rename_i hlen
    rw [length_eq_zero_iff.mp hlen]
  · rw [if_pos (by rwa [length_buildArchive h])]
    exact congrArg some (range_buildArchive h hw)

include h in
theorem pkgReadU32_buildArchive {v : UInt32} (hw : (off, Packed.u32.enc v) ∈ archivePatches rows) :
    pkgReadU32 (buildArchive rows size) off = some v := by
  have hread := readRange_buildArchive h hw
  rw [length_u32] at hread
  rw [pkgReadU32, hread, map_some, ← append_nil (Packed.u32.enc v), Packed.dec_enc]

include h in
theorem entryOf_buildArchive {k : ℕ} {row : Row} (hk : rows[k]? = some row)
    (hlen : row.item.relName.length < mpkgNameSize) (h0 : (0 : UInt8) ∉ row.item.relName) :
    entryOf (buildArchive rows size) k = ⟨row.fields, row.item.relName⟩ := by
  have hmem := mem_entryPatches hk 0
  rw [Nat.zero_add] at hmem
  have hname := range_buildArchive h (mem_cons_of_mem _ (mem_cons_of_mem _
    (mem_cons_of_mem _ (mem_append_left _ hmem.1))))
  have hfields := range_buildArchive h (mem_cons_of_mem _ (mem_cons_of_mem _
    (mem_cons_of_mem _ (mem_append_left _ hmem.2))))
  rw [length_strncpy] at hname
  rw [entryOf, pkgParseEntry, ← entryBase]
  have htake : ((List.drop (entryBase k) (buildArchive rows size)).take mpkgEntrySize).take
      (mpkgNameSize - 1) = strncpy (mpkgNameSize - 1) row.item.relName := by
    rw [take_take, ← hname]
    rfl
  have hdrop : ((List.drop (entryBase k) (buildArchive rows size)).take mpkgEntrySize).drop
      mpkgNameSize = fieldsLayout.enc row.fields := by
    rw [drop_take, drop_drop, ← hfields]
    rfl
  rw [htake, hdrop, ← append_nil (fieldsLayout.enc row.fields), Packed.dec_enc, strncpy,
    take_of_length_le (by unfold mpkgNameSize at hlen ⊢; omega), cstr_append _ h0]
  rcases Nat.eq_zero_or_pos (mpkgNameSize - 1 - row.item.relName.length) with hz | hpos
  · rw [hz, replicate_zero, cstr_nil, append_nil]
  · obtain ⟨n, hn⟩ := Nat.exists_eq_succ_of_ne_zero hpos.ne'
    rw [hn, replicate_succ, cstr_zero, append_nil]

end Archive

/-! ## Payloads -/

/-- A payload from which the bytes of a file are recovered. -/
structure Carries (raw : List UInt8) (p : Payload) : Prop where
  rawSize : p.rawSize = raw.length
  lt : raw.length < 2 ^ 32
  decodes : p.method = mpkgMethodStore ∧ p.bytes = raw ∨
    p.method = mpkgMethodLzss ∧ raw ≠ [] ∧
      ∀ textBuf, Lzss.lzssDecompress (some textBuf) p.bytes raw.length = (raw.length, raw)

theorem choosePayload_carries (mem : ℕ → Bool) (maxChain : ℕ) (useLzss : Bool)
    (hlt : raw.length < 2 ^ 32) : Carries raw (choosePayload mem maxChain useLzss raw) := by
  have hstore : Carries raw (storePayload raw) := ⟨rfl, hlt, Or.inl ⟨rfl, rfl⟩⟩
  rw [choosePayload]
  split
  · rename_i htry
    have hne : raw ≠ [] := length_pos_iff.mp htry.2.1
    split
    · rename_i compressed hcompress
      split
      · exact ⟨rfl, hlt, Or.inr ⟨rfl, hne, Lzss.lzssDecompress_of_compress hne hcompress⟩⟩
      · exact hstore
    · exact hstore
  · exact hstore

theorem readWhole_some {heap : Bool} {path : Path} (h : readWhole F heap fs path = some raw) :
    raw.length < 2 ^ 32 ∧ readWhole F true fs path = some raw := by
  unfold readWhole at h ⊢
  split at h
  · simp at h
  · rename_i file hfile
    split at h
    · rename_i hsize
      cases h
      exact ⟨by norm_num, if_pos hsize⟩
    · rename_i hsize
      split at h
      · simp at h
      · cases h
        have := file.size.toNat_lt
        exact ⟨by omega, by rw [if_neg hsize, if_neg (by simp; tauto)]⟩

/-- What an item of the archive stands for: the bytes of its file. -/
def contentOf (F : FileSystem σ) (fs : σ) (item : ZipItem) : List UInt8 :=
  if item.isDir then [] else (readWhole F true fs item.fullPath).getD []

theorem itemPayloads_spec {heap : ZipHeap} {maxChain : ℕ} {useLzss : Bool} {items : List ZipItem}
    (h : itemPayloads F heap maxChain fs useLzss i items = some pairs) :
    pairs.map Prod.fst = items ∧
      ∀ pair ∈ pairs, pair.1.isDir = false → Carries (contentOf F fs pair.1) pair.2 := by
  induction items generalizing i pairs with
  | nil =>
    cases h
    simp
  | cons item items ih =>
    obtain ⟨payload, hpayload, h⟩ := bind_eq_some_iff.mp h
    obtain ⟨rest, hrest, h⟩ := bind_eq_some_iff.mp h
    cases h
    obtain ⟨hmap, hcarries⟩ := ih hrest
    refine ⟨by rw [map_cons, hmap], forall_mem_cons.mpr ⟨fun hdir => ?_, hcarries⟩⟩
    rw [itemPayload, hdir] at hpayload
    obtain ⟨raw, hraw, rfl⟩ := map_eq_some_iff.mp hpayload
    obtain ⟨hlt, hread⟩ := readWhole_some hraw
    rw [contentOf, hdir, hread]
    exact choosePayload_carries _ _ _ hlt

/-! ## Extracting -/

def recreateItem (F : FileSystem σ) (targetDir : Path) (item : ZipItem) (content : List UInt8)
    (r : Run σ) : Bool × Run σ :=
  let path := targetDir ++ slash :: item.relName
  if item.isDir then pkgMkdirP F path r
  else
    let (ok, r) := makeParent F path r
    if ok then r.write F path content else (false, r)

theorem toNat_ofNat32 (h : n < 2 ^ 32) : (UInt32.ofNat n).toNat = n := Nat.mod_eq_of_lt h

section Extract

variable {rows : List Row} {size : ℕ} (hplaced : Placed rows (entryBase rows.length) size)
  {row : Row} (hrow : row ∈ rows) (hfile : row.item.isDir = false)

include hplaced hrow hfile in
theorem readRange_payload :
    (0 < row.payload.bytes.length → row.dataOffset + row.payload.bytes.length ≤ size) ∧
      readRange (buildArchive rows size) row.dataOffset row.payload.bytes.length =
        some row.payload.bytes := by
  rcases Nat.eq_zero_or_pos row.payload.bytes.length with hzero | hpos
  · refine ⟨fun h => absurd hzero h.ne', ?_⟩
    rw [readRange, if_pos hzero, length_eq_zero_iff.mp hzero]
  · have hmem : (row.dataOffset, row.payload.bytes) ∈ payloadPatches rows :=
      mem_filterMap.mpr ⟨row, hrow, if_pos ⟨hfile, hpos⟩⟩
    exact ⟨fun _ => (hplaced.within _ hmem).2, readRange_buildArchive hplaced
      (mem_cons_of_mem _ (mem_cons_of_mem _ (mem_cons_of_mem _
        (mem_append_right _ hmem))))⟩

variable {raw : List UInt8} {mem : EntryMem} {textBuf : ℕ → UInt8}

include hplaced hrow hfile in
theorem entryData_row (hcarries : Carries raw row.payload) (hmem : mem.decompressed = true)
    (htext : mem.textBuf = some textBuf) :
    entryData mem ⟨row.fields, row.item.relName⟩ (buildArchive rows size) = some (some raw) := by
  have hoff : row.fields.dataOffset.toNat = row.dataOffset :=
    toNat_ofNat32 (hplaced.offset row hrow)
  have hlen : row.fields.compressedSize.toNat = row.payload.bytes.length :=
    toNat_ofNat32 (hplaced.length row hrow hfile)
  have hraw : row.fields.uncompressedSize.toNat = raw.length := by
    rw [← hcarries.rawSize]
    exact toNat_ofNat32 (by rw [hcarries.rawSize]; exact hcarries.lt)
  have hread := (readRange_payload hplaced hrow hfile).2
  have hmethod : row.fields.method = row.payload.method := rfl
  simp only [entryData, hoff, hlen, hread, hraw, hmethod, bind_eq_bind, bind_some]
  rcases hcarries.decodes with ⟨hstore, hbytes⟩ | ⟨hlzss, hne, hdecode⟩
  · have hsame : row.fields.uncompressedSize = row.fields.compressedSize := by
      rw [← UInt32.toNat_inj, hraw, hlen, hbytes]
    rw [if_pos hstore, if_neg (not_not.mpr hsame), hbytes]
    rfl
  · have hnonzero : row.fields.uncompressedSize ≠ 0 := fun hzero => by
      rw [hzero] at hraw
      exact hne (length_eq_zero_iff.mp hraw.symm)
    rw [if_neg (by rw [hlzss]; decide), if_pos hlzss, if_neg hnonzero, hmem, htext, hdecode]
    simp

include hplaced hrow in
theorem pkgExtractEntry_row (hcarries : row.item.isDir = false → Carries raw row.payload)
    (hsafe : pkgNameIsSafe row.item.relName = true) {targetDir : Path}
    (hfit : targetDir.length + 1 + row.item.relName.length < minimafsMaxPath)
    (hmem : mem.decompressed = true) (htext : mem.textBuf = some textBuf) (r : Run σ) :
    pkgExtractEntry F mem ⟨row.fields, row.item.relName⟩ (buildArchive rows size) targetDir r =
      some (recreateItem F targetDir row.item raw r) := by
  have hlength : (targetDir ++ slash :: row.item.relName).length =
      targetDir.length + 1 + row.item.relName.length := by
    rw [length_append, length_cons]
    omega
  rw [pkgExtractEntry, if_neg (by simp [hsafe])]
  dsimp only
  rw [fullPath_eq hfit, hlength, if_neg (by omega), recreateItem]
  rcases hdir : row.item.isDir with _ | _
  · have hflags : row.fields.flags = 0 := by
      show (if row.item.isDir then mpkgFlagDirectory else 0) = 0
      rw [hdir]
      rfl
    rw [hflags, if_neg (by decide)]
    generalize makeParent F (targetDir ++ slash :: row.item.relName) r = made
    obtain ⟨ok, r₁⟩ := made
    cases ok with
    | false => rfl
    | true =>
      have hlen : row.fields.compressedSize.toNat = row.payload.bytes.length :=
        toNat_ofNat32 (hplaced.length row hrow hdir)
      have hoff : row.fields.dataOffset.toNat = row.dataOffset :=
        toNat_ofNat32 (hplaced.offset row hrow)
      have hbound := (readRange_payload hplaced hrow hdir).1
      simp only [hlen, hoff, length_buildArchive hplaced, Bool.true_eq_false, Bool.false_eq_true,
        if_false, if_true]
      rw [if_neg (by omega)]
      rw [entryData_row hplaced hrow hdir (hcarries hdir) hmem htext]
      rfl
  · have hflags : row.fields.flags = mpkgFlagDirectory := by
      show (if row.item.isDir then mpkgFlagDirectory else 0) = mpkgFlagDirectory
      rw [hdir]
      rfl
    rw [hflags, if_pos (by decide), if_pos rfl]

end Extract

/-- Creating one item after the other, with the counts of `pkglib_unzip`. -/
def recreateAll (F : FileSystem σ) (targetDir : Path) :
    List (ZipItem × List UInt8) → Unzipped σ → Unzipped σ
  | [], u => u
  | (item, content) :: rest, u =>
    let (ok, r) := recreateItem F targetDir item content u.run
    recreateAll F targetDir rest (u.count ok r)

/-- What is known of the rows of an archive that was built from a file system. -/
structure RowOk (F : FileSystem σ) (fs : σ) (row : Row) : Prop where
  short : row.item.relName.length < mpkgNameSize
  zero_notMem : (0 : UInt8) ∉ row.item.relName
  carries : row.item.isDir = false → Carries (contentOf F fs row.item) row.payload

/-- The unzip path accepts the name of the item, and the path has room. -/
abbrev ZipItem.Extractable (targetDir : Path) (item : ZipItem) : Prop :=
  pkgNameIsSafe item.relName = true ∧ targetDir.length + 1 + item.relName.length < minimafsMaxPath

theorem unzipEntries_rows {τ : Type} {G : FileSystem τ} {targetDir : Path} {mem : ℕ → EntryMem}
    (hmem : ∀ i, (mem i).decompressed = true ∧ (mem i).textBuf.isSome)
    (hplaced : Placed rows (entryBase rows.length) size)
    (hrows : ∀ row ∈ rows, RowOk F fs row) (hsafe : ∀ row ∈ rows, row.item.Extractable targetDir)
    (hn : i + n = rows.length) (u : Unzipped τ) :
    unzipEntries G mem (buildArchive rows size) targetDir n i u =
      some (recreateAll G targetDir
        ((rows.drop i).map fun row => (row.item, contentOf F fs row.item)) u) := by
  induction n generalizing i u with
  | zero =>
    rw [drop_eq_nil_of_le (by omega)]
    rfl
  | succ n ih =>
    have hi : i < rows.length := by omega
    have hbase : entryBase i + mpkgEntrySize ≤ size := by
      have := hplaced.le
      unfold entryBase mpkgEntrySize at *
      omega
    have hraw : readRange (buildArchive rows size) (mpkgHeaderSize + i * mpkgEntrySize)
        mpkgEntrySize = some (((buildArchive rows size).drop
          (mpkgHeaderSize + i * mpkgEntrySize)).take mpkgEntrySize) := by
      rw [readRange, if_neg (by decide), if_pos (by rw [length_buildArchive hplaced]; exact hbase)]
    have hrow := hrows rows[i] (getElem_mem hi)
    obtain ⟨textBuf, htext⟩ := isSome_iff_exists.mp (hmem i).2
    have hextract := pkgExtractEntry_row hplaced (getElem_mem hi) hrow.carries
      (hsafe _ (getElem_mem hi)).1 (hsafe _ (getElem_mem hi)).2 (hmem i).1 htext u.run (F := G)
    rw [unzipEntries, hraw]
    dsimp only [bind_eq_bind, bind_some]
    rw [← entryOf, entryOf_buildArchive hplaced (List.getElem?_eq_getElem hi) hrow.short
      hrow.zero_notMem, hextract, drop_eq_getElem_cons hi, map_cons]
    exact ih (by omega) _

end MinimalOS.Pkg
