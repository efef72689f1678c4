import MinimalOS.Minimafs.Allocator
import MinimalOS.Minimafs.Image

/-!
# Writing a file to the disk

On a machine that serves every request, `minimafs_write_file_to_disk` puts a file where it was, if
it fits, or into a run of free blocks, if there is one. The blocks of the run then hold the file;
of the other blocks only the descriptor of the volume changes.
-/

namespace MinimalOS.Minimafs

open CString Fs

variable {d d' : Drive} {env : Env} {m : FileMetadata}

/-! ## Placing a file -/

def Drive.rebooked (d : Drive) (a : BlockAlloc) (t : ℕ) : Drive := { d with alloc := a, moment := t }

theorem freeRun_run (env : Env) (block count : ℕ) (d : Drive) :
    ∃ a t, freeRun env block count d = (.ok ⟨⟩, d.rebooked a t) := ⟨_, _, rfl⟩

/-- There is a place for `n` blocks: the old run, or a free one. -/
def Drive.Room (d : Drive) (m : FileMetadata) (n : ℕ) : Prop :=
  (m.blockOffset ≠ 0 ∧ n ≤ m.blockCount) ∨
    ∃ q, 1 ≤ q ∧ FreeRun d.alloc.totalBlocks d.alloc.ext q n

/-- The run that a file is given: part of its old one if it fits there, or one of free blocks. -/
def Drive.Placed (d : Drive) (m : FileMetadata) (n start : ℕ) : Prop :=
  (m.blockOffset ≠ 0 ∧ n ≤ m.blockCount ∧ start = m.blockOffset) ∨
    (¬ (m.blockOffset ≠ 0 ∧ n ≤ m.blockCount) ∧ 1 ≤ start ∧
      FreeRun d.alloc.totalBlocks d.alloc.ext start n)

variable {n start : ℕ}

theorem allocRun_of_gap (env : Env) (hn : 0 < n)
    (hgap : findGap d.alloc.totalBlocks n 1 d.alloc.ext = some start) :
    allocRun env n d = (.ok start,
      d.rebooked (baMarkUsed (env.heap d.moment) d.alloc start n) (d.moment + 1)) := by
  have halloc : blockAllocRun (env.heap d.moment) d.alloc n =
      (some start, baMarkUsed (env.heap d.moment) d.alloc start n) := by
    rw [blockAllocRun, if_neg hn.ne', hgap]
  unfold allocRun
  rw [bind_ok moment_run, bind_ok get_run,
    show (d.later (d.moment + 1)).alloc = d.alloc from rfl, halloc]
  rfl

theorem allocRun_run (env : Env) (hn : 0 < n) (hext : Ordered d.alloc.totalBlocks d.alloc.ext)
    (hroom : ∃ q, 1 ≤ q ∧ FreeRun d.alloc.totalBlocks d.alloc.ext q n) :
    ∃ start a t, allocRun env n d = (.ok start, d.rebooked a t) ∧
      1 ≤ start ∧ FreeRun d.alloc.totalBlocks d.alloc.ext start n := by
  obtain ⟨q, hq, hfree⟩ := hroom
  have hlow := findGap_lowest_one hext hn
  cases hgap : findGap d.alloc.totalBlocks n 1 d.alloc.ext with
  | none =>
    rw [hgap] at hlow
    exact absurd hfree (hlow q hq)
  | some start =>
    rw [hgap] at hlow
    exact ⟨start, _, _, allocRun_of_gap env hn hgap, hlow.1, hlow.2.1⟩

theorem placeFile_run (env : Env) (hn : 0 < n) (hext : Ordered d.alloc.totalBlocks d.alloc.ext)
    (hroom : d.Room m n) :
    ∃ start a t, placeFile env m n d = (.ok start, d.rebooked a t) ∧ d.Placed m n start := by
  unfold placeFile
  by_cases hold : m.blockOffset ≠ 0 ∧ n ≤ m.blockCount
  · have hplaced : d.Placed m n m.blockOffset := Or.inl ⟨hold.1, hold.2, rfl⟩
    rw [if_pos hold]
    by_cases hless : n < m.blockCount
    · rw [if_pos hless]
      obtain ⟨a, t, hfree⟩ := freeRun_run env (u32 (m.blockOffset + n)) (m.blockCount - n) d
      exact ⟨m.blockOffset, a, t, bind_ok hfree, hplaced⟩
    · rw [if_neg hless]
      exact ⟨m.blockOffset, d.alloc, d.moment, rfl, hplaced⟩
  · rw [if_neg hold]
    obtain ⟨start, a, t, halloc, hstart⟩ := allocRun_run env hn hext (hroom.resolve_left hold)
    by_cases hgive : 0 < m.blockCount
    · obtain ⟨a', t', hfree⟩ := freeRun_run env m.blockOffset m.blockCount (d.rebooked a t)
      refine ⟨start, a', t', ?_, Or.inr ⟨hold, hstart⟩⟩
      rw [bind_ok halloc]
      rw [if_pos hgive, bind_ok hfree]
      rfl
    · refine ⟨start, a, t, ?_, Or.inr ⟨hold, hstart⟩⟩
      rw [bind_ok halloc]
      dsimp only
      rw [if_neg hgive]
      rfl

/-! ## The descriptor of the volume -/

theorem now_run : now env d = (.ok (getDatetime (env.clock d.moment)), d.later (d.moment + 1)) := rfl

/-- What the drive keeps while files are written: all but its books, its figures and its blocks. -/
structure Drive.Kept (d d' : Drive) : Prop where
  mounted : d'.mounted = d.mounted
  rootBlock : d'.storageDesc.rootBlock = d.storageDesc.rootBlock

theorem Drive.Kept.refl (d : Drive) : d.Kept d := ⟨rfl, rfl⟩

theorem Drive.Kept.trans {d'' : Drive} (h : d.Kept d') (h' : d'.Kept d'') : d.Kept d'' :=
  ⟨h'.mounted.trans h.mounted, h'.rootBlock.trans h.rootBlock⟩

theorem StorageDesc.refresh_rootBlock (sd : StorageDesc) (a : BlockAlloc) (date : List UInt8) :
    (sd.refresh a date).rootBlock = sd.rootBlock := by
  rw [StorageDesc.refresh]

theorem writeStorageDesc_run (hwrite : ∀ t b, env.writeOk t b = true) (d : Drive) :
    ∃ r d', attempt (writeStorageDesc env) d = (.ok r, d') ∧ d.Kept d' ∧
      ∀ b ≠ 0, d'.disk b = d.disk b := by
  by_cases hfits : (printStorageDesc d.storageDesc).length < blockSize
  · obtain ⟨t, ht⟩ := writeBlocks_run hwrite 0
      [Block.ofBytes (printStorageDesc d.storageDesc)] (by simp) d
    have hrun : writeStorageDesc env d =
        (.ok ⟨⟩, (d.store 0 [Block.ofBytes (printStorageDesc d.storageDesc)]).later t) := by
      unfold writeStorageDesc
      rw [bind_ok get_run, bind_ok (require_true hfits), ht]
    refine ⟨_, _, attempt_ok hrun, ⟨rfl, rfl⟩, fun b hb => ?_⟩
    rw [Drive.later_disk, Drive.store]
    dsimp only
    rw [if_pos (Nat.zero_le b), List.getElem?_eq_none (by simp; omega), Option.getD_none]
  · refine ⟨none, d, ?_, Drive.Kept.refl d, fun _ _ => rfl⟩
    have hrun : writeStorageDesc env d = (.error .failed, d) := by
      unfold writeStorageDesc
      rw [bind_ok get_run]
      refine bind_error ?_
      unfold require
      rw [if_neg hfits]
      rfl
    unfold attempt
    rw [hrun]

theorem refreshStorageDesc_run (hwrite : ∀ t b, env.writeOk t b = true) (d : Drive) :
    ∃ d', refreshStorageDesc env d = (.ok ⟨⟩, d') ∧ d.Kept d' ∧ ∀ b ≠ 0, d'.disk b = d.disk b := by
  have hfigures : ∀ date : List UInt8, ∃ d₁ : Drive,
      (modify fun d => { d with storageDesc := d.storageDesc.refresh d.alloc date } : Fs PUnit)
        (d.later (d.moment + 1)) = (.ok ⟨⟩, d₁) ∧ d.Kept d₁ ∧ d₁.disk = d.disk :=
    fun _ => ⟨_, modify_run _, ⟨rfl, StorageDesc.refresh_rootBlock _ _ _⟩, rfl⟩
  obtain ⟨d₁, hrun₁, hkept, hdisk⟩ := hfigures (getDatetime (env.clock d.moment))
  unfold refreshStorageDesc
  rw [bind_ok now_run, bind_ok hrun₁, bind_ok get_run, ← hdisk]
  split_ifs
  · obtain ⟨r, d', hrun, hkept', hother⟩ := writeStorageDesc_run hwrite d₁
    exact ⟨d', bind_ok hrun, hkept.trans hkept', hother⟩
  · exact ⟨d₁, rfl, hkept, fun _ _ => rfl⟩

/-! ## The whole file -/

/-- The header that is written for `len` bytes of data. -/
def writtenHeader (m : FileMetadata) (len : ℕ) : List UInt8 :=
  generateFileHeader (segmentsMetadata m len 0)

/-- The blocks of a file with `len` bytes of data. -/
def writtenBlocks (m : FileMetadata) (len : ℕ) : ℕ :=
  ((writtenHeader m len).length + len + 5 + 4095) / 4096

structure Written (d d' : Drive) (start n : ℕ) (text : List UInt8) : Prop where
  kept : d.Kept d'
  positive : 1 ≤ start
  blocks : start + n ≤ 2 ^ 32
  run : ∀ i < n, (d'.disk (start + i)).bytes = Blocks.window 0 text blockSize (i * blockSize)
  other : ∀ b ≠ 0, ¬ (start ≤ b ∧ b < start + n) → d'.disk b = d.disk b

structure Drive.InRange (d : Drive) (m : FileMetadata) : Prop where
  ordered : Ordered d.alloc.totalBlocks d.alloc.ext
  total : d.alloc.totalBlocks ≤ 2 ^ 32
  old : m.blockOffset + m.blockCount ≤ 2 ^ 32

theorem Drive.Placed.bounds (h : d.Placed m n start) (hrange : d.InRange m) :
    1 ≤ start ∧ start + n ≤ 2 ^ 32 := by
  have hold := hrange.old
  have htotal := hrange.total
  rcases h with ⟨hne, hle, rfl⟩ | ⟨-, hone, hfree⟩
  · omega
  · have := hfree.1
    omega

theorem segmentsMetadata_run (m : FileMetadata) (len : ℕ) :
    (segmentsMetadata m len 0).blockOffset = m.blockOffset ∧
      (segmentsMetadata m len 0).blockCount = m.blockCount ∧
      (segmentsMetadata m len 0).dataLength = u32 len := by
  rw [segmentsMetadata, settleHeader_eq]
  exact ⟨rfl, rfl, rfl⟩

theorem request_ok (henv : env.Ok) (d : Drive) : ∃ t, request env d = (.ok ⟨⟩, d.later t) :=
  ⟨_, request_run (henv.heap _)⟩

theorem storeFile_run (henv : env.Ok) (hend : start + n ≤ 2 ^ 32) (content : ℕ → Block)
    (d : Drive) :
    ∃ d', storeFile env content start n d = (.ok ⟨⟩, d') ∧ d.Kept d' ∧
      ∀ b ≠ 0, d'.disk b = (d.fill start 0 n content).disk b := by
  have hrest : ∀ t, ∃ d', (do
      onFail (writeChunks env content start n n 0) (freeRun env start n)
      refreshStorageDesc env : Fs Unit) (d.later t) = (.ok ⟨⟩, d') ∧ d.Kept d' ∧
        ∀ b ≠ 0, d'.disk b = (d.fill start 0 n content).disk b := by
    intro t
    obtain ⟨u, hchunks⟩ := writeChunks_run henv.writeOk content (Nat.sub_le n 0) hend (d.later t)
    obtain ⟨d', hrefresh, hkept, hother⟩ := refreshStorageDesc_run henv.writeOk
      (((d.later t).fill start 0 n content).later u)
    exact ⟨d', (bind_ok (onFail_ok hchunks)).trans hrefresh, ⟨hkept.mounted, hkept.rootBlock⟩, hother⟩
  unfold storeFile
  split_ifs
  · obtain ⟨t, ht⟩ := request_ok henv d
    obtain ⟨d', hrun, hd'⟩ := hrest t
    exact ⟨d', (bind_ok (onFail_ok ht)).trans hrun, hd'⟩
  · exact hrest d.moment

/-- **A written file.** -/
theorem writeFileToDisk_run (henv : env.Ok) {s : Segment} (hs : s.Ok) (hrange : d.InRange m)
    (hsize : (writtenHeader m s.len).length + s.len + 5 + blockSize ≤ 2 ^ 32)
    (hroom : d.Room m (writtenBlocks m s.len)) :
    ∃ start d', writeFileToDisk env m s d = (.ok { segmentsMetadata m s.len 0 with
        blockOffset := start, blockCount := writtenBlocks m s.len }, d') ∧
      d.Placed m (writtenBlocks m s.len) start ∧
      Written d d' start (writtenBlocks m s.len) (fileText (writtenHeader m s.len) s.content) := by
  have hsize' : (writtenHeader m s.len).length + s.len + 5 + 4096 ≤ 2 ^ 32 := hsize
  obtain ⟨hoffset, hcount, hdata⟩ := segmentsMetadata_run m s.len
  rw [u32_eq_self (by omega)] at hdata
  set n := writtenBlocks m s.len with hn
  have hpos : 0 < n := by
    rw [hn, writtenBlocks]
    omega
  obtain ⟨t₁, h₁⟩ := request_ok henv d
  obtain ⟨t₂, h₂⟩ := request_ok henv (d.later t₁)
  obtain ⟨t₃, h₃⟩ := request_ok henv (d.later t₂)
  have htotal : u32 ((writtenHeader m s.len).length + s.len + 5) =
      (writtenHeader m s.len).length + s.len + 5 := u32_eq_self (by omega)
  have hround : u32 ((writtenHeader m s.len).length + s.len + 5 + blockSize - 1) =
      (writtenHeader m s.len).length + s.len + 5 + 4095 := by
    rw [show (writtenHeader m s.len).length + s.len + 5 + blockSize - 1 =
      (writtenHeader m s.len).length + s.len + 5 + 4095 by
        show (writtenHeader m s.len).length + s.len + 5 + 4096 - 1 = _
        omega]
    exact u32_eq_self (by omega)
  have hblocks : u32 (u32 ((generateFileHeader (segmentsMetadata m s.len 0)).length +
      (segmentsMetadata m s.len 0).dataLength + 5) + blockSize - 1) / blockSize = n := by
    rw [hdata, show generateFileHeader (segmentsMetadata m s.len 0) = writtenHeader m s.len from rfl,
      htotal, hround]
    rfl
  have hcover : n * 4096 < 2 ^ 32 := by
    rw [hn, writtenBlocks]
    omega
  -- the metadata that are formatted name the same run
  have hplace : (d.later t₃).Room (segmentsMetadata m s.len 0) n := by
    rw [Drive.Room, hoffset, hcount]
    exact hroom
  obtain ⟨start, a, t, hrun, hplaced⟩ := placeFile_run (d := d.later t₃) env hpos
    hrange.ordered hplace
  have hplaced : d.Placed m n start := by
    rw [Drive.Placed, hoffset, hcount] at hplaced
    exact hplaced
  obtain ⟨hone, hend⟩ := hplaced.bounds hrange
  obtain ⟨d', hstore, hkept, hdisk⟩ := storeFile_run henv hend
    (fileBlock (writtenHeader m s.len) s ⟨none, 0⟩) ((d.later t₃).rebooked a t)
  refine ⟨start, d', ?_, hplaced, ⟨hkept.mounted, hkept.rootBlock⟩, hone, hend, fun i hi => ?_,
    fun b hb hout => ?_⟩
  · unfold writeFileToDisk writeFileToDiskSegments
    rw [bind_ok h₁, bind_ok h₂, Drive.later_later, bind_ok h₃, Drive.later_later]
    rw [hblocks, bind_ok hrun]
    exact bind_ok hstore
  · have hi' : i * 4096 + 4096 ≤ n * 4096 := by
      rw [← Nat.succ_mul]
      exact Nat.mul_le_mul_right _ hi
    rw [hdisk _ (by omega)]
    show (if start + 0 ≤ start + i ∧ start + i < start + n then _ else _ : Block).bytes = _
    rw [if_pos (by omega), Nat.add_sub_cancel_left]
    exact bytes_fileBlock hs (by omega) (hi'.trans_lt hcover)
  · rw [hdisk b hb]
    exact if_neg hout

end MinimalOS.Minimafs
