import MinimalOS.Lib.Descent
import MinimalOS.Minimafs.Tree

/-!
# Appending to a file

`minimafs_append_file` writes the whole file again into a new run: a new header, the old data as a
reader takes them from the old run, the new data and the footer. The copy fills one block at a time,
from whatever part is next. `copyStep` is one round of it, so that what happens at a failing read
can be said of the rounds.
-/

namespace MinimalOS.Minimafs

open CString Fs Relation

/-! ## The reader of the old data -/

/-- `minimafs_old_data_reader_t`. -/
structure OldDataReader where
  fileBlock : ℕ
  fileOffset : ℕ
  dataLen : ℕ
  dataPos : ℕ
  cachedBlock : ℕ
  blockBuf : Block

/-- The loop of `odr_read`: the bytes it copies and the reader afterwards. -/
def odrLoop (env : Env) : ℕ → ℕ → OldDataReader → Fs (List UInt8 × OldDataReader)
  | 0, _, r => pure ([], r)
  | n + 1, len, r => do
    if len = 0 ∨ r.dataLen ≤ r.dataPos then pure ([], r)
    else
      let fp := u32 (r.fileOffset + r.dataPos)
      let bi := fp / blockSize
      let offBlk := fp % blockSize
      let fetch : Fs Block :=
        if bi = r.cachedBlock then pure r.blockBuf
        else readBlock env (u32 (r.fileBlock + bi))
      match ← attempt fetch with
      | none => pure ([], r)
      | some block =>
        let cp := min (min (blockSize - offBlk) len) (r.dataLen - r.dataPos)
        let rest ← odrLoop env n (len - cp)
          { r with blockBuf := block, cachedBlock := bi, dataPos := r.dataPos + cp }
        pure ((block.bytes.drop offBlk).take cp ++ rest.1, rest.2)

def odrRead (env : Env) (r : OldDataReader) (len : ℕ) : Fs (List UInt8 × OldDataReader) :=
  odrLoop env len len r

/-! ## The copy -/

/-- What the call has worked out before it copies. -/
structure AppendPlan where
  desc : FolderDesc
  index : ℕ
  entry : DirEntry
  oldHeaderSize : ℕ
  oldDataLen : ℕ
  header : List UInt8
  data : List UInt8
  blockCount : ℕ
  newStart : ℕ

def AppendPlan.headerSize (p : AppendPlan) : ℕ := u32 p.header.length

inductive Part where
  | header
  | oldData
  | newData
  | footer
  | done
  deriving DecidableEq

/-- The variables of the copy; `out` is the part of `block_buf` that is filled. -/
structure Copying where
  i : ℕ
  out : List UInt8
  seg : Part
  segPos : ℕ
  dataPos2 : ℕ
  reader : OldDataReader

def fill (env : Env) (p : AppendPlan) (s : Copying) : Fs Copying :=
  let rem := blockSize - s.out.length
  match s.seg with
  | .header =>
    let cp := min rem (p.headerSize - s.segPos)
    let s := { s with out := s.out ++ (p.header.drop s.segPos).take cp, segPos := s.segPos + cp }
    pure (if p.headerSize ≤ s.segPos then { s with seg := .oldData, segPos := 0 } else s)
  | .oldData =>
    if p.oldDataLen ≤ s.reader.dataPos then pure { s with seg := .newData, segPos := 0 }
    else do
      let (got, reader) ← odrRead env s.reader (min rem (p.oldDataLen - s.reader.dataPos))
      let s := { s with out := s.out ++ got, reader := reader }
      pure (if p.oldDataLen ≤ reader.dataPos then { s with seg := .newData, segPos := 0 } else s)
  | .newData =>
    if p.data.length ≤ s.dataPos2 then pure { s with seg := .footer, segPos := 0 }
    else
      let cp := min rem (p.data.length - s.dataPos2)
      let s := { s with out := s.out ++ (p.data.drop s.dataPos2).take cp, dataPos2 := s.dataPos2 + cp }
      pure (if p.data.length ≤ s.dataPos2 then { s with seg := .footer, segPos := 0 } else s)
  | .footer =>
    let cp := min rem (5 - s.segPos)
    let s := { s with out := s.out ++ (footer.drop s.segPos).take cp, segPos := s.segPos + cp }
    pure (if 5 ≤ s.segPos then { s with seg := .done } else s)
  | .done => pure s

/-- One round of the copy: fill the block further, or write it and go on to the next. -/
def copyStep (env : Env) (p : AppendPlan) (s : Copying) : Fs Copying :=
  if s.out.length < blockSize ∧ s.seg ≠ .done then fill env p s
  else do
    writeBlocks env (u32 (p.newStart + s.i)) [Block.ofBytes s.out]
    pure { s with i := s.i + 1, out := [] }

def copyLoop (env : Env) (p : AppendPlan) : ℕ → Copying → Fs Unit
  | 0, s => if s.i < p.blockCount then looping else pure ()
  | n + 1, s =>
    if s.i < p.blockCount then do
      let s ← copyStep env p s
      copyLoop env p n s
    else pure ()

/-! ## The call -/

def oldDataLength (m : FileMetadata) (entry : DirEntry) (oldHeaderSize : ℕ) : ℕ :=
  let oldFileLen := if m.fileLength = 0 then u32 (entry.blockCount * blockSize) else m.fileLength
  if oldHeaderSize + 5 < oldFileLen then oldFileLen - oldHeaderSize - 5 else 0

/-- The call up to the copy: the plan, and the copy before its first round. -/
def prepareAppend (env : Env) (path data : List UInt8) : Fs (AppendPlan × Copying) := do
  require (data ≠ [])
  request env
  request env
  request env
  let d ← get
  require d.mounted
  let (parent, filename) := splitLocalPath path
  request env
  let desc ← readFolderDesc env parent
  match findEntryInFolder desc filename with
  | none => failed
  | some index =>
    match desc.entries[index]? with
    | none => failed
    | some entry =>
      require (entry.type ≠ .dir)
      request env
      let first ← readBlock env entry.blockOffset
      request env
      match parseFileHeader first.bytes, dataStart first.bytes with
      | some m, some oldHeaderSize =>
        let oldDataLen := oldDataLength m entry oldHeaderSize
        let date ← now env
        -- the two headers of the passes that only settle the length, and the one that is written
        request env
        request env
        request env
        let header := generateFileHeader (appendMetadata m date oldDataLen data.length)
        let totalSize := u32 (u32 header.length + u32 (oldDataLen + data.length) + 5)
        let blockCount := u32 (totalSize + blockSize - 1) / blockSize
        let newStart ← allocRun env blockCount
        let t ← moment
        onFail (require (env.heap t)) (freeRun env newStart blockCount)
        onFail (request env) (freeRun env newStart blockCount)
        pure (⟨desc, index, entry, oldHeaderSize, oldDataLen, header, data, blockCount, newStart⟩,
          ⟨0, [], .header, 0, 0, ⟨entry.blockOffset, oldHeaderSize, oldDataLen, 0, noBlock,
            Block.ofBytes ((List.range blockSize).map (env.stale t))⟩⟩)
      | _, _ => failed

/-- The folder with the entry of the file in its new place. -/
def AppendPlan.folder (p : AppendPlan) : FolderDesc :=
  { p.desc with
    entries := p.desc.entries.modify p.index fun e =>
      { e with blockOffset := p.newStart, blockCount := p.blockCount } }

def finishAppend (env : Env) (p : AppendPlan) : Fs Unit := do
  if 0 < p.entry.blockCount then freeRun env p.entry.blockOffset p.entry.blockCount
  writeFolderDesc env p.folder
  refreshStorageDesc env

/-- `minimafs_append_file`, with a bound on the rounds of the copy. -/
def appendFile (env : Env) (rounds : ℕ) (path data : List UInt8) : Fs Unit := do
  let (p, s) ← prepareAppend env path data
  onFail (copyLoop env p rounds s) (freeRun env p.newStart p.blockCount)
  finishAppend env p

/-! ## The moments of the reads -/

/-- Where in the old data block `b` of the old file begins. -/
def AppendPlan.blockPos (p : AppendPlan) (b : ℕ) : ℕ := b * blockSize - p.oldHeaderSize

/-- The blocks of the old file that the copy reads: those with old data for a block that it
writes. -/
structure AppendPlan.Needs (p : AppendPlan) (b : ℕ) : Prop where
  first : p.oldHeaderSize / blockSize ≤ b
  inside : p.blockPos b < p.oldDataLen
  written : (p.headerSize + p.blockPos b) / blockSize < p.blockCount

/-- When block `b` is read if no read before it fails: the copy starts at `t`, and each read and each
block that is written takes a moment. -/
def AppendPlan.readMoment (p : AppendPlan) (t b : ℕ) : ℕ :=
  t + (b - p.oldHeaderSize / blockSize) + (p.headerSize + p.blockPos b) / blockSize

def AppendPlan.ReadOk (env : Env) (p : AppendPlan) (t b : ℕ) : Prop :=
  env.readOk (p.readMoment t b) (u32 (p.entry.blockOffset + b)) = true

/-- The number of blocks that are read for the first `q` bytes of the old data. -/
def AppendPlan.readCount (p : AppendPlan) (q : ℕ) : ℕ :=
  if q = 0 then 0 else (p.oldHeaderSize + q - 1) / blockSize - p.oldHeaderSize / blockSize + 1

variable {env : Env} {p : AppendPlan} {d : Drive}

structure OldDataReader.At (p : AppendPlan) (r : OldDataReader) (q : ℕ) : Prop where
  fileBlock : r.fileBlock = p.entry.blockOffset
  fileOffset : r.fileOffset = p.oldHeaderSize
  dataLen : r.dataLen = p.oldDataLen
  dataPos : r.dataPos = q
  cached : r.cachedBlock = if q = 0 then noBlock else (p.oldHeaderSize + q - 1) / 4096

/-- The old data end within 4 GiB of the old file. -/
def AppendPlan.Sane (p : AppendPlan) : Prop := 0 < p.oldDataLen → p.oldHeaderSize + p.oldDataLen < 2 ^ 32

variable {r : OldDataReader} {q cp base len : ℕ}

theorem OldDataReader.At.cached_iff (hr : r.At p q) (hq : p.oldHeaderSize + q < 2 ^ 32) :
    (p.oldHeaderSize + q) / 4096 = r.cachedBlock ↔ 0 < q ∧ 0 < (p.oldHeaderSize + q) % 4096 := by
  have hno : noBlock = 4294967295 := rfl
  rw [hr.cached]
  split_ifs with hzero
  · omega
  · omega

theorem OldDataReader.At.advance (hr : r.At p q) (hcp : 0 < cp)
    (hend : (p.oldHeaderSize + q) % 4096 + cp ≤ 4096) (block : Block) :
    ({ r with
      blockBuf := block, cachedBlock := (p.oldHeaderSize + q) / 4096, dataPos := q + cp } :
        OldDataReader).At p (q + cp) := by
  refine ⟨hr.fileBlock, hr.fileOffset, hr.dataLen, rfl, ?_⟩
  show (p.oldHeaderSize + q) / 4096 = _
  rw [if_neg (by omega)]
  omega

theorem AppendPlan.readCount_advance (hcp : 0 < cp)
    (hend : (p.oldHeaderSize + q) % 4096 + cp ≤ 4096) :
    p.readCount (q + cp) = (p.oldHeaderSize + q) / 4096 - p.oldHeaderSize / 4096 + 1 := by
  unfold AppendPlan.readCount
  rw [if_neg (by omega)]
  show (p.oldHeaderSize + (q + cp) - 1) / 4096 - p.oldHeaderSize / 4096 + 1 = _
  omega

theorem AppendPlan.blockPos_eq {b : ℕ} (hend : (p.oldHeaderSize + q) % 4096 + cp ≤ 4096)
    (hb : p.oldHeaderSize / 4096 ≤ b) (hlow : q ≤ p.blockPos b) (hhigh : p.blockPos b < q + cp) :
    b = (p.oldHeaderSize + q) / 4096 ∧ p.blockPos b = q := by
  have hpos : p.blockPos b = b * 4096 - p.oldHeaderSize := rfl
  omega

/-- The read of block `b` succeeds if the reads begin at `base`. -/
def OldReadOk (env : Env) (p : AppendPlan) (base b : ℕ) : Prop :=
  env.readOk (base + (b - p.oldHeaderSize / 4096)) (u32 (p.entry.blockOffset + b)) = true

/-- The blocks that begin from `q` up to `q'` could be read. -/
def ReadsOk (env : Env) (p : AppendPlan) (base q q' : ℕ) : Prop :=
  ∀ b, p.oldHeaderSize / 4096 ≤ b → q ≤ p.blockPos b → p.blockPos b < q' → OldReadOk env p base b

/-- What a read of `len` bytes at `q` does: it gives them, or it stops at a block that cannot be
read. -/
def ReadsOn (env : Env) (p : AppendPlan) (base q len : ℕ) (x : Fs (List UInt8 × OldDataReader))
    (d : Drive) : Prop :=
  ∃ got r m u, x d = (.ok (got, r), d.later u) ∧ r.At p (q + m) ∧ got.length = m ∧ m ≤ len ∧
    ReadsOk env p base q (q + m) ∧
    ((m = len ∧ u = base + p.readCount (q + m)) ∨
      m < len ∧ ∃ b, p.oldHeaderSize / 4096 ≤ b ∧ p.blockPos b = q + m ∧ ¬ OldReadOk env p base b ∧
        u = base + (b - p.oldHeaderSize / 4096) + 1)

theorem ReadsOn.congr {x y : Fs (List UInt8 × OldDataReader)} (h : ReadsOn env p base q len x d)
    (hxy : y d = x d) : ReadsOn env p base q len y d := by
  unfold ReadsOn at ⊢
  rwa [hxy]

theorem ReadsOk.append {q' q'' : ℕ} (h : ReadsOk env p base q q') (h' : ReadsOk env p base q' q'') :
    ReadsOk env p base q q'' := by
  intro b hb hlow hhigh
  by_cases hmid : p.blockPos b < q'
  · exact h b hb hlow hmid
  · exact h' b hb (not_lt.mp hmid) hhigh

theorem readsOn_nil (hr : r.At p q) (hd : d.moment = base + p.readCount q) :
    ReadsOn env p base q 0 (pure ([], r)) d :=
  ⟨[], r, 0, d.moment, rfl, hr, rfl, le_rfl, fun _ _ hlow hhigh => absurd hhigh (not_lt.mpr hlow),
    .inl ⟨rfl, hd⟩⟩

theorem ReadsOn.cons {u : ℕ} {x : Fs (List UInt8 × OldDataReader)}
    (h : ReadsOn env p base (q + cp) (len - cp) x (d.later u)) (hcp : cp ≤ len) (bytes : List UInt8)
    (hbytes : bytes.length = cp) (hreads : ReadsOk env p base q (q + cp)) :
    ReadsOn env p base q len
      (fun _ => (x >>= fun rest => pure (bytes ++ rest.1, rest.2)) (d.later u)) d := by
  obtain ⟨got, r, m, v, hrun, hr, hgot, hm, hrest, hlast⟩ := h
  rw [Nat.add_assoc] at hr hrest hlast
  refine ⟨bytes ++ got, r, cp + m, v, ?_, hr, ?_, by omega, ?_, ?_⟩
  · show (x >>= _) (d.later u) = _
    rw [bind_ok hrun]
    rfl
  · rw [List.length_append, hbytes, hgot]
  · exact hreads.append hrest
  · rcases hlast with ⟨hlast, hv⟩ | ⟨hlast, hb⟩
    · exact .inl ⟨by omega, hv⟩
    · exact .inr ⟨by omega, hb⟩

/-- **A read of the old data** gives what was asked for, or stops at a block that cannot be read. -/
theorem odrLoop_run (hsane : p.Sane) {n : ℕ} (hr : r.At p q) (hn : len ≤ n)
    (hlen : q + len ≤ p.oldDataLen) (hd : d.moment = base + p.readCount q) :
    ReadsOn env p base q len (odrLoop env n len r) d := by
  induction n generalizing len q r d with
  | zero =>
    obtain rfl : len = 0 := by omega
    exact readsOn_nil hr hd
  | succ n ih =>
    by_cases hzero : len = 0
    · subst hzero
      exact readsOn_nil hr hd
    · have hL := hsane (by omega)
      set off := (p.oldHeaderSize + q) % 4096 with hoff
      set cp := min (4096 - off) len with hcp
      have hcp_pos : 0 < cp := by omega
      have hend : off + cp ≤ 4096 := by omega
      have hcp_len : cp ≤ len := min_le_right _ _
      have hfp : u32 (r.fileOffset + r.dataPos) = p.oldHeaderSize + q := by
        rw [hr.fileOffset, hr.dataPos, u32_eq_self (by omega)]
      have hcount : min (min (blockSize - off) len) (r.dataLen - r.dataPos) = cp := by
        rw [hr.dataLen, hr.dataPos]
        show min (min (4096 - off) len) _ = _
        omega
      have hbusy : ¬ (len = 0 ∨ r.dataLen ≤ r.dataPos) := by
        omega
      -- the round with the block that is in the cache or is read
      have hround : ∀ (block : Block) (u : ℕ), u = base + p.readCount (q + cp) →
          ReadsOk env p base q (q + cp) →
          attempt (if (p.oldHeaderSize + q) / blockSize = r.cachedBlock then pure r.blockBuf
            else readBlock env (u32 (r.fileBlock + (p.oldHeaderSize + q) / blockSize))) d =
              (.ok (some block), d.later u) →
          ReadsOn env p base q len (odrLoop env (n + 1) len r) d := by
        intro block u hu hreads hfetch
        have hrest := ih (d := d.later u) (hr.advance hcp_pos hend block)
          (show len - cp ≤ n by omega) (by omega) hu
        refine (hrest.cons hcp_len ((block.bytes.drop off).take cp) ?_ hreads).congr ?_
        · rw [List.length_take, List.length_drop, block.size]
          show min cp (4096 - off) = cp
          omega
        · rw [odrLoop, if_neg hbusy]
          rw [hfp, bind_ok hfetch]
          rw [hcount, hr.dataPos]
      by_cases hcached : (p.oldHeaderSize + q) / 4096 = r.cachedBlock
      · obtain ⟨hq, hoff_pos⟩ := (hr.cached_iff (by omega)).mp hcached
        refine hround r.blockBuf d.moment ?_ ?_ ?_
        · rw [hd, AppendPlan.readCount_advance hcp_pos hend, AppendPlan.readCount, if_neg (by omega)]
          show _ + ((p.oldHeaderSize + q - 1) / 4096 - p.oldHeaderSize / 4096 + 1) = _
          omega
        · intro b hb hlow hhigh
          obtain ⟨rfl, hpos⟩ := AppendPlan.blockPos_eq hend hb hlow hhigh
          have hpos' : (p.oldHeaderSize + q) / 4096 * 4096 - p.oldHeaderSize = q := hpos
          omega
        · rw [if_pos hcached]
          rfl
      · -- the block begins at `q`
        have hstart : ¬ (0 < q ∧ 0 < off) := fun h => hcached ((hr.cached_iff (by omega)).mpr h)
        have hmoment : d.moment = base + ((p.oldHeaderSize + q) / 4096 - p.oldHeaderSize / 4096) := by
          rw [hd]
          show base + (if q = 0 then 0
            else (p.oldHeaderSize + q - 1) / 4096 - p.oldHeaderSize / 4096 + 1) = _
          split_ifs <;> omega
        have hpos : p.blockPos ((p.oldHeaderSize + q) / 4096) = q := by
          show (p.oldHeaderSize + q) / 4096 * 4096 - p.oldHeaderSize = q
          omega
        have hfetch := readBlock_eq env (u32 (r.fileBlock + (p.oldHeaderSize + q) / blockSize)) d
        have hokay : env.readOk d.moment (u32 (r.fileBlock + (p.oldHeaderSize + q) / blockSize)) = true ↔
            OldReadOk env p base ((p.oldHeaderSize + q) / 4096) := by
          rw [OldReadOk, hmoment, hr.fileBlock]
        by_cases hok : OldReadOk env p base ((p.oldHeaderSize + q) / 4096)
        · rw [if_pos (hokay.mpr hok)] at hfetch
          refine hround _ _ ?_ ?_ (by rw [if_neg hcached]; exact attempt_ok hfetch)
          · rw [AppendPlan.readCount_advance hcp_pos hend]
            omega
          · intro b hb hlow hhigh
            obtain ⟨rfl, -⟩ := AppendPlan.blockPos_eq hend hb hlow hhigh
            exact hok
        · rw [if_neg fun h => hok (hokay.mp h)] at hfetch
          refine ⟨[], r, 0, d.moment + 1, ?_, hr, rfl, Nat.zero_le _,
            fun _ _ hlow hhigh => absurd hhigh (not_lt.mpr hlow), .inr ⟨by omega, _, ?_, hpos, hok, by rw [hmoment]⟩⟩
          · rw [odrLoop, if_neg hbusy]
            rw [hfp, if_neg hcached, bind_ok (attempt_failed hfetch)]
            rfl
          · omega

end MinimalOS.Minimafs
