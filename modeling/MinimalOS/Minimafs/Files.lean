import MinimalOS.Lib.Patch
import MinimalOS.Minimafs.Lengths
import MinimalOS.Minimafs.Volume

/-!
# File operations of MinimaFS

Writing a file to disk, and the calls on an open one: `minimafs_create_file`, `minimafs_open`,
`minimafs_read`, `minimafs_write`, `minimafs_seek`, `minimafs_close`, `minimafs_set_metadata` and
`findinfile`, for the drive that a path names. A handle has its data in memory or, above 16 KiB,
reads the blocks of the file on demand.
-/

namespace MinimalOS.Minimafs

open CString Fs

variable (env : Env)

/-! ## Writing a file to disk -/

/-- A pointer and a length; the pointer may be null. -/
structure Segment where
  bytes : Option (List UInt8)
  len : ℕ

/-- `minimafs_copy_segment_to_block`, with the segment from `srcStart` on in the file. -/
def copySegmentToBlock (block : List UInt8) (blockOffset : ℕ) (src : Segment) (srcStart : ℕ) :
    List UInt8 :=
  match src.bytes with
  | none => block
  | some bytes =>
    let blockEnd := u32 (blockOffset + blockSize)
    let srcEnd := u32 (srcStart + src.len)
    if src.len = 0 ∨ srcEnd ≤ blockOffset ∨ blockEnd ≤ srcStart then block
    else
      let copyStart := max srcStart blockOffset
      let copyEnd := min srcEnd blockEnd
      Patch.write block
        (copyStart - blockOffset, (bytes.drop (copyStart - srcStart)).take (copyEnd - copyStart))

/-- Block `i` of a file: what the header, the two segments and the footer have in it. -/
def fileBlock (header : List UInt8) (seg1 seg2 : Segment) (i : ℕ) : Block :=
  let offset := u32 (i * blockSize)
  let headerSize := u32 header.length
  let dataSize := u32 (seg1.len + seg2.len)
  let block := List.replicate blockSize 0
  let block := copySegmentToBlock block offset ⟨some header, headerSize⟩ 0
  let block := copySegmentToBlock block offset seg1 headerSize
  let block := copySegmentToBlock block offset seg2 (u32 (headerSize + seg1.len))
  let block := copySegmentToBlock block offset ⟨some footer, 5⟩ (u32 (headerSize + dataSize))
  Block.ofBytes block

/-- The chunks of up to sixteen blocks, from block `i` of the file on. -/
def writeChunks (content : ℕ → Block) (startBlock blockCount : ℕ) : ℕ → ℕ → Fs Unit
  | 0, _ => pure ()
  | n + 1, i =>
    if blockCount ≤ i then pure ()
    else do
      let chunk := min (blockCount - i) 16
      writeBlocks env (u32 (startBlock + i)) ((List.range chunk).map fun j => content (i + j))
      writeChunks content startBlock blockCount n (i + chunk)

/-- The run for `blockCount` blocks: the old one if they fit it, a new one otherwise. -/
def placeFile (m : FileMetadata) (blockCount : ℕ) : Fs ℕ := do
  if m.blockOffset ≠ 0 ∧ blockCount ≤ m.blockCount then do
    if blockCount < m.blockCount then
      freeRun env (u32 (m.blockOffset + blockCount)) (m.blockCount - blockCount)
    pure m.blockOffset
  else do
    let start ← allocRun env blockCount
    if 0 < m.blockCount then freeRun env m.blockOffset m.blockCount
    pure start

/-- The blocks of a file on their way to its run; a failure gives the run back. -/
def storeFile (content : ℕ → Block) (start blockCount : ℕ) : Fs Unit := do
  -- one block can be put together in the shared buffer
  if min blockCount 16 ≠ 1 then onFail (request env) (freeRun env start blockCount)
  onFail (writeChunks env content start blockCount blockCount 0) (freeRun env start blockCount)
  refreshStorageDesc env

/-- `minimafs_write_file_to_disk_segments`: the metadata it leaves. -/
def writeFileToDiskSegments (m : FileMetadata) (seg1 seg2 : Segment) : Fs FileMetadata := do
  -- the two headers of the passes that only settle the length, and the one that is written
  request env
  request env
  request env
  let m := segmentsMetadata m seg1.len seg2.len
  let header := generateFileHeader m
  let totalSize := u32 (header.length + m.dataLength + 5)
  let blockCount := u32 (totalSize + blockSize - 1) / blockSize
  let start ← placeFile env m blockCount
  storeFile env (fileBlock header seg1 seg2) start blockCount
  pure { m with blockOffset := start, blockCount := blockCount }

def writeFileToDisk (m : FileMetadata) (data : Segment) : Fs FileMetadata :=
  writeFileToDiskSegments env m data ⟨none, 0⟩

/-! ## Creating -/

def createFile (path : List UInt8) (filetype fileformat : String) : Fs Unit := do
  request env
  request env
  let d ← get
  require d.mounted
  let (parent, filename) := splitLocalPath path
  let desc ← readFolderDesc env parent
  match findEntryInFolder desc filename with
  | some i => require ((desc.entries[i]?).map DirEntry.type = some .dir)
  | none => pure ()
  require (desc.entries.length < maxRootEntries)
  let created ← now env
  let changed ← now env
  let m ← writeFileToDisk env
    { filename := strncpy maxFilename filename
      filetype := strncpy 64 (ascii filetype)
      fileformat := strncpy 16 (ascii fileformat)
      parentFolder := strncpy maxPath parent
      createdDate := created
      lastChanged := changed } ⟨none, 0⟩
  let entry : DirEntry :=
    ⟨strncpy maxEntryName filename, .file, m.blockOffset, m.blockCount, false⟩
  writeFolderDesc env { desc with entries := desc.entries ++ [entry] }

/-! ## Handles -/

abbrev streamingThreshold : ℕ := 16 * 1024
abbrev inlineSize : ℕ := 512
abbrev noBlock : ℕ := 2 ^ 32 - 1

structure FileHandle where
  path : List UInt8
  metadata : FileMetadata
  data : Option (List UInt8)
  dataSize : ℕ
  position : ℕ
  modified : Bool
  readOnly : Bool
  useStreaming : Bool
  fileBlockOffset : ℕ
  fileBlockCount : ℕ
  dataOffsetInBlocks : ℕ
  streamCache : Option Block
  cachedBlockIndex : ℕ
  deriving DecidableEq

def FileHandle.fresh (path : List UInt8) (readOnly : Bool) (entry : DirEntry) : FileHandle where
  path := strncpy maxPath path
  metadata := {}
  data := none
  dataSize := 0
  position := 0
  modified := false
  readOnly := readOnly
  useStreaming := false
  fileBlockOffset := entry.blockOffset
  fileBlockCount := entry.blockCount
  dataOffsetInBlocks := 0
  streamCache := none
  cachedBlockIndex := noBlock

def FileHandle.streaming (h : FileHandle) (cache : Block) : FileHandle :=
  { h with useStreaming := true, data := none, streamCache := some cache }

def FileHandle.loaded (h : FileHandle) (data : List UInt8) : FileHandle :=
  { h with useStreaming := false, data := some data }

/-- Where the data of a file are, by its first block as the parser reads it. -/
structure Extract where
  metadata : FileMetadata
  dataOffset : ℕ
  dataLength : ℕ

/-- The part of `minimafs_open` that works out `data_offset` and `data_length`. -/
def extract (text : List UInt8) (entry : DirEntry) (totalSize : ℕ) : Extract :=
  let m := (parseFileHeader text).getD {}
  let dataOffset := (dataStart text).getD 0
  let dataLength := m.dataLength
  let dataLength :=
    if dataLength = 0 ∧ u32 (dataOffset + 5) < m.fileLength then
      u32 (m.fileLength + 2 ^ 32 - dataOffset + 2 ^ 32 - 5)
    else dataLength
  let dataLength :=
    if totalSize < u32 (dataOffset + dataLength) then
      if dataOffset < totalSize then totalSize - dataOffset else 0
    else dataLength
  ⟨{ m with blockOffset := entry.blockOffset, blockCount := entry.blockCount }, dataOffset,
    dataLength⟩

def FileHandle.opened (path : List UInt8) (readOnly : Bool) (entry : DirEntry) (x : Extract) :
    FileHandle :=
  { FileHandle.fresh path readOnly entry with
    metadata := x.metadata, dataOffsetInBlocks := x.dataOffset, dataSize := x.dataLength }

def openStreaming (h : FileHandle) : Fs FileHandle := do
  let t ← moment
  require (env.heap t)
  pure (h.streaming (Block.ofBytes ((List.range blockSize).map (env.stale t))))

/-- The full load of `minimafs_open`, which falls back to streaming. -/
def openLoaded (h : FileHandle) (totalSize : ℕ) : Fs FileHandle := do
  if h.dataSize = 0 then pure { h with useStreaming := false, data := none }
  else do
    let raw ← attempt (request env)
    -- a file of one block can be read into the shared buffer
    if raw.isNone ∧ blockSize < totalSize then openStreaming env h
    else do
      if totalSize ≠ h.fileBlockCount * blockSize then crashed
      else do
        let blocks ← readBlocks env h.fileBlockOffset h.fileBlockCount
        if inlineSize < h.dataSize then request env
        if totalSize < h.dataOffsetInBlocks + h.dataSize then crashed
        else
          pure (h.loaded
            (((blocks.flatMap Block.bytes).drop h.dataOffsetInBlocks).take h.dataSize))

/-- The data of a handle: a long file is streamed if it can be. -/
def openData (h : FileHandle) (totalSize : ℕ) : Fs FileHandle := do
  if streamingThreshold < h.dataSize then do
    match ← attempt (openStreaming env h) with
    | some h => pure h
    | none => openLoaded env h totalSize
  else openLoaded env h totalSize

/-- The part of `minimafs_open` behind the directory lookup. -/
def openEntry (path : List UInt8) (readOnly : Bool) (entry : DirEntry) : Fs FileHandle := do
  require (entry.type ≠ .dir)
  request env
  let totalSize := u32 (entry.blockCount * blockSize)
  if totalSize = 0 then pure (FileHandle.fresh path readOnly entry)
  else do
    let t ← moment
    let first ← readBlock env entry.blockOffset
    request env
    let x := extract (first.bytes ++ env.beyond t) entry totalSize
    openData env (FileHandle.opened path readOnly entry x) totalSize

def lookupEntry (parent filename : List UInt8) : Fs (Option DirEntry) := do
  let desc ← readFolderDesc env parent
  pure ((findEntryInFolder desc filename).bind (desc.entries[·]?))

def openFile (path : List UInt8) (readOnly : Bool) : Fs FileHandle := do
  let d ← get
  require d.mounted
  let (parent, filename) := splitLocalPath path
  request env
  match ← lookupEntry env parent filename with
  | some entry => openEntry env path readOnly entry
  | none => do
    require (readOnly = false)
    createFile env path "binary" "bin"
    match ← lookupEntry env parent filename with
    | some entry => openEntry env path readOnly entry
    | none => failed

def updateEntry (parent filename : List UInt8) (f : DirEntry → DirEntry) : Fs Unit := do
  let desc ← readFolderDesc env parent
  match findEntryInFolder desc filename with
  | none => failed
  | some i => writeFolderDesc env { desc with entries := desc.entries.modify i f }

def writeBack (h : FileHandle) : Fs Unit := do
  request env
  let m ← writeFileToDisk env h.metadata ⟨h.data, h.dataSize⟩
  let (parent, filename) := splitLocalPath h.path
  request env
  request env
  request env
  updateEntry env parent filename fun e =>
    { e with blockOffset := m.blockOffset, blockCount := m.blockCount, hidden := m.hidden }

/-- `minimafs_close`, which drops the results of what it does. -/
def closeFile (h : FileHandle) : Fs Unit := do
  let d ← get
  if h.modified ∧ ¬ h.readOnly ∧ d.mounted then
    let _ ← attempt (writeBack env h)
    pure ()
  else pure ()

/-! ## Reading, seeking and writing -/

def fetchBlock (h : FileHandle) (cache : Block) (blockIndex : ℕ) : Fs Block :=
  if blockIndex = h.cachedBlockIndex then pure cache
  else readBlock env (u32 (h.fileBlockOffset + blockIndex))

/-- The loop of `minimafs_read` over the blocks: the bytes it copies and the handle afterwards. -/
def streamLoop : ℕ → ℕ → FileHandle → Block → Fs (List UInt8 × FileHandle)
  | 0, _, h, _ => pure ([], h)
  | n + 1, remaining, h, cache => do
    if remaining = 0 then pure ([], h)
    else
      let fileOffset := u32 (h.dataOffsetInBlocks + h.position)
      let blockIndex := fileOffset / blockSize
      let offsetInBlk := fileOffset % blockSize
      if h.fileBlockCount ≤ blockIndex then pure ([], h)
      else do
        match ← attempt (fetchBlock env h cache blockIndex) with
        | none => pure ([], h)
        | some block => do
          let copy := min (min (blockSize - offsetInBlk) remaining) (h.dataSize - h.position)
          let r ← streamLoop n (remaining - copy)
            { h with
              streamCache := some block, cachedBlockIndex := blockIndex
              position := h.position + copy } block
          pure ((block.bytes.drop offsetInBlk).take copy ++ r.1, r.2)

/-- `minimafs_read`: the bytes it returns, and the handle. -/
def readFile (h : FileHandle) (size : ℕ) : Fs (List UInt8 × FileHandle) := do
  if h.dataSize ≤ h.position then pure ([], h)
  else do
    let toRead := min size (h.dataSize - h.position)
    if h.useStreaming then do
      let d ← get
      match h.streamCache with
      | none => pure ([], h)
      | some cache =>
        if d.mounted then streamLoop env toRead toRead h cache else pure ([], h)
    else
      match h.data with
      | none => pure ([], h)
      | some data =>
        pure ((data.drop h.position).take toRead, { h with position := h.position + toRead })

def FileHandle.seek (h : FileHandle) (offset : ℕ) : FileHandle :=
  { h with position := min offset h.dataSize }

/-- The buffer for `needed` bytes, with the old data at its start; `none` if there is none. -/
def growData (h : FileHandle) (needed : ℕ) : Fs (Option FileHandle) := do
  if needed ≤ h.dataSize then pure (some h)
  else do
    let t ← moment
    let fresh :=
      if needed ≤ inlineSize then List.replicate needed 0
      else (List.range needed).map (env.stale t)
    if needed ≤ inlineSize ∨ env.heap t then
      pure (some { h with
        data := some (Patch.write fresh (0, (h.data.getD []).take h.dataSize))
        dataSize := needed })
    else pure none

/-- `minimafs_write`: how many bytes it takes, and the handle. A copy that does not fit the buffer
ends in `crashed`. -/
def writeFile (h : FileHandle) (buffer : List UInt8) : Fs (ℕ × FileHandle) := do
  if h.readOnly then pure (0, h)
  else do
    match ← growData env h (u32 (h.position + buffer.length)) with
    | none => pure (0, h)
    | some h => do
      if buffer = [] ∨ h.position + buffer.length ≤ (h.data.getD []).length then do
        let date ← now env
        pure (buffer.length, { h with
          data := h.data.map fun data => Patch.write data (h.position, buffer)
          position := u32 (h.position + buffer.length)
          modified := true
          metadata := { h.metadata with lastChanged := date, dataLength := h.dataSize } })
      else crashed

/-! ## Metadata -/

def FileMetadata.updated (old new : FileMetadata) (date : List UInt8) : FileMetadata :=
  { old with
    filetype := strncpy 64 new.filetype
    fileformat := strncpy 16 new.fileformat
    runnable := new.runnable
    entrypoint := new.entrypoint
    runWith := strncpy maxPath new.runWith
    hidden := new.hidden
    lastChanged := date }

/-- The directory's part of `minimafs_set_metadata`: only the flag is taken over. -/
def updateHidden (path : List UInt8) (hidden : Bool) : Fs Unit := do
  request env
  request env
  let (parent, filename) := splitLocalPath path
  request env
  updateEntry env parent filename fun e => { e with hidden := hidden }

/-- The file's part of `minimafs_set_metadata`: the file is written again. -/
def rewriteFile (h : FileHandle) (new : FileMetadata) : Fs FileMetadata := do
  request env
  request env
  let date ← now env
  let d ← get
  require d.mounted
  writeFileToDisk env (h.metadata.updated new date) ⟨h.data, h.dataSize⟩

def setMetadata (path : List UInt8) (new : FileMetadata) : Fs Unit := do
  let h ← openFile env path false
  let ok ← attempt do
    let _ ← rewriteFile env h new
    let _ ← attempt (updateHidden env h.path new.hidden)
  closeFile env h
  require ok.isSome

/-! ## Searching -/

abbrev chunkSize : ℕ := 4096

def findInChunk (needle buf : List UInt8) : Option ℕ :=
  (List.range (buf.length + 1 - needle.length)).find? fun i => needle.isPrefixOf (buf.drop i)

/-- The loop of `findinfile` from `offset` on: where it finds the needle, and the handle. Its buffer
has room for a chunk and the needle, in 32 bits. -/
def findLoop (needle : List UInt8) : ℕ → ℕ → FileHandle → Fs (Option ℕ × FileHandle)
  | 0, _, _ => looping
  | n + 1, offset, h => do
    if h.dataSize ≤ offset then pure (none, h)
    else do
      let (buf, h) ← readFile env (h.seek offset) (min (h.dataSize - offset) chunkSize)
      if u32 (chunkSize + needle.length) < buf.length then crashed
      else if buf = [] then pure (none, h)
      else
        match findInChunk needle buf with
        | some i => pure (some (u32 (offset + i)), h)
        | none =>
          if 1 < needle.length ∧ needle.length - 1 ≤ buf.length then
            findLoop needle n (u32 (offset + (buf.length - (needle.length - 1)))) h
          else findLoop needle n (u32 (offset + buf.length)) h

def toInt32 (n : ℕ) : ℤ := if n < 2 ^ 31 then n else (n : ℤ) - 2 ^ 32

/-- `findinfile` on an open file; `fuel` bounds the rounds of its loop. The length of the needle has
32 bits. -/
def findInHandle (fuel : ℕ) (needle : List UInt8) (h : FileHandle) : Fs ℤ := do
  let needle := needle.take (u32 needle.length)
  if needle = [] ∨ h.dataSize < needle.length then pure (-1)
  else do
    match ← attempt (request env) with
    | none => pure (-1)
    | some _ => do
      let (found, _) ← findLoop env needle fuel 0 h
      pure ((found.map toInt32).getD (-1))

def findInFile (fuel : ℕ) (needle path : List UInt8) : Fs ℤ := do
  match ← attempt (openFile env path true) with
  | none => pure (-1)
  | some h => do
    let result ← findInHandle env fuel needle h
    closeFile env h
    pure result

end MinimalOS.Minimafs
