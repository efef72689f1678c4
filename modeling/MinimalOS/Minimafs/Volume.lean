import MinimalOS.Minimafs.Text
import MinimalOS.Minimafs.Extents

/-!
# A MinimaFS volume: blocks, descriptors and the tree walk

A `Drive` is what the file system keeps for one drive, with the blocks of its device. The rest of
the machine is an `Env`: which heap requests and block transfers succeed, what the clock shows,
what lies in memory behind a buffer. Each consultation of the machine happens at its own moment,
so an outcome may differ from one call to the next.

An operation of the source that returns `false` or `NULL` ends in `failed` and keeps every change
made so far. A loop or recursion that the source does not bound runs for at most `env.fuel` rounds
here and ends in `looping` after that. An access through a null pointer or outside a buffer ends
in `crashed`.
-/

namespace MinimalOS.Minimafs

open CString

structure Block where
  bytes : List UInt8
  size : bytes.length = blockSize
  deriving DecidableEq

def Block.ofBytes (s : List UInt8) : Block where
  bytes := (s ++ List.replicate blockSize 0).take blockSize
  size := by simp

theorem Block.ofBytes_bytes {s : List UInt8} (h : s.length ≤ blockSize) :
    (Block.ofBytes s).bytes = s ++ List.replicate (blockSize - s.length) 0 := by
  show (s ++ List.replicate blockSize 0).take blockSize = _
  rw [List.take_append, List.take_of_length_le h, List.take_replicate,
    Nat.min_eq_left (Nat.sub_le _ _)]

structure Env where
  /-- Does a heap or pool request made at this moment succeed? -/
  heap : ℕ → Bool
  /-- Does a transfer that starts at this block succeed at this moment? -/
  readOk : ℕ → ℕ → Bool
  writeOk : ℕ → ℕ → Bool
  clock : ℕ → Datetime
  /-- The memory behind a buffer handed out at this moment. -/
  beyond : ℕ → List UInt8
  /-- What a buffer that is not zeroed holds when it is handed out at this moment. -/
  stale : ℕ → ℕ → UInt8
  fuel : ℕ

structure Env.Ok (env : Env) : Prop where
  heap : ∀ t, env.heap t = true
  readOk : ∀ t b, env.readOk t b = true
  writeOk : ∀ t b, env.writeOk t b = true

/-- `minimafs_drive_t` with the drive's allocator, its device and the number of times the machine
has been consulted. -/
structure Drive where
  mounted : Bool
  driveNumber : ℕ
  driveName : List UInt8
  storageDesc : StorageDesc
  alloc : BlockAlloc
  disk : ℕ → Block
  /-- `blockdev_size_bytes` of the device. -/
  deviceSize : ℕ
  /-- `mounted_drive >= 0` of the device. -/
  deviceMounted : Bool
  selfTestDone : Bool
  moment : ℕ

inductive Stop where
  | failed
  | looping
  | crashed
  deriving DecidableEq

abbrev Fs (α : Type) := ExceptT Stop (StateM Drive) α

namespace Fs

def failed {α : Type} : Fs α := throw .failed

def looping {α : Type} : Fs α := throw .looping

def crashed {α : Type} : Fs α := throw .crashed

/-- Run `m` and go on with its result, `none` where it failed. -/
def attempt {α : Type} (m : Fs α) : Fs (Option α) := fun d =>
  match m d with
  | (.ok a, d') => (.ok (some a), d')
  | (.error .failed, d') => (.ok none, d')
  | (.error stop, d') => (.error stop, d')

/-- Run `m`; where it fails, clean up and fail. -/
def onFail {α : Type} (m : Fs α) (cleanup : Fs Unit) : Fs α := do
  match ← attempt m with
  | some a => pure a
  | none =>
    cleanup
    failed

def require (p : Prop) [Decidable p] : Fs Unit := if p then pure () else failed

def moment : Fs ℕ := modifyGet fun d => (d.moment, { d with moment := d.moment + 1 })

end Fs

open Fs

variable (env : Env)

def request : Fs Unit := do
  let t ← moment
  require (env.heap t)

def now : Fs (List UInt8) := do
  let t ← moment
  pure (getDatetime (env.clock t))

/-! ## Block transfers -/

def Drive.run (d : Drive) (start count : ℕ) : List Block :=
  (List.range count).map fun i => d.disk (start + i)

def Drive.store (d : Drive) (start : ℕ) (blocks : List Block) : Drive :=
  { d with
    disk := fun b => if start ≤ b then (blocks[b - start]?).getD (d.disk b) else d.disk b }

/-- The transfer loop of `minimafs_read_blocks`, at most sixteen blocks at a time. -/
def readLoop : ℕ → ℕ → ℕ → Fs (List Block)
  | 0, _, _ => pure []
  | n + 1, cur, remaining =>
    if remaining = 0 then pure []
    else do
      let t ← moment
      require (env.readOk t cur)
      let d ← get
      let rest ← readLoop n (u32 (cur + min remaining 16)) (remaining - min remaining 16)
      pure (d.run cur (min remaining 16) ++ rest)

def readBlocks (block count : ℕ) : Fs (List Block) := readLoop env count block count

/-- The transfer loop of `minimafs_write_blocks`. A failed transfer leaves its blocks alone. -/
def writeLoop : ℕ → ℕ → List Block → Fs Unit
  | 0, _, _ => pure ()
  | n + 1, cur, blocks =>
    if blocks = [] then pure ()
    else do
      let t ← moment
      require (env.writeOk t cur)
      modify fun d => d.store cur (blocks.take 16)
      writeLoop n (u32 (cur + min blocks.length 16)) (blocks.drop 16)

def writeBlocks (block : ℕ) (blocks : List Block) : Fs Unit :=
  writeLoop env blocks.length block blocks

def readBlock (block : ℕ) : Fs Block := do
  let blocks ← readBlocks env block 1
  pure (blocks.headD (Block.ofBytes []))

/-! ## Allocator calls -/

def allocRun (count : ℕ) : Fs ℕ := do
  let t ← moment
  let d ← get
  match blockAllocRun (env.heap t) d.alloc count with
  | (none, _) => failed
  | (some start, a) =>
    set { d with alloc := a }
    pure start

def freeRun (block count : ℕ) : Fs Unit := do
  let t ← moment
  modify fun d => { d with alloc := blockFreeRun (env.heap t) d.alloc block count }

def markUsed (block count : ℕ) : Fs Unit := do
  let t ← moment
  modify fun d => { d with alloc := baMarkUsed (env.heap t) d.alloc block count }

/-! ## storage.desc -/

def writeStorageDesc : Fs Unit := do
  let d ← get
  let text := printStorageDesc d.storageDesc
  require (text.length < blockSize)
  writeBlocks env 0 [Block.ofBytes text]

/-- What `minimafs_read_storage_desc` accepts. -/
abbrev StorageDesc.Valid (sd : StorageDesc) : Prop :=
  sd.magic = minimafsMagic ∧ sd.totalBlocks ≠ 0 ∧ sd.totalSize ≠ 0 ∧ sd.rootBlock ≠ 0

def readStorageDesc : Fs StorageDesc := do
  request env
  let block ← readBlock env 0
  let sd := parseStorageDesc block.bytes
  require sd.Valid
  pure sd

/-- The usage figures `minimafs_refresh_storage_desc` takes over from the allocator. -/
def StorageDesc.refresh (sd : StorageDesc) (a : BlockAlloc) (date : List UInt8) : StorageDesc :=
  let used := u32 (a.totalBlocks + 2 ^ 32 - a.freeBlocks)
  { sd with
    freeBlocks := a.freeBlocks
    usedBlocks := used
    usedSize := used * blockSize
    freeSize := (sd.totalSize + 2 ^ 64 - used * blockSize) % 2 ^ 64
    lastMounted := date }

/-- `minimafs_refresh_storage_desc`, which drops the result of the write. -/
def refreshStorageDesc : Fs Unit := do
  let date ← now env
  modify fun d => { d with storageDesc := d.storageDesc.refresh d.alloc date }
  let d ← get
  if d.storageDesc.magic = minimafsMagic ∧ d.storageDesc.totalBlocks ≠ 0 then
    let _ ← attempt (writeStorageDesc env)
    pure ()
  else pure ()

/-! ## folder.desc -/

def readFolderDescBlock (block : ℕ) : Fs FolderDesc := do
  let b ← readBlock env block
  pure (parseFolderDesc block b.bytes)

/-- The walk of `minimafs_get_folder_block` over the components that are left. -/
def walkFolders : List (List UInt8) → ℕ → Fs ℕ
  | [], block => pure block
  | token :: rest, block => do
    let desc ← readFolderDescBlock env block
    match desc.entries.find? fun e => e.type = .dir ∧ e.name = token with
    | none => failed
    | some e => walkFolders rest e.blockOffset

def getFolderBlock (path : List UInt8) : Fs ℕ := do
  let d ← get
  if IsRootPath path then pure d.storageDesc.rootBlock
  else do
    request env
    walkFolders env (pathTokens path) d.storageDesc.rootBlock

def readFolderDesc (path : List UInt8) : Fs FolderDesc := do
  let block ← getFolderBlock env path
  let desc ← readFolderDescBlock env block
  pure { desc with path := if desc.path = [] then path.take (maxPath - 1) else desc.path }

def writeFolderDesc (desc : FolderDesc) : Fs Unit := do
  require (desc.blockOffset ≠ 0 ∧ desc.entries.length ≤ maxRootEntries)
  match printFolderDesc desc with
  | none => failed
  | some text => writeBlocks env desc.blockOffset [Block.ofBytes text]

/-! ## Rebuilding the used set -/

/-- `minimafs_calc_file_block_count`: the size of a file by its own header, `1` when it cannot be
read. -/
def calcFileBlockCount (block : ℕ) : Fs ℕ := do
  let read : Fs FileMetadata := do
    request env
    let b ← readBlock env block
    request env
    pure ((parseFileHeader b.bytes).getD {})
  match ← attempt read with
  | none => pure 1
  | some m =>
    let length := if m.fileLength = 0 then blockSize else m.fileLength
    pure (u32 (length + blockSize - 1) / blockSize)

def scanEntry (e : DirEntry) : Fs Unit := do
  if e.blockCount = 0 then
    if e.type = .dir then markUsed env e.blockOffset 1
    else do
      let count ← calcFileBlockCount env e.blockOffset
      markUsed env e.blockOffset count
  else markUsed env e.blockOffset e.blockCount

/-- `minimafs_scan_directory`: mark the runs of a directory's entries, then scan its
subdirectories. The recursion follows whatever the disk holds, so it is bounded by fuel. -/
def scanDirectory : ℕ → ℕ → Fs Unit
  | 0, _ => looping
  | n + 1, block => do
    match ← attempt (readFolderDescBlock env block) with
    | none => pure ()
    | some desc => do
      desc.entries.forM (scanEntry env)
      (desc.entries.filter fun e => e.type = .dir).forM fun e => scanDirectory n e.blockOffset

end MinimalOS.Minimafs
