import MinimalOS.Lib.Patch
import MinimalOS.Pkg.Unzip

/-!
# Building `.mpkg` archives: `pkglib_zip` of `impl/compression/pkglib.c`

The files and directories below a path are collected first, then every file is read and, if that
makes it smaller, compressed; offsets are assigned in one pass over the items and the archive is
written into a zeroed buffer in another. `LZSS_MAX_CHAIN` is a parameter, as in the codec.
-/

namespace MinimalOS.Pkg

open CString

variable {σ : Type}

/-! ## Collecting -/

structure ZipItem where
  relName : Path
  fullPath : Path
  isDir : Bool
  deriving DecidableEq

abbrev pkglibZipMaxItems : ℕ := 16

/-- `sizeof(((pkg_zip_item_t*)0)->full_path)` -/
abbrev fullPathSize : ℕ := 256

def pkgZipAddItem (items : List ZipItem) (relName fullPath : Path) (isDir : Bool) :
    Option (List ZipItem) :=
  if fullPathSize ≤ fullPath.length then none
  else if pkglibZipMaxItems ≤ items.length then none
  else some (items ++ [⟨relName.take (mpkgNameSize - 1), fullPath.take (fullPathSize - 1), isDir⟩])

def childName (relPrefix name : Path) : Path :=
  if relPrefix ≠ [] then snprintf mpkgNameSize [.str relPrefix, .char slash, .str name]
  else snprintf mpkgNameSize [.str name]

def childPath (dir name : Path) : Path :=
  if dir.getLast? = some slash then snprintf minimafsMaxPath [.str dir, .str name]
  else snprintf minimafsMaxPath [.str dir, .char slash, .str name]

abbrev minimafsMaxRootEntries : ℕ := 64

/-- The walk over a directory, `depth` levels deep. Every level has an item of its own, so more
levels than items are never needed. -/
def pkgZipCollectDir (F : FileSystem σ) (fs : σ) :
    ℕ → Path → Path → List ZipItem → Option (List ZipItem)
  | 0, _, _, _ => none
  | depth + 1, dir, relPrefix, items =>
    ((F.listDir fs dir).take minimafsMaxRootEntries).foldlM (fun items e => do
      let relName := childName relPrefix e.name
      let child := childPath dir e.name
      let items ← pkgZipAddItem items relName child e.isDir
      if e.isDir then pkgZipCollectDir F fs depth child relName items else pure items) items

def pkgBasename (path : Path) : Path :=
  match strrchr slash path with
  | some last => last.tail
  | none => path

def zipItems (F : FileSystem σ) (fs : σ) (source : Path) : Option (List ZipItem) :=
  if F.isDir fs source then do
    let items ← pkgZipCollectDir F fs (pkglibZipMaxItems + 1) source [] []
    if items = [] then none else pure items
  else pkgZipAddItem [] (pkgBasename source) source false

/-! ## Payloads -/

/-- The memory requests of `pkglib_zip`; those of the compressor for item `i` are `lzss i`. -/
structure ZipHeap where
  arrays : Bool
  raw : ℕ → Bool
  lzss : ℕ → ℕ → Bool
  dataOffsets : Bool
  archive : Bool

structure Payload where
  rawSize : ℕ
  method : UInt32
  bytes : List UInt8

abbrev pkglibZipLzssMaxBytes : ℕ := 256 * 1024

def storePayload (raw : List UInt8) : Payload := ⟨raw.length, mpkgMethodStore, raw⟩

/-- A file is stored as it is unless the compressor makes it smaller. -/
def choosePayload (mem : ℕ → Bool) (maxChain : ℕ) (useLzss : Bool) (raw : List UInt8) : Payload :=
  if useLzss = true ∧ 0 < raw.length ∧ raw.length ≤ pkglibZipLzssMaxBytes then
    match Lzss.lzssCompress mem maxChain raw with
    | some compressed =>
      if compressed.length < raw.length then ⟨raw.length, mpkgMethodLzss, compressed⟩
      else storePayload raw
    | none => storePayload raw
  else storePayload raw

/-- All bytes of a file; nothing is read from an empty one. -/
def readWhole (F : FileSystem σ) (heap : Bool) (fs : σ) (path : Path) : Option (List UInt8) :=
  match F.openRead fs path with
  | none => none
  | some file =>
    if file.size.toNat = 0 then some []
    else if heap = false ∨ file.content.length ≠ file.size.toNat then none
    else some file.content

def itemPayload (F : FileSystem σ) (heap : ZipHeap) (maxChain : ℕ) (fs : σ) (useLzss : Bool) (i : ℕ)
    (item : ZipItem) : Option Payload :=
  if item.isDir then some ⟨0, mpkgMethodStore, []⟩
  else (readWhole F (heap.raw i) fs item.fullPath).map
    (choosePayload (heap.lzss i) maxChain useLzss)

/-- The loop over the items, from item `i` on. -/
def itemPayloads (F : FileSystem σ) (heap : ZipHeap) (maxChain : ℕ) (fs : σ) (useLzss : Bool) :
    ℕ → List ZipItem → Option (List (ZipItem × Payload))
  | _, [] => some []
  | i, item :: items => do
    let payload ← itemPayload F heap maxChain fs useLzss i item
    let rest ← itemPayloads F heap maxChain fs useLzss (i + 1) items
    pure ((item, payload) :: rest)

/-! ## Layout -/

/-- An item with its payload and where that goes. -/
structure Row where
  item : ZipItem
  payload : Payload
  dataOffset : ℕ

abbrev uint32Max : ℕ := 2 ^ 32 - 1

/-- The offsets, from `running` on, and the size of the archive. -/
def placeRows : List (ZipItem × Payload) → ℕ → Option (List Row × ℕ)
  | [], running => some ([], running)
  | (item, payload) :: rest, running =>
    if item.isDir then do
      let (rows, size) ← placeRows rest running
      pure (⟨item, payload, 0⟩ :: rows, size)
    else if uint32Max - running < payload.bytes.length then none
    else do
      let (rows, size) ← placeRows rest (running + payload.bytes.length)
      pure (⟨item, payload, running⟩ :: rows, size)

def strncpy (n : ℕ) (s : List UInt8) : List UInt8 := s.take n ++ List.replicate (n - s.length) 0

def Row.fields (row : Row) : Fields where
  flags := if row.item.isDir then mpkgFlagDirectory else 0
  method := row.payload.method
  uncompressedSize := UInt32.ofNat row.payload.rawSize
  compressedSize := UInt32.ofNat row.payload.bytes.length
  dataOffset := UInt32.ofNat row.dataOffset

def entryBase (i : ℕ) : ℕ := mpkgHeaderSize + i * mpkgEntrySize

/-- What is written for the table, from entry `i` on. The last byte of a name is left as it is. -/
def entryPatches : ℕ → List Row → List (ℕ × List UInt8)
  | _, [] => []
  | i, row :: rows =>
    (entryBase i, strncpy (mpkgNameSize - 1) row.item.relName) ::
      (entryBase i + mpkgNameSize, fieldsLayout.enc row.fields) :: entryPatches (i + 1) rows

def payloadPatches (rows : List Row) : List (ℕ × List UInt8) :=
  rows.filterMap fun row =>
    if row.item.isDir = false ∧ 0 < row.payload.bytes.length then
      some (row.dataOffset, row.payload.bytes)
    else none

def archivePatches (rows : List Row) : List (ℕ × List UInt8) :=
  (0, mpkgMagic) :: (8, Packed.u32.enc mpkgVersion) ::
    (12, Packed.u32.enc (UInt32.ofNat rows.length)) :: (entryPatches 0 rows ++ payloadPatches rows)

def buildArchive (rows : List Row) (size : ℕ) : List UInt8 :=
  Patch.writeAll (List.replicate size 0) (archivePatches rows)

/-! ## Zipping -/

def outputPath (source : Path) : Path :=
  let trimmed := source.take (minimafsMaxPath - 1)
  let trimmed := if 1 < trimmed.length ∧ trimmed.getLast? = some slash then trimmed.dropLast
    else trimmed
  snprintf minimafsMaxPath (.str trimmed :: (ascii ".mpkg").map .char)

/-- Whether to compress; `none` for an unknown algorithm. -/
def zipAlgorithm (algorithm : Option (List UInt8)) : Option Bool :=
  match algorithm with
  | none => some true
  | some name =>
    if name = [] ∨ name = ascii "lzss" then some true
    else if name = ascii "store" then some false else none

/-- Everything up to the layout: the rows and the size of the archive. -/
def zipRows (F : FileSystem σ) (heap : ZipHeap) (maxChain : ℕ) (fs : σ) (source : Path)
    (algorithm : Option (List UInt8)) : Option (List Row × ℕ) := do
  if F.fileExists fs source = false then none
  else
    let useLzss ← zipAlgorithm algorithm
    let items ← zipItems F fs source
    if minimafsMaxPath ≤ (outputPath source).length ∨ heap.arrays = false then none
    else
      let pairs ← itemPayloads F heap maxChain fs useLzss 0 items
      if heap.dataOffsets = false then none
      else placeRows pairs (mpkgHeaderSize + items.length * mpkgEntrySize)

def pkglibZip (F : FileSystem σ) (heap : ZipHeap) (maxChain : ℕ) (fs : σ) (source : Path)
    (algorithm : Option (List UInt8)) : Bool × Run σ :=
  match zipRows F heap maxChain fs source algorithm with
  | none => (false, ⟨fs, []⟩)
  | some (rows, size) =>
    if heap.archive = false then (false, ⟨(F.deleteFile fs (outputPath source)).2, []⟩)
    else (⟨fs, []⟩ : Run σ).write F (outputPath source) (buildArchive rows size)

end MinimalOS.Pkg
