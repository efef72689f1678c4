import Mathlib
import MinimalOS.Lib.CString
import MinimalOS.Lib.Packed

/-!
# GPT of `impl/storage/partition.c`

A disk is a number of sectors and what they hold. `gptLoad` reads a table from sector 1 and the
entry array it names, `gptStore` writes one: its result is the list of sector writes in the order
in which the source issues them, so that a crash is a prefix of that list. Memory and the
transfers themselves do not fail.
-/

namespace MinimalOS.Partition

open CString

/-! ## Disks -/

abbrev Sector (ss : ℕ) := Vector UInt8 ss

/-- A disk with sectors of `ss` bytes. -/
structure Disk (ss : ℕ) where
  sectors : ℕ
  data : ℕ → Sector ss
  sectors_lt : sectors < 2 ^ 64
  sectorSize_ge : 512 ≤ ss

/-- Sector writes, first one first. -/
abbrev Log (ss : ℕ) := List (ℕ × Sector ss)

variable {ss : ℕ}

def Disk.put (d : Disk ss) (w : ℕ × Sector ss) : Disk ss :=
  { d with data := Function.update d.data w.1 w.2 }

def Disk.apply (d : Disk ss) (log : Log ss) : Disk ss := log.foldl Disk.put d

/-- Sector `i` of a buffer; what lies behind the data is zero. -/
def sectorOf (buf : List UInt8) (i : ℕ) : Sector ss := Vector.ofFn fun j => buf.getD (i * ss + j) 0

def blockdevRead (d : Disk ss) (lba count : ℕ) : Option (List UInt8) :=
  if count = 0 then some []
  else if d.sectors ≤ lba ∨ d.sectors - lba < count then none
  else some ((List.range count).flatMap fun i => (d.data (lba + i)).toList)

def transfer (lba count : ℕ) (buf : List UInt8) : Log ss :=
  (List.range count).map fun i => (lba + i, sectorOf buf i)

def blockdevWrite (d : Disk ss) (lba count : ℕ) (buf : List UInt8) : Option (Log ss) :=
  if count = 0 then some []
  else if d.sectors ≤ lba ∨ d.sectors - lba < count then none
  else some (transfer lba count buf)

/-- `ok = ok && write(..)`, with the writes done so far. -/
def Disk.andWrite (d : Disk ss) (acc : Bool × Log ss) (write : Disk ss → Option (Log ss)) :
    Bool × Log ss :=
  if acc.1 then
    match write (d.apply acc.2) with
    | none => (false, acc.2)
    | some log => (true, acc.2 ++ log)
  else acc

/-! ## On-disk layouts -/

structure MbrEntry where
  status : UInt8
  chsFirst : Vector UInt8 3
  type : UInt8
  chsLast : Vector UInt8 3
  lbaFirst : UInt32
  sectors : UInt32
  deriving DecidableEq

structure GptHeader where
  signature : Vector UInt8 8
  revision : UInt32
  headerSize : UInt32
  headerCrc32 : UInt32
  reserved : UInt32
  myLba : UInt64
  alternateLba : UInt64
  firstUsableLba : UInt64
  lastUsableLba : UInt64
  diskGuid : Vector UInt8 16
  entriesLba : UInt64
  numEntries : UInt32
  entrySize : UInt32
  entriesCrc32 : UInt32
  deriving DecidableEq

structure GptEntry where
  typeGuid : Vector UInt8 16
  uniqueGuid : Vector UInt8 16
  firstLba : UInt64
  /-- inclusive -/
  lastLba : UInt64
  attributes : UInt64
  name : Vector UInt16 36
  deriving DecidableEq

def emptyEntry : GptEntry :=
  ⟨Vector.replicate 16 0, Vector.replicate 16 0, 0, 0, 0, Vector.replicate 36 0⟩

open Packed

def mbrEntryLayout : Packed MbrEntry :=
  (u8.both ((u8.array 3).both (u8.both ((u8.array 3).both (u32.both u32))))).as
    (fun (status, chsFirst, type, chsLast, lbaFirst, sectors) =>
      ⟨status, chsFirst, type, chsLast, lbaFirst, sectors⟩)
    (fun e => (e.status, e.chsFirst, e.type, e.chsLast, e.lbaFirst, e.sectors))
    (fun _ => rfl) fun _ => rfl

def headerLayout : Packed GptHeader :=
  ((u8.array 8).both (u32.both (u32.both (u32.both (u32.both (u64.both (u64.both (u64.both
    (u64.both ((u8.array 16).both (u64.both (u32.both (u32.both u32))))))))))))).as
    (fun (signature, revision, headerSize, headerCrc32, reserved, myLba, alternateLba,
        firstUsableLba, lastUsableLba, diskGuid, entriesLba, numEntries, entrySize,
        entriesCrc32) =>
      ⟨signature, revision, headerSize, headerCrc32, reserved, myLba, alternateLba,
        firstUsableLba, lastUsableLba, diskGuid, entriesLba, numEntries, entrySize,
        entriesCrc32⟩)
    (fun h => (h.signature, h.revision, h.headerSize, h.headerCrc32, h.reserved, h.myLba,
      h.alternateLba, h.firstUsableLba, h.lastUsableLba, h.diskGuid, h.entriesLba, h.numEntries,
      h.entrySize, h.entriesCrc32))
    (fun _ => rfl) fun _ => rfl

def entryLayout : Packed GptEntry :=
  ((u8.array 16).both ((u8.array 16).both (u64.both (u64.both (u64.both (u16.array 36)))))).as
    (fun (typeGuid, uniqueGuid, firstLba, lastLba, attributes, name) =>
      ⟨typeGuid, uniqueGuid, firstLba, lastLba, attributes, name⟩)
    (fun e => (e.typeGuid, e.uniqueGuid, e.firstLba, e.lastLba, e.attributes, e.name))
    (fun _ => rfl) fun _ => rfl

abbrev gptEntries : ℕ := 128

abbrev Entries := Vector GptEntry gptEntries

def entriesLayout : Packed Entries := entryLayout.array gptEntries

/-- `sizeof(gpt_entry_t)` -/
abbrev entryBytes : ℕ := 128

abbrev gptEntryBytes : ℕ := gptEntries * entryBytes

example : headerLayout.size = 92 ∧ entryLayout.size = entryBytes ∧ mbrEntryLayout.size = 16 := by
  decide

/-! ## Loading -/

def crcShift (c : UInt32) : UInt32 :=
  if c &&& 1 ≠ 0 then (0xEDB88320 : UInt32) ^^^ (c >>> 1) else c >>> 1

/-- An entry of `g_crc_table`. -/
def crcTable (i : UInt32) : UInt32 := (List.range 8).foldl (fun c _ => crcShift c) i

def crcStep (crc : UInt32) (b : UInt8) : UInt32 :=
  crcTable ((crc ^^^ b.toUInt32) &&& 0xFF) ^^^ (crc >>> 8)

def partitionCrc32 (p : List UInt8) : UInt32 := p.foldl crcStep 0xFFFFFFFF ^^^ 0xFFFFFFFF

@[ext]
structure Gpt where
  header : GptHeader
  entries : Entries
  deriving DecidableEq

def efiPart : Vector UInt8 8 := ⟨(ascii "EFI PART").toArray, by decide⟩

def entrySectors (ss : ℕ) : ℕ := (gptEntryBytes + ss - 1) / ss

def headerCrc (h : GptHeader) : UInt32 := partitionCrc32 (headerLayout.enc { h with headerCrc32 := 0 })

/-- The checks of `gpt_load` on the header. -/
def headerOk (ss : ℕ) (h : GptHeader) : Bool :=
  h.signature = efiPart ∧ 92 ≤ h.headerSize ∧ h.headerSize.toNat ≤ ss ∧
    headerCrc h = h.headerCrc32 ∧ h.entrySize = 128 ∧ h.numEntries ≠ 0 ∧ h.numEntries ≤ 128

/-- The entries in memory: as many as the header says, and zeros. -/
def entriesFrom (h : GptHeader) (raw : List UInt8) : Entries :=
  let n := h.numEntries.toNat * entryBytes
  entriesLayout.dec (raw.take n ++ List.replicate (gptEntryBytes - n) 0)

def entriesCrc (h : GptHeader) (entries : Entries) : UInt32 :=
  partitionCrc32 ((entriesLayout.enc entries).take (h.numEntries.toNat * entryBytes))

def gptLoad (d : Disk ss) : Option Gpt := do
  let hdr ← blockdevRead d 1 1
  let h := headerLayout.dec hdr
  if headerOk ss h = false then none
  else do
    let raw ← blockdevRead d h.entriesLba.toNat (entrySectors ss)
    let entries := entriesFrom h raw
    if entriesCrc h entries ≠ h.entriesCrc32 then none else some ⟨h, entries⟩

/-! ## Storing -/

def sealHeader (h : GptHeader) : GptHeader := { h with headerCrc32 := headerCrc h }

/-- The fields that `gpt_store` sets in both headers. -/
def storeHeader (g : Gpt) : GptHeader :=
  { g.header with
    numEntries := 128
    entrySize := 128
    entriesCrc32 := partitionCrc32 (entriesLayout.enc g.entries) }

/-- `disk->sectors - 1` -/
def lastLba (d : Disk ss) : ℕ := (d.sectors + 2 ^ 64 - 1) % 2 ^ 64

/-- `last - es` -/
def backupLba (d : Disk ss) : ℕ := (lastLba d + 2 ^ 64 - entrySectors ss) % 2 ^ 64

def backupHeader (d : Disk ss) (g : Gpt) : GptHeader :=
  sealHeader { storeHeader g with
    myLba := UInt64.ofNat (lastLba d)
    alternateLba := 1
    entriesLba := UInt64.ofNat (backupLba d) }

def primaryHeader (d : Disk ss) (g : Gpt) : GptHeader :=
  sealHeader { storeHeader g with
    myLba := 1
    alternateLba := UInt64.ofNat (lastLba d)
    entriesLba := 2 }

def protectiveEntry (d : Disk ss) : MbrEntry where
  status := 0
  chsFirst := #v[0, 2, 0]
  type := 0xEE
  chsLast := #v[0xFF, 0xFF, 0xFF]
  lbaFirst := 1
  sectors := if 0xFFFFFFFF < lastLba d then 0xFFFFFFFF else UInt32.ofNat (lastLba d)

def writeProtectiveMbr (d : Disk ss) : Option (Log ss) :=
  -- boot code in the first 440 bytes and the disk signature stay
  let mbr := (blockdevRead d 0 1).getD (List.replicate ss 0)
  blockdevWrite d 0 1 (mbr.take 446 ++ mbrEntryLayout.enc (protectiveEntry d) ++
    List.replicate 48 0 ++ [0x55, 0xAA] ++ mbr.drop 512)

def gptStore (d : Disk ss) (g : Gpt) : Bool × Log ss :=
  let es := entrySectors ss
  let sec := entriesLayout.enc g.entries
  let ok := d.andWrite (true, []) fun d => blockdevWrite d (backupLba d) es sec
  let ok := d.andWrite ok fun d => blockdevWrite d (lastLba d) 1 (headerLayout.enc (backupHeader d g))
  let ok := d.andWrite ok fun d => blockdevWrite d 2 es sec
  let ok := d.andWrite ok fun d => blockdevWrite d 1 1 (headerLayout.enc (primaryHeader d g))
  d.andWrite ok writeProtectiveMbr

end MinimalOS.Partition
