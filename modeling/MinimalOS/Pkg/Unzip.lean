import MinimalOS.Lib.CString
import MinimalOS.Lib.Packed
import MinimalOS.Lzss.Codec

/-!
# Reading `.mpkg` archives: `pkglib_unzip` of `impl/compression/pkglib.c`

The file system is what its callers see of it: questions about paths, and calls that create a
directory or write a file and may fail. The functions below thread its state together with a log
of those calls. A read from the archive buffer is checked: `none` stands for a read outside of
it. Memory requests go through an outcome, as in the LZSS codec.
-/

namespace MinimalOS.Pkg

open CString

abbrev Path := List UInt8

abbrev slash : UInt8 := 47
abbrev dot : UInt8 := 46
abbrev colon : UInt8 := 58

/-! ## The file system -/

/-- A file that was opened: the size it says it has and what reading that many bytes gives. -/
structure Opened where
  size : UInt32
  content : List UInt8
  deriving DecidableEq

/-- An entry of a listing, with its name as a C string. -/
structure DirEntry where
  name : List UInt8
  isDir : Bool
  zero_notMem : (0 : UInt8) ∉ name

/-- MinimaFS as a package sees it. Directories stay where they are; what `mkdir` makes need not be
there under its path, since the names of MinimaFS are cut to 63 bytes. -/
structure FileSystem (σ : Type) where
  fileExists : σ → Path → Bool
  isDir : σ → Path → Bool
  openRead : σ → Path → Option Opened
  listDir : σ → Path → List DirEntry
  mkdir : σ → Path → Bool × σ
  writeFileSegments : σ → Path → List UInt8 → Bool × σ
  deleteFile : σ → Path → Bool × σ
  isDir_mkdir : ∀ s p q, isDir s q = true → isDir (mkdir s p).2 q = true
  isDir_write : ∀ s p data q, isDir s q = true → isDir (writeFileSegments s p data).2 q = true

/-- A call that changes the file system, with its result. -/
inductive Effect where
  | mkdir (path : Path) (ok : Bool)
  | write (path : Path) (data : List UInt8) (ok : Bool)
  deriving DecidableEq

def Effect.path : Effect → Path
  | .mkdir path _ => path
  | .write path _ _ => path

def Effect.ok : Effect → Bool
  | .mkdir _ ok => ok
  | .write _ _ ok => ok

structure Run (σ : Type) where
  fs : σ
  log : List Effect

variable {σ : Type}

def Run.mkdir (F : FileSystem σ) (r : Run σ) (path : Path) : Bool × Run σ :=
  let (ok, fs) := F.mkdir r.fs path
  (ok, ⟨fs, r.log ++ [.mkdir path ok]⟩)

def Run.write (F : FileSystem σ) (r : Run σ) (path : Path) (data : List UInt8) : Bool × Run σ :=
  let (ok, fs) := F.writeFileSegments r.fs path data
  (ok, ⟨fs, r.log ++ [.write path data ok]⟩)

/-! ## Entries -/

abbrev minimafsMaxPath : ℕ := 1024
abbrev mpkgHeaderSize : ℕ := 16
abbrev mpkgNameSize : ℕ := 128
abbrev mpkgEntrySize : ℕ := 148
abbrev mpkgFlagDirectory : UInt32 := 1
abbrev mpkgMethodStore : UInt32 := 0
abbrev mpkgMethodLzss : UInt32 := 1
abbrev mpkgVersion : UInt32 := 1

def mpkgMagic : List UInt8 := ascii "MPKG0001"

structure Fields where
  flags : UInt32
  method : UInt32
  uncompressedSize : UInt32
  compressedSize : UInt32
  dataOffset : UInt32
  deriving DecidableEq

open Packed in
def fieldsLayout : Packed Fields :=
  (u32.both (u32.both (u32.both (u32.both u32)))).as
    (fun (flags, method, uncompressedSize, compressedSize, dataOffset) =>
      ⟨flags, method, uncompressedSize, compressedSize, dataOffset⟩)
    (fun f => (f.flags, f.method, f.uncompressedSize, f.compressedSize, f.dataOffset))
    (fun _ => rfl) fun _ => rfl

structure Entry extends Fields where
  name : List UInt8
  deriving DecidableEq

/-- `n` bytes of the archive from `off` on. Nothing is read if `n` is zero. -/
def readRange (archive : List UInt8) (off n : ℕ) : Option (List UInt8) :=
  if n = 0 then some []
  else if off + n ≤ archive.length then some ((archive.drop off).take n) else none

def pkgReadU32 (archive : List UInt8) (off : ℕ) : Option UInt32 :=
  (readRange archive off 4).map Packed.u32.dec

/-- The name ends at the terminator that replaces its last byte, if not before. -/
def pkgParseEntry (raw : List UInt8) : Entry :=
  { fieldsLayout.dec (raw.drop mpkgNameSize) with name := cstr (raw.take (mpkgNameSize - 1)) }

/-- The loop of `pkg_name_is_safe`, with the character before the rest of the name. -/
def hasDotDot : Option UInt8 → List UInt8 → Bool
  | _, [] => false
  | prev, c :: rest =>
    (c = dot ∧ rest.head? = some dot ∧ (prev = none ∨ prev = some slash) ∧
      (rest.tail = [] ∨ rest.tail.head? = some slash)) || hasDotDot (some c) rest

def pkgNameIsSafe (name : List UInt8) : Bool :=
  name ≠ [] ∧ name.head? ≠ some slash ∧ hasDotDot none name = false

/-! ## Directories -/

/-- How long the root of a path is, `N:/` in `N:/dir/file`. -/
def rootEnd (path : Path) : Option ℕ :=
  match strchr colon path with
  | some (_ :: c :: rest) => if c = slash then some (path.length - rest.length) else none
  | _ => none

/-- The texts that `pkg_mkdir_p` cuts out of a path, at each slash behind the root and at the
end. -/
def cuts (path : Path) (minLen : ℕ) : List Path :=
  ((List.range' minLen (path.length + 1 - minLen)).filter fun i =>
    minLen < i ∧ (path[i]? = some slash ∨ path[i]? = none)).map path.take

def ensureDirs (F : FileSystem σ) : List Path → Run σ → Bool × Run σ
  | [], r => (true, r)
  | p :: ps, r =>
    if F.isDir r.fs p then ensureDirs F ps r
    else
      match r.mkdir F p with
      | (true, r) => ensureDirs F ps r
      | (false, r) => (false, r)

def pkgMkdirP (F : FileSystem σ) (path : Path) (r : Run σ) : Bool × Run σ :=
  if path.length = 0 ∨ minimafsMaxPath ≤ path.length then (false, r)
  else
    match rootEnd path with
    | none => (false, r)
    | some minLen => ensureDirs F (cuts path minLen) r

/-- The path up to its last slash, with that slash if it is the root's. -/
def pkgParentDir (path : Path) : Option Path :=
  match rootEnd path, strrchr slash path with
  | some minLen, some last =>
    let lastSlash := path.length - last.length
    let len := if lastSlash + 1 = minLen then lastSlash + 1 else lastSlash
    if minimafsMaxPath ≤ len then none else some (path.take len)
  | _, _ => none

/-- The directory of a file, if its path has one to be made. -/
def makeParent (F : FileSystem σ) (path : Path) (r : Run σ) : Bool × Run σ :=
  match pkgParentDir path with
  | none => (true, r)
  | some parent => pkgMkdirP F parent r

/-! ## Extracting -/

/-- The memory requests for one entry: the block for the data and the decoder's window, with what
it held before. -/
structure EntryMem where
  decompressed : Bool
  textBuf : Option (ℕ → UInt8)

/-- The bytes that `pkg_extract_entry` writes for a file whose range was checked; the inner `none`
is a failure. -/
def entryData (mem : EntryMem) (entry : Entry) (archive : List UInt8) :
    Option (Option (List UInt8)) := do
  let payload ← readRange archive entry.dataOffset.toNat entry.compressedSize.toNat
  if entry.method = mpkgMethodStore then
    pure (if entry.uncompressedSize ≠ entry.compressedSize then none else some payload)
  else if entry.method = mpkgMethodLzss then
    if entry.uncompressedSize = 0 then pure (some [])
    else if mem.decompressed = false then pure none
    else
      let (produced, out) := Lzss.lzssDecompress mem.textBuf payload entry.uncompressedSize.toNat
      pure (if produced ≠ entry.uncompressedSize.toNat then none else some out)
  else pure none

/-- `snprintf(full_path, sizeof(full_path), "%s/%s", target_dir, entry->name)` -/
def fullPath (targetDir name : Path) : Path :=
  snprintf minimafsMaxPath [.str targetDir, .char slash, .str name]

def pkgExtractEntry (F : FileSystem σ) (mem : EntryMem) (entry : Entry) (archive : List UInt8)
    (targetDir : Path) (r : Run σ) : Option (Bool × Run σ) :=
  if pkgNameIsSafe entry.name = false then some (false, r)
  else
    let path := fullPath targetDir entry.name
    if path.length = 0 ∨ minimafsMaxPath ≤ path.length then some (false, r)
    else if entry.flags &&& mpkgFlagDirectory ≠ 0 then some (pkgMkdirP F path r)
    else
      let (ok, r) := makeParent F path r
      if ok = false then some (false, r)
      else if 0 < entry.compressedSize.toNat ∧ (archive.length ≤ entry.dataOffset.toNat ∨
          archive.length < entry.dataOffset.toNat + entry.compressedSize.toNat) then
        some (false, r)
      else
        (entryData mem entry archive).map fun data => data.elim (false, r) (r.write F path)

/-- The archive in memory, if the file could be opened and has the right magic and version. `heap`
says whether its buffer could be allocated. -/
def loadOpened (heap : Bool) : Option Opened → Option (Option (List UInt8))
  | none => some none
  | some file =>
    if file.size.toNat < mpkgHeaderSize ∨ heap = false ∨ file.content.length ≠ file.size.toNat then
      some none
    else do
      let magic ← readRange file.content 0 mpkgMagic.length
      let version ← pkgReadU32 file.content 8
      pure (if magic ≠ mpkgMagic ∨ version ≠ mpkgVersion then none else some file.content)

def pkgLoadArchive (F : FileSystem σ) (heap : Bool) (fs : σ) (path : Path) :
    Option (Option (List UInt8)) :=
  loadOpened heap (F.openRead fs path)

def pkgValidateEntryTable (archive : List UInt8) : Option ℕ := do
  let entryCount ← pkgReadU32 archive 12
  pure (if archive.length - mpkgHeaderSize < entryCount.toNat * mpkgEntrySize then 0
    else entryCount.toNat)

/-- What `pkglib_unzip` returns, with the run it made. -/
structure Unzipped (σ : Type) where
  ok : Bool
  installed : ℕ
  failed : ℕ
  run : Run σ

def Unzipped.count (u : Unzipped σ) (ok : Bool) (r : Run σ) : Unzipped σ :=
  if ok then { u with installed := u.installed + 1, run := r }
  else { u with failed := u.failed + 1, run := r }

@[simp]
theorem Unzipped.run_count (u : Unzipped σ) (ok : Bool) (r : Run σ) : (u.count ok r).run = r := by
  cases ok <;> rfl

/-- The loop over the entries, from entry `i` on for `n` more. -/
def unzipEntries (F : FileSystem σ) (mem : ℕ → EntryMem) (archive : List UInt8) (targetDir : Path) :
    ℕ → ℕ → Unzipped σ → Option (Unzipped σ)
  | 0, _, u => some u
  | n + 1, i, u => do
    let raw ← readRange archive (mpkgHeaderSize + i * mpkgEntrySize) mpkgEntrySize
    let (ok, r) ← pkgExtractEntry F (mem i) (pkgParseEntry raw) archive targetDir u.run
    unzipEntries F mem archive targetDir n (i + 1) (u.count ok r)

/-- The target directory, made if it is not there. -/
def makeTarget (F : FileSystem σ) (targetDir : Path) (fs : σ) : Bool × Run σ :=
  if F.isDir fs targetDir then (true, ⟨fs, []⟩) else pkgMkdirP F targetDir ⟨fs, []⟩

def pkglibUnzip (F : FileSystem σ) (heap : Bool) (mem : ℕ → EntryMem) (fs : σ)
    (archivePath targetDir : Path) : Option (Unzipped σ) := do
  match ← pkgLoadArchive F heap fs archivePath with
  | none => pure ⟨false, 0, 0, ⟨fs, []⟩⟩
  | some archive =>
    let entryCount ← pkgValidateEntryTable archive
    if entryCount = 0 then pure ⟨false, 0, 0, ⟨fs, []⟩⟩
    else
      let (ok, r) := makeTarget F targetDir fs
      if ok = false then pure ⟨false, 0, 0, r⟩
      else unzipEntries F mem archive targetDir entryCount 0 ⟨true, 0, 0, r⟩

end MinimalOS.Pkg
