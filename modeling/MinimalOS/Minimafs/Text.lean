import MinimalOS.Lib.CString

/-!
# The texts MinimaFS keeps on disk

Every structure of `impl/filesystem/minimafs.c` is stored as text: a file starts with a tagged
header, a directory is a list of `ENTRY:` lines, block 0 is a tagged descriptor of the volume.
This module has the printers and the parsers, as functions of byte lists. Tags are looked up by
substring search from a position to the end of the text, as in the source; nothing here stops at
the end of a line or of the header.
-/

namespace MinimalOS.Minimafs

open CString

abbrev blockSize : ℕ := 4096
abbrev maxFilename : ℕ := 256
abbrev maxEntryName : ℕ := 64
abbrev maxPath : ℕ := 1024
abbrev maxRootEntries : ℕ := 64
abbrev minimafsMagic : ℕ := 0x4D494E46
abbrev maxBlocks : ℕ := 0xFFFFFFFE

/-- A value stored in a `uint32_t`. -/
def u32 (n : ℕ) : ℕ := n % 2 ^ 32

/-- `strncpy` into a zeroed array of `size` bytes whose last byte stays zero. -/
def strncpy (size : ℕ) (s : List UInt8) : List UInt8 := (cstr s).take (size - 1)

/-! ## Tags -/

def tagStart (tag : String) : List UInt8 := ascii "@" ++ ascii tag ++ ascii ":"

/-- The value without its trailing blanks and tabs. -/
def trimEnd (s : List UInt8) : List UInt8 :=
  (s.reverse.dropWhile fun c => c = 32 ∨ c = 9).reverse

/-- The text from `start` to the terminator found at `stop`, cut to an array of `maxLen` bytes. -/
def cutAt (start stop : List UInt8) (maxLen : ℕ) : List UInt8 :=
  start.take (if maxLen ≤ start.length - stop.length then maxLen - 1
    else start.length - stop.length)

def parseValue (start : List UInt8) (maxLen : ℕ) : Option (List UInt8) :=
  if start.head? = some 0x27 then
    (strchr 0x27 start.tail).map fun stop => cutAt start.tail stop maxLen
  else
    (strchr 0x40 start).map fun stop => trimEnd (cutAt start stop maxLen)

def parseTag (line : List UInt8) (tag : String) (maxLen : ℕ) : Option (List UInt8) :=
  (strstr (tagStart tag) line).bind fun s => parseValue (s.drop (tagStart tag).length) maxLen

def parseTagBool (line : List UInt8) (tag : String) : Bool :=
  match parseTag line tag 16 with
  | none => false
  | some value => value = ascii "True" ∨ value = ascii "true" ∨ value = ascii "1"

/-- One character of a hexadecimal value; any other character only shifts. -/
def hexStep (r : ℕ) (c : UInt8) : ℕ :=
  let d :=
    if 48 ≤ c ∧ c ≤ 57 then c.toNat - 48
    else if 97 ≤ c ∧ c ≤ 102 then c.toNat - 97 + 10
    else if 65 ≤ c ∧ c ≤ 70 then c.toNat - 65 + 10
    else 0
  (r * 16 % 2 ^ 64 + d) % 2 ^ 64

def parseNumber (value : List UInt8) : ℕ :=
  if value.head? = some 48 ∧ (value[1]? = some 120 ∨ value[1]? = some 88) then
    (value.drop 2).foldl hexStep 0
  else
    (value.filter fun c => IsDigit c).foldl (fun r c => (r * 10 + (c.toNat - 48)) % 2 ^ 64) 0

def parseTagUint64 (line : List UInt8) (tag : String) : ℕ :=
  match parseTag line tag 32 with
  | none => 0
  | some value => parseNumber value

/-! ## File headers -/

/-- `minimafs_file_metadata_t`. -/
@[ext]
structure FileMetadata where
  filename : List UInt8 := []
  filetype : List UInt8 := []
  fileformat : List UInt8 := []
  fileLength : ℕ := 0
  dataLength : ℕ := 0
  createdDate : List UInt8 := []
  lastChanged : List UInt8 := []
  parentFolder : List UInt8 := []
  runnable : Bool := false
  entrypoint : ℕ := 0
  runWith : List UInt8 := []
  hidden : Bool := false
  blockOffset : ℕ := 0
  blockCount : ℕ := 0
  deriving DecidableEq

/-- A number field after one line: replaced when the tag occurs anywhere from the line on. -/
def readNumber (line : List UInt8) (tag : String) (old : ℕ) : ℕ :=
  if (strstr (tagStart tag) line).isSome then parseTagUint64 line tag else old

def readFlag (line : List UInt8) (tag : String) (old : Bool) : Bool :=
  if (strstr (tagStart tag) line).isSome then parseTagBool line tag else old

/-- A text field after one line: `parse_tag` leaves the array alone when it fails. -/
def readText (line : List UInt8) (tag : String) (size : ℕ) (old : List UInt8) : List UInt8 :=
  (parseTag line tag size).getD old

def parseHeaderLine (m : FileMetadata) (line : List UInt8) : FileMetadata :=
  { m with
    filetype := readText line "FILETYPE" 64 m.filetype
    fileformat := readText line "FILEFORMAT" 16 m.fileformat
    fileLength := u32 (readNumber line "FILELEN" m.fileLength)
    dataLength := u32 (readNumber line "DATALEN" m.dataLength)
    filename := readText line "FILENAME" maxFilename m.filename
    createdDate := readText line "CREATEDDATE" 32 m.createdDate
    lastChanged := readText line "LASTCHANGED" 32 m.lastChanged
    parentFolder := readText line "PARENTFOLDER" maxPath m.parentFolder
    runnable := readFlag line "RUNNABLE" m.runnable
    entrypoint := readNumber line "ENTRYPOINT" m.entrypoint
    runWith := readText line "RUNWITH" maxPath m.runWith
    hidden := readFlag line "HIDDEN" m.hidden }

/-- The lines the header loop visits: up to the first one that starts with `@DATA@`. -/
def headerLines (data : List UInt8) : List (List UInt8) :=
  (lineStarts data).takeWhile fun line => ¬ (ascii "@DATA@").isPrefixOf line

/-- `minimafs_parse_file_header`; `none` where it returns `false` and leaves the metadata. -/
def parseFileHeader (data : List UInt8) : Option FileMetadata :=
  if (ascii "@HEADER@").isPrefixOf data then
    some ((headerLines data).foldl parseHeaderLine {})
  else none

def boolText (b : Bool) : List UInt8 := if b then ascii "True" else ascii "False"

/-- The lines `@RUNNABLE` to `@RUNWITH` of a header. -/
def runnableText (m : FileMetadata) : List UInt8 :=
  if m.runnable then
    ascii "@RUNNABLE:True@\n" ++
      (if m.entrypoint ≠ 0 then ascii "@ENTRYPOINT:0x" ++ hexToStr m.entrypoint ++ ascii "@\n"
        else []) ++
      (if m.runWith ≠ [] then ascii "@RUNWITH:" ++ m.runWith ++ ascii "@\n" else [])
  else ascii "@RUNNABLE:False@\n"

def generateFileHeader (m : FileMetadata) : List UInt8 :=
  ascii "@HEADER@\n" ++
  ascii "@FILETYPE:" ++ m.filetype ++ ascii "@\n" ++
  ascii "@FILEFORMAT:" ++ m.fileformat ++ ascii "@\n" ++
  ascii "@FILELEN:" ++ uintToStr m.fileLength ++ ascii "@\n" ++
  ascii "@DATALEN:" ++ uintToStr m.dataLength ++ ascii "@\n" ++
  ascii "@FILENAME:'" ++ m.filename ++ ascii "'@\n" ++
  ascii "@CREATEDDATE:'" ++ m.createdDate ++ ascii "'@\n" ++
  ascii "@LASTCHANGED:'" ++ m.lastChanged ++ ascii "'@\n" ++
  ascii "@PARENTFOLDER:'" ++ m.parentFolder ++ ascii "'@\n" ++
  runnableText m ++
  ascii "@HIDDEN:" ++ boolText m.hidden ++ ascii "@\n" ++
  ascii "@DATA@\n"

def footer : List UInt8 := ascii "@END\n"

def dataMarker : List UInt8 := ascii "@DATA@\n"

/-- Where the data starts: behind the first `@DATA@` line end found in the text. -/
def dataStart (text : List UInt8) : Option ℕ :=
  (strstr dataMarker text).map fun r => u32 (text.length - r.length + 7)

/-! ## Folder descriptors -/

/-- The two entry types the directory code produces and prints. -/
inductive EntryType where
  | file
  | dir
  deriving DecidableEq

structure DirEntry where
  name : List UInt8
  type : EntryType
  blockOffset : ℕ
  blockCount : ℕ
  hidden : Bool
  deriving DecidableEq

/-- `minimafs_folder_desc_t`; `entry_count` is the number of entries. -/
structure FolderDesc where
  path : List UInt8
  blockOffset : ℕ
  entries : List DirEntry
  deriving DecidableEq

def parseUint32 (s : List UInt8) : ℕ :=
  let digits := s.dropWhile fun c => c ≠ 0 ∧ ¬ IsDigit c
  (digits.takeWhile fun c => IsDigit c).foldl (fun r c => (r * 10 + (c.toNat - 48)) % 2 ^ 32) 0

/-- The number behind the first `tag` of the text, if there is one. -/
def fieldAfter (tag : String) (s : List UInt8) : Option ℕ :=
  (strstr (ascii tag) s).map fun r => parseUint32 (r.drop (ascii tag).length)

def parseFolderEntryLine (line : List UInt8) : Option DirEntry :=
  if (ascii "ENTRY:").isPrefixOf line then
    let p := line.drop 6
    (strchr 0x2C p).bind fun comma =>
      let typeStart := comma.tail
      (strstr (ascii ",BLOCK:") typeStart).map fun blockTag =>
        { name := cutAt p comma maxEntryName
          type := if cutAt typeStart blockTag 8 = ascii "DIR" then .dir else .file
          blockOffset := parseUint32 (blockTag.drop 7)
          blockCount := (fieldAfter ",COUNT:" blockTag).getD 1
          hidden := (fieldAfter ",HIDDEN:" blockTag).getD 0 ≠ 0 }
  else none

def parseFolderLine (desc : FolderDesc) (line : List UInt8) : FolderDesc :=
  if (ascii "FOLDER:").isPrefixOf line then
    { desc with path := ((lineText line).drop 7).take (maxPath - 1) }
  else if desc.entries.length < maxRootEntries then
    match parseFolderEntryLine line with
    | some e => { desc with entries := desc.entries ++ [e] }
    | none => desc
  else desc

/-- `minimafs_read_folder_desc_block` on the text it has read. -/
def parseFolderDesc (block : ℕ) (text : List UInt8) : FolderDesc :=
  (lineStarts text).foldl parseFolderLine { path := [], blockOffset := block, entries := [] }

def EntryType.text : EntryType → List UInt8
  | .dir => ascii "DIR"
  | .file => ascii "FILE"

def entryText (e : DirEntry) : List UInt8 :=
  ascii "ENTRY:" ++ e.name ++ ascii "," ++ e.type.text ++
  ascii ",BLOCK:" ++ uintToStr e.blockOffset ++ ascii ",COUNT:" ++ uintToStr e.blockCount ++
  ascii ",HIDDEN:" ++ uintToStr (if e.hidden then 1 else 0) ++ ascii "\n"

/-- The entry loop of `minimafs_write_folder_desc`, which gives up before the block overflows. -/
def printEntries : List UInt8 → List DirEntry → Option (List UInt8)
  | buffer, [] => some buffer
  | buffer, e :: es =>
    if blockSize - 128 < buffer.length then none else printEntries (buffer ++ entryText e) es

def folderHead (desc : FolderDesc) : List UInt8 :=
  ascii "FOLDER:" ++ desc.path ++ ascii "\n" ++
  ascii "ENTRIES:" ++ uintToStr desc.entries.length ++ ascii "\n"

def printFolderDesc (desc : FolderDesc) : Option (List UInt8) :=
  (printEntries (folderHead desc) desc.entries).map fun text => text ++ ascii "@END\n"

/-- The descriptor `minimafs_format` writes for the root. -/
def rootText : List UInt8 := ascii "FOLDER:/\n" ++ ascii "ENTRIES:0\n" ++ ascii "@END\n"

/-! ## The volume descriptor -/

structure StorageDesc where
  magic : ℕ := 0
  driveName : List UInt8 := []
  driveNumber : ℕ := 0
  password : List UInt8 := []
  passwordProtected : Bool := false
  totalSize : ℕ := 0
  usedSize : ℕ := 0
  freeSize : ℕ := 0
  totalBlocks : ℕ := 0
  usedBlocks : ℕ := 0
  freeBlocks : ℕ := 0
  rootBlock : ℕ := 0
  filesystemLabel : List UInt8 := []
  createdDate : List UInt8 := []
  lastMounted : List UInt8 := []
  deriving DecidableEq

def printStorageDesc (sd : StorageDesc) : List UInt8 :=
  ascii "@MAGIC:" ++ uintToStr sd.magic ++ ascii "@\n" ++
  ascii "@DRIVE_NUMBER:" ++ uintToStr sd.driveNumber ++ ascii "@\n" ++
  ascii "@DRIVE_NAME:'" ++ sd.driveName ++ ascii "'@\n" ++
  ascii "@PASSWORD:'" ++ sd.password ++ ascii "'@\n" ++
  ascii "@PASSWORDPROTECTED:" ++ boolText sd.passwordProtected ++ ascii "@\n" ++
  ascii "@TOTAL_SIZE_HI:" ++ uintToStr (sd.totalSize / 2 ^ 32) ++ ascii "@\n" ++
  ascii "@TOTAL_SIZE_LO:" ++ uintToStr (u32 sd.totalSize) ++ ascii "@\n" ++
  ascii "@USED_SIZE_HI:" ++ uintToStr (sd.usedSize / 2 ^ 32) ++ ascii "@\n" ++
  ascii "@USED_SIZE_LO:" ++ uintToStr (u32 sd.usedSize) ++ ascii "@\n" ++
  ascii "@FREE_SIZE_HI:" ++ uintToStr (sd.freeSize / 2 ^ 32) ++ ascii "@\n" ++
  ascii "@FREE_SIZE_LO:" ++ uintToStr (u32 sd.freeSize) ++ ascii "@\n" ++
  ascii "@TOTAL_BLOCKS:" ++ uintToStr sd.totalBlocks ++ ascii "@\n" ++
  ascii "@USED_BLOCKS:" ++ uintToStr sd.usedBlocks ++ ascii "@\n" ++
  ascii "@FREE_BLOCKS:" ++ uintToStr sd.freeBlocks ++ ascii "@\n" ++
  ascii "@ROOT_BLOCK:" ++ uintToStr sd.rootBlock ++ ascii "@\n" ++
  ascii "@FILESYSTEM_LABEL:'" ++ sd.filesystemLabel ++ ascii "'@\n" ++
  ascii "@CREATEDDATE:'" ++ sd.createdDate ++ ascii "'@\n" ++
  ascii "@LASTMOUNTED:'" ++ sd.lastMounted ++ ascii "'@\n" ++
  ascii "@END@\n"

def parseWide (text : List UInt8) (hi lo : String) : ℕ :=
  (parseTagUint64 text hi * 2 ^ 32) % 2 ^ 64 ||| parseTagUint64 text lo

def parseStorageDesc (text : List UInt8) : StorageDesc where
  magic := u32 (parseTagUint64 text "MAGIC")
  driveNumber := parseTagUint64 text "DRIVE_NUMBER" % 256
  driveName := (parseTag text "DRIVE_NAME" 64).getD []
  password := (parseTag text "PASSWORD" 64).getD []
  passwordProtected := parseTagBool text "PASSWORDPROTECTED"
  totalSize := parseWide text "TOTAL_SIZE_HI" "TOTAL_SIZE_LO"
  usedSize := parseWide text "USED_SIZE_HI" "USED_SIZE_LO"
  freeSize := parseWide text "FREE_SIZE_HI" "FREE_SIZE_LO"
  totalBlocks := u32 (parseTagUint64 text "TOTAL_BLOCKS")
  usedBlocks := u32 (parseTagUint64 text "USED_BLOCKS")
  freeBlocks := u32 (parseTagUint64 text "FREE_BLOCKS")
  rootBlock := u32 (parseTagUint64 text "ROOT_BLOCK")
  filesystemLabel := (parseTag text "FILESYSTEM_LABEL" 64).getD []
  createdDate := (parseTag text "CREATEDDATE" 32).getD []
  lastMounted := (parseTag text "LASTMOUNTED" 32).getD []

/-! ## Dates and paths -/

/-- The fields of `datetime_t` the file system prints. -/
structure Datetime where
  day : UInt8
  month : UInt8
  year : UInt16
  deriving DecidableEq

def monthNameShort (month : UInt8) : List UInt8 :=
  let names := ["Inv", "Jan", "Feb", "Mar", "Apr", "May", "Jun", "Jul", "Aug", "Sep", "Oct",
    "Nov", "Dec"]
  ascii (if 1 ≤ month ∧ month ≤ 12 then names[month.toNat]! else "Inv")

def getDatetime (dt : Datetime) : List UInt8 :=
  [UInt8.ofNat (48 + dt.day.toNat / 10), UInt8.ofNat (48 + dt.day.toNat % 10)] ++
  monthNameShort dt.month ++
  [UInt8.ofNat (48 + dt.year.toNat / 1000 % 10), UInt8.ofNat (48 + dt.year.toNat / 100 % 10),
    UInt8.ofNat (48 + dt.year.toNat / 10 % 10), UInt8.ofNat (48 + dt.year.toNat % 10)]

abbrev slash : UInt8 := 0x2F

def baseName (path : List UInt8) : List UInt8 :=
  (path.reverse.takeWhile (· ≠ slash)).reverse

/-- `minimafs_split_local_path`: the parent and the name. -/
def splitLocalPath (path : List UInt8) : List UInt8 × List UInt8 :=
  if slash ∈ path then (path.take (path.length - (baseName path).length - 1), baseName path)
  else ([], path)

def pathTokens (path : List UInt8) : List (List UInt8) :=
  (path.splitOn slash).filter (· ≠ [])

/-- The paths `""` and `"/"`. -/
abbrev IsRootPath (path : List UInt8) : Prop := path = [] ∨ path = [slash]

def findEntryInFolder (desc : FolderDesc) (name : List UInt8) : Option ℕ :=
  desc.entries.findIdx? fun e => e.name = name

end MinimalOS.Minimafs
