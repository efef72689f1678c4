import MinimalOS.Lib.Patch
import MinimalOS.Partition.Gpt

/-!
# The volume builder of `impl/storage/fat32.c`

Clusters are handed out in order and never returned. File data goes to the device at once, the
directories and the FAT are kept in memory until `fat32_finish`. Memory from `alloc` is zero, so a
directory or a FAT that is not filled reads as zeros. `Env` says which requests for memory are
granted and which transfers fail.
-/

namespace MinimalOS.Fat32

open CString Packed MinimalOS.Partition

variable {ss : ℕ}

abbrev reservedSectors : ℕ := 32

abbrev numFats : ℕ := 2

abbrev minClusters : ℕ := 65525

abbrev maxClusters : ℕ := 4 * 1024 * 1024

abbrev maxDirs : ℕ := 32

abbrev eoc : UInt32 := 0x0FFFFFFF

abbrev ioChunk : ℕ := 64 * 1024

abbrev fatDate : UInt16 := ((2026 - 1980 : UInt16) <<< 9) ||| ((1 : UInt16) <<< 5) ||| 1

/-! ## Directory entries -/

structure Dirent where
  name : Vector UInt8 11
  attr : UInt8
  ntres : UInt8
  crtTimeTenth : UInt8
  crtTime : UInt16
  crtDate : UInt16
  lstAccDate : UInt16
  fstClusHi : UInt16
  wrtTime : UInt16
  wrtDate : UInt16
  fstClusLo : UInt16
  fileSize : UInt32
  deriving DecidableEq

def direntLayout : Packed Dirent :=
  ((u8.array 11).both (u8.both (u8.both (u8.both (u16.both (u16.both (u16.both (u16.both
    (u16.both (u16.both (u16.both u32))))))))))).as
    (fun (name, attr, ntres, crtTimeTenth, crtTime, crtDate, lstAccDate, fstClusHi, wrtTime,
        wrtDate, fstClusLo, fileSize) =>
      ⟨name, attr, ntres, crtTimeTenth, crtTime, crtDate, lstAccDate, fstClusHi, wrtTime, wrtDate,
        fstClusLo, fileSize⟩)
    (fun e => (e.name, e.attr, e.ntres, e.crtTimeTenth, e.crtTime, e.crtDate, e.lstAccDate,
      e.fstClusHi, e.wrtTime, e.wrtDate, e.fstClusLo, e.fileSize))
    (fun _ => rfl) fun _ => rfl

abbrev direntBytes : ℕ := 32

example : direntLayout.size = direntBytes := by decide

def upper (c : UInt8) : UInt8 := if 97 ≤ c ∧ c ≤ 122 then c - 97 + 65 else c

def make83 (name : List UInt8) : Vector UInt8 11 :=
  let dot := strrchr 46 name
  let stem := match dot with
    | none => cstr name
    | some dot => name.take (name.length - dot.length)
  let ext := match dot with
    | none => []
    | some dot => cstr dot.tail
  Vector.ofFn fun i =>
    if i.val < 8 then ((stem.take 8).map upper).getD i 32
    else ((ext.take 3).map upper).getD (i - 8) 32

/-- An entry as `add_entry` and `new_dir` fill it in, all other bytes zero. -/
def entryWith (name : Vector UInt8 11) (attr : UInt8) (cluster size : ℕ) : Dirent where
  name := name
  attr := attr
  ntres := 0
  crtTimeTenth := 0
  crtTime := 0
  crtDate := fatDate
  lstAccDate := fatDate
  fstClusHi := UInt16.ofNat (cluster / 2 ^ 16)
  wrtTime := 0
  wrtDate := fatDate
  fstClusLo := UInt16.ofNat cluster
  fileSize := UInt32.ofNat size

def dotName (dots : ℕ) : Vector UInt8 11 := Vector.ofFn fun i => if i.val < dots then 46 else 32

def dotEntry (cluster : ℕ) : Dirent := entryWith (dotName 1) 0x10 cluster 0

/-- The root is 0 in "..". -/
def dotdotEntry (parentCluster : ℕ) : Dirent :=
  entryWith (dotName 2) 0x10 (if parentCluster = 2 then 0 else parentCluster) 0

/-! ## The builder -/

/-- `fat_dir_t`, with the `count` entries that are filled in. -/
structure Dir where
  firstCluster : ℕ
  clusters : ℕ
  capacity : ℕ
  entries : List Dirent

structure Geometry where
  /-- sectors per cluster -/
  spc : ℕ
  totalSectors : ℕ
  fatSectors : ℕ
  /-- sector of cluster 2 -/
  dataStart : ℕ
  clusterCount : ℕ
  deriving DecidableEq

/-- `fat32_builder_t`; `log` has all sectors written so far. -/
structure Builder (ss : ℕ) extends Geometry where
  dev : Disk ss
  nextCluster : ℕ
  fat : ℕ → UInt32
  dirs : List Dir
  failed : Bool
  log : Log ss

structure Env (ss : ℕ) where
  /-- after how many sectors the next transfer fails, if it does -/
  fault : Log ss → Option ℕ
  /-- whether a request for memory is granted -/
  granted : ℕ → Bool

def Geometry.clusterBytes (ss : ℕ) (g : Geometry) : ℕ := g.spc * ss

def clusterLba (g : Geometry) (cluster : ℕ) : ℕ := g.dataStart + (cluster - 2) * g.spc

/-- `blockdev_write` on the device of the builder. -/
def blockWrite (env : Env ss) (fs : Builder ss) (lba count : ℕ) (buf : List UInt8) :
    Bool × Builder ss :=
  match blockdevWrite fs.dev lba count buf with
  | none => (false, fs)
  | some sectors =>
    match env.fault fs.log with
    | none => (true, { fs with log := fs.log ++ sectors })
    | some k => (false, { fs with log := fs.log ++ sectors.take k })

/-- The FAT after `n` clusters from `first` on were chained. -/
def link (fat : ℕ → UInt32) (first n : ℕ) : ℕ → UInt32 :=
  (List.range n).foldl (fun fat i => Function.update fat (first + i)
    (if i + 1 < n then UInt32.ofNat (first + i + 1) else eoc)) fat

def allocClusters (fs : Builder ss) (n : ℕ) : ℕ × Builder ss :=
  if n = 0 then (0, fs)
  else if (fs.clusterCount + 2) % 2 ^ 32 < (fs.nextCluster + n) % 2 ^ 32 then
    (0, { fs with failed := true })
  else
    (fs.nextCluster, { fs with
      fat := link fs.fat fs.nextCluster n
      nextCluster := (fs.nextCluster + n) % 2 ^ 32 })

/-- The loop of `write_zero`, at most `fuel` times. -/
def writeZero (env : Env ss) : ℕ → Builder ss → ℕ → ℕ → Bool × Builder ss
  | 0, fs, _, _ => (true, fs)
  | fuel + 1, fs, lba, sectors =>
    if sectors = 0 then (true, fs)
    else
      let n := min sectors (ioChunk / ss)
      let r := blockWrite env fs lba n []
      if r.1 = false then r else writeZero env fuel r.2 (lba + n) (sectors - n)

def dirClusters (clusterBytes : ℕ) : ℕ :=
  if 4096 / clusterBytes = 0 then 1 else 4096 / clusterBytes

/-- Handle of no directory, the parent of the root. -/
abbrev noParent : ℕ := 0xFFFFFFFF

def newDir (env : Env ss) (fs : Builder ss) (parentCluster : ℕ) : ℕ × Builder ss :=
  if maxDirs ≤ fs.dirs.length then (0, fs)
  else
    let clusters := dirClusters (fs.clusterBytes ss)
    let a := allocClusters fs clusters
    if a.1 = 0 then (0, a.2)
    else if env.granted (4 + fs.dirs.length) = false then (0, a.2)
    else
      (a.1, { a.2 with
        dirs := a.2.dirs ++ [{
          firstCluster := a.1
          clusters := clusters
          capacity := clusters * fs.clusterBytes ss / direntBytes
          entries := if parentCluster = noParent then []
            else [dotEntry a.1, dotdotEntry parentCluster] }] })

def Dir.push (e : Dirent) (d : Dir) : Dir := { d with entries := d.entries ++ [e] }

/-- `add_entry`, together with what its caller stores in the entry. -/
def addEntry (fs : Builder ss) (dir : ℕ) (e : Dirent) : Bool × Builder ss :=
  match fs.dirs.findIdx? (fun d => d.firstCluster = dir) with
  | none => (false, { fs with failed := true })
  | some i =>
    if (fs.dirs[i]?).all fun d => d.capacity ≤ d.entries.length then
      (false, { fs with failed := true })
    else (true, { fs with dirs := fs.dirs.modify i (Dir.push e) })

/-! ## Finishing -/

/-- The directories; what is behind the entries is zero. -/
def writeDirs (env : Env ss) : List Dir → Builder ss → Bool × Builder ss
  | [], fs => (true, fs)
  | d :: ds, fs =>
    let r := blockWrite env fs (clusterLba fs.toGeometry d.firstCluster) (d.clusters * fs.spc)
      (d.entries.flatMap direntLayout.enc)
    if r.1 = false then r else writeDirs env ds r.2

def fatBytes (fs : Builder ss) : List UInt8 :=
  (List.range (fs.clusterCount + 2)).flatMap fun c => u32.enc (fs.fat c)

/-- One copy of the FAT from sector `s` on, at most `fuel` transfers. -/
def writeFat (env : Env ss) (base : ℕ) : ℕ → Builder ss → ℕ → Bool × Builder ss
  | 0, fs, _ => (true, fs)
  | fuel + 1, fs, s =>
    if fs.fatSectors ≤ s then (true, fs)
    else
      let n := min (fs.fatSectors - s) (ioChunk / ss)
      let r := blockWrite env fs (base + s) n (((fatBytes fs).drop (s * ss)).take (n * ss))
      if r.1 = false then r else writeFat env base fuel r.2 (s + ioChunk / ss)

def fsInfo (ss : ℕ) (fs : Builder ss) : List UInt8 :=
  Patch.writeAll (List.replicate ss 0) [
    (0, le 4 0x41615252), (484, le 4 0x61417272),
    (488, le 4 (fs.clusterCount + 2 - fs.nextCluster)), (492, le 4 fs.nextCluster),
    (508, le 4 0xAA550000)]

/-- `ok = ok && ..` -/
def andThen (r : Bool × Builder ss) (next : Builder ss → Bool × Builder ss) : Bool × Builder ss :=
  if r.1 = false then r else next r.2

def fat32Finish (env : Env ss) (fs : Builder ss) : Bool × Builder ss :=
  let r := andThen (!fs.failed, fs) fun fs => writeDirs env fs.dirs fs
  let r := andThen r fun fs => writeFat env reservedSectors fs.fatSectors fs 0
  let r := andThen r fun fs => writeFat env (reservedSectors + fs.fatSectors) fs.fatSectors fs 0
  let r := andThen r fun fs => blockWrite env fs 1 1 (fsInfo ss fs)
  andThen r fun fs => blockWrite env fs 7 1 (fsInfo ss fs)

/-! ## Creating -/

/-- Subtraction of `uint32_t`. -/
def sub32 (a b : ℕ) : ℕ := (a + 2 ^ 32 - b % 2 ^ 32) % 2 ^ 32

def growSpc (ss bytes : ℕ) : ℕ → ℕ → ℕ
  | 0, spc => spc
  | fuel + 1, spc =>
    if spc * ss < 32768 ∧ maxClusters < bytes / (spc * ss) then growSpc ss bytes fuel (spc * 2)
    else spc

/-- Whether a FAT of this many sectors covers the clusters that it leaves. -/
def covers (ss avail spc fatSz : ℕ) : Bool :=
  sub32 avail (numFats * fatSz) / spc + 2 ≤ fatSz * (ss / 4)

/-- The loop that grows the FAT; `none` if it goes on. -/
def growFat (ss avail spc : ℕ) : ℕ → ℕ → Option ℕ
  | 0, _ => none
  | fuel + 1, fatSz =>
    if covers ss avail spc fatSz then some fatSz
    else growFat ss avail spc fuel ((fatSz + 1) % 2 ^ 32)

/-- Sectors per cluster: the smallest cluster that keeps their number in range. -/
def sectorsPerCluster (ss sectors : ℕ) : ℕ := growSpc ss (sectors * ss) 7 1

/-- Sectors of a FAT, searched for from an underestimate. -/
def fatSize (ss avail spc : ℕ) : Option ℕ :=
  let fatSz := avail / (spc * (ss / 4) + numFats)
  growFat ss avail spc (2 ^ 32) (if fatSz = 0 then 1 else fatSz)

/-- The sizes that follow from those of a cluster and of a FAT. -/
def layOut (sectors spc fatSz : ℕ) : Option Geometry :=
  let dataStart := (reservedSectors + numFats * fatSz) % 2 ^ 32
  let clusterCount := sub32 sectors dataStart / spc
  if clusterCount < minClusters ∨ maxClusters < clusterCount then none
  else some ⟨spc, sectors, fatSz, dataStart, clusterCount⟩

def geometry (ss sectors : ℕ) : Option Geometry :=
  if ss ≠ 512 ∧ ss ≠ 4096 then none
  else if 0xFFFFFFFF < sectors then none
  else
    (fatSize ss (sub32 sectors reservedSectors) (sectorsPerCluster ss sectors)).bind
      (layOut sectors (sectorsPerCluster ss sectors))

/-- The fields of the boot sector; `hidden` is the number of sectors before the volume. -/
def bootFields (ss : ℕ) (g : Geometry) (hidden volumeId : ℕ) (lab : Vector UInt8 11) :
    List (ℕ × List UInt8) := [
  (0, [0xEB, 0x58, 0x90]), (3, ascii "MINIMAOS"), (11, le 2 ss), (13, le 1 g.spc),
  (14, le 2 reservedSectors), (16, le 1 numFats), (21, [0xF8]), (24, le 2 63), (26, le 2 255),
  (28, le 4 hidden), (32, le 4 g.totalSectors), (36, le 4 g.fatSectors), (44, le 4 2),
  (48, le 2 1), (50, le 2 6), (64, [0x80]), (66, [0x29]), (67, le 4 volumeId),
  (71, lab.toList), (82, ascii "FAT32   "), (510, [0x55, 0xAA])]

def bootSector (ss : ℕ) (g : Geometry) (hidden volumeId : ℕ) (lab : Vector UInt8 11) :
    List UInt8 :=
  Patch.writeAll (List.replicate ss 0) (bootFields ss g hidden volumeId lab)

def blankBuilder (dev : Disk ss) (g : Geometry) : Builder ss where
  toGeometry := g
  dev := dev
  nextCluster := 2
  fat := Function.update (Function.update (fun _ => 0) 0 0x0FFFFFF8) 1 eoc
  dirs := []
  failed := false
  log := []

/-- The boot sector and its backup, with zeros in the other reserved sectors. -/
def writeBoot (env : Env ss) (fs : Builder ss) (bs : List UInt8) : Bool × Builder ss :=
  let r := writeZero env reservedSectors fs 0 reservedSectors
  let r := andThen r fun fs => blockWrite env fs 0 1 bs
  andThen r fun fs => blockWrite env fs 6 1 bs

/-- `fat32_create`. A failure leaves what was written until then. -/
def fat32Create (env : Env ss) (dev : Disk ss) (label : Option (List UInt8))
    (volumeId hidden : ℕ) : Except (Log ss) (Builder ss) :=
  match geometry ss dev.sectors with
  | none => .error []
  | some g =>
    let fs := blankBuilder dev g
    if env.granted 0 = false ∨ env.granted 1 = false ∨ env.granted 2 = false then .error []
    else if env.granted 3 = false then .error (fat32Finish env fs).2.log
    else
      let lab := make83 (label.getD (ascii "NO NAME"))
      let r := writeBoot env fs (bootSector ss g hidden volumeId lab)
      if r.1 = false then .error r.2.log
      else
        let d := newDir env r.2 noParent
        if d.1 ≠ 2 then .error d.2.log
        else .ok (addEntry d.2 2 (entryWith lab 0x08 0 0)).2

/-! ## Directories and files -/

def fat32Mkdir (env : Env ss) (fs : Builder ss) (parent : ℕ) (name : List UInt8) :
    ℕ × Builder ss :=
  if fs.failed then (0, fs)
  else
    let d := newDir env fs parent
    if d.1 = 0 then (0, { d.2 with failed := true })
    else
      let e := addEntry d.2 parent (entryWith (make83 name) 0x10 d.1 0)
      if e.1 = false then (0, e.2) else (d.1, e.2)

/-- The loop that writes the data of a file, at most `fuel` times. -/
def writeData (env : Env ss) : ℕ → Builder ss → ℕ → List UInt8 → Bool × Builder ss
  | 0, fs, _, _ => (true, fs)
  | fuel + 1, fs, lba, src =>
    if src.length = 0 then (true, fs)
    else
      let n := min src.length ioChunk
      let sectors := (n + ss - 1) / ss
      let r := blockWrite env fs lba sectors (src.take n)
      if r.1 = false then (false, { r.2 with failed := true })
      else writeData env fuel r.2 (lba + sectors) (src.drop n)

def fat32AddFile (env : Env ss) (fs : Builder ss) (dir : ℕ) (name data : List UInt8) :
    Bool × Builder ss :=
  if fs.failed then (false, fs)
  else
    let clusters := (data.length + fs.clusterBytes ss - 1) % 2 ^ 32 / fs.clusterBytes ss
    let a := allocClusters fs clusters
    if clusters ≠ 0 ∧ a.1 = 0 then (false, a.2)
    else
      let lba := if a.1 = 0 then 0 else clusterLba fs.toGeometry a.1
      let w := writeData env data.length a.2 lba data
      if w.1 = false then w
      else addEntry w.2 dir (entryWith (make83 name) 0x20 a.1 data.length)

end MinimalOS.Fat32
