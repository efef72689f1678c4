import MinimalOS.Fat32.Builder

/-!
# FAT32 volumes as they are read

The view of a reader, who knows the device only: the sizes come from the boot sector, a file or a
directory is the chain of clusters that starts at its entry, and a chain ends at an end mark.
`Holds` says that a volume is the tree that a list of calls describes.
-/

namespace MinimalOS.Fat32

open Packed MinimalOS.Partition

variable {ss : ℕ}

/-! ## Reading -/

def field (buf : List UInt8) (off w : ℕ) : ℕ := leNat (Patch.range buf off w)

structure Volume (ss : ℕ) where
  disk : Disk ss
  /-- sectors per cluster -/
  spc : ℕ
  reserved : ℕ
  fats : ℕ
  fatSectors : ℕ
  clusters : ℕ
  root : ℕ

def mount (d : Disk ss) : Option (Volume ss) :=
  let bs := (d.data 0).toList
  if field bs 11 2 = ss ∧ field bs 510 2 = 0xAA55 then
    let meta_ := field bs 14 2 + field bs 16 1 * field bs 36 4
    some {
      disk := d
      spc := field bs 13 1
      reserved := field bs 14 2
      fats := field bs 16 1
      fatSectors := field bs 36 4
      clusters := (field bs 32 4 - meta_) / field bs 13 1
      root := field bs 44 4 }
  else none

namespace Volume

/-- Sector of cluster 2. -/
def dataStart (v : Volume ss) : ℕ := v.reserved + v.fats * v.fatSectors

/-- An entry of a copy of the FAT; the upper four bits do not count. -/
def next (v : Volume ss) (copy c : ℕ) : ℕ :=
  let lba := v.reserved + copy * v.fatSectors + 4 * c / ss
  field (v.disk.data lba).toList (4 * c % ss) 4 % 2 ^ 28

/-- The clusters of a chain of at most `fuel` clusters, if it ends with an end mark. -/
def chainUpTo (v : Volume ss) (copy : ℕ) : ℕ → ℕ → Option (List ℕ)
  | 0, _ => none
  | fuel + 1, c =>
    if c < 2 ∨ v.clusters + 2 ≤ c then none
    else if 0x0FFFFFF8 ≤ v.next copy c then some [c]
    else (v.chainUpTo copy fuel (v.next copy c)).map (c :: ·)

def chain (v : Volume ss) (copy c : ℕ) : Option (List ℕ) := v.chainUpTo copy v.clusters c

def clusterData (v : Volume ss) (c : ℕ) : List UInt8 :=
  (List.range v.spc).flatMap fun i => (v.disk.data (v.dataStart + (c - 2) * v.spc + i)).toList

def chainData (v : Volume ss) (copy c : ℕ) : Option (List UInt8) :=
  (v.chain copy c).map fun cs => cs.flatMap v.clusterData

def firstByte (name : Vector UInt8 11) : UInt8 := name[0]

def slots (bytes : List UInt8) : List Dirent :=
  ((List.range (bytes.length / direntBytes)).map fun i =>
    direntLayout.dec (bytes.drop (i * direntBytes))).takeWhile fun e => e.name[0] ≠ 0

/-- Neither free nor the label of the volume. -/
def live (e : Dirent) : Bool := e.name[0] ≠ 0xE5 ∧ e.attr &&& 0x08 = 0

def entries (v : Volume ss) (copy c : ℕ) : Option (List Dirent) :=
  (v.chainData copy c).map fun bytes => (slots bytes).filter live

/-- The entries without the two that every directory but the root starts with. -/
def children (v : Volume ss) (copy c : ℕ) : Option (List Dirent) :=
  (v.entries copy c).map fun es => es.drop (if c = v.root then 0 else 2)

end Volume

def Dirent.first (e : Dirent) : ℕ := e.fstClusHi.toNat * 2 ^ 16 + e.fstClusLo.toNat

/-- The bytes of a file: its chain, up to the size of the file. -/
def Volume.contents (v : Volume ss) (copy : ℕ) (e : Dirent) : Option (List UInt8) :=
  if e.fileSize = 0 then some []
  else
    match v.chainData copy e.first with
    | none => none
    | some bytes =>
      if bytes.length < e.fileSize.toNat then none else some (bytes.take e.fileSize.toNat)

inductive Volume.Reached (v : Volume ss) (copy : ℕ) : ℕ → Prop
  | root : Reached v copy v.root
  | child {c : ℕ} {es : List Dirent} {e : Dirent} (h : Reached v copy c)
      (hes : v.children copy c = some es) (he : e ∈ es) (hdir : e.attr = 0x10) :
      Reached v copy e.first

/-! ## Calls -/

inductive Call
  | mkdir (parent : ℕ) (name : List UInt8)
  | addFile (dir : ℕ) (name data : List UInt8)

namespace Call

def dir : Call → ℕ
  | mkdir parent _ => parent
  | addFile dir _ _ => dir

def name : Call → List UInt8
  | mkdir _ name => name
  | addFile _ name _ => name

def data : Call → List UInt8
  | mkdir _ _ => []
  | addFile _ _ data => data

def isDir : Call → Bool
  | mkdir _ _ => true
  | addFile _ _ _ => false

end Call

/-- A call and what it returns, 0 for a failure. -/
def step (env : Env ss) (fs : Builder ss) : Call → ℕ × Builder ss
  | .mkdir parent name => fat32Mkdir env fs parent name
  | .addFile dir name data =>
    let r := fat32AddFile env fs dir name data
    (r.1.toNat, r.2)

def run (env : Env ss) : Builder ss → List Call → List ℕ × Builder ss
  | fs, [] => ([], fs)
  | fs, c :: cs =>
    let r := step env fs c
    let rs := run env r.2 cs
    (r.1 :: rs.1, rs.2)

/-! ## The tree of the calls -/

/-- What a call has made: its first cluster, if it has any, and how many. -/
structure Node where
  call : Call
  first : ℕ
  clusters : ℕ

namespace Node

def entry (n : Node) : Dirent :=
  entryWith (make83 n.call.name) (if n.call.isDir then 0x10 else 0x20) n.first n.call.data.length

def chain (n : Node) : List ℕ := List.range' n.first n.clusters

end Node

def entriesIn (nodes : List Node) (dir : ℕ) : List Dirent :=
  (nodes.filter fun n => n.call.dir = dir).map Node.entry

/-- A volume is the tree of these nodes. -/
structure Holds (v : Volume ss) (copy : ℕ) (nodes : List Node) : Prop where
  /-- the root has the entries that were asked for -/
  root_entries : v.entries copy v.root = some (entriesIn nodes v.root)
  /-- and so has every other directory, behind the two for itself and for its parent -/
  dir_entries : ∀ n ∈ nodes, n.call.isDir → v.entries copy n.first =
    some (dotEntry n.first :: dotdotEntry n.call.dir :: entriesIn nodes n.first)
  /-- the directories are those that are found from the root -/
  reached : ∀ c, v.Reached copy c ↔ c = v.root ∨ ∃ n ∈ nodes, n.call.isDir ∧ n.first = c
  /-- every entry is in one of them -/
  placed : ∀ n ∈ nodes, v.Reached copy n.call.dir
  /-- an entry leads to its chain -/
  entry_first : ∀ n ∈ nodes, n.entry.first = n.first
  /-- files have their bytes -/
  contents : ∀ n ∈ nodes, n.call.isDir = false → v.contents copy n.entry = some n.call.data
  /-- every chain ends -/
  chain : ∀ n ∈ nodes, n.clusters ≠ 0 → v.chain copy n.first = some n.chain
  /-- only empty files have none -/
  clusters : ∀ n ∈ nodes, n.clusters = 0 ↔ n.call.isDir = false ∧ n.call.data = []
  /-- chains have no cluster in common, the root's included -/
  disjoint : ∃ rootChain, v.chain copy v.root = some rootChain ∧
    (rootChain :: nodes.map Node.chain).Pairwise List.Disjoint

end MinimalOS.Fat32
