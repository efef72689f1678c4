import Mathlib.Data.Nat.Basic
import Mathlib.Tactic

/-!
# The block allocator

The allocator of `impl/filesystem/minimafs.c` keeps the used blocks of a volume as a sorted list
of extents. `alloc_unzeroed` may refuse to grow the list: `heap` says what the request that a
call may make would return. A call makes at most one.
-/

namespace MinimalOS.Minimafs

/-- `minimafs_extent_t`: the blocks from `start` to `start + count`. -/
structure Extent where
  start : ℕ
  count : ℕ
  deriving DecidableEq

abbrev Extent.stop (x : Extent) : ℕ := x.start + x.count

/-- `minimafs_block_alloc_t`; `n` is the length of the list. -/
structure BlockAlloc where
  ext : List Extent
  cap : ℕ
  totalBlocks : ℕ
  freeBlocks : ℕ
  deriving DecidableEq

/-- `while (cap < need) cap *= 2`, which `need` doublings certainly end. -/
def growCap (need : ℕ) : ℕ → ℕ → ℕ
  | 0, cap => cap
  | n + 1, cap => if cap < need then growCap need n (cap * 2) else cap

def baReserve (heap : Bool) (a : BlockAlloc) (need : ℕ) : Option BlockAlloc :=
  if need ≤ a.cap then some a
  else if heap then some { a with cap := growCap need need (if a.cap = 0 then 256 else a.cap) }
  else none

def blockAllocInit (a : BlockAlloc) (totalBlocks : ℕ) : BlockAlloc :=
  { a with ext := [], totalBlocks := totalBlocks, freeBlocks := totalBlocks }

/-! ## Marking -/

/-- The merged extent while `ba_mark_used_locked` runs over the extents it touches. -/
structure Merge where
  ms : ℕ
  me : ℕ
  already : ℕ

/-- Take one more extent into the merge for the range from `s` to `e`. -/
def Merge.take (s e : ℕ) (m : Merge) (x : Extent) : Merge where
  ms := min x.start m.ms
  me := max x.stop m.me
  already := m.already + (min x.stop e - max x.start s)

/-- The loop over `j`: the merge, and the extents from `j` on. -/
def mergeLoop (s e : ℕ) : Merge → List Extent → Merge × List Extent
  | m, [] => (m, [])
  | m, x :: xs => if x.start ≤ m.me then mergeLoop s e (m.take s e x) xs else (m, x :: xs)

/-- The extents before `i` and from `i` on: `i` is the first one that ends at or after `s`. -/
def splitBefore (s : ℕ) (ext : List Extent) : List Extent × List Extent :=
  ext.span fun x => x.stop < s

def baMarkUsed (heap : Bool) (a : BlockAlloc) (start count : ℕ) : BlockAlloc :=
  if count = 0 ∨ a.totalBlocks ≤ start then a
  else
    let e := min (start + count) a.totalBlocks
    let before := (splitBefore start a.ext).1
    let found := (splitBefore start a.ext).2
    let merged := mergeLoop start e ⟨start, e, 0⟩ found
    let newly := (e - start) - merged.1.already
    let a := { a with freeBlocks := a.freeBlocks - newly }
    let ext := before ++ ⟨merged.1.ms, merged.1.me - merged.1.ms⟩ :: merged.2
    -- a new slot is needed only if nothing was merged
    if merged.2.length = found.length then
      match baReserve heap a (a.ext.length + 1) with
      | none => a
      | some a => { a with ext := ext }
    else { a with ext := ext }

/-! ## Allocating -/

/-- The first-fit loop: the gaps between the extents, then the one up to `total`. -/
def findGap (total count : ℕ) : ℕ → List Extent → Option ℕ
  | cursor, [] => if cursor < total ∧ count ≤ total - cursor then some cursor else none
  | cursor, x :: xs =>
    if cursor < x.start ∧ count ≤ x.start - cursor then some cursor
    else findGap total count (max cursor x.stop) xs

/-- `block_alloc_run`; `none` is the result `0xFFFFFFFF`. -/
def blockAllocRun (heap : Bool) (a : BlockAlloc) (count : ℕ) : Option ℕ × BlockAlloc :=
  if count = 0 then (none, a)
  else
    match findGap a.totalBlocks count 1 a.ext with
    | none => (none, a)
    | some found => (some found, baMarkUsed heap a found count)

/-! ## Freeing -/

/-- The loop of `block_free_run` over the extents still to come: the list it leaves, the blocks
it counted as freed and the capacity afterwards. `n` is the number of extents at that moment. -/
def freeLoop (heap : Bool) (s e n cap : ℕ) : List Extent → List Extent × ℕ × ℕ
  | [] => ([], 0, cap)
  | x :: xs =>
    if x.stop ≤ s then
      let r := freeLoop heap s e n cap xs
      (x :: r.1, r.2)
    else if e ≤ x.start then (x :: xs, 0, cap)
    else
      let freed := min x.stop e - max x.start s
      if x.start < s then
        if e < x.stop then
          match baReserve heap ⟨[], cap, 0, 0⟩ (n + 1) with
          | none => (x :: xs, freed, cap)
          | some a => (⟨x.start, s - x.start⟩ :: ⟨e, x.stop - e⟩ :: xs, freed, a.cap)
        else
          let r := freeLoop heap s e n cap xs
          (⟨x.start, s - x.start⟩ :: r.1, freed + r.2.1, r.2.2)
      else if e < x.stop then (⟨e, x.stop - e⟩ :: xs, freed, cap)
      else
        let r := freeLoop heap s e (n - 1) cap xs
        (r.1, freed + r.2.1, r.2.2)

def blockFreeRun (heap : Bool) (a : BlockAlloc) (block count : ℕ) : BlockAlloc :=
  if count = 0 then a
  else
    let r := freeLoop heap block (block + count) a.ext.length a.cap a.ext
    { a with ext := r.1, freeBlocks := (a.freeBlocks + r.2.1) % 2 ^ 32, cap := r.2.2 }

end MinimalOS.Minimafs
