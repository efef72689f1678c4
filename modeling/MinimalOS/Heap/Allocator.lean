import MinimalOS.Lib.ByteMem

/-!
# The kernel heap of `impl/kernel/allocator.c`

Block headers, footers and payloads all live in one byte memory, at the offsets the compiler
gives `struct block_header`: nothing keeps them apart but the allocator's own arithmetic. The
globals of the file are the other fields of `Allocator`. Locks, serial output and the counters
of `stats`, which only `allocator_stats` prints, are left out.

A function that reaches `PANIC` stops with the text of that branch. The list walk of
`insert_free_block` has no bound in the source; here it has one, and stops with `hang` beyond it.
Addresses have 64 bits: a `memset` that runs over the end of the address space goes on at 0.
-/

namespace MinimalOS.Heap

open ByteMem

abbrev alignment : ℕ := 16
abbrev minBlockSize : ℕ := 32
abbrev blockMagic : ℕ := 0xDEADBEEF
abbrev footerMagic : ℕ := 0xBAADF00D
abbrev absorbedMagic : ℕ := 0xDEAD0000
abbrev headerSize : ℕ := 32
abbrev footerSize : ℕ := 4

/-- `ALIGN(n)` on `size_t`. -/
def align (n : ℕ) : ℕ := (n + (alignment - 1)) % 2 ^ 64 / alignment * alignment

/-- Why a call does not return. -/
inductive Stop where
  | panic (msg : String)
  | hang
deriving DecidableEq, Repr

/-- The fields of `block_header`. -/
inductive Field where
  | size | next | prev | free | magic
deriving DecidableEq, Repr

def Field.offset : Field → ℕ
  | .size => 0
  | .next => 8
  | .prev => 16
  | .free => 24
  | .magic => 28

def Field.width : Field → ℕ
  | .size => 8
  | .next => 8
  | .prev => 8
  | .free => 1
  | .magic => 4

structure Allocator where
  mem : Mem
  freeListHead : ℕ
  heapStart : ℕ
  heapEnd : ℕ
  heapSize : ℕ
  totalAllocated : ℕ
  totalFree : ℕ
  peakUsage : ℕ

namespace Allocator

/-- `b->f`. -/
def get (h : Allocator) (b : ℕ) (f : Field) : ℕ := readLE h.mem f.width (b + f.offset)

/-- `b->f = v`. -/
def set (h : Allocator) (b : ℕ) (f : Field) (v : ℕ) : Allocator :=
  { h with mem := writeLE h.mem f.width (b + f.offset) v }

def memset (h : Allocator) (p : ℕ) (c : UInt8) (n : ℕ) : Allocator :=
  { h with mem := fill h.mem p n c }

/-- A `memset` of a length that may be too large for its place. -/
def memsetWrapped (h : Allocator) (p : ℕ) (c : UInt8) (n : ℕ) : Allocator :=
  { h with mem := fun i => if i < 2 ^ 64 ∧ (i + 2 ^ 64 - p) % 2 ^ 64 < n then c else h.mem i }

def memcpy (h : Allocator) (dst src n : ℕ) : Allocator :=
  { h with mem := copy h.mem dst src n }

/-! ## Footers and validation -/

def blockFooter (h : Allocator) (b : ℕ) : ℕ := b + headerSize + h.get b .size - footerSize

def writeFooter (h : Allocator) (b : ℕ) : Allocator :=
  { h with mem := writeLE h.mem footerSize (h.blockFooter b) footerMagic }

def checkFooter (h : Allocator) (b : ℕ) : Bool :=
  readLE h.mem footerSize (h.blockFooter b) = footerMagic

def blockInHeap (h : Allocator) (b : ℕ) : Bool :=
  let stop := (b + headerSize + h.get b .size) % 2 ^ 64
  b ≠ 0 && h.heapStart ≤ b && b < h.heapEnd && stop ≤ h.heapEnd && b < stop

def validateBlockFast (h : Allocator) (b : ℕ) : Bool :=
  b ≠ 0 && h.get b .magic = blockMagic && h.blockInHeap b && minBlockSize ≤ h.get b .size &&
    h.get b .size % alignment = 0

/-- The checks of `validate_block_fast`, with a line on the serial port for the one that
fails. -/
def validateBlockFull (h : Allocator) (b : ℕ) : Bool :=
  if b = 0 then false
  else if h.get b .magic ≠ blockMagic then false
  else if !h.blockInHeap b then false
  else if h.get b .size < minBlockSize ∨ h.get b .size % alignment ≠ 0 then false
  else true

/-! ## The free list -/

/-- `while (curr->next && curr->next < b) curr = curr->next`. -/
def findInsert (h : Allocator) (b : ℕ) : ℕ → ℕ → Option ℕ
  | 0, _ => none
  | n + 1, curr =>
    if h.get curr .next ≠ 0 ∧ h.get curr .next < b then findInsert h b n (h.get curr .next)
    else some curr

def insertFreeBlock (h : Allocator) (b : ℕ) : Except Stop Allocator :=
  let h := h.set b .free 1
  if h.freeListHead = 0 ∨ b < h.freeListHead then
    let h := h.set b .next h.freeListHead
    let h := h.set b .prev 0
    let h := if h.freeListHead ≠ 0 then h.set h.freeListHead .prev b else h
    .ok { h with freeListHead := b }
  else
    match h.findInsert b h.heapSize h.freeListHead with
    | none => .error .hang
    | some curr =>
      let h := h.set b .next (h.get curr .next)
      let h := h.set b .prev curr
      let h := if h.get curr .next ≠ 0 then h.set (h.get curr .next) .prev b else h
      .ok (h.set curr .next b)

def removeFreeBlock (h : Allocator) (b : ℕ) : Allocator :=
  let h := if h.get b .prev ≠ 0 then h.set (h.get b .prev) .next (h.get b .next)
    else { h with freeListHead := h.get b .next }
  let h := if h.get b .next ≠ 0 then h.set (h.get b .next) .prev (h.get b .prev) else h
  let h := h.set b .next 0
  let h := h.set b .prev 0
  h.set b .free 0

def tryMergeWithNext (h : Allocator) (b : ℕ) : Allocator :=
  let next := h.get b .next
  if next = 0 then h
  else if b + headerSize + h.get b .size ≠ next then h
  else
    let h := h.set b .size (h.get b .size + (headerSize + h.get next .size))
    let h := h.set b .next (h.get next .next)
    let h := if h.get next .next ≠ 0 then h.set (h.get next .next) .prev b else h
    h.set next .magic absorbedMagic

def maxVisits (h : Allocator) : ℕ := h.heapSize / (headerSize + minBlockSize) + 1

/-- The walk of `coalesce`, with the visits left. -/
def coalesceFrom : ℕ → ℕ → Allocator → Except Stop Allocator
  | n, curr, h =>
    if curr = 0 then .ok h
    else
      match n with
      | 0 => .error (.panic "coalesce: free list cycle")
      | n + 1 =>
        if !h.validateBlockFast curr then .error (.panic "coalesce: corrupted block")
        else
          let h := h.tryMergeWithNext curr
          coalesceFrom n (h.get curr .next) h

def coalesce (h : Allocator) : Except Stop Allocator :=
  coalesceFrom h.maxVisits h.freeListHead h

def splitAndUse (h : Allocator) (b need : ℕ) : Allocator :=
  let leftover := h.get b .size - need
  let h :=
    if headerSize + minBlockSize ≤ leftover then
      let rest := b + headerSize + need
      let h := h.set rest .size (leftover - headerSize)
      let h := h.set rest .magic blockMagic
      let h := h.set rest .next 0
      let h := h.set rest .prev 0
      let h := h.set rest .free 0
      let h := h.writeFooter rest
      -- splice `rest` into the free list in place of `b`
      let h := h.set rest .next (h.get b .next)
      let h := h.set rest .prev (h.get b .prev)
      let h := if h.get b .prev ≠ 0 then h.set (h.get b .prev) .next rest
        else { h with freeListHead := rest }
      let h := if h.get b .next ≠ 0 then h.set (h.get b .next) .prev rest else h
      let h := h.set rest .free 1
      h.set b .size need
    else h.removeFreeBlock b
  let h := h.set b .free 0
  let h := h.set b .next 0
  let h := h.set b .prev 0
  h.writeFooter b

end Allocator

/-! ## Calls -/

open Allocator

/-- `allocator_init` on memory that held `m` before. -/
def allocatorInit (m : Mem) (memory size : ℕ) : Except Stop Allocator :=
  if memory = 0 ∨ size < headerSize + minBlockSize + footerSize then
    .error (.panic "allocator_init: invalid parameters")
  else
    let start := align memory
    let lost := start - memory
    if size < lost then .error (.panic "allocator_init: region too small after alignment")
    else
      let size := (size - lost) / alignment * alignment
      let h : Allocator :=
        { mem := m, freeListHead := start, heapStart := start, heapEnd := start + size,
          heapSize := size, totalAllocated := 0, totalFree := 0, peakUsage := 0 }
      let h := h.set start .size (size - headerSize)
      let h := h.set start .free 1
      let h := h.set start .next 0
      let h := h.set start .prev 0
      let h := h.set start .magic blockMagic
      let h := h.writeFooter start
      .ok { h with totalFree := h.get start .size }

def payloadSize (userSize : ℕ) : ℕ :=
  let userSize := if userSize < minBlockSize then minBlockSize else userSize
  align ((userSize + footerSize) % 2 ^ 64)

/-- The first-fit walk of `alloc_locked`, with the visits left; 0 when no block fits. -/
def firstFit (h : Allocator) (total : ℕ) : ℕ → ℕ → Except Stop ℕ
  | n, curr =>
    if curr = 0 then .ok 0
    else
      match n with
      | 0 => .error (.panic "alloc: free list cycle")
      | n + 1 =>
        if !h.validateBlockFast curr then .error (.panic "alloc: corrupted heap")
        else if h.get curr .free ≠ 0 ∧ total ≤ h.get curr .size then .ok curr
        else firstFit h total n (h.get curr .next)

/-- `alloc_locked`: the pointer returned, 0 for `NULL`, and the heap after. -/
def allocLocked (h : Allocator) (total : ℕ) : Except Stop (ℕ × Allocator) :=
  match firstFit h total h.maxVisits h.freeListHead with
  | .error e => .error e
  | .ok curr =>
    if curr = 0 then .ok (0, h)
    else
      let h := h.splitAndUse curr total
      let size := h.get curr .size
      let allocated := (h.totalAllocated + size) % 2 ^ 64
      .ok (curr + headerSize,
        { h with totalAllocated := allocated, totalFree := (h.totalFree + 2 ^ 64 - size) % 2 ^ 64,
                 peakUsage := if h.peakUsage < allocated then allocated else h.peakUsage })

def allocUnzeroed (h : Allocator) (size : ℕ) : Except Stop (ℕ × Allocator) :=
  if size = 0 then .ok (0, h) else allocLocked h (payloadSize size)

def alloc (h : Allocator) (size : ℕ) : Except Stop (ℕ × Allocator) :=
  if size = 0 then .ok (0, h)
  else
    match allocLocked h (payloadSize size) with
    | .error e => .error e
    | .ok (ptr, h) =>
      if ptr = 0 then .ok (0, h)
      else
        let usable := (h.get (ptr - headerSize) .size + 2 ^ 64 - footerSize) % 2 ^ 64
        .ok (ptr, h.memsetWrapped ptr 0 usable)

def allocArray (h : Allocator) (count elemSize : ℕ) : Except Stop (ℕ × Allocator) :=
  if count = 0 ∨ elemSize = 0 then .ok (0, h)
  else if (2 ^ 64 - 1) / count < elemSize then .ok (0, h)
  else alloc h (count * elemSize)

def freeMem (h : Allocator) (ptr : ℕ) : Except Stop Allocator :=
  if ptr = 0 then .ok h
  else if ptr < h.heapStart ∨ h.heapEnd ≤ ptr then .ok h
  else
    let b := ptr - headerSize
    if !h.validateBlockFull b then .ok h
    else if h.get b .free ≠ 0 then .ok h
    else if !h.checkFooter b then .error (.panic "free_mem: heap overflow (buffer overrun)")
    else
      let size := h.get b .size
      let h := h.memset ptr 0xCC (size - footerSize)
      let h := { h with totalAllocated := (h.totalAllocated + 2 ^ 64 - size) % 2 ^ 64,
                        totalFree := (h.totalFree + size) % 2 ^ 64 }
      match h.insertFreeBlock b with
      | .error e => .error e
      | .ok h => h.coalesce

def allocResize (h : Allocator) (ptr newSize : ℕ) : Except Stop (ℕ × Allocator) :=
  if ptr = 0 then alloc h newSize
  else if newSize = 0 then (freeMem h ptr).map fun h => (0, h)
  else
    let b := ptr - headerSize
    if !h.validateBlockFull b then .ok (0, h)
    else
      let oldUsable := h.get b .size - footerSize
      if newSize ≤ oldUsable then .ok (ptr, h)
      else
        match alloc h newSize with
        | .error e => .error e
        | .ok (newPtr, h) =>
          if newPtr = 0 then .ok (0, h)
          else (freeMem (h.memcpy newPtr ptr oldUsable) ptr).map fun h => (newPtr, h)

/-! ## Aligned allocation -/

/-- `align_up`, for a power of two `a`. -/
def alignUp (v a : ℕ) : ℕ := (v + a - 1) % 2 ^ 64 / a * a

def isPow2 (x : ℕ) : Bool := x ≠ 0 && x &&& (x - 1) = 0

/-- `kmalloc_aligned`: the pointer of the block is kept in the eight bytes before the aligned
one. -/
def kmallocAligned (h : Allocator) (size alignment : ℕ) : Except Stop (ℕ × Allocator) :=
  if size = 0 then .ok (0, h)
  else
    let alignment := if alignment < Heap.alignment then Heap.alignment else alignment
    if !isPow2 alignment then .ok (0, h)
    else
      match allocUnzeroed h ((size + alignment + 8) % 2 ^ 64) with
      | .error e => .error e
      | .ok (raw, h) =>
        if raw = 0 then .ok (0, h)
        else
          let aligned := alignUp ((raw + 8) % 2 ^ 64) alignment
          let h := { h with mem := writeLE h.mem 8 ((aligned + 2 ^ 64 - 8) % 2 ^ 64) raw }
          .ok (aligned, h.memsetWrapped aligned 0 size)

end MinimalOS.Heap
