import MinimalOS.Minimafs.Machine

/-!
# Reading from an open file

A handle on a file of more than 16 KiB reads the blocks of the file when they are wanted and keeps
the last one. Whatever is read and sought, it answers as a handle with the same bytes in memory
does: both answer as the list of bytes would. The one exception is the arithmetic: an offset into
the file has 32 bits, so data that reach beyond 4 GiB from the start of the file are read from its
start again.
-/

namespace MinimalOS.Minimafs

open Fs List

variable {d : Drive} {env : Env} {h : FileHandle} {cache : Block}

def Drive.bytes (d : Drive) (start count : ℕ) : List UInt8 :=
  Blocks.image (fun i => (d.disk (start + i)).bytes) count

theorem Drive.flatMap_run (d : Drive) (start count : ℕ) :
    (d.run start count).flatMap Block.bytes = d.bytes start count := by
  simp [Drive.run, Drive.bytes, Blocks.image, flatMap_map]

theorem Drive.length_bytes (d : Drive) (start count : ℕ) :
    (d.bytes start count).length = count * blockSize :=
  Blocks.length_image (fun i => (d.disk (start + i)).size) count

/-- The data of a file, as the full load of `minimafs_open` copies them. -/
def FileHandle.contents (h : FileHandle) (d : Drive) : List UInt8 :=
  ((d.bytes h.fileBlockOffset h.fileBlockCount).drop h.dataOffsetInBlocks).take h.dataSize

/-- Where the blocks and the data of a file are. -/
structure FileHandle.Laid (h : FileHandle) : Prop where
  blocks : h.fileBlockOffset + h.fileBlockCount ≤ 2 ^ 32
  inside : h.dataOffsetInBlocks + h.dataSize ≤ h.fileBlockCount * blockSize

theorem FileHandle.Laid.length_contents (hl : h.Laid) (d : Drive) :
    (h.contents d).length = h.dataSize := by
  have := hl.inside
  rw [FileHandle.contents, length_take, length_drop, Drive.length_bytes]
  omega

/-! ## The list of bytes -/

inductive Call where
  | seek (offset : ℕ)
  | read (size : ℕ)

/-- What the reads of a sequence of calls return for the contents `c`, from a position on. -/
def answers (c : List UInt8) : ℕ → List Call → List (List UInt8)
  | _, [] => []
  | _, .seek offset :: cs => answers c (min offset c.length) cs
  | p, .read size :: cs => (c.drop p).take size :: answers c (min (p + size) c.length) cs

/-- The calls on a handle: what its reads return. -/
def calls (env : Env) : List Call → FileHandle → Fs (List (List UInt8))
  | [], _ => pure []
  | .seek offset :: cs, h => calls env cs (h.seek offset)
  | .read size :: cs, h => do
    let r ← readFile env h size
    let rest ← calls env cs r.2
    pure (r.1 :: rest)

/-- Handles that answer each call as the list of bytes does answer every sequence of calls so. -/
theorem looks_calls (env : Env) (Good : FileHandle → Prop) {c : List UInt8}
    (hseek : ∀ h offset, Good h →
      Good (h.seek offset) ∧ (h.seek offset).position = min offset c.length)
    (hread : ∀ h size t, Good h → ∃ h', Looks (readFile env h size) (d.later t)
        ((c.drop h.position).take size, h') ∧
      h'.position = min (h.position + size) c.length ∧ Good h')
    (cs : List Call) (hgood : Good h) (t : ℕ) :
    Looks (calls env cs h) (d.later t) (answers c h.position cs) := by
  induction cs generalizing h t with
  | nil => exact .of_pure []
  | cons call cs ih =>
    cases call with
    | seek offset =>
      obtain ⟨hgood', hpos⟩ := hseek h offset hgood
      have hrest := ih hgood' t
      rw [hpos] at hrest
      exact hrest
    | read size =>
      obtain ⟨h', hlooks, hpos, hgood'⟩ := hread h size t hgood
      refine hlooks.bind fun u => ?_
      have hrest := ih hgood' u
      rw [hpos] at hrest
      exact hrest.bind fun _ => Looks.of_pure _

/-! ## In memory -/

structure Holds (c : List UInt8) (h : FileHandle) : Prop where
  loaded : h.useStreaming = false
  data : h.data = some c
  size : h.dataSize = c.length
  position : h.position ≤ c.length

variable {c : List UInt8}

theorem Holds.seek (hh : Holds c h) (offset : ℕ) :
    Holds c (h.seek offset) ∧ (h.seek offset).position = min offset c.length := by
  have hpos : (h.seek offset).position = min offset c.length := by
    rw [← hh.size]
    rfl
  exact ⟨⟨hh.loaded, hh.data, hh.size, hpos ▸ min_le_right _ _⟩, hpos⟩

theorem take_drop_min (c : List UInt8) (p size : ℕ) :
    (c.drop p).take (min size (c.length - p)) = (c.drop p).take size := by
  rw [take_eq_take_iff, length_drop]
  omega

theorem Holds.read (hh : Holds c h) (env : Env) (d : Drive) (size : ℕ) :
    ∃ h', Looks (readFile env h size) d ((c.drop h.position).take size, h') ∧
      h'.position = min (h.position + size) c.length ∧ Holds c h' := by
  obtain ⟨hloaded, hdata, hsize, hposition⟩ := hh
  unfold readFile
  by_cases hend : h.dataSize ≤ h.position
  · rw [if_pos hend]
    refine ⟨h, ?_, by omega, hloaded, hdata, hsize, hposition⟩
    rw [drop_eq_nil_of_le (by omega), take_nil]
    exact .of_pure _
  · rw [if_neg hend, hloaded, hdata]
    dsimp only
    rw [hsize, take_drop_min]
    refine ⟨_, Looks.of_pure _, ?_, rfl, rfl, rfl, ?_⟩
    · dsimp only
      omega
    · dsimp only
      omega

/-! ## By blocks -/

/-- The handle streams: what it has cached is the block it says, if any. -/
structure Streams (d : Drive) (h : FileHandle) (cache : Block) : Prop where
  laid : h.Laid
  small : h.dataOffsetInBlocks + h.dataSize ≤ 2 ^ 32
  cached : h.cachedBlockIndex = noBlock ∨
    cache = d.disk (h.fileBlockOffset + h.cachedBlockIndex)

def FileHandle.advance (h : FileHandle) (cache : Block) (index copy : ℕ) : FileHandle :=
  { h with streamCache := some cache, cachedBlockIndex := index, position := h.position + copy }

variable {index remaining : ℕ}

theorem Streams.advance (hs : Streams d h cache) {cache' : Block}
    (hcache : index = noBlock ∨ cache' = d.disk (h.fileBlockOffset + index)) (copy : ℕ) :
    Streams d (h.advance cache' index copy) cache' :=
  ⟨⟨hs.laid.blocks, hs.laid.inside⟩, hs.small, hcache⟩

theorem looks_fetchBlock (hread : env.Reads) (hs : Streams d h cache)
    (hindex : index < h.fileBlockCount) (hno : index < noBlock) (t : ℕ) :
    Looks (fetchBlock env h cache index) (d.later t) (d.disk (h.fileBlockOffset + index)) := by
  have hblocks := hs.laid.blocks
  unfold fetchBlock
  by_cases hc : index = h.cachedBlockIndex
  · rw [if_pos hc]
    rcases hs.cached with hnone | hcache
    · omega
    · rw [hc, ← hcache]
      exact .of_pure _
  · rw [if_neg hc, u32_eq_self (by omega)]
    exact looks_readBlock hread _

theorem take_drop_contents {k r copy : ℕ}
    (hoff : h.dataOffsetInBlocks + h.position = k * blockSize + r) (hk : k < h.fileBlockCount)
    (hr : r + copy ≤ blockSize) (hcopy : copy ≤ remaining)
    (hrem : h.position + remaining ≤ h.dataSize) :
    (((d.disk (h.fileBlockOffset + k)).bytes.drop r).take copy ++
        ((h.contents d).drop (h.position + copy)).take (remaining - copy)) =
      ((h.contents d).drop h.position).take remaining := by
  have hbytes : ((h.contents d).drop h.position).take copy =
      (((d.disk (h.fileBlockOffset + k)).bytes.drop r).take copy) := by
    rw [FileHandle.contents, drop_take, take_take, Nat.min_eq_left (by omega),
      drop_drop, hoff]
    exact Blocks.take_drop_image (fun i => (d.disk (h.fileBlockOffset + i)).size) hk hr
  rw [← hbytes, ← drop_drop, ← take_add, Nat.add_sub_cancel' hcopy]

theorem looks_streamLoop (hread : env.Reads) {n : ℕ} (hn : remaining ≤ n) (hs : Streams d h cache)
    (hcache : h.streamCache = some cache) (hrem : h.position + remaining ≤ h.dataSize) (t : ℕ) :
    ∃ cache' index, Looks (streamLoop env n remaining h cache) (d.later t)
        (((h.contents d).drop h.position).take remaining, h.advance cache' index remaining) ∧
      Streams d (h.advance cache' index remaining) cache' := by
  induction n generalizing remaining h cache t with
  | zero =>
    obtain rfl : remaining = 0 := by omega
    refine ⟨cache, h.cachedBlockIndex, ?_, hs.advance hs.cached 0⟩
    rw [FileHandle.advance, ← hcache]
    exact .of_pure _
  | succ n ih =>
    unfold streamLoop
    by_cases hzero : remaining = 0
    · rw [hzero]
      refine ⟨cache, h.cachedBlockIndex, ?_, hs.advance hs.cached 0⟩
      rw [FileHandle.advance, ← hcache]
      exact .of_pure _
    · have hsmall := hs.small
      have hinside := hs.laid.inside
      rw [if_neg hzero, u32_eq_self (by omega)]
      set k := (h.dataOffsetInBlocks + h.position) / blockSize with hk
      set r := (h.dataOffsetInBlocks + h.position) % blockSize with hr
      have hoff : h.dataOffsetInBlocks + h.position = k * blockSize + r := by
        rw [hr, Nat.mul_comm]
        exact (Nat.div_add_mod _ _).symm
      have hrlt : r < blockSize := Nat.mod_lt _ (by decide)
      have hkc : k < h.fileBlockCount := by
        by_contra hge
        have := Nat.mul_le_mul_right blockSize (not_lt.mp hge)
        omega
      rw [if_neg (not_le.mpr hkc)]
      set copy := min (min (blockSize - r) remaining) (h.dataSize - h.position) with hcopy
      have hstep : copy ≤ remaining ∧ 0 < copy ∧ r + copy ≤ blockSize := by omega
      have hkno : k < noBlock := by
        have hk4 : k * 4096 ≤ 2 ^ 32 := by
          show k * blockSize ≤ 2 ^ 32
          omega
        show k < 2 ^ 32 - 1
        omega
      -- the rest is read through the block fetched now
      obtain ⟨u, hu⟩ := (looks_fetchBlock hread hs hkc hkno t).attempt
      have hs' := hs.advance (show k = noBlock ∨ d.disk (h.fileBlockOffset + k) = _ from .inr rfl) copy
      obtain ⟨cache', index, ⟨v, hv⟩, hstreams⟩ := ih (show remaining - copy ≤ n by omega) hs' rfl
        (by show h.position + copy + (remaining - copy) ≤ h.dataSize; omega) u
      have hdone : (h.advance (d.disk (h.fileBlockOffset + k)) k copy).advance cache' index
          (remaining - copy) = h.advance cache' index remaining := by
        simp only [FileHandle.advance]
        rw [Nat.add_assoc, Nat.add_sub_cancel' hstep.1]
      rw [hdone] at hv hstreams
      refine ⟨cache', index, ⟨v, ?_⟩, hstreams⟩
      rw [bind_ok hu]
      rw [← take_drop_contents hoff hkc hstep.2.2 hstep.1 hrem]
      exact bind_ok hv

theorem readFile_streaming (hstream : h.useStreaming = true) (hcache : h.streamCache = some cache)
    (hmounted : d.mounted = true) (hleft : h.position < h.dataSize) (size : ℕ) :
    readFile env h size d = streamLoop env (min size (h.dataSize - h.position))
      (min size (h.dataSize - h.position)) h cache d := by
  unfold readFile
  rw [if_neg (not_le.mpr hleft), if_pos hstream, bind_ok get_run, hcache]
  dsimp only
  rw [if_pos hmounted]

/-- The handle streams the contents `c`, of which it has read up to its position. -/
structure StreamsTo (d : Drive) (c : List UInt8) (h : FileHandle) : Prop where
  streaming : h.useStreaming = true
  contents : h.contents d = c
  cached : ∃ cache, h.streamCache = some cache ∧ Streams d h cache
  position : h.position ≤ h.dataSize

theorem StreamsTo.length (hh : StreamsTo d c h) : c.length = h.dataSize := by
  obtain ⟨cache, -, hs⟩ := hh.cached
  rw [← hh.contents, hs.laid.length_contents]

theorem StreamsTo.seek (hh : StreamsTo d c h) (offset : ℕ) :
    StreamsTo d c (h.seek offset) ∧ (h.seek offset).position = min offset c.length := by
  obtain ⟨cache, hcache, hs⟩ := hh.cached
  have hpos : (h.seek offset).position = min offset h.dataSize := rfl
  refine ⟨⟨hh.streaming, hh.contents, ⟨cache, hcache, ⟨hs.laid.blocks, hs.laid.inside⟩, hs.small,
    hs.cached⟩, ?_⟩, ?_⟩
  · exact min_le_right _ _
  · rw [hpos, hh.length]

theorem StreamsTo.read (hread : env.Reads) (hmounted : d.mounted = true) (hh : StreamsTo d c h)
    (size t : ℕ) :
    ∃ h', Looks (readFile env h size) (d.later t) ((c.drop h.position).take size, h') ∧
      h'.position = min (h.position + size) c.length ∧ StreamsTo d c h' := by
  have hlen := hh.length
  have hposition := hh.position
  obtain ⟨cache, hcache, hs⟩ := hh.cached
  by_cases hend : h.dataSize ≤ h.position
  · refine ⟨h, ?_, by omega, hh⟩
    unfold readFile
    rw [if_pos hend, drop_eq_nil_of_le (by omega), take_nil]
    exact .of_pure _
  · obtain ⟨cache', index, ⟨v, hv⟩, hs'⟩ := looks_streamLoop hread
      (le_refl (min size (h.dataSize - h.position))) hs hcache (by omega) t
    refine ⟨h.advance cache' index (min size (h.dataSize - h.position)), ⟨v, ?_⟩, ?_, hh.streaming,
      hh.contents, ⟨cache', rfl, hs'⟩, ?_⟩
    · rw [readFile_streaming (d := d.later t) hh.streaming hcache hmounted (not_le.mp hend), hv, hh.contents, ← hlen,
        take_drop_min]
    · show h.position + min size (h.dataSize - h.position) = _
      omega
    · show h.position + min size (h.dataSize - h.position) ≤ h.dataSize
      omega

/-! ## The two kinds of handles -/

theorem calls_loaded (env : Env) (d : Drive) (hl : h.Laid) (hstart : h.position = 0)
    (cs : List Call) :
    (calls env cs (h.loaded (h.contents d)) d).1 = .ok (answers (h.contents d) 0 cs) := by
  have hholds : Holds (h.contents d) (h.loaded (h.contents d)) :=
    ⟨rfl, rfl, (hl.length_contents d).symm, hstart.trans_le (Nat.zero_le _)⟩
  obtain ⟨t, ht⟩ := looks_calls env (Holds (h.contents d)) (fun _ offset hh => hh.seek offset)
    (fun _ size t hh => hh.read env (d.later t) size) cs hholds d.moment
  rw [← hstart]
  exact congrArg Prod.fst ht

theorem calls_streaming (hread : env.Reads) (hmounted : d.mounted = true) (hl : h.Laid)
    (hstart : h.position = 0) (hnone : h.cachedBlockIndex = noBlock)
    (hsmall : h.dataOffsetInBlocks + h.dataSize ≤ 2 ^ 32) (cache : Block) (cs : List Call) :
    (calls env cs (h.streaming cache) d).1 = .ok (answers (h.contents d) 0 cs) := by
  have hstreams : StreamsTo d (h.contents d) (h.streaming cache) :=
    ⟨rfl, rfl, ⟨cache, rfl, ⟨hl.blocks, hl.inside⟩, hsmall, .inl hnone⟩,
      hstart.trans_le (Nat.zero_le _)⟩
  obtain ⟨t, ht⟩ := looks_calls env (StreamsTo d (h.contents d))
    (fun _ offset hh => hh.seek offset)
    (fun _ size t hh => hh.read hread hmounted size t) cs hstreams d.moment
  rw [← hstart]
  exact congrArg Prod.fst ht

def Block.fill (b : UInt8) : Block := ⟨List.replicate blockSize b, length_replicate⟩

/-- Nought in the first block of a file, one in all others. -/
def markedDisk (start : ℕ) (b : ℕ) : Block := if b = start then Block.fill 0 else Block.fill 1

theorem contents_marked {disk : ℕ → Block} (hdisk : disk = markedDisk h.fileBlockOffset)
    (hl : h.Laid) (hoff : h.dataOffsetInBlocks < 2 ^ 32)
    (hbig : 2 ^ 32 < h.dataOffsetInBlocks + h.dataSize) :
    ((h.contents { d with disk := disk }).drop (2 ^ 32 - h.dataOffsetInBlocks)).take 1 = [1] := by
  have hinside : _ ≤ h.fileBlockCount * 4096 := hl.inside
  rw [FileHandle.contents, drop_take, take_take, Nat.min_eq_left (by omega),
    drop_drop, Nat.add_sub_cancel' hoff.le, show 2 ^ 32 = 2 ^ 20 * blockSize + 0 by decide]
  have hk : 2 ^ 20 < h.fileBlockCount := by
    by_contra hge
    omega
  refine (Blocks.take_drop_image (fun i => (disk (h.fileBlockOffset + i)).size) hk
    (by decide)).trans ?_
  rw [hdisk, markedDisk, if_neg (by omega)]
  rfl

theorem looks_streamLoop_wrap (hread : env.Reads) (hblock : h.fileBlockOffset < 2 ^ 32)
    (hzero : u32 (h.dataOffsetInBlocks + h.position) = 0) (hcount : 0 < h.fileBlockCount)
    (hleft : h.position < h.dataSize) (hnone : h.cachedBlockIndex = noBlock) (cache : Block) :
    ∃ h', Looks (streamLoop env 1 1 h cache) d ((d.disk h.fileBlockOffset).bytes.take 1, h') := by
  have hfetch : Looks (fetchBlock env h cache 0) d (d.disk h.fileBlockOffset) := by
    unfold fetchBlock
    rw [hnone, Nat.add_zero, u32_eq_self hblock]
    exact looks_readBlock hread _
  have hcopy : min (min (blockSize - 0 % blockSize) 1) (h.dataSize - h.position) = 1 := by
    rw [show min (blockSize - 0 % blockSize) 1 = 1 by decide]
    omega
  refine ⟨h.advance (d.disk h.fileBlockOffset) 0 1, ?_⟩
  unfold streamLoop
  rw [hzero]
  dsimp only
  rw [Nat.zero_div, if_neg (not_le.mpr hcount), hcopy, Nat.zero_mod]
  refine hfetch.attempt.bind fun t => (Looks.of_pure _).bind fun t => ?_
  rw [append_nil]
  exact .of_pure _

section

variable (hread : env.Reads) (hmounted : d.mounted = true) (hl : h.Laid)
  (hoff : h.dataOffsetInBlocks < 2 ^ 32) (hbig : 2 ^ 32 < h.dataOffsetInBlocks + h.dataSize)

include hread hmounted hl hoff hbig

/-- Beyond 4 GiB from the start of the file, the offset is an offset from the start again. -/
theorem calls_streaming_wraps (hnone : h.cachedBlockIndex = noBlock) (cache : Block) :
    (calls env [.seek (2 ^ 32 - h.dataOffsetInBlocks), .read 1] (h.streaming cache)
      { d with disk := markedDisk h.fileBlockOffset }).1 = .ok [[0]] := by
  have hinside : _ ≤ h.fileBlockCount * 4096 := hl.inside
  have hblocks := hl.blocks
  have hpos : min (2 ^ 32 - h.dataOffsetInBlocks) h.dataSize = 2 ^ 32 - h.dataOffsetInBlocks := by
    omega
  have hleft : ((h.streaming cache).seek (2 ^ 32 - h.dataOffsetInBlocks)).position < h.dataSize := by
    show min (2 ^ 32 - h.dataOffsetInBlocks) h.dataSize < h.dataSize
    omega
  have hzero : u32 (h.dataOffsetInBlocks +
      ((h.streaming cache).seek (2 ^ 32 - h.dataOffsetInBlocks)).position) = 0 := by
    show (h.dataOffsetInBlocks + min (2 ^ 32 - h.dataOffsetInBlocks) h.dataSize) % 2 ^ 32 = 0
    rw [hpos, Nat.add_sub_cancel' hoff.le, Nat.mod_self]
  set d' : Drive := { d with disk := markedDisk h.fileBlockOffset } with hd'
  obtain ⟨h', u, hloop⟩ := looks_streamLoop_wrap hread
    (show ((h.streaming cache).seek (2 ^ 32 - h.dataOffsetInBlocks)).fileBlockOffset < 2 ^ 32 by
      show h.fileBlockOffset < 2 ^ 32
      omega) hzero (show 0 < h.fileBlockCount by omega) hleft hnone cache
  have hone : min 1 (((h.streaming cache).seek (2 ^ 32 - h.dataOffsetInBlocks)).dataSize -
      ((h.streaming cache).seek (2 ^ 32 - h.dataOffsetInBlocks)).position) = 1 := by
    have : ((h.streaming cache).seek (2 ^ 32 - h.dataOffsetInBlocks)).dataSize = h.dataSize := rfl
    omega
  have hbyte : readFile env ((h.streaming cache).seek (2 ^ 32 - h.dataOffsetInBlocks)) 1 d' =
      (.ok ([0], h'), d'.later u) := by
    have hfirst : d'.disk ((h.streaming cache).seek (2 ^ 32 - h.dataOffsetInBlocks)).fileBlockOffset =
        Block.fill 0 := if_pos rfl
    rw [readFile_streaming (d := d') rfl rfl hmounted hleft, hone, hloop, hfirst]
    rfl
  exact congrArg Prod.fst (bind_ok hbyte)

theorem streaming_differs (hstart : h.position = 0) (hnone : h.cachedBlockIndex = noBlock)
    (cache : Block) :
    (calls env [.seek (2 ^ 32 - h.dataOffsetInBlocks), .read 1] (h.streaming cache)
        { d with disk := markedDisk h.fileBlockOffset }).1 ≠
      (calls env [.seek (2 ^ 32 - h.dataOffsetInBlocks), .read 1]
        (h.loaded (h.contents { d with disk := markedDisk h.fileBlockOffset }))
        { d with disk := markedDisk h.fileBlockOffset }).1 := by
  intro heq
  rw [calls_streaming_wraps hread hmounted hl hoff hbig hnone cache,
    calls_loaded env { d with disk := markedDisk h.fileBlockOffset } hl hstart, answers, answers, hl.length_contents, Nat.min_eq_left (by omega),
    contents_marked rfl hl hoff hbig] at heq
  exact absurd (List.cons.inj (Except.ok.inj heq)).1 (by decide)

end

/-- The handles that `minimafs_open` may return for an entry: one that streams and one that has
loaded the data. -/
abbrev streamHandle (path : List UInt8) (readOnly : Bool) (entry : DirEntry) (x : Extract)
    (cache : Block) : FileHandle :=
  (FileHandle.opened path readOnly entry x).streaming cache

abbrev memoryHandle (path : List UInt8) (readOnly : Bool) (entry : DirEntry) (x : Extract)
    (d : Drive) : FileHandle :=
  (FileHandle.opened path readOnly entry x).loaded
    ((FileHandle.opened path readOnly entry x).contents d)

/-- **Streaming.** For data of any length anywhere in the blocks of a file, and whatever the blocks
hold, the handle that streams answers every sequence of calls as the one in memory, if and only if
the data end within 4 GiB of the start of the file. -/
theorem streaming_reads_iff (env : Env) (hread : env.Reads) (d : Drive) (hmounted : d.mounted = true)
    (path : List UInt8) (readOnly : Bool) (entry : DirEntry) (x : Extract) (cache : Block)
    (hblocks : entry.blockOffset + entry.blockCount ≤ 2 ^ 32)
    (hinside : x.dataOffset + x.dataLength ≤ entry.blockCount * blockSize)
    (hoffset : x.dataOffset < 2 ^ 32) :
    (∀ (disk : ℕ → Block) (cs : List Call),
      (calls env cs (streamHandle path readOnly entry x cache) { d with disk := disk }).1 =
        (calls env cs (memoryHandle path readOnly entry x { d with disk := disk })
          { d with disk := disk }).1) ↔
      x.dataOffset + x.dataLength ≤ 2 ^ 32 := by
  have hl : (FileHandle.opened path readOnly entry x).Laid := ⟨hblocks, hinside⟩
  constructor
  · intro hall
    by_contra hbig
    exact streaming_differs hread hmounted hl hoffset (not_le.mp hbig) rfl rfl cache
      (hall (markedDisk entry.blockOffset) [.seek (2 ^ 32 - x.dataOffset), .read 1])
  · intro hsmall disk cs
    rw [calls_streaming (d := { d with disk := disk }) hread hmounted hl rfl rfl hsmall cache cs,
      calls_loaded env { d with disk := disk } hl rfl cs]

/-- A machine whose clock stands and that serves every request. -/
def calmEnv : Env where
  heap _ := true
  readOk _ _ := true
  writeOk _ _ := true
  clock _ := ⟨1, 1, 2026⟩
  beyond _ := []
  stale _ _ := 0
  fuel := 0

def calmDrive : Drive where
  mounted := true
  driveNumber := 1
  driveName := []
  storageDesc := {}
  alloc := ⟨[], 0, 0, 0⟩
  disk _ := Block.fill 0
  deviceSize := 0
  deviceMounted := true
  selfTestDone := true
  moment := 0

/-- Five blocks with 17000 bytes behind a header of 200. -/
theorem streaming_reads_iff_sample :
    (calls calmEnv [.seek 5000, .read 9000]
        (streamHandle [] true ⟨[], .file, 1, 5, false⟩ ⟨{}, 200, 17000⟩ (Block.fill 7))
        { calmDrive with disk := markedDisk 1 }).1 =
      (calls calmEnv [.seek 5000, .read 9000]
        (memoryHandle [] true ⟨[], .file, 1, 5, false⟩ ⟨{}, 200, 17000⟩
          { calmDrive with disk := markedDisk 1 })
        { calmDrive with disk := markedDisk 1 }).1 :=
  (streaming_reads_iff calmEnv (fun _ _ => rfl) calmDrive rfl [] true ⟨[], .file, 1, 5, false⟩
    ⟨{}, 200, 17000⟩ (Block.fill 7) (by decide) (by decide) (by decide)).mpr (by decide)
    (markedDisk 1) [.seek 5000, .read 9000]

/-- A file of 2^20 + 1 blocks with 100 bytes less than 4 GiB of data behind a header of 200: the
byte at 4 GiB is read from the first block. -/
theorem streaming_reads_wrap :
    (calls calmEnv [.seek (2 ^ 32 - 200), .read 1]
        (streamHandle [] true ⟨[], .file, 1, 2 ^ 20 + 1, false⟩ ⟨{}, 200, 2 ^ 32 - 100⟩
          (Block.fill 7)) { calmDrive with disk := markedDisk 1 }).1 ≠
      (calls calmEnv [.seek (2 ^ 32 - 200), .read 1]
        (memoryHandle [] true ⟨[], .file, 1, 2 ^ 20 + 1, false⟩ ⟨{}, 200, 2 ^ 32 - 100⟩
          { calmDrive with disk := markedDisk 1 }) { calmDrive with disk := markedDisk 1 }).1 :=
  streaming_differs (fun _ _ => rfl) rfl ⟨by decide, by decide⟩ (by decide) (by decide) rfl rfl
    (Block.fill 7)

end MinimalOS.Minimafs
