import Mathlib

/-!
# Decoding tiles for a user: `media_syscall` of `modules/Media/vid_decode.c`

The request and the frame stay in user memory, where another thread may write between any two reads
of the kernel. Each read of the code is a point of its own, and user memory is a function of it.
-/

namespace MinimalOS.Media

open List

/-- `syscall_media_request_t`. -/
structure Request where
  (size version op flags width height : UInt32)
  (frameBytes frame pixels : UInt64)
  (reserved0 reserved1 : UInt32)

structure User where
  request : Request
  byte : ℕ → UInt8

/-- The reads of user memory, in the order of the code. Those of a loop carry the tile. -/
inductive Read
  | size | version | op | flags | reserved0 | reserved1 | width | height | frameBytesMax
  | frameNull | pixelsNull | pixelsAlign | frameBytesMin | frameRange | frameBytesRange
  | pixelsRange | frameBytesBitmap | frame | count (tile : ℕ) | previous | frameBytesHeader
  | frameBytesData | job (tile : ℕ) | tileSize (tile : ℕ) | copyIn | copyOut

/-- The rest of the kernel: the range check (of the request too), the functions of `mosmedia.h`, the
two allocations and what the decoder makes of each part. -/
structure Kernel where
  requestOk : Bool
  userRangeOk : UInt64 → ℕ → Bool → Bool
  mmTiles : UInt32 → UInt32 → ℕ
  mmTilesX : UInt32 → ℕ
  mmGet32 : (ℕ → UInt8) → ℕ → UInt32
  (allocJobs allocDecoded : Bool)
  decodes : ℕ → Bool

inductive Status | inval | again | success
  deriving DecidableEq

def User.bit (u : User) (bitmap tile : ℕ) : Bool :=
  (u.byte (bitmap + tile / 8)).toNat.testBit (tile % 8)

variable (k : Kernel) (mem : Read → User)

/-! ## The locals of the call, as functions of the reads they come from -/

def width : UInt32 := (mem .width).request.width

def height : UInt32 := (mem .height).request.height

def pixelBytes : ℕ := (width mem).toNat * (height mem).toNat * 4

/-- `request->pixels` as the range check reads it. -/
def pixels : UInt64 := (mem .pixelsRange).request.pixels

def tileCount : ℕ := k.mmTiles (width mem) (height mem)

def bitmapBytes : ℕ := (tileCount k mem + 7) / 8

def bitmap : ℕ := (mem .frame).request.frame.toNat + 4

def coded : ℕ :=
  (range (tileCount k mem)).countP fun tile => (mem (.count tile)).bit (bitmap mem) tile

def hasPrevious : Bool := (mem .previous).request.flags &&& 1 ≠ 0

def headerBytes : ℕ := 4 + bitmapBytes k mem + coded k mem * 4

/-- The subtraction is that of `uint64_t`. -/
def dataSize : ℕ :=
  ((mem .frameBytesData).request.frameBytes - UInt64.ofNat (headerBytes k mem)).toNat

/-- What everything before the allocations returns, if it returns. -/
def check : Option Status :=
  let req r := (mem r).request
  if !k.requestOk || (req .size).size ≠ 56 || (req .version).version ≠ 1 || (req .op).op ≠ 1 ||
      (req .flags).flags &&& ~~~1 ≠ 0 || (req .reserved0).reserved0 ≠ 0 ||
      (req .reserved1).reserved1 ≠ 0 then some .inval else
  if width mem = 0 || height mem = 0 || 4096 < width mem || 4096 < height mem ||
      2 ^ 26 < pixelBytes mem then some .again else
  if 2 ^ 26 < (req .frameBytesMax).frameBytes then some .again else
  if (req .frameNull).frame = 0 || (req .pixelsNull).pixels = 0 ||
      (req .pixelsAlign).pixels &&& 3 ≠ 0 || (req .frameBytesMin).frameBytes < 4 ||
      !k.userRangeOk (req .frameRange).frame (req .frameBytesRange).frameBytes.toNat false ||
      !k.userRangeOk (pixels mem) (pixelBytes mem) true then some .inval else
  if (req .frameBytesBitmap).frameBytes.toNat < 4 + bitmapBytes k mem then some .inval else
  if !hasPrevious mem && coded k mem ≠ tileCount k mem then some .inval else
  if coded k mem = 0 then some .success else
  if (req .frameBytesHeader).frameBytes.toNat < headerBytes k mem then some .inval else
  none

/-! ## The jobs -/

structure Job where
  (data size tileX tileY : ℕ)
  hasPrevious : Bool

def shownAgain (tile : ℕ) : Bool := (mem (.job tile)).bit (bitmap mem) tile

/-- `mm_get32` of the size with this index. -/
def sizeAt (tile index : ℕ) : ℕ :=
  (k.mmGet32 (mem (.tileSize tile)).byte (bitmap mem + bitmapBytes k mem + index * 4)).toNat

/-- The loop that fills `jobs` from index 0 on, with `valid` at its end. -/
def writeJobs : List ℕ → List Job → ℕ → List Job × Bool
  | [], jobs, _ => (jobs, true)
  | tile :: tiles, jobs, offset =>
    if shownAgain mem tile then
      let size := sizeAt k mem tile jobs.length
      if dataSize k mem - offset < size then (jobs, false)
      else
        let across := k.mmTilesX (width mem)
        writeJobs tiles (jobs ++ [⟨bitmap mem - 4 + headerBytes k mem + offset, size,
          tile % across, tile / across, hasPrevious mem⟩]) (offset + size)
    else writeJobs tiles jobs offset

def jobs : List Job × Bool := writeJobs k mem (range (tileCount k mem)) [] 0

/-- What a call does, with the range it validated for the copy. -/
structure Run where
  status : Status
  allocated : ℕ := 0
  written : List Job := []
  handed : ℕ := 0
  validated : Option (UInt64 × ℕ) := none
  copiedTo : Option (UInt64 × ℕ) := none

def decodeTiles : Run :=
  if !k.allocJobs || !k.allocDecoded then { status := .again } else
  let run : Run :=
    ⟨.inval, coded k mem, (jobs k mem).1, 0, some (pixels mem, pixelBytes mem), none⟩
  if !(jobs k mem).2 then run else
  if ∃ part < coded k mem, !k.decodes part then { run with handed := coded k mem } else
  { run with
    status := .success
    handed := coded k mem
    copiedTo := some ((mem .copyOut).request.pixels, pixelBytes mem) }

def mediaSyscall : Run :=
  match check k mem with
  | some status => { status }
  | none => decodeTiles k mem

/-- No job is written past the allocation, each part handed out has its job, and the copy goes to
the validated range. -/
def Run.Safe (run : Run) : Prop := run.written.length ≤ run.allocated ∧
  run.handed ≤ run.written.length ∧ ∀ r ∈ run.copiedTo, r ∈ run.validated

instance (run : Run) : Decidable run.Safe := inferInstanceAs (Decidable (_ ∧ _))

/-! ## What the later reads must find -/

/-- The tiles that the bitmap shows when it is read again. -/
def tilesAgain : List ℕ := (range (tileCount k mem)).filter (shownAgain mem)

/-- The sizes read for tiles, with their index counted from `i`. -/
def sizesFrom : ℕ → List ℕ → List ℕ
  | _, [] => []
  | i, tile :: tiles => sizeAt k mem tile i :: sizesFrom (i + 1) tiles

/-- The later reads agree with the checks: if the sizes of the tiles that the bitmap shows now fit
the frame, these are as many as were counted and, if they decode, `pixels` is what was validated. If
they do not fit, one of the first `coded + 1` is already too large. -/
def ReadsAgree : Prop :=
  let sizes := sizesFrom k mem 0 (tilesAgain k mem)
  if sizes.sum ≤ dataSize k mem then sizes.length = coded k mem ∧
    ((∀ part < coded k mem, k.decodes part) → (mem .copyOut).request.pixels = pixels mem)
  else dataSize k mem < (sizes.take (coded k mem + 1)).sum

variable {k mem}

/-- The loop goes on as long as the sizes fit: how many jobs it writes, and whether it reaches the
end, can be read off the sums of the sizes. -/
theorem writeJobs_spec (tiles : List ℕ) (js : List Job) {offset : ℕ}
    (hoffset : offset ≤ dataSize k mem) :
    let sizes := sizesFrom k mem js.length (tiles.filter (shownAgain mem))
    let r := writeJobs k mem tiles js offset
    js.length ≤ r.1.length ∧ (r.2 = true ↔ offset + sizes.sum ≤ dataSize k mem) ∧
      (r.2 = true → r.1.length = js.length + sizes.length) ∧
      (r.2 = false → ∀ n, r.1.length ≤ js.length + n ↔
        dataSize k mem < offset + (sizes.take (n + 1)).sum) := by
  induction tiles generalizing js offset with
  | nil => simpa [writeJobs, sizesFrom] using hoffset
  | cons tile tiles ih =>
    dsimp only
    rw [writeJobs]
    by_cases hbit : shownAgain mem tile
    swap
    · rw [if_neg hbit, filter_cons_of_neg hbit]
      exact ih js hoffset
    rw [if_pos hbit, filter_cons_of_pos hbit, sizesFrom]
    dsimp only
    generalize sizeAt k mem tile js.length = size
    by_cases hfit : dataSize k mem - offset < size
    · rw [if_pos hfit]
      refine ⟨le_rfl, iff_of_false Bool.false_ne_true ?_, nofun, fun _ n => iff_of_true ?_ ?_⟩
      · rw [sum_cons]
        omega
      · exact Nat.le_add_right _ _
      · rw [take_succ_cons, sum_cons]
        omega
    · rw [if_neg hfit]
      generalize hnew : js ++ [_] = js'
      have hlen : js'.length = js.length + 1 := by
        rw [← hnew, length_append, length_singleton]
      obtain ⟨hmore, hvalid, hall, hstop⟩ :=
        ih js' (show offset + size ≤ dataSize k mem by omega)
      rw [hlen] at hmore hvalid hall hstop
      refine ⟨by omega, ?_, fun h => ?_, fun h n => ?_⟩
      · rw [hvalid, sum_cons, Nat.add_assoc]
      · rw [hall h, length_cons]
        omega
      · rw [take_succ_cons, sum_cons, ← Nat.add_assoc]
        cases n with
        | zero =>
          rw [take_zero, sum_nil]
          omega
        | succ n =>
          rw [← hstop h n]
          omega

theorem decodeTiles_safe_iff : (decodeTiles k mem).Safe ↔
    (k.allocJobs && k.allocDecoded → ReadsAgree k mem) := by
  obtain ⟨-, hvalid, hall, hstop⟩ :=
    writeJobs_spec (range (tileCount k mem)) [] (Nat.zero_le (dataSize k mem))
  rw [length_nil, Nat.zero_add] at hvalid hall
  simp only [length_nil, Nat.zero_add] at hstop
  unfold decodeTiles ReadsAgree
  split
  · next h =>
    simp [Run.Safe]
    grind
  next h =>
  rw [imp_iff_right (by simpa using h)]
  rw [← jobs, ← tilesAgain] at hvalid hall hstop
  dsimp only
  by_cases hv : (jobs k mem).2 = true
  · rw [if_neg (by simp [hv]), if_pos (hvalid.mp hv), ← hall hv, le_antisymm_iff]
    split
    · next hd =>
      simp [Run.Safe]
      grind
    · next hd =>
      simp [Run.Safe]
      grind
  · rw [if_pos (by simp [hv]), if_neg (mt hvalid.mpr hv), ← hstop (Bool.not_eq_true _ ▸ hv)]
    simp [Run.Safe]

/-- **A call is safe exactly when its later reads agree with its checks.** -/
theorem mediaSyscall_safe_iff (k : Kernel) (mem : Read → User) : (mediaSyscall k mem).Safe ↔
    (check k mem = none → k.allocJobs && k.allocDecoded → ReadsAgree k mem) := by
  unfold mediaSyscall
  split
  · next h => simp [h, Run.Safe]
  · next h => rw [imp_iff_right h, decodeTiles_safe_iff]

/-- A kernel without failures, with tiles of 64 by 64 pixels. -/
def willing : Kernel where
  requestOk := true
  userRangeOk _ _ _ := true
  mmTiles width height := (width.toNat + 63) / 64 * ((height.toNat + 63) / 64)
  mmTilesX width := (width.toNat + 63) / 64
  mmGet32 byte p := (byte p).toUInt32 ||| (byte (p + 1)).toUInt32 <<< 8 |||
    (byte (p + 2)).toUInt32 <<< 16 ||| (byte (p + 3)).toUInt32 <<< 24
  allocJobs := true
  allocDecoded := true
  decodes _ := true

/-- A picture of two tiles. Its bitmap shows the first one when the tiles are counted and both of
them afterwards; all sizes are zero. -/
def grown (r : Read) : User where
  request := ⟨56, 1, 1, 1, 128, 64, 64, 4096, 8192, 0, 0⟩
  byte p := if p = 4100 then match r with | .count _ => 1 | _ => 3 else 0

theorem grown_not_safe : ¬ (mediaSyscall willing grown).Safe := by
  decide +kernel

end MinimalOS.Media
