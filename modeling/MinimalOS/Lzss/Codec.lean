import MinimalOS.Lib.RingWindow

/-!
# The LZSS codec of `impl/compression/lzss.c`

`lzssDecompress` runs the Okumura decoder over a ring of `LZSS_N` bytes; `lzssCompress` is the
hash-chain encoder, which never simulates that ring. The encoder's search depth
`LZSS_MAX_CHAIN` is a build option of the source, so it is a parameter here.

Heap requests go through an allocation outcome: the encoder's `mem i` says whether its `i`-th
request succeeds, the decoder's `textBuf` is the block `alloc_unzeroed` returned, with whatever
it held before, or `none`.
-/

namespace MinimalOS.Lzss

open RingWindow

abbrev lzssN : ℕ := 4096
abbrev lzssF : ℕ := 18
abbrev lzssThreshold : ℕ := 2

/-! ## Decompress -/

/-- The loop state of `lzss_decompress`: the input from `in_pos` on, `text_buf` with `r`, the
bytes written to `out`, and the flag register. -/
structure Decoder where
  input : List UInt8
  window : Window UInt8
  out : List UInt8
  flags : ℕ

/-- `out[out_pos++] = c; text_buf[r++] = c`, or the early return when `out` is full. -/
def Decoder.put (capacity : ℕ) (d : Decoder) (c : UInt8) : Except Decoder Decoder :=
  if capacity ≤ d.out.length then .error d
  else .ok { d with out := d.out ++ [c], window := d.window.push lzssN c }

/-- The copy loop of a match, from `k` on for `n` more bytes. -/
def copyMatch (capacity matchPos : ℕ) : ℕ → ℕ → Decoder → Except Decoder Decoder
  | 0, _, d => .ok d
  | n + 1, k, d =>
    match d.put capacity (d.window.cell ((matchPos + k) % lzssN)) with
    | .error d' => .error d'
    | .ok d' => copyMatch capacity matchPos n (k + 1) d'

/-- `flags >>= 1`, and a new flag byte when the last one is used up. -/
def Decoder.shiftFlags (d : Decoder) : Decoder :=
  if (d.flags >>> 1) &&& 0x100 = 0 then
    match d.input with
    | [] => { d with flags := d.flags >>> 1 }
    | b :: rest => { d with input := rest, flags := b.toNat ||| 0xFF00 }
  else { d with flags := d.flags >>> 1 }

/-- The value returned, with the bytes written to `out`. -/
abbrev Decoder.done (d : Decoder) : ℕ × List UInt8 := (d.out.length, d.out)

/-- The decoding loop. Each round consumes a byte or ends, so `in_size` rounds are enough. -/
def decodeLoop (capacity : ℕ) : ℕ → Decoder → ℕ × List UInt8
  | 0, d => d.done
  | n + 1, d =>
    if d.input = [] then d.done
    else
      let d := d.shiftFlags
      if d.flags &&& 1 ≠ 0 then
        match d.input with
        | [] => d.done
        | c :: rest =>
          match { d with input := rest }.put capacity c with
          | .error d' => (0, d'.out)
          | .ok d' => decodeLoop capacity n d'
      else
        match d.input with
        | byte0 :: byte1 :: rest =>
          let matchPos := byte0.toNat ||| ((byte1.toNat &&& 0xF0) <<< 4)
          let matchLen := (byte1.toNat &&& 0x0F) + lzssThreshold
          match copyMatch capacity matchPos (matchLen + 1) 0 { d with input := rest } with
          | .error d' => (0, d'.out)
          | .ok d' => decodeLoop capacity n d'
        | _ => d.done

/-- `text_buf` after its first `LZSS_N - LZSS_F` bytes are set to blanks. -/
def initialWindow (textBuf : ℕ → UInt8) : Window UInt8 :=
  ⟨fun i => if i < lzssN - lzssF then 0x20 else textBuf i, lzssN - lzssF⟩

def lzssDecompress (textBuf : Option (ℕ → UInt8)) (input : List UInt8) (capacity : ℕ) :
    ℕ × List UInt8 :=
  if capacity = 0 ∨ input = [] then (0, [])
  else
    match textBuf with
    | none => (0, [])
    | some buf =>
      decodeLoop capacity input.length
        { input := input, window := initialWindow buf, out := [], flags := 0 }

/-! ## Compress -/

abbrev lzssHashBits : ℕ := 12
abbrev lzssNone : ℕ := 0xFFFFFFFF

def lzssHash3 (data : List UInt8) (p : ℕ) : ℕ :=
  let v := data[p]!.toNat ||| (data[p + 1]!.toNat <<< 8) ||| (data[p + 2]!.toNat <<< 16)
  (v * 2654435761 % 2 ^ 32) >>> (32 - lzssHashBits)

/-- The hash-chain tables: `head` by hash, `prev` by position modulo `LZSS_N`. -/
structure Tables where
  head : ℕ → ℕ
  prev : ℕ → ℕ

def lzssInsertRange (data : List UInt8) : Tables → ℕ → ℕ → Tables
  | t, _, 0 => t
  | t, p, n + 1 =>
    if data.length ≤ p + 2 then t
    else
      let h := lzssHash3 data p
      lzssInsertRange data
        { head := Function.update t.head h p,
          prev := Function.update t.prev (p % lzssN) (t.head h) } (p + 1) n

/-- The inner comparison loop: `n` more bytes may be compared, `length` already agree. -/
def matchLength (data : List UInt8) (cand pos : ℕ) : ℕ → ℕ → ℕ
  | 0, length => length
  | n + 1, length =>
    if data[cand + length]! = data[pos + length]! then matchLength data cand pos n (length + 1)
    else length

/-- The candidate walk: the best length and its source after at most `chain` candidates. -/
def walkChain (data : List UInt8) (prev : ℕ → ℕ) (pos maxLen windowStart : ℕ) :
    ℕ → ℕ → ℕ × ℕ → ℕ × ℕ
  | 0, _, best => best
  | chain + 1, cand, best =>
    if cand ≠ lzssNone ∧ windowStart ≤ cand then
      let length := matchLength data cand pos maxLen 0
      let best := if best.1 ≤ length then (length, cand) else best
      let next := prev (cand % lzssN)
      if next ≠ lzssNone ∧ cand ≤ next then best
      else walkChain data prev pos maxLen windowStart chain next best
    else best

/-- `best_len` and `best_src` at `pos`. A walk has at most `lzssN` candidates, so a `maxChain`
beyond that, in 32 bits or not, changes nothing. -/
def findMatch (maxChain : ℕ) (data : List UInt8) (t : Tables) (pos : ℕ) : ℕ × ℕ :=
  let maxLen := if data.length - pos < lzssF then data.length - pos else lzssF
  if lzssThreshold + 1 ≤ maxLen then
    let windowStart := if lzssN < pos then pos - lzssN else 0
    walkChain data t.prev pos maxLen windowStart maxChain (t.head (lzssHash3 data pos)) (0, 0)
  else (0, 0)

/-- The loop state of `lzss_compress`. `calls` counts the heap requests made so far. -/
structure Encoder where
  tables : Tables
  out : List UInt8
  capacity : ℕ
  flagByte : ℕ
  flagBit : ℕ
  chunk : List UInt8
  pos : ℕ
  calls : ℕ

/-- `while (needed > new_cap) new_cap *= 2`, which `needed` doublings certainly end. In 32 bits no
doubling wraps up to a need of 2 GiB (`growCapacity_lt`), and more the heap has no room for. -/
def growCapacity (needed : ℕ) : ℕ → ℕ → ℕ
  | 0, cap => cap
  | n + 1, cap => if cap < needed then growCapacity needed n (cap * 2) else cap

theorem growCapacity_lt {needed n cap : ℕ} (h : cap < 2 * needed) :
    growCapacity needed n cap < 2 * needed := by
  induction n generalizing cap with
  | zero => exact h
  | succ n ih =>
    rw [growCapacity]
    split_ifs
    · exact ih (by omega)
    · exact h

/-- Append the flag byte and the chunk to `out`, growing it first when it is too small. -/
def Encoder.flush (mem : ℕ → Bool) (e : Encoder) : Option Encoder :=
  let needed := e.out.length + 1 + e.chunk.length
  let grown : Option Encoder :=
    if e.capacity < needed then
      if mem e.calls then
        some { e with capacity := growCapacity needed needed (e.capacity * 2),
                      calls := e.calls + 1 }
      else none
    else some e
  grown.map fun e =>
    { e with out := e.out ++ UInt8.ofNat e.flagByte :: e.chunk, flagByte := 0, flagBit := 0,
             chunk := [] }

def Encoder.symbol (maxChain : ℕ) (data : List UInt8) (e : Encoder) : Encoder :=
  let best := findMatch maxChain data e.tables e.pos
  if lzssThreshold < best.1 then
    let matchPos := (lzssN - lzssF + best.2) % lzssN
    let lengthField := best.1 - (lzssThreshold + 1)
    { e with chunk := e.chunk ++ [UInt8.ofNat (matchPos &&& 0xFF),
               UInt8.ofNat (((matchPos >>> 8) <<< 4) ||| (lengthField &&& 0x0F))],
             tables := lzssInsertRange data e.tables e.pos best.1,
             pos := e.pos + best.1, flagBit := e.flagBit + 1 }
  else
    { e with flagByte := e.flagByte ||| (1 <<< e.flagBit),
             chunk := e.chunk ++ [data[e.pos]!],
             tables := lzssInsertRange data e.tables e.pos 1,
             pos := e.pos + 1, flagBit := e.flagBit + 1 }

/-- The main loop; `none` is the return after a failed `alloc_resize`. Every round advances
`pos`, so `data_size` rounds reach the end. -/
def encodeLoop (mem : ℕ → Bool) (maxChain : ℕ) (data : List UInt8) :
    ℕ → Encoder → Option Encoder
  | 0, e => some e
  | n + 1, e =>
    if e.pos < data.length then
      let e := e.symbol maxChain data
      if e.flagBit = 8 then
        match e.flush mem with
        | none => none
        | some e => encodeLoop mem maxChain data n e
      else encodeLoop mem maxChain data n e
    else some e

/-- The encoder's state before the first symbol: all chains empty, `out` of 256 bytes. -/
def Encoder.init : Encoder where
  tables := ⟨fun _ => lzssNone, fun _ => lzssNone⟩
  out := []
  capacity := 256
  flagByte := 0
  flagBit := 0
  chunk := []
  pos := 0
  calls := 2

def lzssCompress (mem : ℕ → Bool) (maxChain : ℕ) (data : List UInt8) : Option (List UInt8) :=
  if data = [] then none
  else if mem 0 && mem 1 then
    match encodeLoop mem maxChain data data.length Encoder.init with
    | none => none
    | some e => if 0 < e.flagBit then (e.flush mem).map Encoder.out else some e.out
  else none

end MinimalOS.Lzss
