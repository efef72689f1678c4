import MinimalOS.Lzss.Codec

/-!
# The encoder of `tools/mkpkg/mkpkg.py`

The packer on the host has its own LZSS encoder. It keeps, for every prefix of three bytes, the
increasing list of the positions where it starts, and tries them from the oldest in the window on.
-/

namespace MinimalOS.Lzss.Mkpkg

open MinimalOS.Lzss

/-- `data[p:p + 3]`. -/
def prefix3 (data : List UInt8) (p : ℕ) : List UInt8 := (data.drop p).take 3

/-- `chains` and `indexed`; a prefix that is not in the dictionary has no positions. -/
structure Index where
  chains : List UInt8 → List ℕ
  indexed : ℕ

/-- `while indexed < pos and indexed + 3 <= n`; `pos` rounds are enough. -/
def indexUpTo (data : List UInt8) (pos : ℕ) : ℕ → Index → Index
  | 0, x => x
  | rounds + 1, x =>
    if x.indexed < pos ∧ x.indexed + 3 ≤ data.length then
      let key := prefix3 data x.indexed
      indexUpTo data pos rounds
        { chains := Function.update x.chains key (x.chains key ++ [x.indexed])
          indexed := x.indexed + 1 }
    else x

/-- `bisect_left` on an increasing list: where the first entry stands that is not below `x`. -/
def bisectLeft (l : List ℕ) (x : ℕ) : ℕ := (l.takeWhile (· < x)).length

def tryCandidates (data : List UInt8) (pos maxLen : ℕ) : List ℕ → ℕ × ℕ → ℕ × ℕ
  | [], best => best
  | src :: rest, best =>
    if best.1 ≠ 0 ∧ data[src + best.1]! ≠ data[pos + best.1]! then
      tryCandidates data pos maxLen rest best
    else
      let length := matchLength data src pos (maxLen - 3) 3
      if best.1 < length then
        if maxLen ≤ length then (length, src)
        else tryCandidates data pos maxLen rest (length, src)
      else tryCandidates data pos maxLen rest best

/-- `best_len` and `best_src` at `pos`. -/
def findMatch (data : List UInt8) (x : Index) (pos : ℕ) : ℕ × ℕ :=
  let maxLen := min lzssF (data.length - pos)
  if lzssThreshold + 1 ≤ maxLen then
    let candidates := x.chains (prefix3 data pos)
    let windowStart := pos - lzssN
    tryCandidates data pos maxLen (candidates.drop (bisectLeft candidates windowStart)) (0, 0)
  else (0, 0)

structure Encoder where
  index : Index
  out : List UInt8
  flagByte : ℕ
  flagBit : ℕ
  chunk : List UInt8
  pos : ℕ

def Encoder.flush (e : Encoder) : Encoder :=
  if 0 < e.flagBit then
    { e with out := e.out ++ UInt8.ofNat e.flagByte :: e.chunk, flagByte := 0, flagBit := 0,
             chunk := [] }
  else e

def Encoder.symbol (data : List UInt8) (e : Encoder) : Encoder :=
  let index := indexUpTo data e.pos e.pos e.index
  let best := findMatch data index e.pos
  if lzssThreshold < best.1 then
    let matchPos := (lzssN - lzssF + best.2) % lzssN
    let lengthField := best.1 - (lzssThreshold + 1)
    { e with index := index,
             chunk := e.chunk ++ [UInt8.ofNat (matchPos &&& 0xFF),
               UInt8.ofNat (((matchPos >>> 8) <<< 4) ||| (lengthField &&& 0x0F))],
             flagBit := e.flagBit + 1, pos := e.pos + best.1 }
  else
    { e with index := index,
             flagByte := e.flagByte ||| (1 <<< e.flagBit),
             chunk := e.chunk ++ [data[e.pos]!],
             flagBit := e.flagBit + 1, pos := e.pos + 1 }

/-- The main loop; every round advances `pos`. -/
def encodeLoop (data : List UInt8) : ℕ → Encoder → Encoder
  | 0, e => e
  | rounds + 1, e =>
    if e.pos < data.length then
      let e := e.symbol data
      encodeLoop data rounds (if e.flagBit = 8 then e.flush else e)
    else e

def Encoder.init : Encoder where
  index := ⟨fun _ => [], 0⟩
  out := []
  flagByte := 0
  flagBit := 0
  chunk := []
  pos := 0

def lzssCompress (data : List UInt8) : List UInt8 :=
  (encodeLoop data data.length Encoder.init).flush.out

end MinimalOS.Lzss.Mkpkg
