import Mathlib.Data.Int.Bitwise
import Mathlib.Tactic

/-!
# IMA ADPCM, encoders and decoder

Sound is stored with four bits a sample: `tools/audioconverter/wavtoadi.py` and
`tools/media/mosmedia.c` encode, `modules/Audio/audio.c` decodes. Each of the three carries a
predictor and a step index from sample to sample. A nibble says how far the next sample is from the
predictor, in steps; the encoder moves its own predictor as the decoder will move its. The three
sources have the same tables. `int` holds all values with room to spare, so that it is `ℤ` here.
-/

namespace MinimalOS.Audio

def imaIndexTable : List ℤ := [-1, -1, -1, -1, 2, 4, 6, 8, -1, -1, -1, -1, 2, 4, 6, 8]

def imaStepTable : List ℤ :=
  [7, 8, 9, 10, 11, 12, 13, 14, 16, 17, 19, 21, 23, 25, 28, 31, 34, 37, 41, 45,
    50, 55, 60, 66, 73, 80, 88, 97, 107, 118, 130, 143, 157, 173, 190, 209, 230, 253, 279, 307,
    337, 371, 408, 449, 494, 544, 598, 658, 724, 796, 876, 963, 1060, 1166, 1282, 1411, 1552,
    1707, 1878, 2066, 2272, 2499, 2749, 3024, 3327, 3660, 4026, 4428, 4871, 5358, 5894, 6484,
    7132, 7845, 8630, 9493, 10442, 11487, 12635, 13899, 15289, 16818, 18500, 20350, 22385,
    24623, 27086, 29794, 32767]

structure State where
  predictor : ℤ
  stepIndex : ℤ
  deriving DecidableEq

def State.step (s : State) : ℤ := imaStepTable.getD s.stepIndex.toNat 0

/-! ## Nibbles -/

/-- The three low bits of a nibble, for a distance that is not negative. -/
def magnitude (step diff : ℤ) : ℕ :=
  let code := if diff ≥ step then 4 else 0
  let diff := if diff ≥ step then diff - step else diff
  let code := if diff ≥ step >>> 1 then code ||| 2 else code
  let diff := if diff ≥ step >>> 1 then diff - step >>> 1 else diff
  if diff ≥ step >>> 2 then code ||| 1 else code

/-- The nibble both encoders choose for a distance from the predictor. -/
def quantize (step diff : ℤ) : ℕ :=
  if diff < 0 then 8 ||| magnitude step (-diff) else magnitude step diff

/-- The distance a nibble stands for, as all three compute it. -/
def expand (step : ℤ) (code : ℕ) : ℤ :=
  let delta := step >>> 3
  let delta := if code &&& 1 ≠ 0 then delta + step >>> 2 else delta
  let delta := if code &&& 2 ≠ 0 then delta + step >>> 1 else delta
  let delta := if code &&& 4 ≠ 0 then delta + step else delta
  if code &&& 8 ≠ 0 then -delta else delta

/-- `_ima_encode_sample` of the converter. -/
def imaEncodeSample (sample : ℤ) (s : State) : ℕ × State :=
  let code := quantize s.step (sample - s.predictor)
  (code,
    { predictor := max (-32768) (min 32767 (s.predictor + expand s.step code))
      stepIndex := max 0 (min 88 (s.stepIndex + imaIndexTable.getD (code &&& 7) 0)) })

/-- `ima_encode` of the media tool. -/
def imaEncode (sample : ℤ) (s : State) : ℕ × State :=
  let code := quantize s.step (sample - s.predictor)
  let predictor := s.predictor + expand s.step code
  let predictor := if predictor > 32767 then 32767 else predictor
  let predictor := if predictor < -32768 then -32768 else predictor
  let index := s.stepIndex + imaIndexTable.getD (code &&& 7) 0
  let index := if index < 0 then 0 else index
  let index := if index > 88 then 88 else index
  (code, ⟨predictor, index⟩)

/-- `ima_decode_nibble` of the kernel; the decoded sample is the predictor it leaves. -/
def imaDecodeNibble (code : ℕ) (s : State) : State :=
  let predictor := s.predictor + expand s.step code
  let predictor := if predictor > 32767 then 32767 else predictor
  let predictor := if predictor < -32768 then -32768 else predictor
  let index := s.stepIndex + imaIndexTable.getD (code &&& 0xF) 0
  let index := if index < 0 then 0 else index
  let index := if index > 88 then 88 else index
  ⟨predictor, index⟩

def State.sample (s : State) : Int16 := Int16.ofInt s.predictor

/-! ## Streams -/

/-- The states of both channels; a mono stream uses the left one. -/
structure States where
  left : State
  right : State
  deriving DecidableEq

def States.init : States := ⟨⟨0, 0⟩, ⟨0, 0⟩⟩

inductive Channels where
  | mono
  | stereo
  deriving DecidableEq

inductive Tool where
  | wavtoadi
  | mosmedia

def Tool.encodeSample : Tool → ℤ → State → ℕ × State
  | .wavtoadi => imaEncodeSample
  | .mosmedia => imaEncode

/-- A stream, the states its encoder went through (one for each sample, in the order of the
samples) and the states it ended in. -/
structure Encoded where
  bytes : List UInt8
  trace : List State
  final : States

def packNibbles (c0 c1 : ℕ) : UInt8 := UInt8.ofNat (c0 ||| c1 <<< 4)

/-- Two samples a byte; a last single sample is dropped. -/
def encodeMono (t : Tool) : List Int16 → States → Encoded
  | s0 :: s1 :: rest, d =>
    let a := t.encodeSample s0.toInt d.left
    let b := t.encodeSample s1.toInt a.2
    let e := encodeMono t rest { d with left := b.2 }
    { bytes := packNibbles a.1 b.1 :: e.bytes
      trace := a.2 :: b.2 :: e.trace
      final := e.final }
  | _, d => ⟨[], [], d⟩

/-- Two frames become a byte for the left channel and one for the right; what is left over after
whole groups of four samples is dropped. In C the operands of `|` are evaluated from left to
right, as the compilers do. -/
def encodeStereo (t : Tool) : List Int16 → States → Encoded
  | l0 :: r0 :: l1 :: r1 :: rest, d =>
    let a := t.encodeSample l0.toInt d.left
    let a' := t.encodeSample l1.toInt a.2
    let b := t.encodeSample r0.toInt d.right
    let b' := t.encodeSample r1.toInt b.2
    let e := encodeStereo t rest ⟨a'.2, b'.2⟩
    { bytes := packNibbles a.1 a'.1 :: packNibbles b.1 b'.1 :: e.bytes
      trace := a.2 :: b.2 :: a'.2 :: b'.2 :: e.trace
      final := e.final }
  | _, d => ⟨[], [], d⟩

/-- `encode_ima_adpcm` of the converter and the loop of `make_soundtrack`. -/
def encode (t : Tool) (ch : Channels) (pcm : List Int16) : Encoded :=
  match ch with
  | .mono => encodeMono t pcm .init
  | .stereo => encodeStereo t pcm .init

def lowNibble (b : UInt8) : ℕ := (b &&& 0x0F).toNat
def highNibble (b : UInt8) : ℕ := ((b >>> 4) &&& 0x0F).toNat

/-- The loop of `decode_ima_adpcm_mono`, with `outPos` samples written. -/
def decodeMono (maxOutput : ℕ) : List UInt8 → ℕ → States → List Int16 × States
  | [], _, d => ([], d)
  | b :: rest, outPos, d =>
    if outPos + 2 ≤ maxOutput then
      let s0 := imaDecodeNibble (lowNibble b) d.left
      let s1 := imaDecodeNibble (highNibble b) s0
      let r := decodeMono maxOutput rest (outPos + 2) { d with left := s1 }
      (s0.sample :: s1.sample :: r.1, r.2)
    else ([], d)

/-- The loop of `decode_ima_adpcm`: a byte without a partner is not read. -/
def decodeStereo (maxOutput : ℕ) : List UInt8 → ℕ → States → List Int16 × States
  | lb :: rb :: rest, outPos, d =>
    if outPos + 4 ≤ maxOutput then
      let l0 := imaDecodeNibble (lowNibble lb) d.left
      let r0 := imaDecodeNibble (lowNibble rb) d.right
      let l1 := imaDecodeNibble (highNibble lb) l0
      let r1 := imaDecodeNibble (highNibble rb) r0
      let r := decodeStereo maxOutput rest (outPos + 4) ⟨l1, r1⟩
      (l0.sample :: r0.sample :: l1.sample :: r1.sample :: r.1, r.2)
    else ([], d)
  | _, _, d => ([], d)

def decode (ch : Channels) (maxOutput : ℕ) (d : States) (input : List UInt8) :
    List Int16 × States :=
  match ch with
  | .mono => decodeMono maxOutput input 0 d
  | .stereo => decodeStereo maxOutput input 0 d

end MinimalOS.Audio
