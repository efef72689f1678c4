import MinimalOS.Audio.Ima

/-!
# The stream of a player and its fast forward

`readstream` hands out the sound data of a file chunk by chunk. ADPCM has no points to seek to: to
start in the middle, `audio_ctl_fast_forward` decodes everything before. Reads of the file system
return what was asked for.
-/

namespace MinimalOS.Audio

/-- `audio_datastream_t`: `total_size` bytes of sound, from `data_offset` on in the file. -/
structure Stream where
  payload : List UInt8
  chunkSize : ℕ
  currentOffset : ℕ
  endOfStream : Bool
  deriving DecidableEq

def readstream (st : Stream) : List UInt8 × Stream :=
  if st.endOfStream then ([], st)
  else if st.currentOffset ≥ st.payload.length then ([], { st with endOfStream := true })
  else
    let remaining := st.payload.length - st.currentOffset
    let toRead := if remaining < st.chunkSize then remaining else st.chunkSize
    let data := (st.payload.drop st.currentOffset).take toRead
    if data.length = 0 then ([], { st with endOfStream := true })
    else (data, { st with currentOffset := st.currentOffset + data.length })

def seekstream (st : Stream) (offset : ℕ) : Stream :=
  if offset ≥ st.payload.length then
    { st with currentOffset := st.payload.length, endOfStream := true }
  else { st with currentOffset := offset, endOfStream := false }

/-! ## Sizes -/

def audioBufferSize : ℕ := 1024

def pcmCapacity : Channels → ℕ
  | .mono => audioBufferSize * 1
  | .stereo => audioBufferSize * 2

/-- `chunk_size_bytes` of `audio_player_create` for an ADPCM file. -/
def chunkSizeBytes (ch : Channels) : ℕ :=
  let c := pcmCapacity ch / 2
  let c := if c < 64 then 64 else c
  c / 2 * 2

/-! ## Seeking -/

/-- The loop of `audio_ctl_fast_forward`; `chunk` is the chunk size of the player. A round reads at
least one byte or ends the loop, so that `offset` rounds are enough. -/
def fastForwardLoop (ch : Channels) (chunk offset : ℕ) :
    ℕ → Stream → States → Stream × States
  | 0, st, d => (st, d)
  | rounds + 1, st, d =>
    if st.currentOffset < offset then
      let left := offset - st.currentOffset
      let r := readstream { st with chunkSize := if left < chunk then left else chunk }
      if r.1.length = 0 then (r.2, d)
      else fastForwardLoop ch chunk offset rounds r.2 (decode ch (pcmCapacity ch) d r.1).2
    else (st, d)

def fastForward (ch : Channels) (st : Stream) (d : States) (offset : ℕ) : Stream × States :=
  let r := fastForwardLoop ch st.chunkSize offset offset (seekstream st 0) d
  (seekstream { r.1 with chunkSize := st.chunkSize } offset, r.2)

/-- The position in the stream for a time: whole pairs of bytes, or the end. -/
def seekOffset (total positionMs bytesPerSecond : ℕ) : ℕ :=
  let offset := positionMs * bytesPerSecond / 1000
  let offset := offset / 2 * 2
  if offset ≥ total then total else offset

/-- `audio_ctl_seek_ms` on an ADPCM stream: the decoder is reset and run up to the position. -/
def seekMs (ch : Channels) (st : Stream) (positionMs bytesPerSecond : ℕ) : Stream × States :=
  fastForward ch st .init (seekOffset st.payload.length positionMs bytesPerSecond)

end MinimalOS.Audio
