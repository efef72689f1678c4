import MinimalOS.Lib.Packed
import MinimalOS.Lib.RingQueue

/-!
# The rings of `modules/HyperV/hyperv.c`

One side of a VMBus channel sends packets through a ring of bytes that it shares with its peer. The
sender owns the write index, the receiver the read index, and both run at the same time: a state
says where each of them is in its call, and a step is one access to the shared memory. The peer
applies the algorithm of `vmbus_recv` to the ring. A channel has at most 26 pages, so that sums of
positions and lengths stay far below `2 ^ 32`.
-/

namespace MinimalOS.Vmbus

open Packed

structure Packet where
  payload : List UInt8
  transId : UInt64
  wantCompletion : Bool
  deriving DecidableEq

/-- The sixteen bytes before the payload. -/
structure Desc where
  type : UInt16
  offset8 : UInt16
  len8 : UInt16
  flags : UInt16
  transId : UInt64
  deriving DecidableEq

def descLayout : Packed Desc :=
  (u16.both (u16.both (u16.both (u16.both u64)))).as
    (fun (type, offset8, len8, flags, transId) => ⟨type, offset8, len8, flags, transId⟩)
    (fun d => (d.type, d.offset8, d.len8, d.flags, d.transId))
    (fun _ => rfl) fun _ => rfl

example : descLayout.size = 16 := by decide

abbrev pktInband : UInt16 := 6

abbrev flagWantCompletion : UInt16 := 1

namespace Packet

def packetLen (p : Packet) : ℕ := (16 + p.payload.length) % 2 ^ 32

def aligned (p : Packet) : ℕ := (p.packetLen + 7) % 2 ^ 32 / 8 * 8

def total (p : Packet) : ℕ := (p.aligned + 8) % 2 ^ 32

def flags (p : Packet) : UInt16 := if p.wantCompletion then flagWantCompletion else 0

def desc (p : Packet) : Desc :=
  ⟨pktInband, 2, UInt16.ofNat (p.aligned / 8), p.flags, p.transId⟩

def padded (p : Packet) : List UInt8 :=
  p.payload ++ List.replicate (p.aligned - p.packetLen) 0

end Packet

/-! ## Both sides -/

structure Ring where
  data : ℕ → UInt8
  writeIndex : ℕ
  readIndex : ℕ

/-- The bytes that `ring_copy_in` stores, in order. -/
def ringCopyIn (size pos : ℕ) (src : List UInt8) : List (ℕ × UInt8) :=
  src.mapIdx fun i b => ((pos + i) % size, b)

/-- All stores of `vmbus_send` into the data of the ring. -/
def stores (size w : ℕ) (p : Packet) : List (ℕ × UInt8) :=
  ringCopyIn size w (descLayout.enc p.desc) ++
    ringCopyIn size (w + 16) p.payload ++
    ringCopyIn size (w + p.packetLen) (List.replicate (p.aligned - p.packetLen) 0) ++
    ringCopyIn size (w + p.aligned) (le 8 (w * 2 ^ 32))

/-- Where the sender is in a call of `vmbus_send`. -/
inductive Sender
  | idle
  | indexed (p : Packet) (w : ℕ)
  | copying (p : Packet) (w : ℕ) (left : List (ℕ × UInt8))

/-- Where the receiver is in a call of `vmbus_recv`. -/
inductive Receiver
  | idle
  | indexed (cap r : ℕ)
  | describing (cap r : ℕ) (got : List UInt8)
  | copying (cap r : ℕ) (desc : Desc) (got : List UInt8)

/-- What a call of `vmbus_recv` with a buffer of `cap` bytes returns. -/
structure Received where
  cap : ℕ
  type : UInt16
  flags : UInt16
  transId : UInt64
  payload : List UInt8
  deriving DecidableEq

/-- `sent` has the packets of the sends that returned true, `received` what receives returned. -/
structure State where
  ring : Ring
  sender : Sender
  receiver : Receiver
  sent : List Packet
  received : List Received

/-- The channel after it was opened; pages come zeroed. -/
def opened : State := ⟨⟨fun _ => 0, 0, 0⟩, .idle, .idle, [], []⟩

inductive Event
  | send (p : Packet)
  | sender
  | recv (cap : ℕ)
  | receiver

/-- `(w >= r) ? size - (w - r) : r - w` -/
def space (size w r : ℕ) : ℕ := if r ≤ w then size - (w - r) else r - w

def senderStep (size : ℕ) (s : State) : State :=
  match s.sender with
  | .idle => s
  | .indexed p w =>
    if space size w s.ring.readIndex ≤ p.total then { s with sender := .idle }
    else { s with sender := .copying p w (stores size w p) }
  | .copying p w ((pos, b) :: left) =>
    { s with
      ring := { s.ring with data := Function.update s.ring.data pos b }
      sender := .copying p w left }
  | .copying p w [] =>
    { s with
      ring := { s.ring with writeIndex := (w + p.total) % size }
      sender := .idle
      sent := s.sent ++ [p] }

def Desc.len (d : Desc) : ℕ :=
  if d.offset8.toNat * 8 < d.len8.toNat * 8 then d.len8.toNat * 8 - d.offset8.toNat * 8 else 0

def receiverStep (size : ℕ) (s : State) : State :=
  match s.receiver with
  | .idle => s
  | .indexed cap r =>
    if r = s.ring.writeIndex then { s with receiver := .idle }
    else { s with receiver := .describing cap r [] }
  | .describing cap r got =>
    if got.length < 16 then
      { s with receiver := .describing cap r (got ++ [s.ring.data ((r + got.length) % size)]) }
    else { s with receiver := .copying cap r (descLayout.dec got) [] }
  | .copying cap r desc got =>
    if got.length < min desc.len cap then
      { s with
        receiver := .copying cap r desc
          (got ++ [s.ring.data ((r + desc.offset8.toNat * 8 + got.length) % size)]) }
    else
      { s with
        ring := { s.ring with readIndex := (r + (desc.len8.toNat * 8 + 8)) % size }
        receiver := .idle
        received := s.received ++ [⟨cap, desc.type, desc.flags, desc.transId, got⟩] }

def step (size : ℕ) (s : State) : Event → State
  | .send p =>
    match s.sender with
    | .idle => { s with sender := .indexed p s.ring.writeIndex }
    | _ => s
  | .sender => senderStep size s
  | .recv cap =>
    match s.receiver with
    | .idle => { s with receiver := .indexed cap s.ring.readIndex }
    | _ => s
  | .receiver => receiverStep size s

def run (size : ℕ) (events : List Event) : State := events.foldl (step size) opened

end MinimalOS.Vmbus
