import MinimalOS.Vmbus.Ring

/-!
# Packets arrive once and in order

Between the two indices the ring holds the packets that were sent and not yet received, and behind
the write index what the sender has stored of the next one. Neither side can disturb this: the
sender stores into space that was free when it looked, and the receiver only adds to it.
-/

namespace MinimalOS.Vmbus

open Packed RingQueue List

/-! ## Packets as bytes -/

def Packet.Fits (size : ℕ) (p : Packet) : Prop := p.payload.length ≤ size

def encode (w : ℕ) (p : Packet) : List UInt8 :=
  descLayout.enc p.desc ++ (p.padded ++ le 8 (w * 2 ^ 32))

def encodeAll (size : ℕ) : ℕ → List Packet → List UInt8
  | _, [] => []
  | pos, p :: ps => encode (pos % size) p ++ encodeAll size (pos + p.total) ps

section Sizes

variable {size : ℕ} {p : Packet}

section

variable (hsize : size < 2 ^ 17) (h : p.Fits size)

include hsize h

theorem lengths :
    p.packetLen = 16 + p.payload.length ∧ p.packetLen ≤ p.aligned ∧ p.aligned < p.packetLen + 8 ∧
      p.aligned % 8 = 0 ∧ p.aligned < 2 ^ 18 ∧ p.total = p.aligned + 8 := by
  unfold Packet.Fits at h
  unfold Packet.total Packet.aligned Packet.packetLen
  omega

theorem length_padded : p.padded.length = p.aligned - 16 := by
  have := lengths hsize h
  rw [Packet.padded, length_append, length_replicate]
  omega

theorem length_encode (w : ℕ) : (encode w p).length = p.total := by
  have := lengths hsize h
  rw [encode, length_append, length_append, length_padded hsize h, length_le,
    descLayout.length_enc, show descLayout.size = 16 from rfl]
  omega

end

def bytesOf (ps : List Packet) : ℕ := (ps.map Packet.total).sum

variable {ps : List Packet}

theorem length_encodeAll (hsize : size < 2 ^ 17) (pos : ℕ) (h : ∀ q ∈ ps, q.Fits size) :
    (encodeAll size pos ps).length = bytesOf ps := by
  induction ps generalizing pos with
  | nil => rfl
  | cons q ps ih =>
    rw [encodeAll, length_append, length_encode hsize (h q mem_cons_self),
      ih _ fun x hx => h x (mem_cons_of_mem _ hx), bytesOf, bytesOf, map_cons,
      sum_cons]

end Sizes

/-! ## The invariant -/

def zeroPadded (bytes : List UInt8) : List UInt8 :=
  bytes ++ List.replicate ((8 - bytes.length % 8) % 8) 0

/-- What a receive returns for a packet, up to the size of its buffer. -/
def Delivers (p : Packet) (r : Received) : Prop :=
  r.type = pktInband ∧ r.flags = p.flags ∧ r.transId = p.transId ∧
    r.payload = (zeroPadded p.payload).take r.cap

variable {p : Packet} {ring : Ring} {sender : Sender}

variable {size : ℕ} {s : State} {inflight : List Packet} {start : ℕ}

/-- The sender has stored a part of its packet behind the queue. -/
def SenderOk (size : ℕ) (ring : Ring) (bytes : List UInt8) (start : ℕ) : Sender → Prop
  | .idle => Shows size ring.data start bytes
  | .indexed p w => Shows size ring.data start bytes ∧ p.Fits size ∧ w = ring.writeIndex
  | .copying p w left => p.Fits size ∧ w = ring.writeIndex ∧ bytes.length + p.total < size ∧
      ∃ done rest, encode w p = done ++ rest ∧ left = ringCopyIn size (w + done.length) rest ∧
        Shows size ring.data start (bytes ++ done)

/-- The receiver has read a part of the first packet. -/
def ReceiverOk (ring : Ring) (bytes : List UInt8) (inflight : List Packet) : Receiver → Prop
  | .idle => True
  | .indexed _ r => r = ring.readIndex
  | .describing _ r got => r = ring.readIndex ∧ inflight ≠ [] ∧ got.length ≤ 16 ∧ got <+: bytes
  | .copying cap r desc got => r = ring.readIndex ∧ ∃ p ps, inflight = p :: ps ∧ desc = p.desc ∧
      got.length ≤ cap ∧ got <+: p.padded

/-- The ring holds the packets in flight from position `start` on. -/
structure Inv (size : ℕ) (s : State) (inflight : List Packet) (start : ℕ) : Prop where
  sent : ∃ consumed, s.sent = consumed ++ inflight ∧ List.Forall₂ Delivers consumed s.received
  fits : ∀ p ∈ inflight, p.Fits size
  aligned : start % 8 = 0
  read : s.ring.readIndex = start % size
  write : s.ring.writeIndex = (start + bytesOf inflight) % size
  room : bytesOf inflight < size
  sender : SenderOk size s.ring (encodeAll size start inflight) start s.sender
  receiver : ReceiverOk s.ring (encodeAll size start inflight) inflight s.receiver

theorem SenderOk.drop {bytes rest : List UInt8} {r : ℕ}
    (h : SenderOk size ring (bytes ++ rest) start sender) :
    SenderOk size { ring with readIndex := r } rest (start + bytes.length) sender := by
  cases sender with
  | idle => exact Shows.right h
  | indexed p w => exact ⟨h.1.right, h.2⟩
  | copying p w left =>
    obtain ⟨hp, hw, hroom, done, left', henc, hleft, hshows⟩ := h
    rw [append_assoc] at hshows
    rw [length_append] at hroom
    exact ⟨hp, hw, by omega, done, left', henc, hleft, hshows.right⟩

section Steps

variable (hsize : size < 2 ^ 17)
include hsize

theorem Inv.length_bytes (h : Inv size s inflight start) :
    (encodeAll size start inflight).length = bytesOf inflight :=
  length_encodeAll hsize start h.fits

end Steps

/-! ## Runs -/

def undelivered (s : State) : List Packet := s.sent.drop s.received.length

def Event.Fits (size : ℕ) : Event → Prop
  | .send p => p.Fits size
  | _ => True

/-- What holds in every state of a channel. -/
structure Sound (size : ℕ) (s : State) : Prop where
  /-- packets arrive once and in the order in which they were sent -/
  order : ∃ consumed, s.sent = consumed ++ undelivered s ∧ List.Forall₂ Delivers consumed s.received
  write : s.ring.writeIndex % 8 = 0 ∧ s.ring.writeIndex < size
  read : s.ring.readIndex % 8 = 0 ∧ s.ring.readIndex < size
  /-- a send that looks at the read index is refused if its packet does not fit, -/
  refuses : ∀ p w, s.sender = .indexed p w →
    ((senderStep size s).sender = .idle ↔ size - bytesOf (undelivered s) ≤ p.total)
  /-- and leaves the ring as it was -/
  unchanged : ∀ p w, s.sender = .indexed p w → (senderStep size s).ring = s.ring
  /-- a receive that looks at the write index finds a packet unless there is none -/
  finds : ∀ cap r, s.receiver = .indexed cap r →
    ((receiverStep size s).receiver = .idle ↔ undelivered s = [])

end MinimalOS.Vmbus
