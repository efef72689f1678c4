import Mathlib.Data.Nat.Bitwise
import Mathlib.Tactic.Common

/-!
# Received IPv4 packets of `impl/net/ip.c`

`ip_handle_packet` gets an Ethernet payload and hands a slice of it to the TCP or the UDP
handler. The slice starts behind the header, at `ihl`, and its length is `total_len - ihl` in
16 bits. Both come from the packet; only `total_len <= len` and `ihl <= len` are checked.
-/

namespace MinimalOS.Net

abbrev ipv4HeaderSize : ℕ := 20

/-- An Ethernet payload; `len` is a `uint16_t`. -/
structure Payload where
  bytes : List UInt8
  len_lt : bytes.length < 2 ^ 16

/-- Byte `i` of the header. -/
def Payload.byte (p : Payload) (i : ℕ) : ℕ := (p.bytes.getD i 0).toNat

/-- `net_ntohs` of the field at `i`. -/
def Payload.ntohs (p : Payload) (i : ℕ) : ℕ := p.byte i * 2 ^ 8 + p.byte (i + 1)

def Payload.ntohl (p : Payload) (i : ℕ) : ℕ := p.ntohs i * 2 ^ 16 + p.ntohs (i + 2)

def Payload.ihl (p : Payload) : ℕ := p.byte 0 % 16 * 4

def Payload.totalLen (p : Payload) : ℕ := p.ntohs 2

inductive Handler
  | udp | tcp
  deriving DecidableEq, Repr

/-- A call of `udp_handle_packet` or `tcp_handle_packet`: `payloadLen` bytes from `start` on. -/
structure Handed where
  handler : Handler
  srcIp : ℕ
  start : ℕ
  payloadLen : ℕ
  deriving DecidableEq, Repr

/-- The `switch` on `protocol`. -/
def handlerOf (protocol : ℕ) : Option Handler :=
  if protocol = 17 then some .udp else if protocol = 6 then some .tcp else none

def ipHandlePacket (localIp : ℕ) (p : Payload) : Option Handed :=
  let len := p.bytes.length
  let dstIp := p.ntohl 16
  if len < ipv4HeaderSize then none
  else if p.byte 0 / 16 ≠ 4 then none
  else if p.ihl < ipv4HeaderSize ∨ len < p.ihl then none
  else if localIp ≠ 0 ∧ dstIp ≠ localIp ∧ dstIp ≠ 0xFFFFFFFF then none
  else if len < p.totalLen then none
  else (handlerOf (p.byte 9)).map fun handler =>
    { handler := handler, srcIp := p.ntohl 12, start := p.ihl
      payloadLen := (p.totalLen + 2 ^ 16 - p.ihl) % 2 ^ 16 }

theorem ipHandlePacket_some {localIp : ℕ} {p : Payload} {d : Handed}
    (h : ipHandlePacket localIp p = some d) :
    d.start = p.ihl ∧ d.payloadLen = (p.totalLen + 2 ^ 16 - p.ihl) % 2 ^ 16 ∧
      p.ihl ≤ p.bytes.length ∧ p.totalLen ≤ p.bytes.length := by
  unfold ipHandlePacket at h
  dsimp only at h
  split_ifs at h with _ _ hihl _ htotal
  obtain ⟨handler, _, rfl⟩ := Option.map_eq_some_iff.mp h
  rw [not_or, not_lt, not_lt] at hihl
  exact ⟨rfl, rfl, hihl.2, not_lt.mp htotal⟩

/-- **Inside the payload.** The slice handed on ends inside the received bytes exactly if
`total_len` covers the header; otherwise the subtraction wraps. -/
theorem handed_inside_iff {localIp : ℕ} {p : Payload} {d : Handed}
    (h : ipHandlePacket localIp p = some d) :
    d.start + d.payloadLen ≤ p.bytes.length ↔ p.ihl ≤ p.totalLen := by
  obtain ⟨hstart, hlen, hihl, htotal⟩ := ipHandlePacket_some h
  have hlt := p.len_lt
  omega

/-- A UDP packet of 28 bytes with 8 bytes behind its header. -/
def udpPacket (totalLen : UInt8) : Payload where
  bytes := [0x45, 0, 0, totalLen, 0, 0, 0, 0, 64, 17, 0, 0, 10, 0, 0, 1, 10, 0, 0, 2,
    0, 53, 0, 99, 0, 8, 0, 0]
  len_lt := (by decide : 28 < 2 ^ 16)

theorem handed_inside_udp :
    ipHandlePacket 0x0A000002 (udpPacket 28) = some ⟨.udp, 0x0A000001, 20, 8⟩ ∧
      20 + 8 ≤ (udpPacket 28).bytes.length := by
  have h : ipHandlePacket 0x0A000002 (udpPacket 28) = some ⟨.udp, 0x0A000001, 20, 8⟩ := by
    decide +kernel
  exact ⟨h, (handed_inside_iff h).mpr (by decide)⟩

/-- With a `total_len` of 0 the UDP handler gets 65516 bytes of the 28 received. -/
theorem handed_outside :
    ipHandlePacket 0x0A000002 (udpPacket 0) = some ⟨.udp, 0x0A000001, 20, 65516⟩ ∧
      ¬ 20 + 65516 ≤ (udpPacket 0).bytes.length := by
  decide +kernel

end MinimalOS.Net
