import MinimalOS.Tcp.Reassembly

/-!
# What the reader of a connection gets

Segments of one peer stream arrive in any order, lost, repeated, overlapping and cut anew, while
the owner of the connection calls `tcp_recv`. Every packet and every call keeps the connection
settled (`Settled`), so over a whole run the reader gets a prefix of the stream and is told of
its end only when it has all of it.
-/

namespace MinimalOS.Tcp

open ByteMem SerialNumber StreamWindow List

/-- The segment is cut from the peer's stream, whose first byte is numbered `base`. A FIN stands
after the last byte. -/
def Segment.FromPeer (stream : List UInt8) (base : UInt32) (s : Segment) : Prop :=
  IsSlice stream (offset base s.seq) s.data ∧
    (s.flags.fin → offset base s.seq + s.data.length = stream.length)

instance (stream : List UInt8) (base : UInt32) (s : Segment) :
    Decidable (s.FromPeer stream base) := inferInstanceAs (Decidable (_ ∧ _))

section Step

variable {stream : List UInt8} {base : UInt32} {d : ℕ} {c : Conn}
  (hlen : stream.length < 2 ^ 31)

theorem Settled.handleAck (h : Settled stream base d c) (s : Segment) :
    Settled stream base d (handleAck c s) := by
  unfold Tcp.handleAck
  split
  · exact { h with }
  · exact h

include hlen

/-- **One packet** keeps the connection settled and hands nothing to the reader. -/
theorem Settled.tcpHandlePacket (h : Settled stream base d c) {s : Segment}
    (hs : s.FromPeer stream base) (now : ℕ) :
    Settled stream base d (tcpHandlePacket now c s).1 := by
  have h' : Settled stream base d { c with lastActivityMs := now } := { h with }
  unfold Tcp.tcpHandlePacket
  rw [if_neg h.synced.2]
  unfold handleSynchronized
  split
  · exact { h' with synced := ⟨nofun, nofun⟩ }
  · rw [if_neg h.synced.1]
    exact ((h'.handleAck s).handleData hlen hs.1).handleFin hlen hs.2

theorem Settled.poll : ∀ {c : Conn} (arrived : List (ℕ × Segment)), Settled stream base d c →
    (∀ p ∈ arrived, p.2.FromPeer stream base) → Settled stream base d (poll c arrived)
  | _, [], h, _ => h
  | _, p :: rest, h, hs =>
    Settled.poll rest (h.tcpHandlePacket hlen (hs p mem_cons_self) p.1)
      fun q hq => hs q (mem_cons_of_mem _ hq)

end Step

/-! ## The extent -/

section Extent

theorem foldl_extentStep (nxt : UInt32) : ∀ (l : List Range) (e bound : ℕ), e ≤ bound →
    (∀ r ∈ l, 0 < signedDiff r.stop nxt ∧ offset nxt r.stop ≤ bound) →
    e ≤ l.foldl (extentStep nxt) e ∧ l.foldl (extentStep nxt) e ≤ bound ∧
      ∀ r ∈ l, offset nxt r.stop ≤ l.foldl (extentStep nxt) e := by
  intro l
  induction l with
  | nil => exact fun e bound he _ => ⟨le_rfl, he, nofun⟩
  | cons r l ih =>
    intro e bound he h
    obtain ⟨hpos, hb⟩ := h r mem_cons_self
    have hstep : extentStep nxt e r = max e (offset nxt r.stop) := by
      unfold extentStep offset
      dsimp only
      split <;> omega
    obtain ⟨h1, h2, h3⟩ :=
      ih (extentStep nxt e r) bound (by omega) fun x hx => h x (mem_cons_of_mem _ hx)
    rw [foldl_cons]
    refine ⟨by omega, h2, fun x hx => ?_⟩
    rcases mem_cons.mp hx with rfl | hx
    · exact le_trans (by omega) h1
    · exact h3 x hx

variable {stream : List UInt8} {base : UInt32} {d : ℕ} {c : Conn}

theorem Settled.extent (hlen : stream.length < 2 ^ 31) (h : Settled stream base d c) :
    c.rxLen + tcpOooExtent c ≤ tcpRxBufSize ∧
      ∀ r ∈ c.ooo, (r.span base).2 ≤ d + c.rxLen + tcpOooExtent c := by
  have hroom := h.room
  rcases hc : c.remoteClosed with _ | _
  · have hnext := h.next_of_open hc
    have hstop : ∀ r ∈ c.ooo, offset c.rcvNxt r.stop = (r.span base).2 - (d + c.rxLen) := by
      intro r hr
      have hk := h.kept r hr
      have hlo := hk.lo_le
      have hlt := hk.lt
      unfold Range.span at *
      rw [offset_offset base (by omega), hnext]
    obtain ⟨-, hle, hall⟩ := foldl_extentStep c.rcvNxt c.ooo 0 (tcpRxBufSize - c.rxLen) (Nat.zero_le _)
      fun r hr => by
        have hk := h.kept r hr
        have hlo := hk.lo_le
        have hlt := hk.lt
        have hr' := hk.room
        rw [h.signedDiff_stop hlen hc hr, hstop r hr]
        omega
    unfold tcpOooExtent
    refine ⟨by omega, fun r hr => ?_⟩
    have := hall r hr
    rw [hstop r hr] at this
    omega
  · have hempty := (h.closed hc).2
    unfold tcpOooExtent
    rw [hempty]
    exact ⟨by simpa using hroom, nofun⟩

theorem Settled.not_touches (hlen : stream.length < 2 ^ 31) (h : Settled stream base d c) :
    c.ooo.Pairwise fun r r' => ¬ r.Touches r' :=
  h.apart.imp_of_mem fun hr hr' hap ht => hap ((touches_iff hlen (h.kept _ hr) (h.kept _ hr')).mp ht)

end Extent

/-! ## Reading -/

section Read

variable {stream : List UInt8} {base : UInt32} {d : ℕ} {c : Conn}
  (hlen : stream.length < 2 ^ 31) {arrived : List (ℕ × Segment)}
  (hs : ∀ p ∈ arrived, p.2.FromPeer stream base)

include hlen hs

/-- **One read** hands out the next bytes of the stream. -/
theorem Settled.tcpRecv (h : Settled stream base d c) (maxlen : ℕ) :
    ∃ n, stream.take d ++ (tcpRecv c arrived maxlen).2.1 = stream.take (d + n) ∧
      Settled stream base (d + n) (tcpRecv c arrived maxlen).2.2 := by
  have hp := h.poll hlen arrived hs
  unfold Tcp.tcpRecv
  rw [if_neg (by rw [h.inUse]; simp)]
  dsimp only
  generalize Tcp.poll c arrived = c at hp ⊢
  split
  · refine ⟨0, ?_, ?_⟩
    · split <;> exact append_nil _
    · split <;> exact hp
  · set n := min c.rxLen maxlen with hn
    obtain ⟨hroom, hext⟩ := hp.extent hlen
    have hrest : d + n + (c.rxLen - n) = d + c.rxLen := by omega
    refine ⟨n, hp.held.take_append (by omega), ?_⟩
    refine
      { hp with
        next := ?_, held := ?_, le_length := ?_, room := ?_, closed := ?_, le_lo := by omega,
        kept := fun r hr => ?_ }
    · dsimp only
      rw [hrest, hp.next]
    · dsimp only
      rw [hrest]
      exact (hp.held.mono (Nat.le_add_right d n) le_rfl).shift le_rfl (by omega)
    · dsimp only
      rw [hrest]
      exact hp.le_length
    · dsimp only
      omega
    · dsimp only
      rw [hrest]
      exact hp.closed
    · have hk := hp.kept r hr
      have hlo := hk.lo_le
      have hr' := hext r hr
      exact ⟨by dsimp only; omega, hk.lt, hk.held.shift (by omega) (by omega),
        by have := hk.room; omega⟩

theorem Settled.recv_end (h : Settled stream base d c) {maxlen : ℕ}
    (hend : (Tcp.tcpRecv c arrived maxlen).1 = -1)
    (hreset : (Tcp.tcpRecv c arrived maxlen).2.2.reset = false) : d = stream.length := by
  have hp := h.poll hlen arrived hs
  unfold Tcp.tcpRecv at hend hreset
  rw [if_neg (by rw [h.inUse]; simp)] at hend hreset
  dsimp only at hend
  generalize Tcp.poll c arrived = c at hp hend hreset
  split at hend
  · rename_i hz
    rw [if_pos hz] at hreset
    split at hend
    · rename_i hclosed
      rw [if_pos hclosed] at hreset
      have := (hp.closed (hclosed.resolve_right (by rw [hreset]; simp))).1
      omega
    · simp at hend
  · exact absurd hend (by dsimp only; omega)

end Read

/-! ## Runs -/

/-- What happens to a connection: a packet arrives, or its owner reads, polling the network
first. -/
inductive Event
  | packet (now : ℕ) (s : Segment)
  | recv (arrived : List (ℕ × Segment)) (maxlen : ℕ)

def Event.FromPeer (stream : List UInt8) (base : UInt32) : Event → Prop
  | .packet _ s => s.FromPeer stream base
  | .recv arrived _ => ∀ p ∈ arrived, p.2.FromPeer stream base

instance (stream : List UInt8) (base : UInt32) : DecidablePred (Event.FromPeer stream base)
  | .packet _ s => inferInstanceAs (Decidable (s.FromPeer stream base))
  | .recv arrived _ => inferInstanceAs (Decidable (∀ p ∈ arrived, p.2.FromPeer stream base))

/-- A connection and what its owner has read from it. -/
structure Reader where
  conn : Conn
  got : List UInt8

def Reader.step (r : Reader) : Event → Reader
  | .packet now s => { r with conn := (tcpHandlePacket now r.conn s).1 }
  | .recv arrived maxlen =>
    let (_, bytes, conn) := tcpRecv r.conn arrived maxlen
    { conn := conn, got := r.got ++ bytes }

def Reader.run (r : Reader) (es : List Event) : Reader := es.foldl Reader.step r

/-- The handshake is done and nothing has been received yet. -/
structure Conn.Established (c : Conn) : Prop where
  inUse : c.inUse = true
  state : c.state = .established
  rxLen : c.rxLen = 0
  ooo : c.ooo = []
  remoteClosed : c.remoteClosed = false

/-- An active open is established by the peer's SYN with ACK, the stream starting right after
the SYN. -/
theorem established_connecting (iss t now : ℕ) {s : Segment} (hsyn : s.flags.syn = true)
    (hack : s.flags.ack = true) (hrst : s.flags.rst = false) :
    (tcpHandlePacket now (connecting iss t) s).1.Established ∧
      (tcpHandlePacket now (connecting iss t) s).1.rcvNxt = s.seq + 1 := by
  have hpath : (tcpHandlePacket now (connecting iss t) s).1 =
      (handleSynSent { connecting iss t with lastActivityMs := now } s).1 := by
    unfold tcpHandlePacket handleSynchronized
    rw [if_neg nofun, if_neg (by rw [hrst]; exact Bool.false_ne_true),
      if_pos (show (connecting iss t).state = .synSent from rfl)]
  rw [hpath, handleSynSent, if_pos ⟨hsyn, hack⟩]
  exact ⟨⟨rfl, rfl, rfl, rfl, rfl⟩, rfl⟩

/-- The reader has the first `d` bytes. -/
def Reader.Good (stream : List UInt8) (base : UInt32) (r : Reader) : Prop :=
  ∃ d, r.got = stream.take d ∧ Settled stream base d r.conn

theorem Conn.Established.good {c : Conn} (h : c.Established) (stream : List UInt8) :
    Reader.Good stream c.rcvNxt ⟨c, []⟩ := by
  refine ⟨0, (take_zero).symm, ?_⟩
  exact
    { inUse := h.inUse
      synced := by rw [h.state]; exact ⟨nofun, nofun⟩
      next := by rw [offset_self, h.rxLen, h.remoteClosed]; rfl
      held := fun k _ hk => absurd hk (by rw [h.rxLen]; omega)
      le_length := by rw [h.rxLen]; omega
      room := by rw [h.rxLen]; omega
      closed := fun hc => absurd hc (by rw [h.remoteClosed]; exact Bool.false_ne_true)
      le_lo := by omega
      kept := by rw [h.ooo]; exact nofun
      apart := by rw [h.ooo]; exact List.Pairwise.nil
      few := by rw [h.ooo]; exact Nat.zero_le _ }

section Run

variable {stream : List UInt8} {base : UInt32} (hlen : stream.length < 2 ^ 31)

include hlen

theorem Reader.Good.step {r : Reader} (h : r.Good stream base) {e : Event}
    (he : e.FromPeer stream base) : (r.step e).Good stream base := by
  obtain ⟨d, hgot, hset⟩ := h
  cases e with
  | packet now s => exact ⟨d, hgot, hset.tcpHandlePacket hlen he now⟩
  | recv arrived maxlen =>
    obtain ⟨n, hbytes, hset'⟩ := hset.tcpRecv hlen he maxlen
    refine ⟨d + n, ?_, hset'⟩
    show r.got ++ (tcpRecv r.conn arrived maxlen).2.1 = _
    rw [hgot, hbytes]

theorem Reader.Good.run : ∀ {r : Reader} (es : List Event), r.Good stream base →
    (∀ e ∈ es, e.FromPeer stream base) → (r.run es).Good stream base
  | _, [], h, _ => h
  | _, e :: es, h, he =>
    Reader.Good.run es (h.step hlen (he e mem_cons_self))
      fun e' he' => he e' (mem_cons_of_mem _ he')

end Run

/-- **Delivery.** Whatever segments of the peer's stream arrive and however they are interleaved
with reads: the reader has a prefix of the stream; it is told of the end of the stream, without a
reset, only when it has all of it; and the data in order and the kept ranges fit the receive
buffer, the ranges apart from each other. -/
theorem reader_gets_stream {stream : List UInt8} (hlen : stream.length < 2 ^ 31) {c : Conn}
    (hc : c.Established) (es : List Event) (hes : ∀ e ∈ es, e.FromPeer stream c.rcvNxt) :
    let r := Reader.run ⟨c, []⟩ es
    r.got <+: stream ∧
      (∀ arrived maxlen, (∀ p ∈ arrived, p.2.FromPeer stream c.rcvNxt) →
        (tcpRecv r.conn arrived maxlen).1 = -1 →
        (tcpRecv r.conn arrived maxlen).2.2.reset = false → r.got = stream) ∧
      r.conn.rxLen + tcpOooExtent r.conn ≤ tcpRxBufSize ∧
      r.conn.ooo.Pairwise fun a b => ¬ a.Touches b := by
  intro r
  obtain ⟨d, hgot, hset⟩ := (hc.good stream).run hlen es hes
  refine ⟨?_, fun arrived maxlen hs hend hreset => ?_, (hset.extent hlen).1, hset.not_touches hlen⟩
  · rw [hgot]; exact take_prefix d stream
  · rw [hgot, hset.recv_end hlen hs hend hreset, take_length]

/-- Six bytes whose numbers cross `2 ^ 32`: the middle is lost and comes last, a retransmission
overlaps it, and a read stands between. -/
theorem reader_gets_stream_across_wrap :
    ∃ c : Conn, c.Established ∧ c.rcvNxt = 0xFFFFFFFE ∧
      let data := { ack := true : Flags }
      let es := [.packet 1 ⟨0xFFFFFFFE, 0, data, [10, 20]⟩,
        .packet 2 ⟨2, 0, { data with fin := true }, [50, 60]⟩, .recv [] 1,
        .recv [(3, ⟨0xFFFFFFFF, 0, data, [20, 30]⟩), (4, ⟨0, 0, data, [30, 40, 50]⟩)] 100]
      (Reader.run ⟨c, []⟩ es).got <+: [10, 20, 30, 40, 50, 60] := by
  obtain ⟨hc, hnxt⟩ :=
    established_connecting 7 0 0 (s := ⟨0xFFFFFFFD, 8, { syn := true, ack := true }, []⟩)
      rfl rfl rfl
  refine ⟨_, hc, hnxt, ?_⟩
  exact (reader_gets_stream (by decide) hc _ (by rw [hnxt]; decide)).1

end MinimalOS.Tcp
