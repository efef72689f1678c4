import MinimalOS.Lib.ByteMem
import MinimalOS.Lib.SerialNumber

/-!
# A TCP connection of `impl/net/tcp.c`

The receive side of one `tcp_conn_t`: what `tcp_handle_packet` does with a segment once
`tcp_find` has named the connection, the out-of-order ranges kept in `rx_buf` past `rx_len`, and
`tcp_recv`. A segment is given by its decoded header fields and its payload.

`rx_buf` is a byte memory, `ooo_start` and `ooo_end` are one list of ranges whose length is
`ooo_count`. What the stack transmits in answer is returned as a list; sending it does not
change the connection.
-/

namespace MinimalOS.Tcp

open ByteMem SerialNumber

abbrev tcpRxBufSize : ℕ := 32768
abbrev tcpOooRanges : ℕ := 4

inductive TcpState
  | closed | synSent | established | finWait | closeWait | synRcvd
  deriving DecidableEq, Repr

structure Flags where
  fin : Bool := false
  syn : Bool := false
  rst : Bool := false
  psh : Bool := false
  ack : Bool := false
  deriving DecidableEq, Repr

structure Segment where
  seq : UInt32
  ack : UInt32
  flags : Flags
  data : List UInt8
  deriving DecidableEq, Repr

structure Sent where
  seq : UInt32
  ack : UInt32
  flags : Flags
  window : ℕ
  deriving DecidableEq, Repr

/-- Sequence numbers `[start, stop)` kept ahead of `rcv_nxt`. -/
structure Range where
  start : UInt32
  stop : UInt32
  deriving DecidableEq, Repr

structure Conn where
  inUse : Bool
  state : TcpState
  sndNxt : UInt32
  sndUna : UInt32
  rcvNxt : UInt32
  rxBuf : Mem
  rxLen : ℕ
  ooo : List Range
  remoteClosed : Bool
  reset : Bool
  lastActivityMs : ℕ
  acceptPending : Bool

/-- `tcp_send_segment` without payload: the advertised window is the free space. -/
def tcpSendSegment (c : Conn) (flags : Flags) : Sent where
  seq := c.sndNxt
  ack := if flags.ack then c.rcvNxt else 0
  flags := flags
  window := min (tcpRxBufSize - c.rxLen) 0xFFFF

/-! ## Out-of-order ranges -/

def extentStep (rcvNxt : UInt32) (extent : ℕ) (r : Range) : ℕ :=
  let e := r.stop - rcvNxt
  if 0 < signedDiff r.stop rcvNxt ∧ extent < e.toNat then e.toNat else extent

/-- The farthest kept byte, counted from `rcv_nxt`. -/
def tcpOooExtent (c : Conn) : ℕ := c.ooo.foldl (extentStep c.rcvNxt) 0

/-- The test of the merge loop: the ranges overlap or meet. -/
def Range.Touches (r r' : Range) : Prop :=
  signedDiff r.start r'.stop ≤ 0 ∧ signedDiff r'.start r.stop ≤ 0

instance (r r' : Range) : Decidable (r.Touches r') := inferInstanceAs (Decidable (_ ∧ _))

/-- `start` and `end` widened to cover `r'`. -/
def Range.widen (r r' : Range) : Range where
  start := if signedDiff r'.start r.start < 0 then r'.start else r.start
  stop := if 0 < signedDiff r'.stop r.stop then r'.stop else r.stop

/-- Overwrite slot `i` with the last slot and drop the last slot. -/
def swapRemove (l : List Range) (i : ℕ) : List Range :=
  match l.getLast? with
  | none => l
  | some r => (l.set i r).dropLast

/-- The merge loop at slot `i`. Each round removes a slot or moves on, so as many rounds as there
are slots left end it. -/
def mergeRanges : ℕ → ℕ → List Range → Range → List Range × Range
  | 0, _, l, r => (l, r)
  | n + 1, i, l, r =>
    match l[i]? with
    | none => (l, r)
    | some r' =>
      if r.Touches r' then mergeRanges n i (swapRemove l i) (r.widen r')
      else mergeRanges n (i + 1) l r

def tcpOooStore (c : Conn) (seq : UInt32) (data : List UInt8) : Conn :=
  let ahead := signedDiff seq c.rcvNxt
  if ahead ≤ 0 then c
  else if tcpRxBufSize < c.rxLen + ahead.toNat + data.length then c
  else
    let (l, r) := mergeRanges c.ooo.length 0 c.ooo ⟨seq, seq + UInt32.ofNat data.length⟩
    if tcpOooRanges ≤ l.length then { c with ooo := l }
    else
      { c with rxBuf := store c.rxBuf (c.rxLen + ahead.toNat) data,
               ooo := l ++ [r] }

/-- One round of the join loop, for the first range that starts at or before `rcv_nxt`. -/
def joinRange (c : Conn) (i : ℕ) (r : Range) : Conn :=
  let gain := signedDiff r.stop c.rcvNxt
  if 0 < gain then
    { c with rxLen := c.rxLen + gain.toNat, rcvNxt := c.rcvNxt + UInt32.ofNat gain.toNat,
             ooo := swapRemove c.ooo i }
  else { c with ooo := swapRemove c.ooo i }

def oooJoinLoop : ℕ → Conn → Conn
  | 0, c => c
  | n + 1, c =>
    match c.ooo.findIdx? fun r => signedDiff r.start c.rcvNxt ≤ 0 with
    | none => c
    | some i =>
      match c.ooo[i]? with
      | none => c
      | some r => oooJoinLoop n (joinRange c i r)

def tcpOooJoin (c : Conn) : Conn := oooJoinLoop c.ooo.length c

/-! ## Receive path -/

/-- The `TCP_SYN_RCVD` part of `tcp_handle_packet`; an error is its early return. -/
def handleSynRcvd (c : Conn) (s : Segment) : Except (Conn × List Sent) Conn :=
  if s.flags.rst then
    .error ({ c with inUse := false, acceptPending := false, state := .closed }, [])
  else if s.flags.syn ∧ ¬ s.flags.ack then
    let c := { c with sndNxt := c.sndUna }
    .error ({ c with sndNxt := c.sndUna + 1 }, [tcpSendSegment c { syn := true, ack := true }])
  else if ¬ s.flags.ack ∨ s.ack ≠ c.sndNxt then .error (c, [])
  else .ok { c with sndUna := s.ack, state := .established }

/-- The `TCP_SYN_SENT` part: only a SYN with an ACK is answered. -/
def handleSynSent (c : Conn) (s : Segment) : Conn × List Sent :=
  if s.flags.syn ∧ s.flags.ack then
    let c := { c with rcvNxt := s.seq + 1, sndUna := s.ack,
                      sndNxt := if c.sndNxt < s.ack then s.ack else c.sndNxt,
                      state := .established }
    (c, [tcpSendSegment c { ack := true }])
  else (c, [])

def handleAck (c : Conn) (s : Segment) : Conn :=
  if s.flags.ack ∧ c.sndUna < s.ack then { c with sndUna := s.ack } else c

/-- The payload: in order into the stream, ahead of it into the kept ranges. -/
def handleData (c : Conn) (s : Segment) : Conn × List Sent :=
  if s.data = [] then (c, [])
  else if s.seq = c.rcvNxt then
    let copyLen := min s.data.length (tcpRxBufSize - c.rxLen)
    let c := tcpOooJoin
      { c with rxBuf := store c.rxBuf c.rxLen (s.data.take copyLen), rxLen := c.rxLen + copyLen,
               rcvNxt := c.rcvNxt + UInt32.ofNat copyLen }
    (c, [tcpSendSegment c { ack := true }])
  else
    let c := tcpOooStore c s.seq s.data
    (c, [tcpSendSegment c { ack := true }])

/-- The FIN, taken once every byte before it is in `rx_buf`. -/
def handleFin (c : Conn) (s : Segment) : Conn × List Sent :=
  if s.flags.fin ∧ s.seq + UInt32.ofNat s.data.length = c.rcvNxt then
    let c := { c with rcvNxt := c.rcvNxt + 1, remoteClosed := true }
    let sent := [tcpSendSegment c { ack := true }]
    match c.state with
    | .established => ({ c with state := .closeWait }, sent)
    | .finWait => ({ c with state := .closed }, sent)
    | _ => (c, sent)
  else if s.flags.ack ∧ c.state = .finWait ∧ c.sndUna = c.sndNxt then
    ({ c with state := .closed }, [])
  else (c, [])

/-- `tcp_handle_packet` from the RST check on. -/
def handleSynchronized (c : Conn) (s : Segment) : Conn × List Sent :=
  if s.flags.rst then ({ c with reset := true, state := .closed }, [])
  else if c.state = .synSent then handleSynSent c s
  else
    let (c, sent) := handleData (handleAck c s) s
    let (c, sent') := handleFin c s
    (c, sent ++ sent')

/-- `tcp_handle_packet` for a segment of connection `c` that arrives at time `now`. -/
def tcpHandlePacket (now : ℕ) (c : Conn) (s : Segment) : Conn × List Sent :=
  let c := { c with lastActivityMs := now }
  if c.state = .synRcvd then
    match handleSynRcvd c s with
    | .error r => r
    | .ok c => handleSynchronized c s
  else handleSynchronized c s

/-- `network_manager_poll`: the segments that have arrived, each with its time. -/
def poll (c : Conn) (arrived : List (ℕ × Segment)) : Conn :=
  arrived.foldl (fun c p => (tcpHandlePacket p.1 c p.2).1) c

/-- `tcp_recv`: the value returned, the bytes copied to the caller, the connection after. -/
def tcpRecv (c : Conn) (arrived : List (ℕ × Segment)) (maxlen : ℕ) : ℤ × List UInt8 × Conn :=
  if ¬ c.inUse then (-1, [], c)
  else
    let c := poll c arrived
    if c.rxLen = 0 then
      if c.remoteClosed ∨ c.reset then (-1, [], c) else (0, [], c)
    else
      let copyLen := min c.rxLen maxlen
      (copyLen, (List.range copyLen).map c.rxBuf,
        { c with rxBuf := copy c.rxBuf 0 copyLen (c.rxLen - copyLen + tcpOooExtent c),
                 rxLen := c.rxLen - copyLen })

/-! ## Opening -/

/-- The connection `tcp_connect` waits on, after `memset`. -/
def connecting (iss now : ℕ) : Conn where
  inUse := true
  state := .synSent
  sndNxt := UInt32.ofNat iss
  sndUna := UInt32.ofNat iss
  rcvNxt := 0
  rxBuf := fun _ => 0
  rxLen := 0
  ooo := []
  remoteClosed := false
  reset := false
  lastActivityMs := now
  acceptPending := false

end MinimalOS.Tcp
