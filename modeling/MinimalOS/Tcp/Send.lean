import MinimalOS.Tcp.Connection

/-!
# Acknowledgements

`tcp_send` transmits a buffer and waits for `snd_una` to move past it. `snd_una` is moved by
`tcp_handle_packet`, to any acknowledged number that is larger as an unsigned word. In the order of
sequence numbers that is right only while the acknowledgement and what was sent lie on the same
side of the wrap, and what `tcp_send` reports then was transmitted as long as nothing was sent
beyond `snd_nxt` before the call (`acks_right`).
-/

namespace MinimalOS.Tcp

open SerialNumber

abbrev tcpSegSize : ℕ := 1024
abbrev tcpSendWindowSegs : ℕ := 4
abbrev tcpMaxRetries : ℕ := 6

/-! ## Sending -/

/-- The variables of a call of `tcp_send`, whether it is in its wait, and how many bytes it has
transmitted. -/
structure Call where
  base : UInt32
  len : ℕ
  sentOff : ℕ
  ackedOff : ℕ
  retries : ℕ
  waiting : Bool
  transmitted : ℕ

/-- The call goes on behind `d` acknowledged bytes. -/
def Call.progressed (k : Call) (d : ℕ) : Call :=
  { k with sentOff := max k.sentOff d, ackedOff := d, retries := 0, waiting := false }

/-- A connection with the end of what was ever sent on it, the call in progress, and for each call
that has returned what it reported and what it transmitted. -/
structure Sender where
  conn : Conn
  high : UInt32
  call : Option Call
  reports : List (ℕ × ℕ)

inductive SendEvent
  /-- `tcp_handle_packet` -/
  | arrive (now : ℕ) (s : Segment)
  /-- a call of `tcp_send` -/
  | send (len : UInt32)
  /-- one round of the loop that fills the window, and whether `tcp_send_segment` succeeds -/
  | segment (ok : Bool)
  /-- the check behind `network_manager_poll` -/
  | look
  /-- `TCP_RETRANSMIT_MS` have passed -/
  | timeout

namespace Sender

def finish (σ : Sender) (k : Call) : Sender :=
  { σ with conn := { σ.conn with sndNxt := k.base + UInt32.ofNat k.ackedOff }, call := none,
           reports := (k.ackedOff, k.transmitted) :: σ.reports }

def fill (σ : Sender) (k : Call) (ok : Bool) : Sender :=
  if k.sentOff < k.len ∧ k.sentOff - k.ackedOff < tcpSegSize * tcpSendWindowSegs then
    let sentOff := k.sentOff + min (k.len - k.sentOff) tcpSegSize
    let stop := k.base + UInt32.ofNat sentOff
    let conn := { σ.conn with sndNxt := k.base + UInt32.ofNat k.sentOff }
    if ok then
      { σ with conn := conn, high := if 0 < signedDiff stop σ.high then stop else σ.high,
               call := some { k with sentOff := sentOff, transmitted := max k.transmitted sentOff } }
    else { σ with conn := conn, call := some { k with waiting := true } }
  else { σ with call := some { k with waiting := true } }

def look (σ : Sender) (k : Call) : Sender :=
  let d := min (signedDiff σ.conn.sndUna k.base).toNat k.len
  if k.ackedOff < d then
    if d < k.len then { σ with call := some (k.progressed d) } else σ.finish (k.progressed d)
  else if σ.conn.reset ∨ σ.conn.state = .closed then σ.finish k
  else σ

def timeout (σ : Sender) (k : Call) : Sender :=
  if tcpMaxRetries ≤ k.retries + 1 then σ.finish k
  else { σ with call := some { k with sentOff := k.ackedOff, retries := k.retries + 1,
                                      waiting := false } }

/-- A step of the call in progress, in its wait or outside of it. -/
def during (σ : Sender) (waiting : Bool) (f : Sender → Call → Sender) : Sender :=
  match σ.call with
  | some k => if k.waiting = waiting then f σ k else σ
  | none => σ

/-- A call that returns at once, with -1 or 0, changes nothing. -/
def step (σ : Sender) : SendEvent → Sender
  | .arrive now s => { σ with conn := (tcpHandlePacket now σ.conn s).1 }
  | .send len =>
    if σ.call.isNone ∧ σ.conn.inUse ∧ σ.conn.state = .established ∧ len ≠ 0 then
      { σ with call := some ⟨σ.conn.sndNxt, len.toNat, 0, 0, 0, false, 0⟩ }
    else σ
  | .segment ok => σ.during false (·.fill · ok)
  | .look => σ.during true look
  | .timeout => σ.during true timeout

def run (σ : Sender) (es : List SendEvent) : Sender := es.foldl step σ

end Sender

/-! ## The acknowledged number -/

/-- What of a connection only its acknowledgements and its closing change. -/
def Conn.line (c : Conn) : UInt32 × UInt32 × TcpState := (c.sndUna, c.sndNxt, c.state)

theorem oooJoinLoop_line (n : ℕ) (c : Conn) : (oooJoinLoop n c).line = c.line := by
  induction n generalizing c with
  | zero => rfl
  | succ n ih =>
    unfold oooJoinLoop
    split
    · rfl
    · split
      · rfl
      · rw [ih, joinRange]
        split <;> rfl

theorem handleData_line (c : Conn) (s : Segment) : (handleData c s).1.line = c.line := by
  unfold handleData
  split_ifs
  · rfl
  · exact oooJoinLoop_line _ _
  · unfold tcpOooStore
    dsimp only
    split_ifs <;> rfl

def Conn.Open (c : Conn) : Prop := c.state ≠ .synSent ∧ c.state ≠ .synRcvd

theorem handleFin_line (c : Conn) (s : Segment) : (handleFin c s).1.sndUna = c.sndUna ∧
    (handleFin c s).1.sndNxt = c.sndNxt ∧ (c.Open → (handleFin c s).1.Open) := by
  unfold handleFin Conn.Open
  split_ifs
  · dsimp only
    split <;> simp_all
  · simp
  · simp

theorem tcpHandlePacket_line {c : Conn} (hopen : c.Open) (now : ℕ) (s : Segment) :
    (tcpHandlePacket now c s).1.sndUna =
        (if s.flags.rst = false ∧ s.flags.ack ∧ c.sndUna < s.ack then s.ack else c.sndUna) ∧
      (tcpHandlePacket now c s).1.sndNxt = c.sndNxt ∧ (tcpHandlePacket now c s).1.Open := by
  unfold tcpHandlePacket handleSynchronized
  rw [if_neg hopen.2]
  rcases hrst : s.flags.rst with _ | _
  · rw [if_neg Bool.false_ne_true, if_neg hopen.1]
    have hack : (handleAck { c with lastActivityMs := now } s).line =
        (if s.flags.ack ∧ c.sndUna < s.ack then s.ack else c.sndUna, c.sndNxt, c.state) := by
      unfold handleAck
      split <;> rfl
    have hline := (handleData_line _ s).trans hack
    simp only [Conn.line, Prod.mk.injEq] at hline
    obtain ⟨huna, hnxt, hstate⟩ := hline
    obtain ⟨hfinUna, hfinNxt, hfinOpen⟩ :=
      handleFin_line (handleData (handleAck { c with lastActivityMs := now } s) s).1 s
    refine ⟨hfinUna.trans ?_, hfinNxt.trans hnxt, hfinOpen ?_⟩
    · simpa using huna
    · rw [Conn.Open, hstate]
      exact hopen
  · exact ⟨rfl, rfl, by simp [Conn.Open]⟩

/-- `ack` lies after `una` and not after `high`, counted from `una` on. -/
def Acceptable (una high ack : UInt32) : Prop := ack ≠ una ∧ offset una ack ≤ offset una high

instance (una high ack : UInt32) : Decidable (Acceptable una high ack) :=
  inferInstanceAs (Decidable (_ ∧ _))

theorem acceptable_iff (una high ack : UInt32) : Acceptable una high ack ↔
    if una ≤ high then una < ack ∧ ack ≤ high else una < ack ∨ ack ≤ high := by
  have := high.toNat_lt
  have := ack.toNat_lt
  rw [Acceptable, Ne, ← UInt32.toNat_inj, offset_eq, offset_eq]
  simp only [UInt32.le_iff_toNat_le, UInt32.lt_iff_toNat_lt]
  split_ifs <;> omega

theorem Acceptable.offset_le {una high ack base : UInt32} (h : Acceptable una high ack)
    (hle : offset base una ≤ offset base high) :
    offset base una ≤ offset base ack ∧ offset base ack ≤ offset base high := by
  have h := h.2
  have := una.toNat_lt
  have := base.toNat_lt
  simp only [offset_eq] at *
  omega

/-- Unless the segment resets the connection, its acknowledgement does not lie beyond `high` or,
when what is unacknowledged wraps, lies before the wrap. -/
def AckFits (una high : UInt32) (s : Segment) : Prop :=
  if s.flags.rst then ¬ Acceptable una high s.ack
  else if una ≤ high then s.ack ≤ high else high < s.ack

instance (una high : UInt32) (s : Segment) : Decidable (AckFits una high s) :=
  inferInstanceAs (Decidable (ite _ _ _))

theorem handled_ack_iff (now : ℕ) {c : Conn} {s : Segment} (high : UInt32) (hopen : c.Open)
    (hack : s.flags.ack) :
    (tcpHandlePacket now c s).1.sndUna =
        (if Acceptable c.sndUna high s.ack then s.ack else c.sndUna) ↔ AckFits c.sndUna high s := by
  -- two choices between one pair agree if their conditions do, or if the pair is one
  have hsame : ∀ (p q : Prop) [Decidable p] [Decidable q],
      ((if p then s.ack else c.sndUna) = if q then s.ack else c.sndUna) ↔
        (p ↔ q) ∨ s.ack = c.sndUna := fun p q _ _ => by
    split_ifs with hp hq hq <;> simp [hp, hq, eq_comm]
  rw [(tcpHandlePacket_line hopen _ _).1, hsame, AckFits]
  rcases hrst : s.flags.rst with _ | _
  · have hplain : (false = false ∧ s.flags.ack = true ∧ c.sndUna < s.ack) ↔ c.sndUna < s.ack :=
      ⟨fun h => h.2.2, fun h => ⟨rfl, hack, h⟩⟩
    rw [if_neg Bool.false_ne_true, hplain, acceptable_iff, ← UInt32.toNat_inj]
    simp only [UInt32.le_iff_toNat_le, UInt32.lt_iff_toNat_lt]
    split_ifs <;> omega
  · have hno : ¬ (true = false ∧ s.flags.ack = true ∧ c.sndUna < s.ack) := fun h => nomatch h.1
    rw [iff_false_left hno]
    exact or_iff_left_of_imp fun h hacc => hacc.1 h

/-! ## Runs -/

/-- What is acknowledged was transmitted, and what `tcp_send` takes for acknowledged is. -/
structure Call.Good (k : Call) (una high : UInt32) : Prop where
  len_lt : k.len < 2 ^ 31
  sent_le : k.sentOff ≤ k.transmitted
  transmitted_le : k.transmitted ≤ k.len
  high_eq : offset k.base high = k.transmitted
  una_le : offset k.base una ≤ k.transmitted
  acked_le : k.ackedOff ≤ offset k.base una

theorem Call.Good.progressed {k : Call} {una high : UInt32} (hk : k.Good una high) {d : ℕ}
    (hd : d ≤ offset k.base una) : (k.progressed d).Good una high :=
  ⟨hk.len_lt, max_le hk.sent_le (hd.trans hk.una_le), hk.transmitted_le, hk.high_eq, hk.una_le, hd⟩

/-- The difference that `tcp_send` takes is the acknowledged offset. -/
theorem Call.Good.signedDiff_toNat {k : Call} {una high : UInt32} (hk : k.Good una high) :
    (signedDiff una k.base).toNat = offset k.base una := by
  obtain ⟨hlen, -, htr, -, huna, -⟩ := hk
  rw [signedDiff_eq k.base (by rw [offset_self]; omega) (by rw [offset_self]; omega), offset_self]
  omega

structure Sender.Good (σ : Sender) : Prop where
  isOpen : σ.conn.Open
  idle : σ.call = none → offset σ.conn.sndNxt σ.conn.sndUna ≤ offset σ.conn.sndNxt σ.high
  busy : ∀ k, σ.call = some k → k.Good σ.conn.sndUna σ.high
  reports : ∀ r ∈ σ.reports, r.1 ≤ r.2

/-- The condition on a step: a segment that acknowledges fits, and `tcp_send` is called when
nothing was sent beyond `snd_nxt`. -/
def Sender.Meets (σ : Sender) : SendEvent → Prop
  | .arrive _ s => s.flags.ack → AckFits σ.conn.sndUna σ.high s
  | .send len => σ.high = σ.conn.sndNxt ∧ len < 2 ^ 31
  | _ => True

def Sender.Allowed (σ : Sender) : List SendEvent → Prop
  | [] => True
  | e :: es => σ.Meets e ∧ (σ.step e).Allowed es

namespace Sender

variable {σ : Sender} {k : Call}

theorem good_finish (h : σ.Good) (hk : k.Good σ.conn.sndUna σ.high) : (σ.finish k).Good where
  isOpen := h.isOpen
  idle _ := by
    obtain ⟨hlen, -, htr, hhigh, huna, hacked⟩ := hk
    have hbase : offset k.base (k.base + UInt32.ofNat k.ackedOff) = k.ackedOff := by
      rw [offset_add (by rw [offset_self]; omega), offset_self, Nat.zero_add]
    have hle : ∀ a, k.ackedOff ≤ offset k.base a →
        offset (k.base + UInt32.ofNat k.ackedOff) a = offset k.base a - k.ackedOff := fun a ha => by
      rw [offset_offset k.base (by omega), hbase]
    show offset (k.base + UInt32.ofNat k.ackedOff) σ.conn.sndUna ≤
      offset (k.base + UInt32.ofNat k.ackedOff) σ.high
    rw [hle _ hacked, hle _ (by omega)]
    omega
  busy _ := nofun
  reports := List.forall_mem_cons.mpr ⟨hk.acked_le.trans hk.una_le, h.reports⟩

theorem good_call {k' : Call} {conn : Conn} {high : UInt32} (h : σ.Good) (hopen : conn.Open)
    (hk : k'.Good conn.sndUna high) :
    ({ σ with conn := conn, high := high, call := some k' } : Sender).Good :=
  ⟨hopen, nofun, fun _ heq => Option.some.inj heq ▸ hk, h.reports⟩

theorem good_fill (h : σ.Good) (hk : k.Good σ.conn.sndUna σ.high) (ok : Bool) :
    (σ.fill k ok).Good := by
  obtain ⟨hlen, hsent, htr, hhigh, huna, hacked⟩ := hk
  unfold fill
  split_ifs with hroom hok
  · set sentOff := k.sentOff + min (k.len - k.sentOff) tcpSegSize with hdef
    have hstop : offset k.base (k.base + UInt32.ofNat sentOff) = sentOff := by
      rw [offset_add (by rw [offset_self]; omega), offset_self, Nat.zero_add]
    refine good_call h h.isOpen ⟨hlen, le_max_right _ _, by simp only; omega, ?_, by simp only; omega,
      hacked⟩
    rw [signedDiff_eq k.base (by omega) (by omega), hstop, hhigh]
    simp only
    split_ifs <;> omega
  all_goals exact good_call h h.isOpen ⟨hlen, hsent, htr, hhigh, huna, hacked⟩

theorem good_look (h : σ.Good) (hk : k.Good σ.conn.sndUna σ.high) : (σ.look k).Good := by
  have hd := hk.progressed (min_le_left (offset k.base σ.conn.sndUna) k.len)
  unfold look
  rw [hk.signedDiff_toNat]
  dsimp only
  split_ifs
  · exact good_call h h.isOpen hd
  · exact good_finish h hd
  · exact good_finish h hk
  · exact h

theorem good_timeout (h : σ.Good) (hk : k.Good σ.conn.sndUna σ.high) : (σ.timeout k).Good := by
  have ⟨hlen, hsent, htr, hhigh, huna, hacked⟩ := hk
  unfold timeout
  split_ifs
  · exact good_finish h hk
  · exact good_call h h.isOpen ⟨hlen, hacked.trans huna, htr, hhigh, huna, hacked⟩

theorem good_during (h : σ.Good) {f : Sender → Call → Sender} (waiting : Bool)
    (hf : ∀ k, k.Good σ.conn.sndUna σ.high → (f σ k).Good) : (σ.during waiting f).Good := by
  unfold during
  split
  · rename_i k hcall
    split
    · exact hf k (h.busy k hcall)
    · exact h
  · exact h

theorem good_arrive (h : σ.Good) (now : ℕ) (s : Segment)
    (hfits : s.flags.ack → AckFits σ.conn.sndUna σ.high s) : (σ.step (.arrive now s)).Good := by
  obtain ⟨huna, hnxt, hopen⟩ := tcpHandlePacket_line h.isOpen now s
  -- `snd_una` stays, or moves to a number that lies between it and `high`
  have hmoved : (tcpHandlePacket now σ.conn s).1.sndUna = σ.conn.sndUna ∨
      Acceptable σ.conn.sndUna σ.high (tcpHandlePacket now σ.conn s).1.sndUna := by
    by_cases hack : s.flags.ack
    · rw [(handled_ack_iff now σ.high h.isOpen hack).mpr (hfits hack)]
      split_ifs with hacc
      · exact Or.inr hacc
      · exact Or.inl rfl
    · exact Or.inl (huna.trans (if_neg fun hall => hack hall.2.1))
  have hbetween : ∀ base, offset base σ.conn.sndUna ≤ offset base σ.high →
      offset base σ.conn.sndUna ≤ offset base (tcpHandlePacket now σ.conn s).1.sndUna ∧
        offset base (tcpHandlePacket now σ.conn s).1.sndUna ≤ offset base σ.high := fun base hle => by
    rcases hmoved with heq | hacc
    · rw [heq]
      exact ⟨le_rfl, hle⟩
    · exact hacc.offset_le hle
  refine ⟨hopen, fun hcall => ?_, fun k hcall => ?_, h.reports⟩
  · rw [step, hnxt]
    exact (hbetween _ (h.idle hcall)).2
  · obtain ⟨hlen, hsent, htr, hhigh, huna, hacked⟩ := h.busy k hcall
    have hk := hbetween k.base (by omega)
    exact ⟨hlen, hsent, htr, hhigh, by rw [← hhigh]; exact hk.2, hacked.trans hk.1⟩

theorem good_send (h : σ.Good) (len : UInt32) (hmeets : σ.Meets (.send len)) :
    (σ.step (.send len)).Good := by
  obtain ⟨hhigh, hlen⟩ := hmeets
  rw [step]
  split_ifs with hstart
  · have hidle := h.idle (Option.isNone_iff_eq_none.mp hstart.1)
    rw [hhigh, offset_self] at hidle
    exact good_call h h.isOpen ⟨UInt32.lt_iff_toNat_lt.mp hlen, le_rfl, Nat.zero_le _,
      by rw [hhigh, offset_self], hidle, Nat.zero_le _⟩
  · exact h

theorem good_step (h : σ.Good) (e : SendEvent) (hmeets : σ.Meets e) : (σ.step e).Good := by
  cases e with
  | arrive now s => exact good_arrive h now s hmeets
  | send len => exact good_send h len hmeets
  | segment ok => exact good_during (f := fun σ k => σ.fill k ok) h _ fun k hk => good_fill h hk ok
  | look => exact good_during h _ fun k hk => good_look h hk
  | timeout => exact good_during h _ fun k hk => good_timeout h hk

theorem good_run (h : σ.Good) {es : List SendEvent} (hes : σ.Allowed es) : (σ.run es).Good := by
  induction es generalizing σ with
  | nil => exact h
  | cons e es ih => exact ih (good_step h e hes.1) hes.2

theorem look_progress (hk : k.Good σ.conn.sndUna σ.high)
    (hmore : k.ackedOff < offset k.base σ.conn.sndUna) :
    (∃ k', (σ.look k).call = some k' ∧ k'.ackedOff = offset k.base σ.conn.sndUna) ∨
      offset k.base σ.conn.sndUna = k.len ∧
        (σ.look k).reports = (k.len, k.transmitted) :: σ.reports := by
  have hle := hk.una_le.trans hk.transmitted_le
  unfold look
  rw [hk.signedDiff_toNat, min_eq_left hle, if_pos hmore]
  split_ifs with hrest
  · exact Or.inl ⟨_, rfl, rfl⟩
  · have hall := le_antisymm hle (not_lt.mp hrest)
    exact Or.inr ⟨hall, by rw [finish, Call.progressed, hall]⟩

/-- **Acknowledgements.** In every state that a run reaches whose steps all meet the condition, no
call of `tcp_send` has reported a byte that it did not transmit, `snd_una` follows exactly the
acceptable acknowledgements if the next one fits, and such a one carries the call in its wait on. -/
theorem acks_right (c : Conn) (high : UInt32) (hstate : c.state = .established)
    (huna : offset c.sndNxt c.sndUna ≤ offset c.sndNxt high) (es : List SendEvent)
    (hes : Allowed ⟨c, high, none, []⟩ es) :
    (∀ r ∈ (run ⟨c, high, none, []⟩ es).reports, r.1 ≤ r.2) ∧
      ∀ now (s : Segment), s.flags.ack →
        let σ := run ⟨c, high, none, []⟩ es
        ((tcpHandlePacket now σ.conn s).1.sndUna =
            (if Acceptable σ.conn.sndUna σ.high s.ack then s.ack else σ.conn.sndUna) ↔
          AckFits σ.conn.sndUna σ.high s) ∧
        ∀ k, σ.call = some k → k.waiting → AckFits σ.conn.sndUna σ.high s →
          Acceptable σ.conn.sndUna σ.high s.ack → k.ackedOff < offset k.base s.ack →
          let σ' := σ.run [.arrive now s, .look]
          (∃ k', σ'.call = some k' ∧ k'.ackedOff = offset k.base s.ack) ∨
            offset k.base s.ack = k.len ∧ σ'.reports = (k.len, k.transmitted) :: σ.reports := by
  have hstart : Good ⟨c, high, none, []⟩ :=
    ⟨by rw [Conn.Open, hstate]; decide, fun _ => huna, nofun, nofun⟩
  have hgood := good_run hstart hes
  refine ⟨hgood.reports, fun now s hack => ?_⟩
  generalize run ⟨c, high, none, []⟩ es = σ at hgood
  have hiff := handled_ack_iff now σ.high hgood.isOpen hack
  refine ⟨hiff, fun k hcall hwait hfits hacc hmore => ?_⟩
  have hat : (tcpHandlePacket now σ.conn s).1.sndUna = s.ack :=
    (hiff.mpr hfits).trans (if_pos hacc)
  have hk := (good_arrive hgood now s fun _ => hfits).busy k hcall
  have hlook : σ.run [.arrive now s, .look] = (σ.step (.arrive now s)).look k := by
    show (σ.step (.arrive now s)).during true look = _
    rw [during, step, hcall]
    exact if_pos hwait
  have hprogress := look_progress hk
  rw [step, hat] at hprogress
  rw [hlook]
  exact hprogress hmore

end Sender

def idleConn (una : UInt32) : Conn :=
  { connecting 0 0 with state := .established, sndUna := una, sndNxt := una }

def ackSegment (ack : UInt32) : Segment := ⟨0, ack, { ack := true }, []⟩

def idleSender : Sender := ⟨idleConn 1000, 1000, none, []⟩

def tenBytes : List SendEvent :=
  [.send 10, .segment true, .segment true, .arrive 0 (ackSegment 1010), .look]

theorem acks_right_ten : (idleSender.run tenBytes).reports = [(10, 10)] ∧
    ∀ r ∈ (idleSender.run tenBytes).reports, r.1 ≤ r.2 :=
  ⟨by decide +kernel, (Sender.acks_right (idleConn 1000) 1000 rfl le_rfl tenBytes
    ⟨⟨rfl, by decide⟩, trivial, trivial, fun _ => by decide +kernel, trivial, trivial⟩).1⟩

/-- An acknowledgement of bytes that were not sent is taken, and `tcp_send` reports ten bytes of
which it could transmit none. One behind the wrap is not taken. -/
theorem wrong_acks :
    (tcpHandlePacket 0 (idleConn 1000) (ackSegment 1010)).1.sndUna ≠
        (if Acceptable 1000 1000 1010 then 1010 else 1000) ∧
      (idleSender.run [.send 10, .segment false, .arrive 0 (ackSegment 1010), .look]).reports =
        [(10, 0)] ∧
      (tcpHandlePacket 0 (idleConn 0xFFFFFF00) (ackSegment 0x10)).1.sndUna ≠
        (if Acceptable 0xFFFFFF00 0x100 0x10 then 0x10 else 0xFFFFFF00) := by
  decide +kernel

/-- The condition on a call is needed. Ten bytes are sent in vain six times, and their
acknowledgement comes in during the next call, which reports them and transmits nothing. -/
example : (idleSender.run ([.send 10, .segment true] ++
    (List.replicate 6 [.segment false, .timeout]).flatten ++
      [.send 10, .segment false, .arrive 0 (ackSegment 1010), .look])).reports =
    [(10, 0), (0, 10)] := by
  decide +kernel

end MinimalOS.Tcp
