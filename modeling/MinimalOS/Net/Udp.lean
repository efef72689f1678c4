import Mathlib

/-!
# The receive queue of a bound UDP port

A binding keeps the datagrams that arrive in a ring of eight slots until the process reads them. A
full ring gives up its oldest datagram, so the arriving side moves the reader's index too.
-/

namespace MinimalOS.Net

/-- A datagram and its sender. Of the bytes of a slot only the `len` written last are read. -/
structure Dgram where
  srcIp : UInt32
  srcPort : UInt16
  data : List UInt8

def Dgram.cut (n : ℕ) (d : Dgram) : Dgram := { d with data := d.data.take n }

structure Binding where
  inUse : Bool
  head : ℕ
  tail : ℕ
  count : ℕ
  dropped : UInt32
  ring : ℕ → Dgram

/-- What `udp_bind_port` makes of a free slot. -/
def bound : Binding := ⟨true, 0, 0, 0, 0, fun _ => ⟨0, 0, []⟩⟩

def dropOldest (b : Binding) : Binding :=
  if b.count = 8 then
    { b with tail := (b.tail + 1) % 8, count := b.count - 1, dropped := b.dropped + 1 }
  else b

def push (b : Binding) (d : Dgram) : Binding :=
  { b with
    ring := Function.update b.ring b.head (d.cut 1024)
    head := (b.head + 1) % 8
    count := b.count + 1 }

def udpEnqueue (b : Binding) (d : Dgram) : Binding :=
  if b.inUse then push (dropOldest b) d else b

/-- What is copied out for a buffer of `maxlen` bytes: nothing if no datagram waits. -/
def udpDequeue (b : Binding) (maxlen : ℕ) : Option Dgram × Binding :=
  if b.count = 0 then (none, b)
  else (some ((b.ring b.tail).cut maxlen),
    { b with tail := (b.tail + 1) % 8, count := b.count - 1 })

/-! ## Runs -/

inductive UdpCall
  | enqueue (d : Dgram)
  | dequeue (maxlen : ℕ)

/-- A binding with all that arrived and all that was read, each with the size of its buffer. -/
structure Port where
  binding : Binding
  arrived : List Dgram
  read : List (ℕ × Dgram)

def Port.call (p : Port) : UdpCall → Port
  | .enqueue d => { p with binding := udpEnqueue p.binding d, arrived := p.arrived ++ [d] }
  | .dequeue n => { p with
      binding := (udpDequeue p.binding n).2
      read := p.read ++ ((udpDequeue p.binding n).1.map (n, ·)).toList }

def udpRun (calls : List UdpCall) : Port := calls.foldl Port.call ⟨bound, [], []⟩

/-- The first arrival after the last one taken. -/
def firstUnread (taken : List ℕ) : ℕ := (taken.getLast?.map (· + 1)).getD 0

/-- The arrivals of these indices were read, and the ring has the newest of those after them. -/
structure Port.Kept (p : Port) (taken : List ℕ) : Prop where
  inUse : p.binding.inUse
  head : p.binding.head = p.arrived.length % 8
  tail : p.binding.tail = (p.arrived.length - p.binding.count) % 8
  count : p.binding.count = min 8 (p.arrived.length - firstUnread taken)
  unread : firstUnread taken ≤ p.arrived.length
  order : taken.Pairwise (· < ·)
  below : ∀ i ∈ taken, i < firstUnread taken
  queue : ∀ i (h : i < p.arrived.length), p.arrived.length - p.binding.count ≤ i →
    p.binding.ring (i % 8) = p.arrived[i].cut 1024
  read : taken.Forall₂ (fun i e => p.arrived[i]?.map (fun d => (d.cut 1024).cut e.1) = some e.2)
    p.read

variable {p : Port} {taken : List ℕ}

theorem Port.Kept.enqueue (h : p.Kept taken) (d : Dgram) : (p.call (.enqueue d)).Kept taken := by
  obtain ⟨huse, hhead, htail, hcount, hfirst, horder, hbelow, hqueue, hread⟩ := h
  rw [Port.call, udpEnqueue, if_pos huse]
  have hkept : ∀ (i : ℕ) (e : ℕ × Dgram),
      p.arrived[i]?.map (fun d => (d.cut 1024).cut e.1) = some e.2 →
      (p.arrived ++ [d])[i]?.map (fun d => (d.cut 1024).cut e.1) = some e.2 := by
    intro i e hie
    obtain ⟨a, ha, -⟩ := Option.map_eq_some_iff.1 hie
    rwa [List.getElem?_append_left (List.getElem?_eq_some_iff.1 ha).1]
  unfold push dropOldest
  split
  all_goals
    refine ⟨huse, ?_, ?_, ?_, ?_, horder, hbelow, fun i hi hle => ?_, hread.imp hkept⟩
    any_goals
      simp only [List.length_append, List.length_singleton]
      omega
    simp only [List.length_append, List.length_singleton] at hi hle
    rcases Nat.lt_or_ge i p.arrived.length with hlt | hge
    · have hne : i % 8 ≠ p.binding.head := by omega
      rw [List.getElem_append_left hlt, ← hqueue i hlt (by omega)]
      exact Function.update_of_ne hne _ _
    · obtain rfl : i = p.arrived.length := by omega
      rw [List.getElem_concat_length rfl, ← hhead]
      exact Function.update_self ..

/-- The datagram read is the oldest in the ring: those given up before it are never read. -/
theorem Port.Kept.dequeue (h : p.Kept taken) (hsome : p.binding.count ≠ 0) (m : ℕ) :
    (p.call (.dequeue m)).Kept (taken ++ [p.arrived.length - p.binding.count]) := by
  obtain ⟨huse, hhead, htail, hcount, hfirst, horder, hbelow, hqueue, hread⟩ := h
  have hnext : firstUnread (taken ++ [p.arrived.length - p.binding.count]) =
      p.arrived.length - p.binding.count + 1 := by simp [firstUnread]
  rw [Port.call, udpDequeue, if_neg hsome]
  refine ⟨huse, hhead, ?_, ?_, ?_, ?_, fun i hi => ?_, fun i hi hle => hqueue i hi ?_, ?_⟩
  any_goals
    dsimp only at *
    omega
  · refine List.pairwise_append.2 ⟨horder, List.pairwise_singleton _ _, fun i hi j hj => ?_⟩
    have := hbelow i hi
    rw [List.mem_singleton] at hj
    omega
  · rcases List.mem_append.1 hi with hi | hi
    · have := hbelow i hi
      omega
    · rw [List.mem_singleton] at hi
      omega
  · refine List.rel_append hread (.cons ?_ .nil)
    have hlt : p.arrived.length - p.binding.count < p.arrived.length := by omega
    rw [List.getElem?_eq_getElem hlt, htail, hqueue _ hlt le_rfl]
    rfl

theorem Port.Kept.call (h : p.Kept taken) (c : UdpCall) : ∃ taken', (p.call c).Kept taken' := by
  cases c with
  | enqueue d => exact ⟨taken, h.enqueue d⟩
  | dequeue m =>
    by_cases hn : p.binding.count = 0
    · rw [Port.call, udpDequeue, if_pos hn]
      exact ⟨taken, by simpa using h⟩
    · exact ⟨_, h.dequeue hn m⟩

theorem udpRun_kept (calls : List UdpCall) : ∃ taken, (udpRun calls).Kept taken := by
  induction calls using List.reverseRecOn with
  | nil => exact ⟨[], rfl, rfl, rfl, rfl, le_rfl, .nil, by simp, by simp [udpRun], .nil⟩
  | append_singleton calls c ih =>
    obtain ⟨taken, h⟩ := ih
    rw [udpRun, List.foldl_concat]
    exact h.call c

/-- **Order and contents of a UDP queue.** After any calls on a bound port, the datagrams read are
arrivals in order, each once, cut to the slot and the buffer; the ring has the newest eight of the
arrivals after the last one read, and another read returns the oldest of these. -/
theorem udpQueue_run (calls : List UdpCall) : ∃ taken p, udpRun calls = p ∧ p.Kept taken ∧
    ∀ n, (udpDequeue p.binding n).1 = if p.binding.count = 0 then none else
      p.arrived[p.arrived.length - p.binding.count]?.map fun d => (d.cut 1024).cut n := by
  obtain ⟨taken, h⟩ := udpRun_kept calls
  refine ⟨taken, _, rfl, h, fun n => ?_⟩
  unfold udpDequeue
  split
  · rfl
  · have hlt : (udpRun calls).arrived.length - (udpRun calls).binding.count <
        (udpRun calls).arrived.length := by have := h.count; omega
    rw [List.getElem?_eq_getElem hlt, h.tail, h.queue _ hlt le_rfl]
    rfl

/-- **No datagram is lost unnoticed.** Each was read, waits, or was counted as dropped; the counter
has 32 bits. -/
theorem udpRun_account (calls : List UdpCall) : (udpRun calls).arrived.length ≡
    (udpRun calls).read.length + (udpRun calls).binding.count +
      (udpRun calls).binding.dropped.toNat [MOD 2 ^ 32] := by
  induction calls using List.reverseRecOn with
  | nil => rfl
  | append_singleton calls c ih =>
    obtain ⟨taken, h⟩ := udpRun_kept calls
    rw [show udpRun (calls ++ [c]) = (udpRun calls).call c from List.foldl_concat ..]
    unfold Nat.ModEq at ih ⊢
    cases c with
    | enqueue d =>
      rw [Port.call, udpEnqueue, if_pos h.inUse]
      unfold push dropOldest
      split
      · simp only [List.length_append, List.length_singleton, UInt32.toNat_add, UInt32.toNat_one]
        omega
      · simp only [List.length_append, List.length_singleton]
        omega
    | dequeue n =>
      rw [Port.call, udpDequeue]
      split <;> simp <;> omega

end MinimalOS.Net
