import MinimalOS.Lib.StreamWindow
import MinimalOS.Tcp.Connection

/-!
# Reassembly

The peer sends one byte stream, whose position `0` has the sequence number `base`. A sequence
number is read as its offset from `base`, so a kept range is a span of stream positions and the
signed comparisons of the merge and join loops are comparisons of positions.

`Receiving` relates a connection to the stream: `d` bytes have been read, `rx_buf` holds the
next `rx_len` of them, and every kept range holds its part of the stream at its final place.
Positions stay below `2 ^ 31`, which is what the signed comparisons need.
-/

namespace MinimalOS.Tcp

open ByteMem SerialNumber StreamWindow List Bool

/-! ## Ranges as spans of the stream -/

def Range.span (base : UInt32) (r : Range) : ℕ × ℕ := (offset base r.start, offset base r.stop)

/-- The range keeps bytes `lo` or later of the stream, in place and within the buffer. -/
structure Kept (stream : List UInt8) (base : UInt32) (d : ℕ) (buf : Mem) (lo : ℕ) (r : Range) :
    Prop where
  lo_le : lo ≤ (r.span base).1
  lt : (r.span base).1 < (r.span base).2
  held : Holds stream d buf (r.span base).1 (r.span base).2
  room : (r.span base).2 ≤ d + tcpRxBufSize

def Apart (base : UInt32) (r r' : Range) : Prop := ¬ Touch (r.span base) (r'.span base)

variable {r : Range} {l : List Range}

theorem Apart.symm {base : UInt32} {r' : Range} (h : Apart base r r') : Apart base r' r :=
  fun ht => h ht.symm

section

variable {stream : List UInt8} {base : UInt32} {d lo : ℕ} {buf : Mem} {r r' : Range}
  (hlen : stream.length < 2 ^ 31)

theorem Kept.le_length (h : Kept stream base d buf lo r) : (r.span base).2 ≤ stream.length :=
  h.held.le_length h.lt

include hlen

section

variable (h : Kept stream base d buf lo r) (h' : Kept stream base d buf lo r')

include h h'

theorem touches_iff : r.Touches r' ↔ Touch (r.span base) (r'.span base) := by
  have hb := h.le_length
  have hb' := h'.le_length
  have hlt := h.lt
  have hlt' := h'.lt
  unfold Range.Touches Touch Range.span at *
  rw [signedDiff_eq base (by omega) (by omega),
    signedDiff_eq base (by omega) (by omega)]
  omega

theorem span_widen : (r.widen r').span base = hull (r.span base) (r'.span base) := by
  have hb := h.le_length
  have hb' := h'.le_length
  have hlt := h.lt
  have hlt' := h'.lt
  unfold Range.widen hull Range.span at *
  rw [signedDiff_eq base (by omega) (by omega),
    signedDiff_eq base (by omega) (by omega)]
  apply Prod.ext
  · dsimp only; split <;> omega
  · dsimp only; split <;> omega

theorem Kept.widen (ht : r.Touches r') : Kept stream base d buf lo (r.widen r') := by
  have hs := span_widen hlen h h'
  have hT := (touches_iff hlen h h').mp ht
  have hlt := h.lt
  have hroom := h.room
  have hroom' := h'.room
  have hlo := h.lo_le
  have hlo' := h'.lo_le
  unfold Touch at hT
  unfold hull at hs
  refine ⟨?_, ?_, ?_, ?_⟩
  · rw [hs]; exact le_min hlo hlo'
  · rw [hs]; exact lt_max_of_lt_left (min_lt_of_left_lt hlt)
  · rw [hs]
    intro k hk hk'
    -- a position of the hull lies in one of the two spans, since they touch
    by_cases hin : (r.span base).1 ≤ k ∧ k < (r.span base).2
    · exact h.held k hin.1 hin.2
    · exact h'.held k (by omega) (by omega)
  · rw [hs]; exact max_le hroom hroom'

end

end

/-! ## Removing a slot -/

theorem perm_swapRemove {i : ℕ} (h : l[i]? = some r) : l.Perm (r :: swapRemove l i) := by
  obtain ⟨hi, rfl⟩ := List.getElem?_eq_some_iff.mp h
  obtain ⟨init, x, rfl⟩ := List.eq_nil_or_concat' l |>.resolve_left (by rintro rfl; simp at hi)
  have hrm : swapRemove (init ++ [x]) i = ((init ++ [x]).set i x).dropLast := by
    unfold swapRemove
    rw [List.getLast?_append_of_ne_nil _ (by simp)]
    rfl
  rw [hrm]
  rw [List.length_append, List.length_singleton] at hi
  rcases Nat.lt_or_ge i init.length with hlt | hge
  · rw [List.set_append_left _ _ hlt, List.dropLast_concat, List.getElem_append_left hlt]
    calc init ++ [x] ~ x :: init := List.perm_append_comm
      _ ~ x :: init[i] :: init.eraseIdx i :=
        (List.getElem_cons_eraseIdx_perm hlt).symm.cons x
      _ ~ init[i] :: x :: init.eraseIdx i := List.Perm.swap _ _ _
      _ ~ init[i] :: init.set i x := (List.set_perm_cons_eraseIdx hlt x).symm.cons _
  · obtain rfl : i = init.length := by omega
    simp

theorem getElem?_swapRemove {i j : ℕ} (hji : j < i) (h : (swapRemove l i)[j]? = some r) :
    l[j]? = some r := by
  unfold swapRemove at h
  split at h
  · exact h
  · rw [List.getElem?_dropLast] at h
    split at h
    · rwa [List.getElem?_set_ne (by omega)] at h
    · cases h

/-! ## The merge loop -/

section Merge

variable {stream : List UInt8} {base : UInt32} {d lo : ℕ} {buf : Mem}
  (hlen : stream.length < 2 ^ 31)

/-- What the merge loop returns: ranges it was given, apart from each other and from the merged
range. -/
structure Merged (stream : List UInt8) (base : UInt32) (d : ℕ) (buf : Mem) (lo : ℕ)
    (l l' : List Range) (r : Range) : Prop where
  subset : ∀ x ∈ l', x ∈ l
  apart : l'.Pairwise (Apart base)
  length_le : l'.length ≤ l.length
  kept : Kept stream base d buf lo r
  clear : ∀ x ∈ l', Apart base x r

include hlen in
/-- Slots before `i` have been found apart from `r`; a merge keeps them so, because they are also
apart from the range merged into `r`. -/
theorem merged_mergeRanges : ∀ (n i : ℕ) (l : List Range) (r : Range), l.length ≤ i + n →
    (∀ x ∈ l, Kept stream base d buf lo x) → Kept stream base d buf lo r →
    l.Pairwise (Apart base) → (∀ j < i, ∀ x, l[j]? = some x → Apart base x r) →
    Merged stream base d buf lo l (mergeRanges n i l r).1 (mergeRanges n i l r).2 := by
  have finish : ∀ (i : ℕ) (l : List Range) (r : Range), l.length ≤ i →
      Kept stream base d buf lo r → l.Pairwise (Apart base) →
      (∀ j < i, ∀ x, l[j]? = some x → Apart base x r) → Merged stream base d buf lo l l r := by
    intro i l r hi hr hl hclear
    refine ⟨fun _ h => h, hl, le_rfl, hr, fun x hx => ?_⟩
    obtain ⟨j, hj, rfl⟩ := List.getElem_of_mem hx
    exact hclear j (by omega) _ (List.getElem?_eq_getElem hj)
  intro n
  induction n with
  | zero => exact fun i l r hn _ hr hl hclear => finish i l r hn hr hl hclear
  | succ n ih =>
    intro i l r hn hk hr hl hclear
    rw [mergeRanges]
    cases hi : l[i]? with
    | none => exact finish i l r (List.getElem?_eq_none_iff.mp hi) hr hl hclear
    | some r' =>
      have hr' := hk r' (List.mem_of_getElem? hi)
      have hperm := perm_swapRemove hi
      dsimp only
      split
      · rename_i htouch
        have hl' := (hperm.pairwise_iff Apart.symm).mp hl
        rw [List.pairwise_cons] at hl'
        have hsub : ∀ x ∈ swapRemove l i, x ∈ l := fun x hx =>
          hperm.mem_iff.mpr (List.mem_cons_of_mem _ hx)
        have hT := (touches_iff hlen hr hr').mp htouch
        have hcount := hperm.length_eq
        rw [List.length_cons] at hcount
        have hm := ih i (swapRemove l i) (r.widen r') (by omega) (fun x hx => hk x (hsub x hx))
          (hr.widen hlen hr' htouch) hl'.2 fun j hj x hx => by
            have hxr := hclear j hj x (getElem?_swapRemove hj hx)
            have hxr' := (hl'.1 x (List.mem_of_getElem? hx)).symm
            have hxk := hk x (hsub x (List.mem_of_getElem? hx))
            unfold Apart
            rw [span_widen hlen hr hr', touch_hull hT hxk.lt.le]
            exact fun h => h.elim hxr hxr'
        exact ⟨fun x hx => hsub x (hm.subset x hx), hm.apart, by have := hm.length_le; omega,
          hm.kept, hm.clear⟩
      · rename_i htouch
        refine ih (i + 1) l r (by omega) hk hr hl fun j hj x hx => ?_
        rcases Nat.lt_succ_iff_lt_or_eq.mp hj with hlt | rfl
        · exact hclear j hlt x hx
        · obtain rfl : r' = x := by rw [hi] at hx; exact Option.some.inj hx
          exact fun h => htouch ((touches_iff hlen hr hr').mpr h.symm)

end Merge

/-! ## The connection and the stream -/

/-- Connection `c` has handed `d` bytes of the stream to its reader. Kept ranges start at
position `lo` or later. -/
structure Receiving (stream : List UInt8) (base : UInt32) (d lo : ℕ) (c : Conn) : Prop where
  inUse : c.inUse = true
  synced : c.state ≠ .synSent ∧ c.state ≠ .synRcvd
  next : offset base c.rcvNxt = d + c.rxLen + c.remoteClosed.toNat
  held : Holds stream d c.rxBuf d (d + c.rxLen)
  le_length : d + c.rxLen ≤ stream.length
  room : c.rxLen ≤ tcpRxBufSize
  closed : c.remoteClosed → d + c.rxLen = stream.length ∧ c.ooo = []
  le_lo : d ≤ lo
  kept : ∀ r ∈ c.ooo, Kept stream base d c.rxBuf lo r
  apart : c.ooo.Pairwise (Apart base)
  few : c.ooo.length ≤ tcpOooRanges

/-- Between packets every kept range lies strictly past `rcv_nxt`. -/
abbrev Settled (stream : List UInt8) (base : UInt32) (d : ℕ) (c : Conn) : Prop :=
  Receiving stream base d (d + c.rxLen + 1) c

section Receive

variable {stream : List UInt8} {base : UInt32} {d : ℕ} {c : Conn}
  (hlen : stream.length < 2 ^ 31)

variable {lo : ℕ} {r : Range} {s : Segment}

theorem Receiving.next_of_open (h : Receiving stream base d lo c) (ho : c.remoteClosed = false) :
    offset base c.rcvNxt = d + c.rxLen := by
  rw [h.next, ho]; rfl

include hlen

/-- **Keeping a segment.** -/
theorem Settled.tcpOooStore (h : Settled stream base d c) {seq : UInt32} {data : List UInt8}
    (h0 : data ≠ []) (hs : IsSlice stream (offset base seq) data) :
    Settled stream base d (tcpOooStore c seq data) := by
  have hend := hs.le_length h0
  have hlen0 := List.length_pos_iff.mpr h0
  have hnext := h.next
  have hbool : c.remoteClosed.toNat ≤ 1 := toNat_le _
  have hle := h.le_length
  have hahead : signedDiff seq c.rcvNxt = (offset base seq : ℤ) - offset base c.rcvNxt :=
    signedDiff_eq base (by omega) (by omega)
  unfold Tcp.tcpOooStore
  dsimp only
  split
  · exact h
  · split
    · exact h
    · rename_i hpos hroom
      have hopen : c.remoteClosed = false := by
        rcases hc : c.remoteClosed with _ | _
        · rfl
        · have := (h.closed hc).1
          omega
      have hnext' := h.next_of_open hopen
      set new : Range := ⟨seq, seq + UInt32.ofNat data.length⟩ with hnew
      have hspan : new.span base = (offset base seq, offset base seq + data.length) := by
        rw [hnew, Range.span, offset_add (by omega)]
      have hplace : c.rxLen + (signedDiff seq c.rcvNxt).toNat = offset base seq - d := by omega
      rw [hplace]
      -- with the segment copied to its place, old and new ranges are kept alike
      set buf := store c.rxBuf (offset base seq - d) data with hbuf
      have hkept : ∀ x ∈ c.ooo, Kept stream base d buf (d + c.rxLen + 1) x := fun x hx =>
        { h.kept x hx with
          held := (h.kept x hx).held.store hs (by omega)
            (by have := (h.kept x hx).lo_le; omega) }
      have hkeptNew : Kept stream base d buf (d + c.rxLen + 1) new := by
        refine ⟨?_, ?_, ?_, ?_⟩ <;> rw [hspan]
        · dsimp only; omega
        · dsimp only; omega
        · exact holds_store _ hs (by omega)
        · dsimp only; omega
      have hm := merged_mergeRanges hlen c.ooo.length 0 c.ooo new (by omega) hkept hkeptNew h.apart
        (by omega)
      rcases hmr : mergeRanges c.ooo.length 0 c.ooo new with ⟨l, r⟩
      rw [hmr] at hm
      split
      · exact { h with
          closed := fun hc => absurd hc (by rw [hopen]; exact false_ne_true)
          kept := fun x hx => h.kept x (hm.subset x hx)
          apart := hm.apart
          few := hm.length_le.trans h.few }
      · rename_i hfew
        exact { h with
          held := h.held.store hs (by omega) le_rfl
          closed := fun hc => absurd hc (by rw [hopen]; exact false_ne_true)
          kept := fun x hx => by
            rcases List.mem_append.mp hx with hx | hx
            · exact hkept x (hm.subset x hx)
            · rw [List.mem_singleton.mp hx]; exact hm.kept
          apart := List.pairwise_append.mpr ⟨hm.apart, List.pairwise_singleton _ _, fun x hx y hy => by
            rw [List.mem_singleton.mp hy]; exact hm.clear x hx⟩
          few := by rw [List.length_append, List.length_singleton]; omega }

section

variable (h : Receiving stream base d lo c) (ho : c.remoteClosed = false) (hr : r ∈ c.ooo)

include h ho hr

theorem Receiving.signedDiff_start :
    signedDiff r.start c.rcvNxt = ((r.span base).1 : ℤ) - (d + c.rxLen : ℕ) := by
  have hk := h.kept r hr
  have hb := hk.le_length
  have hlt := hk.lt
  have hle := h.le_length
  have hnext := h.next_of_open ho
  unfold Range.span at *
  rw [signedDiff_eq base (by omega) (by omega), hnext]

theorem Receiving.signedDiff_stop :
    signedDiff r.stop c.rcvNxt = ((r.span base).2 : ℤ) - (d + c.rxLen : ℕ) := by
  have hb := (h.kept r hr).le_length
  have hle := h.le_length
  have hnext := h.next_of_open ho
  unfold Range.span at *
  rw [signedDiff_eq base (by omega) (by omega), hnext]

end

theorem Receiving.settled (h : Receiving stream base d d c) (ho : c.remoteClosed = false)
    (hfar : ∀ r ∈ c.ooo, ¬ signedDiff r.start c.rcvNxt ≤ 0) : Settled stream base d c :=
  { h with
    le_lo := by omega
    kept := fun r hr =>
      { h.kept r hr with
        lo_le := by
          have := hfar r hr
          rw [h.signedDiff_start hlen ho hr] at this
          omega } }

theorem Receiving.joinRange (h : Receiving stream base d d c) (ho : c.remoteClosed = false) {i : ℕ}
    (hi : c.ooo[i]? = some r) (hstart : signedDiff r.start c.rcvNxt ≤ 0) :
    Receiving stream base d d (joinRange c i r) ∧ (joinRange c i r).remoteClosed = false ∧
      (joinRange c i r).ooo.length + 1 = c.ooo.length := by
  have hmem := List.mem_of_getElem? hi
  have hperm := perm_swapRemove hi
  have hk := h.kept r hmem
  have hnext := h.next_of_open ho
  rw [h.signedDiff_start hlen ho hmem] at hstart
  have hgain := h.signedDiff_stop hlen ho hmem
  have hcount := hperm.length_eq
  rw [List.length_cons] at hcount
  have hsub : ∀ x ∈ swapRemove c.ooo i, x ∈ c.ooo := fun x hx =>
    hperm.mem_iff.mpr (List.mem_cons_of_mem _ hx)
  have hapart : (swapRemove c.ooo i).Pairwise (Apart base) :=
    (List.pairwise_cons.mp ((hperm.pairwise_iff Apart.symm).mp h.apart)).2
  have hfew : (swapRemove c.ooo i).length ≤ tcpOooRanges := by have := h.few; omega
  have hclosed : ∀ {p : Prop}, c.remoteClosed = true → p := fun hc =>
    absurd hc (by rw [ho]; exact false_ne_true)
  unfold Tcp.joinRange
  dsimp only
  split
  · rename_i hpos
    have hb := hk.le_length
    have hroom := hk.room
    have hstep : d + (c.rxLen + (signedDiff r.stop c.rcvNxt).toNat) = (r.span base).2 := by omega
    refine ⟨{ h with
      next := ?_, held := ?_, le_length := by dsimp only; omega, room := by dsimp only; omega,
      closed := hclosed, kept := fun x hx => h.kept x (hsub x hx), apart := hapart,
      few := hfew }, ho, by dsimp only; omega⟩
    · dsimp only
      rw [offset_add (by omega), hnext, ho]
      exact Nat.add_assoc _ _ _
    · dsimp only
      rw [hstep]
      exact h.held.trans hk.held (by omega)
  · exact ⟨{ h with
      closed := hclosed, kept := fun x hx => h.kept x (hsub x hx), apart := hapart,
      few := hfew }, ho, by dsimp only; omega⟩

theorem settled_oooJoinLoop : ∀ (n : ℕ) (c : Conn), c.ooo.length ≤ n → c.remoteClosed = false →
    Receiving stream base d d c → Settled stream base d (oooJoinLoop n c) := by
  intro n
  induction n with
  | zero =>
    intro c hn ho h
    have hempty := List.eq_nil_of_length_eq_zero (Nat.le_zero.mp hn)
    rw [oooJoinLoop]
    exact h.settled hlen ho fun r hr => absurd hr (by rw [hempty]; exact List.not_mem_nil)
  | succ n ih =>
    intro c hn ho h
    rw [oooJoinLoop]
    cases hf : c.ooo.findIdx? fun r => signedDiff r.start c.rcvNxt ≤ 0 with
    | none =>
      refine h.settled hlen ho fun r hr => ?_
      have := List.findIdx?_eq_none_iff.mp hf r hr
      exact of_decide_eq_false this
    | some i =>
      obtain ⟨hi, hp, -⟩ := List.findIdx?_eq_some_iff_getElem.mp hf
      dsimp only
      rw [List.getElem?_eq_getElem hi]
      obtain ⟨h', ho', hc'⟩ :=
        h.joinRange hlen ho (List.getElem?_eq_getElem hi) (of_decide_eq_true hp)
      exact ih _ (by omega) ho' h'

/-- **The payload of a segment.** -/
theorem Settled.handleData (h : Settled stream base d c)
    (hs : IsSlice stream (offset base s.seq) s.data) :
    Settled stream base d (handleData c s).1 := by
  unfold Tcp.handleData
  split
  · exact h
  rename_i h0
  split
  · rename_i hseq
    have hend := hs.le_length h0
    have hlen0 := List.length_pos_iff.mpr h0
    rw [hseq] at hs hend
    have hnext := h.next
    have hopen : c.remoteClosed = false := by
      rcases hc : c.remoteClosed with _ | _
      · rfl
      · have := (h.closed hc).1
        omega
    have hnext' := h.next_of_open hopen
    rw [hnext'] at hs hend
    set n := min s.data.length (tcpRxBufSize - c.rxLen) with hn
    have hsn := hs.take n
    have hlenTake : (s.data.take n).length = n := by rw [List.length_take]; omega
    have hroom := h.room
    have hplace : c.rxLen = d + c.rxLen - d := by omega
    have hstored := holds_store c.rxBuf hsn (Nat.le_add_right d c.rxLen)
    rw [← hplace, hlenTake] at hstored
    refine settled_oooJoinLoop hlen _ _ le_rfl hopen
      { h with
        next := ?_
        held := ?_
        le_length := by dsimp only; omega
        room := by dsimp only; omega
        closed := fun hc => absurd hc (by rw [hopen]; exact false_ne_true)
        le_lo := le_rfl
        kept := fun x hx => ?_ }
    · dsimp only
      rw [offset_add (by omega), hnext', hopen]
      exact Nat.add_assoc _ _ _
    · dsimp only
      have hold := h.held.store hsn (Nat.le_add_right d c.rxLen) le_rfl
      rw [← hplace] at hold
      rw [← Nat.add_assoc]
      exact hold.trans hstored le_rfl
    · have hx' := h.kept x hx
      have hlo := hx'.lo_le
      have hold := hx'.held.store hsn (Nat.le_add_right d c.rxLen) (by omega)
      rw [← hplace] at hold
      exact { hx' with lo_le := by omega, held := hold }
  · exact h.tcpOooStore hlen h0 hs

/-- **The FIN.** -/
theorem Settled.handleFin (h : Settled stream base d c)
    (hs : s.flags.fin → offset base s.seq + s.data.length = stream.length) :
    Settled stream base d (handleFin c s).1 := by
  unfold Tcp.handleFin
  split
  · rename_i hfin
    have hend := hs hfin.1
    have hnext := h.next
    rw [← hfin.2, offset_add (by omega)] at hnext
    -- a FIN taken before would have moved `rcv_nxt` past the end already
    have hopen : c.remoteClosed = false := by
      rcases hc : c.remoteClosed with _ | _
      · rfl
      · have := (h.closed hc).1
        rw [hc, toNat_true] at hnext
        omega
    rw [hopen, toNat_false] at hnext
    have hempty : c.ooo = [] := by
      apply List.eq_nil_iff_forall_not_mem.mpr
      intro x hx
      have h1 := (h.kept x hx).le_length
      have h2 := (h.kept x hx).lo_le
      have h3 := (h.kept x hx).lt
      omega
    have hnew : Settled stream base d { c with rcvNxt := c.rcvNxt + 1, remoteClosed := true } :=
      { h with
        next := by
          have hone : offset base (c.rcvNxt + UInt32.ofNat 1) = offset base c.rcvNxt + 1 :=
            offset_add (by rw [h.next_of_open hopen]; omega)
          rw [h.next_of_open hopen] at hone
          exact hone
        closed := fun _ => ⟨by dsimp only; omega, hempty⟩ }
    dsimp only
    split
    · exact { hnew with synced := ⟨nofun, nofun⟩ }
    · exact { hnew with synced := ⟨nofun, nofun⟩ }
    · exact hnew
  · split
    · exact { h with synced := ⟨nofun, nofun⟩ }
    · exact h

end Receive

end MinimalOS.Tcp
