import MinimalOS.Ktls.Record

/-!
# What the reader of a ktls connection gets

Whatever is sent and however TCP cuts it, the bytes a connection holds of an unfinished record,
followed by the bytes still to come, are always a sequence of whole records and at most one torn
one (`Sync`). Every call of `ktls_read` keeps this, so the reader gets a prefix of the payloads,
and all of them once everything has arrived.
-/

namespace MinimalOS.Ktls

open List Option

variable {c : Cipher} {key : Key}

/-! ## Lengths on the wire -/

theorem length_be32 (n : ℕ) : (be32 n).length = 4 := rfl

variable {n : ℕ} {tail rest : List UInt8}

theorem fromBe32_be32 (h : n < 2 ^ 32) : fromBe32 (be32 n) = n := by
  simp only [fromBe32, be32, foldl_cons, foldl_nil, UInt8.toNat_ofNat']
  omega

/-! ## Records -/

structure Sent where
  nonce : Nonce
  data : List UInt8
  nonempty : 0 < data.length
  bounded : data.length ≤ maxRecord

def Sent.body (c : Cipher) (key : Key) (r : Sent) : List UInt8 :=
  let sealed := gcmEncrypt c key r.nonce r.data
  List.ofFn r.nonce ++ sealed.1 ++ List.ofFn sealed.2

def Sent.bytes (c : Cipher) (key : Key) (r : Sent) : List UInt8 :=
  be32 (minBody + r.data.length) ++ r.body c key

def wire (c : Cipher) (key : Key) (rs : List Sent) : List UInt8 := (rs.map (Sent.bytes c key)).flatten

def payload (rs : List Sent) : List UInt8 := (rs.map Sent.data).flatten

/-- The start of a record whose last byte never went out. -/
def Torn (c : Cipher) (key : Key) (tail : List UInt8) : Prop :=
  ∃ r : Sent, tail <+: r.bytes c key ∧ tail.length < (r.bytes c key).length

theorem Sent.length_body (r : Sent) : (r.body c key).length = minBody + r.data.length := by
  simp only [Sent.body, gcmEncrypt, length_append, length_ofFn, length_gcmStream, minBody]
  omega

theorem Sent.length_bytes (r : Sent) : (r.bytes c key).length = 4 + (minBody + r.data.length) := by
  rw [Sent.bytes, length_append, length_be32, Sent.length_body]

theorem Sent.small (r : Sent) : minBody + r.data.length < 2 ^ 32 := by
  have := r.bounded
  unfold maxRecord at this
  unfold minBody
  omega

@[simp] theorem wire_nil : wire c key [] = [] := rfl

@[simp] theorem wire_cons (r : Sent) (rs : List Sent) :
    wire c key (r :: rs) = r.bytes c key ++ wire c key rs := rfl

@[simp] theorem payload_nil : payload [] = [] := rfl

/-- The stream of a sequence of sends: the payloads in whole records, then at most one torn
record. -/
theorem sendAll_spec (established : Bool) (sends : List Send) :
    ∃ (rs : List Sent) (tail : List UInt8),
      (sendAll c key established sends).1 = rs.map Sent.data ∧
      (sendAll c key established sends).2 = wire c key rs ++ tail ∧ Torn c key tail := by
  have hnone : Torn c key [] := by
    let r : Sent := ⟨fun _ => 0, [0], by decide, by decide⟩
    exact ⟨r, nil_prefix, by rw [r.length_bytes]; simp⟩
  have hframe : ∀ s : Send, ([] : List UInt8) ≠ frame c key s.nonce s.data := fun s => by
    simp [frame, be32]
  -- once the connection is dead nothing more goes out
  have hdead : ∀ sends : List Send, sendAll c key false sends = ([], []) := by
    intro sends
    induction sends with
    | nil => rfl
    | cons s rest ih => simp [sendAll, ktlsSend, ih, hframe]
  induction sends generalizing established with
  | nil => exact ⟨[], [], rfl, rfl, hnone⟩
  | cons s rest ih =>
    by_cases hskip : established = false ∨ s.data.length = 0 ∨ maxRecord < s.data.length ∨
        s.heap = false
    · have hsend : ktlsSend c key established s = (false, [], established) := if_pos hskip
      obtain ⟨rs, tail, h1, h2, h3⟩ := ih established
      refine ⟨rs, tail, ?_, ?_, h3⟩ <;> simp [sendAll, hsend, hframe, h1, h2]
    · have hbound : 0 < s.data.length ∧ s.data.length ≤ maxRecord := by
        omega
      let r : Sent := ⟨s.nonce, s.data, hbound.1, hbound.2⟩
      have hbytes : frame c key s.nonce s.data = r.bytes c key := rfl
      cases hst : s.stalled with
      | none =>
        have hsend : ktlsSend c key established s = (true, r.bytes c key, true) := by
          rw [ktlsSend, if_neg hskip, hst]
          rfl
        obtain ⟨rs, tail, h1, h2, h3⟩ := ih true
        refine ⟨r :: rs, tail, ?_, ?_, h3⟩ <;> simp [sendAll, hsend, hbytes, h1, h2, r]
      | some n =>
        have hsend : ktlsSend c key established s = (false, (r.bytes c key).take n, false) := by
          rw [ktlsSend, if_neg hskip, hst]
          rfl
        by_cases hn : (r.bytes c key).length ≤ n
        · -- the whole record is out, though the send has failed
          rw [take_of_length_le hn] at hsend
          refine ⟨[r], [], ?_, ?_, hnone⟩ <;> simp [sendAll, hsend, hbytes, hdead, r]
        · have hshort : ((r.bytes c key).take n).length < (r.bytes c key).length := by
            rw [length_take]
            omega
          have hne : (r.bytes c key).take n ≠ r.bytes c key := fun h => by
            rw [h] at hshort
            omega
          refine ⟨[], (r.bytes c key).take n, ?_, ?_, r, take_prefix _ _, hshort⟩
          · rw [sendAll, hsend, hdead, hbytes, if_neg hne]
            rfl
          · simp [sendAll, hsend, hdead]

/-! ## Reading a stream of records from its start -/

variable {rs : List Sent}

theorem header_of_stream {hdr : List UInt8} (ht : Torn c key tail)
    (h : hdr ++ rest = wire c key rs ++ tail) (hlen : hdr.length = 4) :
    ∃ n, 0 < n ∧ n ≤ maxRecord ∧ hdr = be32 (minBody + n) := by
  cases rs with
  | nil =>
    obtain ⟨r, ⟨u, hu⟩, -⟩ := ht
    refine ⟨r.data.length, r.nonempty, r.bounded, ?_⟩
    have hall : hdr ++ (rest ++ u) = be32 (minBody + r.data.length) ++ r.body c key := by
      rw [← append_assoc, h, wire_nil, nil_append, hu, Sent.bytes]
    exact (append_inj hall hlen).1
  | cons r rs =>
    refine ⟨r.data.length, r.nonempty, r.bounded, ?_⟩
    rw [wire_cons, Sent.bytes, append_assoc, append_assoc] at h
    exact (append_inj h hlen).1

theorem be32_inj {m : ℕ} (hm : m < 2 ^ 32) (hn : n < 2 ^ 32) (h : be32 m = be32 n) : m = n := by
  rw [← fromBe32_be32 hm, h, fromBe32_be32 hn]

theorem body_of_stream {body : List UInt8} {L : ℕ} (ht : Torn c key tail)
    (h : be32 L ++ (body ++ rest) = wire c key rs ++ tail) (hL : L < 2 ^ 32)
    (hlen : body.length = L) :
    ∃ r rs', rs = r :: rs' ∧ body = r.body c key ∧ rest = wire c key rs' ++ tail := by
  cases rs with
  | nil =>
    obtain ⟨r, ⟨u, hu⟩, hshort⟩ := ht
    rw [wire_nil, nil_append] at h
    have hall : be32 L ++ (body ++ (rest ++ u)) =
        be32 (minBody + r.data.length) ++ r.body c key := by
      rw [← Sent.bytes, ← hu, ← h]
      simp only [append_assoc]
    obtain ⟨hhdr, hbody⟩ := append_inj hall rfl
    have hLr := be32_inj hL r.small hhdr
    -- the torn record would be as long as the whole one
    have := congrArg List.length h
    rw [r.length_bytes] at hshort
    simp only [length_append, length_be32] at this
    omega
  | cons r rs =>
    rw [wire_cons, Sent.bytes, append_assoc, append_assoc] at h
    obtain ⟨hhdr, hbody⟩ := append_inj h rfl
    have hLr := be32_inj hL r.small hhdr
    obtain ⟨h1, h2⟩ := append_inj hbody (by rw [hlen, hLr, r.length_body])
    exact ⟨r, rs, rfl, h1, h2⟩

theorem bytesAt_ofFn (f : Fin n → UInt8) (s : List UInt8) : bytesAt n (List.ofFn f ++ s) = f := by
  funext i
  rw [bytesAt, List.getElem?_append_left (by simp)]
  simp

theorem openBody_body (r : Sent) : openBody c key (r.body c key) = some r.data := by
  have hlen : (r.body c key).length - minBody = (gcmEncrypt c key r.nonce r.data).1.length := by
    rw [r.length_body, gcmEncrypt, length_gcmStream]
    omega
  rw [openBody]
  simp only [hlen]
  have hrest : (r.body c key).drop 12 =
      (gcmEncrypt c key r.nonce r.data).1 ++ List.ofFn (gcmEncrypt c key r.nonce r.data).2 := by
    rw [Sent.body, append_assoc]
    exact drop_left' (by simp)
  rw [← drop_drop, hrest, take_left, drop_left, Sent.body, append_assoc,
    bytesAt_ofFn]
  have htag := bytesAt_ofFn (gcmEncrypt c key r.nonce r.data).2 []
  rw [append_nil] at htag
  rw [htag, gcmDecrypt_gcmEncrypt]

/-! ## One call -/

def Conn.inflight (k : Conn) : List UInt8 :=
  if k.rxBodyLen = 0 then k.rxHdr else be32 k.rxBodyLen ++ k.rxBody

def Conn.owed (k : Conn) : List UInt8 :=
  match k.pt with
  | none => []
  | some pt => pt.drop k.ptPos

/-- The connection is established, and what it has of a record and what is still to come are the
records `rs` and a torn one. -/
structure Sync (c : Cipher) (key : Key) (k : Conn) (rest : List UInt8) (rs : List Sent)
    (tail : List UInt8) : Prop where
  key_eq : k.key = key
  established : k.state = .established
  stream : k.inflight ++ rest = wire c key rs ++ tail
  hdr : k.rxHdr.length < 4
  body : k.rxBodyLen ≠ 0 → k.rxHdr = [] ∧ k.rxBody.length < k.rxBodyLen ∧ k.rxBodyLen < 2 ^ 32
  pt : ∀ pt, k.pt = some pt → k.ptPos < pt.length

theorem tcpRecv_some {env : Env} {len : ℕ} {t t' : Tcp} {chunk : List UInt8}
    (h : tcpRecv env len t = (some chunk, t')) :
    t.rest = chunk ++ t'.rest ∧ chunk.length ≤ len ∧ t'.calls = t.calls + 1 := by
  unfold tcpRecv at h
  split at h
  · simp at h
  · obtain ⟨rfl, rfl⟩ := h
    refine ⟨(take_append_drop _ _).symm, ?_, rfl⟩
    rw [length_take]
    omega

/-- `ktls_read` returned without data: the records still to come are the same, or the connection
is dead, which it is before its last record only for want of memory. -/
def Stopped (c : Cipher) (key : Key) (env : Env) (rs : List Sent) (tail : List UInt8)
    (r : Returned) : Prop :=
  r.1.getD [] = [] ∧ r.2.1.pt = none ∧
    (Sync c key r.2.1 r.2.2.rest rs tail ∨
      (r.2.1.state ≠ .established ∧ ((∀ i, env.heap i = true) → rs = [])))

section Step

variable (env : Env) {k k' : Conn} {t t' : Tcp} {rs : List Sent} {tail : List UInt8}

theorem Stopped.dead (k : Conn) (t : Tcp) (hpt : k.pt = none)
    (hrs : (∀ i, env.heap i = true) → rs = []) : Stopped c key env rs tail (none, k.markDead, t) :=
  ⟨rfl, hpt, .inr ⟨by simp [Conn.markDead], hrs⟩⟩

theorem Sync.stopped (h : Sync c key k t.rest rs tail) (hpt : k.pt = none) :
    Stopped c key env rs tail (some [], k, t) := ⟨rfl, hpt, .inl h⟩

variable {r : Sent}

theorem Sync.length_rest (h : Sync c key k t.rest (r :: rs) tail) :
    4 + (minBody + r.data.length) ≤ k.inflight.length + t.rest.length := by
  have := congrArg List.length h.stream
  simp only [length_append, wire_cons, r.length_bytes] at this
  omega

theorem Sync.rxBodyLen_eq (h : Sync c key k t.rest (r :: rs) tail) (hlen : k.rxBodyLen ≠ 0) :
    k.rxBodyLen = minBody + r.data.length := by
  have hs := h.stream
  rw [Conn.inflight, if_neg hlen, wire_cons, Sent.bytes, append_assoc, append_assoc,
    append_assoc] at hs
  exact be32_inj (h.body hlen).2.2 r.small (append_inj hs rfl).1

theorem Sync.records_nil (h : Sync c key k t.rest rs tail) (hrest : t.rest = []) : rs = [] := by
  cases rs with
  | nil => rfl
  | cons r rs =>
    have hall := h.length_rest
    rw [hrest, length_nil] at hall
    by_cases hlen : k.rxBodyLen = 0
    · have := h.hdr
      rw [Conn.inflight, if_pos hlen] at hall
      omega
    · have := h.rxBodyLen_eq hlen
      have := (h.body hlen).2.1
      rw [Conn.inflight, if_neg hlen, length_append, length_be32] at hall
      omega

theorem tcpRecv_none {len : ℕ} (h : tcpRecv env len t = (none, t')) : t.rest = [] := by
  unfold tcpRecv at h
  split at h
  · rename_i hend
    exact hend.1
  · simp at h

variable (ht : Torn c key tail)

include ht

theorem readHeader_spec (h : Sync c key k t.rest rs tail) (hpt : k.pt = none) :
    (∃ r, readHeader env k t = .error r ∧ Stopped c key env rs tail r) ∨
    (∃ k' t', readHeader env k t = .ok (k', t') ∧ Sync c key k' t'.rest rs tail ∧
      k'.pt = none ∧ k'.rxBodyLen ≠ 0 ∧ t'.rest.length ≤ t.rest.length) := by
  unfold readHeader
  by_cases hlen : k.rxBodyLen = 0
  case neg => exact .inr ⟨k, t, by rw [if_pos hlen], h, hpt, hlen, le_rfl⟩
  rw [if_neg (by simpa using hlen)]
  have hin : k.inflight = k.rxHdr := if_pos hlen
  rcases hr : tcpRecv env (4 - k.rxHdr.length) t with ⟨_ | chunk, t₁⟩
  · exact .inl ⟨_, rfl, Stopped.dead env k t₁ hpt fun _ => h.records_nil (tcpRecv_none env hr)⟩
  obtain ⟨hrest, hle, -⟩ := tcpRecv_some hr
  have hstream : (k.rxHdr ++ chunk) ++ t₁.rest = wire c key rs ++ tail := by
    rw [append_assoc, ← hrest, ← hin, h.stream]
  dsimp only
  split
  · rename_i hnil
    subst hnil
    rw [nil_append] at hrest
    exact .inl ⟨_, rfl, Sync.stopped env (hrest ▸ h) hpt⟩
  split
  · rename_i hshort
    refine .inl ⟨_, rfl, Sync.stopped env ⟨h.key_eq, h.established, ?_, hshort, ?_, h.pt⟩ hpt⟩
    · simpa [Conn.inflight, hlen] using hstream
    · exact fun hne => absurd hlen hne
  · -- four bytes: the length of a record
    rename_i hlong
    have hfour : (k.rxHdr ++ chunk).length = 4 := by
      have := h.hdr
      rw [length_append] at hlong ⊢
      omega
    obtain ⟨n, hn0, hn1, hhdr⟩ := header_of_stream ht hstream hfour
    have hsmall : minBody + n < 2 ^ 32 := by
      unfold maxRecord at hn1
      unfold minBody
      omega
    rw [hhdr, fromBe32_be32 hsmall, if_neg (by unfold minBody; omega)]
    split
    · refine .inr ⟨_, _, rfl, ⟨h.key_eq, h.established, ?_, by simp, ?_, h.pt⟩, hpt, ?_, ?_⟩
      · have : minBody + n ≠ 0 := by unfold minBody; omega
        simpa [Conn.inflight, Tcp.tick, ← hhdr] using hstream
      · exact fun _ => ⟨rfl, by simp, hsmall⟩
      · show minBody + n ≠ 0
        omega
      · rw [hrest, length_append]
        exact Nat.le_add_left _ _
    · rename_i hheap
      exact .inl ⟨_, rfl, Stopped.dead env _ _ hpt fun hall => absurd (hall _) hheap⟩

theorem readBody_spec (h : Sync c key k t.rest rs tail) (hpt : k.pt = none)
    (hlen : k.rxBodyLen ≠ 0) :
    (∃ r, readBody c env k t = .error r ∧ Stopped c key env rs tail r) ∨
    (∃ k' t' r rs', readBody c env k t = .ok (k', t') ∧ rs = r :: rs' ∧
      Sync c key k' t'.rest rs' tail ∧ k'.pt = some r.data ∧ k'.ptPos = 0) := by
  unfold readBody
  have hin : k.inflight = be32 k.rxBodyLen ++ k.rxBody := if_neg hlen
  obtain ⟨hhdr, hbody, hsmall⟩ := h.body hlen
  rcases hr : tcpRecv env (k.rxBodyLen - k.rxBody.length) t with ⟨_ | chunk, t₁⟩
  · exact .inl ⟨_, rfl, Stopped.dead env k t₁ hpt fun _ => h.records_nil (tcpRecv_none env hr)⟩
  obtain ⟨hrest, hle, -⟩ := tcpRecv_some hr
  have hstream : be32 k.rxBodyLen ++ ((k.rxBody ++ chunk) ++ t₁.rest) = wire c key rs ++ tail := by
    rw [append_assoc, ← hrest, ← append_assoc, ← hin, h.stream]
  dsimp only
  split
  · rename_i hnil
    subst hnil
    rw [nil_append] at hrest
    exact .inl ⟨_, rfl, Sync.stopped env (hrest ▸ h) hpt⟩
  split
  · rename_i hshort
    refine .inl ⟨_, rfl, Sync.stopped env ⟨h.key_eq, h.established, ?_, h.hdr, ?_, h.pt⟩ hpt⟩
    · simpa [Conn.inflight, hlen] using hstream
    · exact fun _ => ⟨hhdr, hshort, hsmall⟩
  · -- a complete record, which is the first of those to come
    rename_i hlong
    have hfull : (k.rxBody ++ chunk).length = k.rxBodyLen := by
      rw [length_append] at hlong ⊢
      omega
    obtain ⟨r, rs', rfl, hb, hrest'⟩ := body_of_stream ht hstream hsmall hfull
    have hne : (k.rxBody ++ chunk).length ≠ minBody := by
      have := r.nonempty
      rw [hb, r.length_body]
      omega
    rw [if_neg hne, hb, h.key_eq, openBody_body]
    split
    · refine .inr ⟨_, _, r, rs', rfl, rfl, ⟨rfl, h.established, ?_, h.hdr, ?_, ?_⟩, rfl, rfl⟩
      · simpa [Conn.inflight, hhdr, Tcp.tick] using hrest'
      · exact fun hne => absurd rfl hne
      · rintro pt ⟨⟩
        exact r.nonempty
    · rename_i hheap
      exact .inl ⟨_, rfl, Stopped.dead env _ _ hpt fun hall => absurd (hall _) hheap⟩

end Step

/-! ## The loop returns -/

section Returns

variable {env : Env} {k k' : Conn} {t t' : Tcp}

theorem readHeader_le (h : readHeader env k t = .ok (k', t')) : t'.rest.length ≤ t.rest.length := by
  unfold readHeader at h
  split at h
  · cases h
    exact le_rfl
  · rcases hr : tcpRecv env (4 - k.rxHdr.length) t with ⟨_ | chunk, t₁⟩ <;> rw [hr] at h
    · simp at h
    · have hrest := (tcpRecv_some hr).1
      dsimp only at h
      repeat' split at h
      all_goals cases h
      rw [hrest, length_append]
      exact Nat.le_add_left _ _

theorem readBody_lt (h : readBody c env k t = .ok (k', t')) : t'.rest.length < t.rest.length := by
  unfold readBody at h
  rcases hr : tcpRecv env (k.rxBodyLen - k.rxBody.length) t with ⟨_ | chunk, t₁⟩ <;> rw [hr] at h
  · simp at h
  · have hrest := (tcpRecv_some hr).1
    have hlt : chunk ≠ [] → t₁.rest.length < t.rest.length := by
      intro hne
      rw [hrest, length_append]
      have := length_pos_iff.mpr hne
      omega
    dsimp only at h
    split at h
    · cases h
    · rename_i hne
      repeat' split at h
      all_goals cases h
      all_goals exact hlt hne

theorem readLoop_isSome (cap n : ℕ) (k : Conn) (t : Tcp) (h : t.rest.length + 2 ≤ n) :
    (readLoop c env cap n k t).isSome := by
  induction n generalizing k t with
  | zero => omega
  | succ n ih =>
    unfold readLoop
    split
    · rfl
    · split
      · rfl
      · split
        · rfl
        · rename_i k₁ t₁ h₁
          split
          · rfl
          · rename_i k₂ t₂ h₂
            have := readHeader_le h₁
            have := readBody_lt h₂
            exact ih k₂ t₂ (by omega)

theorem ktlsRead_isSome (env : Env) (cap : ℕ) (k : Conn) (t : Tcp) : (ktlsRead c env cap k t).isSome := by
  unfold ktlsRead
  split
  · rfl
  · exact readLoop_isSome cap _ k t le_rfl

end Returns

/-! ## A whole run -/

/-- After the bytes `out` of `total` have been handed out: the rest is decrypted or on its way, or
the connection is dead. -/
def Holds (c : Cipher) (key : Key) (env : Env) (tail total out : List UInt8) (k : Conn) (t : Tcp) :
    Prop :=
  (∃ rs, Sync c key k t.rest rs tail ∧ out ++ (k.owed ++ payload rs) = total) ∨
    (k.state ≠ .established ∧ k.pt = none ∧ out <+: total ∧
      ((∀ i, env.heap i = true) → out = total))

section Run

variable (env : Env) {k k' : Conn} {t t' : Tcp} {tail total out : List UInt8}

theorem Holds.out_le (h : Holds c key env tail total out k t) : out <+: total := by
  rcases h with ⟨rs, -, h⟩ | ⟨-, -, h, -⟩
  · exact ⟨_, h⟩
  · exact h

variable {rs : List Sent} {r : Returned}

theorem Stopped.holds (hr : Stopped c key env rs tail r) (h : out ++ payload rs = total) :
    Holds c key env tail total (out ++ r.1.getD []) r.2.1 r.2.2 := by
  obtain ⟨hnil, hpt, hs | ⟨hs, hrs⟩⟩ := hr
  · refine .inl ⟨rs, hs, ?_⟩
    simpa [hnil, Conn.owed, hpt] using h
  · rw [hnil, append_nil]
    refine .inr ⟨hs, hpt, ⟨_, h⟩, fun hall => ?_⟩
    rw [← h, hrs hall, payload_nil, append_nil]

variable {cap : ℕ}

theorem deliver_spec {pt : List UInt8} (h : Sync c key k t.rest rs tail) (hpt : k.pt = some pt)
    (hcap : 0 < cap) :
    Sync c key (deliver k pt cap).2 t.rest rs tail ∧
      (deliver k pt cap).1 ++ (deliver k pt cap).2.owed = k.owed ∧ (deliver k pt cap).1 ≠ [] := by
  have hpos := h.pt pt hpt
  have howed : k.owed = pt.drop k.ptPos := by rw [Conn.owed, hpt]
  have hne : (deliver k pt cap).1 ≠ [] := by
    rw [deliver, ← length_pos_iff, length_take, length_drop]
    omega
  unfold deliver
  dsimp only
  split
  · refine ⟨⟨h.key_eq, h.established, h.stream, h.hdr, h.body, by simp⟩, ?_, hne⟩
    rw [howed]
    simp only [Conn.owed, append_nil]
    exact take_of_length_le (by rw [length_drop]; omega)
  · rename_i hmore
    refine ⟨⟨h.key_eq, h.established, h.stream, h.hdr, h.body, ?_⟩, ?_, hne⟩
    · intro pt' hpt'
      obtain rfl : pt = pt' := by simpa [hpt] using hpt'
      simpa using hmore
    · simp only [Conn.owed, hpt]
      rw [← drop_drop, take_append_drop]

variable (ht : Torn c key tail)

include ht

theorem readLoop_spec (hs : Sync c key k t.rest rs tail) (hcap : 0 < cap) (n : ℕ) :
    ∃ r, readLoop c env cap (n + 2) k t = some r ∧
      ((k.pt = none ∧ Stopped c key env rs tail r) ∨
        ∃ got rs', r.1 = some got ∧ got ≠ [] ∧ Sync c key r.2.1 r.2.2.rest rs' tail ∧
          got ++ (r.2.1.owed ++ payload rs') = k.owed ++ payload rs) := by
  unfold readLoop
  cases hpt : k.pt with
  | some pt =>
    obtain ⟨h1, h2, h3⟩ := deliver_spec hs hpt hcap
    exact ⟨_, rfl, .inr ⟨_, rs, rfl, h3, h1, by rw [← append_assoc, h2]⟩⟩
  | none =>
    simp only [hs.established, ne_eq, not_true_eq_false]
    rcases readHeader_spec env ht hs hpt with
      ⟨r, hr, hstop⟩ | ⟨k₁, t₁, hr, hs₁, hpt₁, hlen, -⟩
    · rw [hr]
      exact ⟨r, rfl, .inl ⟨trivial, hstop⟩⟩
    rw [hr]
    dsimp only
    rcases readBody_spec env ht hs₁ hpt₁ hlen with
      ⟨r, hr, hstop⟩ | ⟨k₂, t₂, r, rs', hr, rfl, hs₂, hpt₂, hpos⟩
    · rw [hr]
      exact ⟨r, rfl, .inl ⟨trivial, hstop⟩⟩
    rw [hr]
    dsimp only
    -- the second round delivers from the record just decrypted
    unfold readLoop
    rw [hpt₂]
    obtain ⟨h1, h2, h3⟩ := deliver_spec hs₂ hpt₂ hcap
    refine ⟨_, rfl, .inr ⟨_, rs', rfl, h3, h1, ?_⟩⟩
    rw [← append_assoc, h2]
    simp [Conn.owed, hpt, hpt₂, hpos, payload]

/-- **One call** hands out the next bytes or none, and keeps what is still to come. -/
theorem Holds.ktlsRead {env : Env} (h : Holds c key env tail total out k t) (cap : ℕ)
    (hr : ktlsRead c env cap k t = some r) :
    Holds c key env tail total (out ++ r.1.getD []) r.2.1 r.2.2 := by
  unfold Ktls.ktlsRead at hr
  split at hr
  · cases hr
    simpa using h
  rename_i hcap
  rcases h with ⟨rs, hs, htotal⟩ | ⟨hdead, hpt, hout, hall⟩
  · obtain ⟨r', hr', hcase⟩ := readLoop_spec env ht hs (Nat.pos_of_ne_zero hcap)
      t.rest.length
    rw [hr', Option.some.injEq] at hr
    subst hr
    rcases hcase with ⟨hpt, hstop⟩ | ⟨got, rs', hgot, -, hs', heq⟩
    · exact hstop.holds env (by simpa [Conn.owed, hpt] using htotal)
    · refine .inl ⟨rs', hs', ?_⟩
      rw [hgot, getD_some, append_assoc, heq, htotal]
  · unfold readLoop at hr
    rw [hpt] at hr
    rw [if_pos hdead] at hr
    cases hr
    exact .inr ⟨hdead, hpt, by simpa using hout, by simpa using hall⟩

/-- **A run of calls** hands out a prefix of what was sent. -/
theorem Holds.readAll (caps : List ℕ) (h : Holds c key env tail total out k t) :
    ∃ got k' t', readAll c env caps k t = some (got, k', t') ∧
      Holds c key env tail total (out ++ got) k' t' := by
  induction caps generalizing k t out with
  | nil => exact ⟨[], k, t, rfl, by simpa using h⟩
  | cons cap caps ih =>
    obtain ⟨r, hr⟩ := isSome_iff_exists.mp (ktlsRead_isSome (c := c) env cap k t)
    obtain ⟨got, k', t', hrest, hh⟩ := ih (h.ktlsRead ht cap hr)
    refine ⟨r.1.getD [] ++ got, k', t', ?_, by rwa [← append_assoc]⟩
    simp [Ktls.readAll, hr, hrest]

end Run

/-! ## Once everything has arrived -/

/-- From now on `tcp_recv` has the rest of the stream ready and the heap has memory. -/
def Arrived (env : Env) (t : Tcp) : Prop :=
  ∀ i, t.calls ≤ i → t.rest.length ≤ env.cut i ∧ env.heap i = true

section Arrived

variable {env : Env} {k k' : Conn} {t t' : Tcp} {rs : List Sent} {tail total out : List UInt8}

theorem Arrived.mono (h : Arrived env t) (hrest : t'.rest.length ≤ t.rest.length)
    (hcalls : t.calls ≤ t'.calls) : Arrived env t' := by
  intro i hi
  obtain ⟨h1, h2⟩ := h i (hcalls.trans hi)
  exact ⟨hrest.trans h1, h2⟩

theorem Arrived.tcpRecv (h : Arrived env t) {len : ℕ} (hpos : 0 < len) (hlen : len ≤ t.rest.length) :
    tcpRecv env len t = (some (t.rest.take len), ⟨t.rest.drop len, t.calls + 1⟩) := by
  have hne : ¬ (t.rest = [] ∧ env.closed t.calls = true) := by
    rintro ⟨h0, -⟩
    rw [h0] at hlen
    simp at hlen
    omega
  have hcut := (h t.calls le_rfl).1
  rw [Ktls.tcpRecv, if_neg hne, min_eq_right (hlen.trans hcut)]

variable {r : Sent}

section

variable (ha : Arrived env t) (h : Sync c key k t.rest (r :: rs) tail) (ht : Torn c key tail)

include ha h ht

theorem Arrived.readHeader : ∃ k' t', readHeader env k t = .ok (k', t') ∧ Arrived env t' := by
  unfold Ktls.readHeader
  by_cases hlen : k.rxBodyLen = 0
  case neg => exact ⟨k, t, by rw [if_pos hlen], ha⟩
  have hin : k.inflight = k.rxHdr := if_pos hlen
  have hhave := h.hdr
  have hrest := h.length_rest
  rw [hin] at hrest
  rw [if_neg (by simpa using hlen), ha.tcpRecv (by omega) (by omega)]
  have hfour : (k.rxHdr ++ t.rest.take (4 - k.rxHdr.length)).length = 4 := by
    rw [length_append, length_take]
    omega
  have hstream : (k.rxHdr ++ t.rest.take (4 - k.rxHdr.length)) ++ t.rest.drop (4 - k.rxHdr.length) =
      wire c key (r :: rs) ++ tail := by
    rw [append_assoc, take_append_drop, ← hin, h.stream]
  obtain ⟨n, -, hn, hhdr⟩ := header_of_stream ht hstream hfour
  have hne : t.rest.take (4 - k.rxHdr.length) ≠ [] := by
    rw [← length_pos_iff, length_take]
    omega
  have hsmall : minBody + n < 2 ^ 32 := by
    unfold maxRecord at hn
    unfold minBody
    omega
  dsimp only
  rw [if_neg hne, if_neg (by omega), hhdr, fromBe32_be32 hsmall, if_neg (by unfold minBody; omega),
    if_pos (ha _ (Nat.le_succ _)).2]
  refine ⟨_, _, rfl, ha.mono ?_ ?_⟩
  · simp [Tcp.tick]
  · simp [Tcp.tick]
    omega

theorem Arrived.readBody (hlen : k.rxBodyLen ≠ 0) :
    ∃ k' t', readBody c env k t = .ok (k', t') ∧ Arrived env t' := by
  unfold Ktls.readBody
  have hin : k.inflight = be32 k.rxBodyLen ++ k.rxBody := if_neg hlen
  obtain ⟨-, hbody, hsmall⟩ := h.body hlen
  have hL := h.rxBodyLen_eq hlen
  have hrest := h.length_rest
  rw [hin, length_append, length_be32] at hrest
  rw [ha.tcpRecv (by omega) (by omega)]
  have hfull : (k.rxBody ++ t.rest.take (k.rxBodyLen - k.rxBody.length)).length = k.rxBodyLen := by
    rw [length_append, length_take]
    omega
  have hstream : be32 k.rxBodyLen ++ ((k.rxBody ++ t.rest.take (k.rxBodyLen - k.rxBody.length)) ++
      t.rest.drop (k.rxBodyLen - k.rxBody.length)) = wire c key (r :: rs) ++ tail := by
    rw [append_assoc, take_append_drop, ← append_assoc, ← hin, h.stream]
  have hb : k.rxBody ++ t.rest.take (k.rxBodyLen - k.rxBody.length) = r.body c key := by
    obtain ⟨r', rs', heq, hb, -⟩ := body_of_stream ht hstream hsmall hfull
    cases heq
    exact hb
  have hne : t.rest.take (k.rxBodyLen - k.rxBody.length) ≠ [] := by
    rw [← length_pos_iff, length_take]
    omega
  have hfilled := r.nonempty
  dsimp only
  rw [if_neg hne, if_neg (by omega), if_neg (by omega), hb, h.key_eq, openBody_body,
    if_pos (ha _ (Nat.le_succ _)).2]
  refine ⟨_, _, rfl, ha.mono ?_ ?_⟩
  · simp [Tcp.tick]
  · simp [Tcp.tick]
    omega

end

variable (ht : Torn c key tail)

include ht

/-- When everything has arrived, a call with room in its buffer hands out data as long as there
is any. -/
theorem Arrived.ktlsRead {cap : ℕ} (ha : Arrived env t) (hcap : 0 < cap)
    (hheap : ∀ i, env.heap i = true) (h : Holds c key env tail total out k t)
    (hmore : out ≠ total) :
    ∃ r, ktlsRead c env cap k t = some r ∧ r.1.getD [] ≠ [] ∧ Arrived env r.2.2 := by
  obtain ⟨rs, hs, htotal⟩ : ∃ rs, Sync c key k t.rest rs tail ∧
      out ++ (k.owed ++ payload rs) = total := by
    rcases h with h | ⟨-, -, -, hall⟩
    · exact h
    · exact absurd (hall hheap) hmore
  unfold Ktls.ktlsRead
  rw [if_neg (by omega)]
  unfold readLoop
  cases hpt : k.pt with
  | some pt =>
    exact ⟨_, rfl, (deliver_spec hs hpt hcap).2.2, ha⟩
  | none =>
    have hrs : rs ≠ [] := by
      rintro rfl
      exact hmore (by simpa [Conn.owed, hpt] using htotal)
    obtain ⟨r, rs', rfl⟩ := exists_cons_of_ne_nil hrs
    obtain ⟨k₁, t₁, hr₁, ha₁⟩ := ha.readHeader hs ht
    rcases readHeader_spec env ht hs hpt with ⟨e, he, -⟩ | ⟨_, _, he, hs₁, hpt₁, hlen, -⟩
    · simp [hr₁] at he
    obtain ⟨rfl, rfl⟩ : k₁ = _ ∧ t₁ = _ := by simpa [hr₁] using he
    obtain ⟨k₂, t₂, hr₂, ha₂⟩ := ha₁.readBody hs₁ ht hlen
    rcases readBody_spec env ht hs₁ hpt₁ hlen with
      ⟨e, he, -⟩ | ⟨_, _, r', rs'', he, -, hs₂, hpt₂, -⟩
    · simp [hr₂] at he
    obtain ⟨rfl, rfl⟩ : k₂ = _ ∧ t₂ = _ := by simpa [hr₂] using he
    simp only [hs.established, ne_eq, not_true_eq_false, if_false, hr₁, hr₂]
    unfold readLoop
    rw [hpt₂]
    exact ⟨_, rfl, (deliver_spec hs₂ hpt₂ hcap).2.2, ha₂⟩

theorem Arrived.readAll (caps : List ℕ) (hcaps : ∀ cap ∈ caps, 0 < cap) (ha : Arrived env t)
    (hheap : ∀ i, env.heap i = true) (h : Holds c key env tail total out k t)
    {got : List UInt8} (hread : readAll c env caps k t = some (got, k', t')) :
    min total.length (out.length + caps.length) ≤ (out ++ got).length := by
  induction caps generalizing k t out got with
  | nil => simp
  | cons cap caps ih =>
    by_cases hmore : out = total
    · subst hmore
      rw [length_append]
      omega
    obtain ⟨r, hr, hne, ha'⟩ := ha.ktlsRead ht (hcaps cap mem_cons_self) hheap h hmore
    simp only [Ktls.readAll, hr, bind_eq_bind, bind_some] at hread
    obtain ⟨⟨later, k'', t''⟩, hlater, hgot⟩ := bind_eq_some_iff.mp hread
    obtain ⟨rfl, rfl, rfl⟩ : r.1.getD [] ++ later = got ∧ k'' = k' ∧ t'' = t' := by
      simpa using hgot
    have := ih (fun c hc => hcaps c (mem_cons_of_mem _ hc)) ha' (h.ktlsRead ht cap hr) hlater
    have hpos := length_pos_iff.mpr hne
    simp only [length_append, length_cons] at this ⊢
    omega

end Arrived

theorem Holds.start (env : Env) :
    Holds c key env tail (payload rs) [] (Conn.fresh key) ⟨wire c key rs ++ tail, 0⟩ := by
  refine .inl ⟨rs, ⟨rfl, rfl, rfl, by simp [Conn.fresh], ?_, ?_⟩, rfl⟩
  · exact fun h => absurd rfl h
  · simp [Conn.fresh]

/-- **The reader gets what was sent.** For every sequence of sends and every way the stream is cut
on arrival, reads of any capacities return a prefix of the payloads. Once the whole stream has
arrived, and memory has never run out, as many further reads as there are bytes return the rest. -/
theorem reader_gets_payloads (c : Cipher) (key : Key) (sends : List Send) (env : Env)
    (caps : List ℕ) :
    ∃ got k t,
      readAll c env caps (Conn.fresh key) ⟨(sendAll c key true sends).2, 0⟩ = some (got, k, t) ∧
      got <+: (sendAll c key true sends).1.flatten ∧
      ((∀ i, env.heap i = true) → (∀ i, t.calls ≤ i → t.rest.length ≤ env.cut i) →
        ∀ more : List ℕ, (∀ cap ∈ more, 0 < cap) →
          (sendAll c key true sends).1.flatten.length ≤ more.length →
          ∃ later k' t', readAll c env more k t = some (later, k', t') ∧
            got ++ later = (sendAll c key true sends).1.flatten) := by
  obtain ⟨rs, tail, hdata, hwire, htorn⟩ : ∃ (rs : List Sent) (tail : List UInt8),
      (sendAll c key true sends).1 = rs.map Sent.data ∧
      (sendAll c key true sends).2 = wire c key rs ++ tail ∧ Torn c key tail :=
    sendAll_spec true sends
  rw [hdata, hwire]
  have hstart : Holds c key env tail (payload rs) [] (Conn.fresh key)
      ⟨wire c key rs ++ tail, 0⟩ := Holds.start env
  obtain ⟨got, k, t, hread, hh⟩ := hstart.readAll env htorn caps
  refine ⟨got, k, t, hread, hh.out_le, fun hheap hcut more hmore hlen => ?_⟩
  obtain ⟨later, k', t', hread', hh'⟩ := hh.readAll env htorn more
  have ha : Arrived env t := fun i hi => ⟨hcut i hi, hheap i⟩
  have hall := ha.readAll htorn more hmore hheap hh hread'
  refine ⟨later, k', t', hread', hh'.out_le.eq_of_length_le ?_⟩
  have : (payload rs).length = (rs.map Sent.data).flatten.length := rfl
  omega

/-- Two records, of which one byte is there at the second read and the rest afterwards. -/
theorem reader_gets_payloads_sample :
    let c : Cipher := ⟨fun key b i => b i + key 0, fun h y i => h i ^^^ y (i + 1)⟩
    let sends : List Send := [⟨[1, 2, 3], fun _ => 7, true, none⟩, ⟨[4], fun _ => 8, true, none⟩]
    let env : Env := ⟨fun i => if i < 2 then i else 100, fun _ => false, fun _ => true⟩
    ∃ got later k t, readAll c env [2, 5] (Conn.fresh fun _ => 9)
        ⟨(sendAll c (fun _ => 9) true sends).2, 0⟩ = some (got, k, t) ∧
      (readAll c env [1, 1, 1, 1] k t).map Prod.fst = some later ∧
      got ++ later = [1, 2, 3, 4] := by
  intro c sends env
  obtain ⟨got, k, t, hread, -, hall⟩ := reader_gets_payloads c (fun _ => 9) sends env [2, 5]
  have hcut : ∀ i, t.calls ≤ i → t.rest.length ≤ env.cut i := by
    have hfirst : (readAll c env [2, 5] (Conn.fresh fun _ => 9)
        ⟨(sendAll c (fun _ => 9) true sends).2, 0⟩).map
          (fun r => (r.2.2.calls, r.2.2.rest.length)) = some (2, 67) := by decide +kernel
    rw [hread] at hfirst
    obtain ⟨hcalls, hrest⟩ : t.calls = 2 ∧ t.rest.length = 67 := by simpa using hfirst
    intro i hi
    rw [hrest]
    show 67 ≤ if i < 2 then i else 100
    rw [if_neg (by omega)]
    norm_num
  obtain ⟨later, k', t', hread', heq⟩ := hall (fun _ => rfl) hcut [1, 1, 1, 1] (by decide)
    (by decide +kernel)
  exact ⟨got, later, k, t, hread, by rw [hread']; rfl, heq.trans (by decide +kernel)⟩

end MinimalOS.Ktls
