import MinimalOS.Lzss.Stream

/-!
# The LZSS round trip

The encoder looks for matches in the data itself and names them by their window position, so it
is right as long as every match it emits starts before the current position, at most a window
back, and agrees with the bytes it stands for (`MatchOk`). The hash chains only propose
candidates: `walkChain` compares the bytes of each one and stops as soon as a link does not go
back, so a stale entry of the wrapping `prev` table costs a match and nothing else.

`Emits` relates the encoder's state to the tokens it has emitted; every round keeps it, and a
finished run is a stream that spans the data (`lzssCompress_stream`).
-/

namespace MinimalOS.Lzss

open RingWindow List Option

/-! ## The match finder -/

/-- `best` is a match of the bytes at `pos`: it lies in the window before `pos` and its first
`best.1` bytes agree. -/
structure MatchOk (data : List UInt8) (pos maxLen windowStart : ℕ) (best : ℕ × ℕ) : Prop where
  len_le : best.1 ≤ maxLen
  src_lt : 0 < best.1 → best.2 < pos
  src_ge : 0 < best.1 → windowStart ≤ best.2
  agree : ∀ k < best.1, data[best.2 + k]! = data[pos + k]!

theorem matchLength_spec (data : List UInt8) (cand pos : ℕ) :
    ∀ n length, (∀ k < length, data[cand + k]! = data[pos + k]!) →
      matchLength data cand pos n length ≤ length + n ∧
        ∀ k < matchLength data cand pos n length, data[cand + k]! = data[pos + k]! := by
  intro n
  induction n with
  | zero => intro length h; exact ⟨le_rfl, h⟩
  | succ n ih =>
    intro length h
    rw [matchLength]
    split_ifs with heq
    · obtain ⟨hle, hag⟩ := ih (length + 1) (fun k hk => by
        rcases Nat.lt_succ_iff_lt_or_eq.mp hk with hk | rfl
        · exact h k hk
        · exact heq)
      exact ⟨by omega, hag⟩
    · exact ⟨by omega, h⟩

variable {data s : List UInt8} {maxChain : ℕ} {gs : List (List Token)} {e : Encoder}
  {cur : List Token} {mem : ℕ → Bool}

/-- The walk keeps a correct match: a candidate before `pos` is replaced only by an older one. -/
theorem walkChain_ok {prev : ℕ → ℕ} {pos maxLen windowStart : ℕ} :
    ∀ chain cand best, (cand = lzssNone ∨ cand < pos) → MatchOk data pos maxLen windowStart best →
      MatchOk data pos maxLen windowStart
        (walkChain data prev pos maxLen windowStart chain cand best) := by
  intro chain
  induction chain with
  | zero => intro cand best _ hb; exact hb
  | succ chain ih =>
    intro cand best hcand hb
    rw [walkChain]
    by_cases hc : cand ≠ lzssNone ∧ windowStart ≤ cand
    · have hlt : cand < pos := hcand.resolve_left hc.1
      obtain ⟨hle, hag⟩ := matchLength_spec data cand pos maxLen 0 (by simp)
      have hnew : MatchOk data pos maxLen windowStart
          (if best.1 ≤ matchLength data cand pos maxLen 0 then
            (matchLength data cand pos maxLen 0, cand) else best) := by
        split_ifs
        · exact ⟨by simpa using hle, fun _ => hlt, fun _ => hc.2, hag⟩
        · exact hb
      dsimp only
      generalize (if best.1 ≤ matchLength data cand pos maxLen 0 then
        (matchLength data cand pos maxLen 0, cand) else best) = best' at hnew
      split_ifs with hnext
      · exact hnew
      · refine ih _ _ ?_ hnew
        by_cases hn : prev (cand % lzssN) = lzssNone
        · exact .inl hn
        · exact .inr (by have := not_and.mp hnext hn; omega)
    · rw [if_neg hc]
      exact hb

/-- Every entry of `head` is a position already passed. -/
def Passed (t : Tables) (pos : ℕ) : Prop := ∀ h, t.head h = lzssNone ∨ t.head h < pos

theorem Passed.insertRange :
    ∀ (n : ℕ) (t : Tables) (p : ℕ), Passed t p → Passed (lzssInsertRange data t p n) (p + n) := by
  intro n
  induction n with
  | zero => intro t p h; exact h
  | succ n ih =>
    intro t p h
    rw [lzssInsertRange]
    split_ifs
    · exact fun k => (h k).imp_right (by omega)
    · rw [show p + (n + 1) = p + 1 + n by omega]
      apply ih
      intro k
      show Function.update t.head _ p k = _ ∨ Function.update t.head _ p k < _
      by_cases hk : k = lzssHash3 data p
      · rw [hk, Function.update_self]
        exact .inr (by omega)
      · rw [Function.update_of_ne hk]
        exact (h k).imp_right (by omega)

theorem getElem?_eq_some_getElem! {i : ℕ} (h : i < data.length) : data[i]? = some data[i]! := by
  rw [List.getElem?_eq_getElem h, getElem!_pos data i h]

theorem findMatch_spans {t : Tables} {pos : ℕ} (ht : Passed t pos) (hpos : pos < data.length)
    (hlong : lzssThreshold < (findMatch maxChain data t pos).1) :
    Spans data pos [.ref (findMatch maxChain data t pos).2 (findMatch maxChain data t pos).1]
      (pos + (findMatch maxChain data t pos).1) := by
  have hok : ∃ maxLen, maxLen ≤ lzssF ∧ pos + maxLen ≤ data.length ∧
      MatchOk data pos maxLen (if lzssN < pos then pos - lzssN else 0)
        (findMatch maxChain data t pos) := by
    refine ⟨if data.length - pos < lzssF then data.length - pos else lzssF, ?_, ?_, ?_⟩
    · split_ifs <;> omega
    · split_ifs <;> omega
    · have hnil : ∀ m w, MatchOk data pos m w (0, 0) := fun m w =>
        ⟨Nat.zero_le _, fun h => absurd h (lt_irrefl 0), fun h => absurd h (lt_irrefl 0),
          fun k hk => absurd hk (Nat.not_lt_zero k)⟩
      unfold findMatch
      dsimp only
      split_ifs
      all_goals first
        | exact walkChain_ok _ _ _ (ht _) (hnil _ _)
        | exact hnil _ _
  obtain ⟨maxLen, hF, hfit, hm⟩ := hok
  generalize findMatch maxChain data t pos = best at hlong hm
  have hbest : 0 < best.1 := by omega
  have hsrc := hm.src_lt hbest
  have hlen := hm.len_le
  have hwin : pos ≤ best.2 + lzssN := by
    have := hm.src_ge hbest
    split_ifs at this <;> omega
  refine ⟨⟨hsrc, hwin⟩, ⟨hlong, by omega⟩, by omega, fun k hk => ?_, rfl⟩
  rw [getElem?_eq_some_getElem! (by omega), getElem?_eq_some_getElem! (by omega), hm.agree k hk]

/-! ## The encoder's state -/

/-- The encoder has emitted the full groups `gs` and holds the tokens `cur` of an unfinished
one; together they span the data up to `pos`. -/
structure Emits (data : List UInt8) (e : Encoder) (gs : List (List Token)) (cur : List Token) :
    Prop where
  full : ∀ g ∈ gs, g.length = 8
  out_eq : e.out = encodeGroups gs
  bit_eq : e.flagBit = cur.length
  byte_eq : e.flagByte = groupFlags cur
  chunk_eq : e.chunk = groupBytes cur
  spans : Spans data 0 (gs.flatten ++ cur) e.pos
  pos_le : e.pos ≤ data.length
  passed : Passed e.tables e.pos

theorem emits_init (data : List UInt8) : Emits data Encoder.init [] [] where
  full := by simp
  out_eq := rfl
  bit_eq := rfl
  byte_eq := rfl
  chunk_eq := rfl
  spans := rfl
  pos_le := Nat.zero_le _
  passed := fun _ => .inl rfl

theorem groupFlags_concat_lit (cur : List Token) (c : UInt8) :
    groupFlags cur ||| (1 <<< cur.length) = groupFlags (cur ++ [.lit c]) := by
  have h := Nat.two_pow_add_eq_or_of_lt (groupFlags_lt cur) 1
  rw [groupFlags_append, Nat.or_comm, Nat.shiftLeft_eq, Nat.one_mul]
  rw [Nat.mul_one] at h
  rw [← h, Nat.add_comm]
  simp [groupFlags, Token.flag]

theorem groupFlags_concat_ref (cur : List Token) (src len : ℕ) :
    groupFlags cur = groupFlags (cur ++ [.ref src len]) := by
  rw [groupFlags_append]
  simp [groupFlags, Token.flag]

theorem groupBytes_concat (cur : List Token) (t : Token) :
    groupBytes cur ++ t.bytes = groupBytes (cur ++ [t]) := by
  unfold groupBytes
  rw [flatMap_append, flatMap_singleton]

theorem Emits.symbol (h : Emits data e gs cur) (maxChain : ℕ) (hpos : e.pos < data.length) :
    ∃ t, Emits data (e.symbol maxChain data) gs (cur ++ [t]) ∧
      e.pos < (e.symbol maxChain data).pos := by
  unfold Encoder.symbol
  by_cases hlong : lzssThreshold < (findMatch maxChain data e.tables e.pos).1
  · have hs := findMatch_spans h.passed hpos hlong
    simp only [hlong]
    refine ⟨.ref (findMatch maxChain data e.tables e.pos).2
      (findMatch maxChain data e.tables e.pos).1, ⟨h.full, h.out_eq, ?_, ?_, ?_, ?_, ?_, ?_⟩, ?_⟩
    · simp [h.bit_eq]
    · show e.flagByte = _
      rw [h.byte_eq, ← groupFlags_concat_ref]
    · rw [← groupBytes_concat, h.chunk_eq]
      rfl
    · rw [← append_assoc]
      exact h.spans.append hs
    · exact hs.2.2.1
    · exact Passed.insertRange _ _ _ h.passed
    · show e.pos < e.pos + _
      omega
  · simp only [hlong]
    refine ⟨.lit data[e.pos]!, ⟨h.full, h.out_eq, ?_, ?_, ?_, ?_, ?_, ?_⟩, ?_⟩
    · simp [h.bit_eq]
    · show e.flagByte ||| (1 <<< e.flagBit) = _
      rw [h.byte_eq, h.bit_eq, groupFlags_concat_lit]
    · rw [← groupBytes_concat, h.chunk_eq]
      rfl
    · rw [← append_assoc]
      exact h.spans.append ⟨getElem?_eq_some_getElem! hpos, rfl⟩
    · exact hpos
    · exact Passed.insertRange _ _ _ h.passed
    · exact Nat.lt_succ_self _

variable {e' : Encoder} {d : Decoder}

/-- A successful flush moves the held group to `out`, whatever the growth of `out` needed. -/
theorem Encoder.flush_eq (h : e.flush mem = some e') :
    e'.out = e.out ++ UInt8.ofNat e.flagByte :: e.chunk ∧ e'.flagByte = 0 ∧ e'.flagBit = 0 ∧
      e'.chunk = [] ∧ e'.pos = e.pos ∧ e'.tables = e.tables := by
  unfold Encoder.flush at h
  dsimp only at h
  split_ifs at h <;> simp only [map_some, map_none, Option.some.injEq,
    reduceCtorEq] at h <;> subst h <;> exact ⟨rfl, rfl, rfl, rfl, rfl, rfl⟩

theorem encodeGroups_concat (gs : List (List Token)) (g : List Token) :
    encodeGroups (gs ++ [g]) = encodeGroups gs ++ encodeGroup g := by
  unfold encodeGroups
  rw [flatMap_append, flatMap_singleton]

theorem Emits.flush (h : Emits data e gs cur) (h8 : cur.length = 8) (hf : e.flush mem = some e') :
    Emits data e' (gs ++ [cur]) [] ∧ e'.pos = e.pos := by
  obtain ⟨hout, hbyte, hbit, hchunk, hpos, htab⟩ := Encoder.flush_eq hf
  refine ⟨⟨?_, ?_, hbit, hbyte, hchunk, ?_, ?_, ?_⟩, hpos⟩
  · intro g hg
    rcases mem_append.mp hg with hg | hg
    · exact h.full g hg
    · rw [mem_singleton.mp hg]; exact h8
  · rw [hout, encodeGroups_concat, h.out_eq, h.byte_eq, h.chunk_eq]
    rfl
  · rw [flatten_append, flatten_singleton, append_nil, hpos]
    exact h.spans
  · rw [hpos]; exact h.pos_le
  · rw [hpos, htab]; exact h.passed

/-- The main loop, with enough rounds, ends at the end of the data with an unfinished group. -/
theorem encodeLoop_emits : ∀ (n : ℕ) (e e' : Encoder) (gs : List (List Token)) (cur : List Token),
      Emits data e gs cur → cur.length < 8 → data.length ≤ e.pos + n →
      encodeLoop mem maxChain data n e = some e' →
      ∃ gs' cur', Emits data e' gs' cur' ∧ cur'.length < 8 ∧ e'.pos = data.length := by
  intro n
  induction n with
  | zero =>
    intro e e' gs cur h hcur hn hrun
    cases hrun
    exact ⟨gs, cur, h, hcur, le_antisymm h.pos_le (by omega)⟩
  | succ n ih =>
    intro e e' gs cur h hcur hn hrun
    rw [encodeLoop] at hrun
    dsimp only at hrun
    split_ifs at hrun with hpos hbit
    · -- the eighth symbol of a group
      obtain ⟨t, ht, hadv⟩ := h.symbol maxChain hpos
      cases hfl : (e.symbol maxChain data).flush mem with
      | none => rw [hfl] at hrun; cases hrun
      | some e₁ =>
        rw [hfl] at hrun
        have h8 : (cur ++ [t]).length = 8 := ht.bit_eq.symm.trans hbit
        obtain ⟨h₁, hpos₁⟩ := ht.flush h8 hfl
        exact ih e₁ e' _ _ h₁ (by simp) (by omega) hrun
    · obtain ⟨t, ht, hadv⟩ := h.symbol maxChain hpos
      have hlen : (cur ++ [t]).length ≠ 8 := fun h8 => hbit (ht.bit_eq.trans h8)
      rw [length_append, length_singleton] at hlen
      exact ih _ e' _ _ ht (by rw [length_append, length_singleton]; omega)
        (by omega) hrun
    · cases hrun
      exact ⟨gs, cur, h, hcur, le_antisymm h.pos_le (by omega)⟩

/-- What `lzss_compress` returns is a stream: full groups, perhaps a shorter last one, whose
tokens span the data. -/
theorem lzssCompress_stream (h : lzssCompress mem maxChain data = some s) :
    ∃ gs cur, (∀ g ∈ gs, g.length = 8) ∧ cur.length < 8 ∧
      s = encodeGroups gs ++ (if cur = [] then [] else encodeGroup cur) ∧
      Spans data 0 (gs.flatten ++ cur) data.length := by
  unfold lzssCompress at h
  split_ifs at h with hmem
  cases hrun : encodeLoop mem maxChain data data.length Encoder.init with
  | none => rw [hrun] at h; cases h
  | some e =>
    rw [hrun] at h
    obtain ⟨gs, cur, he, hcur, hend⟩ := encodeLoop_emits data.length Encoder.init e [] []
      (emits_init data) (by simp) (Nat.le_add_left _ _) hrun
    refine ⟨gs, cur, he.full, hcur, ?_, hend ▸ he.spans⟩
    dsimp only at h
    split_ifs at h with hbit
    · -- the trailing group is flushed
      have hne : cur ≠ [] := by
        rintro rfl
        rw [he.bit_eq] at hbit
        exact absurd hbit (lt_irrefl 0)
      cases hfl : e.flush mem with
      | none => rw [hfl] at h; cases h
      | some e' =>
        rw [hfl] at h
        obtain ⟨hout, -⟩ := Encoder.flush_eq hfl
        rw [if_neg hne, ← Option.some.inj h, hout, he.out_eq, he.byte_eq, he.chunk_eq]
        rfl
    · have hnil : cur = [] := length_eq_zero_iff.mp (by rw [← he.bit_eq]; omega)
      rw [if_pos hnil, append_nil, ← Option.some.inj h, he.out_eq]

/-! ## The stream's size -/

theorem Spans.bytes_le {ts : List Token} {p q : ℕ} (h : Spans data p ts q) :
    p + (groupBytes ts).length ≤ q ∧ p + ts.length ≤ q := by
  induction ts generalizing p with
  | nil => cases h; exact ⟨le_rfl, le_rfl⟩
  | cons t ts ih =>
    rw [groupBytes_cons, length_append, length_cons]
    cases t with
    | lit c =>
      have := ih h.2
      simp only [Token.bytes, length_singleton]
      omega
    | ref src len =>
      have := ih h.2.2.2.2
      have hlen : 2 < len := h.2.1.1
      simp only [Token.bytes, length_cons, length_nil]
      omega

theorem length_le_groupBytes (ts : List Token) : ts.length ≤ (groupBytes ts).length := by
  induction ts with
  | nil => exact Nat.zero_le _
  | cons t ts ih =>
    have := length_pos_iff.mpr t.bytes_ne_nil
    rw [groupBytes_cons, length_append, length_cons]
    omega

theorem flatten_length_le_encodeGroups (gs : List (List Token)) :
    gs.flatten.length ≤ (encodeGroups gs).length := by
  induction gs with
  | nil => exact Nat.zero_le _
  | cons g gs ih =>
    have := length_le_groupBytes g
    unfold encodeGroups at *
    rw [flatMap_cons, flatten_cons, length_append, length_append, encodeGroup,
      length_cons]
    omega

theorem encodeGroups_length_le (h : ∀ g ∈ gs, g ≠ []) :
    (encodeGroups gs).length ≤ gs.flatten.length + (groupBytes gs.flatten).length := by
  induction gs with
  | nil => simp [encodeGroups]
  | cons g gs ih =>
    have hg : 0 < g.length := length_pos_iff.mpr (h g (by simp))
    have := ih fun g' hg' => h g' (by simp [hg'])
    unfold encodeGroups groupBytes at *
    simp only [flatMap_cons, flatten_cons, flatMap_append, length_append,
      encodeGroup, length_cons, groupBytes]
    omega

theorem lzssCompress_length_le
    (h : lzssCompress mem maxChain data = some s) : s.length ≤ 2 * data.length := by
  obtain ⟨gs, cur, hfull, -, rfl, hspans⟩ := lzssCompress_stream h
  have hsize := hspans.bytes_le
  have hgs := encodeGroups_length_le fun g hg => by
    have := hfull g hg
    rintro rfl
    simp at this
  unfold groupBytes at hsize hgs
  rw [flatMap_append, length_append, length_append] at hsize
  rw [length_append]
  by_cases hcur : cur = []
  · rw [if_pos hcur, length_nil]
    omega
  · have : 0 < cur.length := length_pos_iff.mpr hcur
    rw [if_neg hcur]
    unfold encodeGroup groupBytes
    rw [length_cons]
    omega

/-! ## Allocation -/

theorem Encoder.flush_isSome (e : Encoder) : (e.flush fun _ => true).isSome := by
  unfold Encoder.flush
  dsimp only
  rw [if_pos rfl]
  split_ifs <;> rfl

theorem encodeLoop_isSome (maxChain : ℕ) (data : List UInt8) :
    ∀ (n : ℕ) (e : Encoder), (encodeLoop (fun _ => true) maxChain data n e).isSome := by
  intro n
  induction n with
  | zero => intro e; rfl
  | succ n ih =>
    intro e
    rw [encodeLoop]
    dsimp only
    split_ifs
    · obtain ⟨e', he'⟩ := isSome_iff_exists.mp (e.symbol maxChain data).flush_isSome
      rw [he']
      exact ih e'
    · exact ih _
    · rfl

theorem lzssCompress_isSome (maxChain : ℕ) (hne : data ≠ []) :
    ∃ s, lzssCompress (fun _ => true) maxChain data = some s := by
  obtain ⟨e, he⟩ := isSome_iff_exists.mp
    (encodeLoop_isSome maxChain data data.length Encoder.init)
  obtain ⟨e', he'⟩ := isSome_iff_exists.mp e.flush_isSome
  unfold lzssCompress
  rw [if_neg hne, if_pos (by rfl), he]
  dsimp only
  by_cases hbit : 0 < e.flagBit
  · exact ⟨e'.out, by rw [if_pos hbit, he', map_some]⟩
  · exact ⟨e.out, if_neg hbit⟩

/-! ## The round trip -/

theorem decodeLoop_nil (capacity n : ℕ) (h : d.input = []) : decodeLoop capacity n d = d.done := by
  cases n with
  | zero => rfl
  | succ n => rw [decodeLoop, if_pos h]

theorem Reads.done (h : Reads data d data.length) : d.done = (data.length, data) := by
  show (d.out.length, d.out) = _
  rw [h.out_eq, take_length]

/-- The decoder on a stream that spans the data. The ring starts out with blanks and leftovers,
of which nothing is claimed: no reference reaches behind the data's first byte. -/
theorem lzssDecompress_stream (hne : data ≠ []) (hfull : ∀ g ∈ gs, g.length = 8)
    (hcur : cur.length < 8) (hs : Spans data 0 (gs.flatten ++ cur) data.length)
    (textBuf : ℕ → UInt8) :
    lzssDecompress (some textBuf) (encodeGroups gs ++ if cur = [] then [] else encodeGroup cur)
      data.length = (data.length, data) := by
  generalize hrest : (if cur = [] then [] else encodeGroup cur) = rest
  obtain ⟨p, hs₁, hs₂⟩ := hs.split
  have hstart : Reads data ⟨encodeGroups gs ++ rest, initialWindow textBuf, [], 0⟩ 0 :=
    ⟨rfl, Nat.zero_le _, holds_nil rfl⟩
  obtain ⟨d₁, hrun, hr, hin, hspent⟩ := decodeLoop_groups gs _ 0 p hfull (by simp) rfl hstart
    hs₁
  have hlen : gs.flatten.length ≤ (encodeGroups gs).length :=
    flatten_length_le_encodeGroups gs
  have hnil : encodeGroups gs ++ rest ≠ [] := by
    intro h
    obtain ⟨hg, hr0⟩ := append_eq_nil_iff.mp h
    rw [hg, length_nil, Nat.le_zero, length_eq_zero_iff] at hlen
    have hc : cur = [] := by
      by_contra hc
      rw [if_neg hc] at hrest
      rw [← hrest] at hr0
      exact cons_ne_nil _ _ hr0
    rw [hlen, hc] at hs
    exact hne (length_eq_zero_iff.mp hs.symm)
  unfold lzssDecompress
  rw [if_neg (by simp [hne, hnil])]
  show decodeLoop data.length (encodeGroups gs ++ rest).length _ = _
  obtain ⟨n, hn⟩ := Nat.exists_eq_add_of_le' hlen
  rw [length_append, hn, Nat.add_right_comm, hrun]
  by_cases hc : cur = []
  · subst hc hrest
    cases hs₂
    rw [decodeLoop_nil _ _ hin, hr.done]
  · rw [if_neg hc] at hrest
    have hcl : cur.length ≤ rest.length := by
      rw [← hrest]
      exact (length_le_groupBytes cur).trans (Nat.le_succ _)
    have hin' : d₁.input = encodeGroup cur ++ [] := by rw [hin, ← hrest, append_nil]
    obtain ⟨d₂, hrun₂, hr₂, hin₂, -⟩ := decodeLoop_group hc hcur.le hspent hin' hr hs₂
    obtain ⟨m, hm⟩ := Nat.exists_eq_add_of_le' hcl
    rw [hm, ← Nat.add_assoc, hrun₂, decodeLoop_nil _ _ hin₂, hr₂.done]

theorem lzssDecompress_of_compress (hne : data ≠ []) (hs : lzssCompress mem maxChain data = some s)
    (textBuf : ℕ → UInt8) : lzssDecompress (some textBuf) s data.length = (data.length, data) := by
  obtain ⟨gs, cur, hfull, hcur, rfl, hspans⟩ := lzssCompress_stream hs
  exact lzssDecompress_stream hne hfull hcur hspans textBuf

/-- **Round trip.** For 1 byte up to 256 KiB, what the encoder returns decodes to the data, in
full, whatever the decoder's ring held before. The stream's own size fits the 32-bit `in_size`,
and when no heap request fails there is one. -/
theorem lzssDecompress_lzssCompress (maxChain : ℕ) (data : List UInt8) (hpos : 1 ≤ data.length)
    (hmax : data.length ≤ 256 * 1024) :
    (∃ s, lzssCompress (fun _ => true) maxChain data = some s) ∧
      ∀ mem s, lzssCompress mem maxChain data = some s → s.length < 2 ^ 32 ∧
        ∀ textBuf, lzssDecompress (some textBuf) s data.length = (data.length, data) := by
  have hne : data ≠ [] := length_pos_iff.mp hpos
  refine ⟨lzssCompress_isSome maxChain hne, fun mem s hs => ⟨?_, fun textBuf => ?_⟩⟩
  · have := lzssCompress_length_le hs
    omega
  · exact lzssDecompress_of_compress hne hs textBuf

/-- Ten equal bytes: a literal and one match that overlaps its own source. -/
theorem lzssDecompress_lzssCompress_run :
    lzssCompress (fun _ => true) 8 (List.replicate 10 7) = some [1, 7, 0xEE, 0xF6] ∧
      lzssDecompress (some fun _ => 0) [1, 7, 0xEE, 0xF6] 10 = (10, List.replicate 10 7) := by
  have hs : lzssCompress (fun _ => true) 8 (List.replicate 10 7) = some [1, 7, 0xEE, 0xF6] := by
    decide +kernel
  exact ⟨hs, ((lzssDecompress_lzssCompress 8 (List.replicate 10 7) (by decide) (by decide)).2
    _ _ hs).2 _⟩

end MinimalOS.Lzss
