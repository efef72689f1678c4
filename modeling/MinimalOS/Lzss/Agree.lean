import MinimalOS.Lib.Best
import MinimalOS.Lzss.Mkpkg
import MinimalOS.Lzss.RoundTrip

/-!
# The two LZSS encoders agree

Both encoders look for the longest match in the window and take the earliest of several. The kernel
follows a chain of positions with the same hash from the newest to the oldest, through a table that
is overwritten as the window slides; a candidate replaces the best so far if it is as good. The
packer goes through the positions with the same three bytes from the oldest to the newest and
replaces the best only by a better one. The chain holds every position of the window with that hash
(`Chained`), the packer's list every one with that prefix (`Indexed`), and a position that is on the
chain only is worth less than three bytes.
-/

namespace MinimalOS.Lzss

open Best RingWindow List Function Option

/-! ## Match lengths -/

theorem matchLength_le (data : List UInt8) (cand pos n : ℕ) :
    ∀ length, length ≤ matchLength data cand pos n length := by
  induction n with
  | zero => intro length; exact le_rfl
  | succ n ih =>
    intro length
    rw [matchLength]
    split_ifs
    · exact (Nat.le_succ length).trans (ih _)
    · exact le_rfl

/-- The number of bytes, up to `maxLen`, that agree at two positions. -/
def common (data : List UInt8) (pos maxLen src : ℕ) : ℕ := matchLength data src pos maxLen 0

section common

variable {data : List UInt8} {pos maxLen src : ℕ}

theorem common_le : common data pos maxLen src ≤ maxLen := by
  have := (matchLength_spec data src pos maxLen 0 (by simp)).1
  rwa [Nat.zero_add] at this

variable {k : ℕ}

theorem common_agree (h : k < common data pos maxLen src) : data[src + k]! = data[pos + k]! :=
  (matchLength_spec data src pos maxLen 0 (by simp)).2 k h

theorem matchLength_eq_common (hk : k ≤ maxLen) (h : ∀ i < k, data[src + i]! = data[pos + i]!) :
    matchLength data src pos (maxLen - k) k = common data pos maxLen src := by
  induction k with
  | zero => rfl
  | succ k ih =>
    rw [← ih (by omega) fun i hi => h i (by omega), show maxLen - k = maxLen - (k + 1) + 1 by omega,
      matchLength, if_pos (h k (by omega))]

theorem le_common_of_agree (hk : k ≤ maxLen) (h : ∀ i < k, data[src + i]! = data[pos + i]!) :
    k ≤ common data pos maxLen src := by
  rw [← matchLength_eq_common hk h]
  exact matchLength_le _ _ _ _ _

end common

/-! ## The hash chains -/

/-- How many positions have been entered when the encoder is at `pos`: the last two bytes never
are. -/
def entered (data : List UInt8) (pos : ℕ) : ℕ := min pos (data.length - 2)

/-- A table entry for a position or for none. -/
def link (p : Option ℕ) : ℕ := p.getD lzssNone

/-- The last position below `b` with hash `h`. -/
def lastHash (data : List UInt8) (h b : ℕ) : Option ℕ :=
  lastBelow (fun p => lzssHash3 data p = h) b

/-- The tables after the first `m` positions have been entered: the newest position of every hash,
and for every position not yet overwritten the one before it with the same hash. -/
structure Chained (data : List UInt8) (t : Tables) (m : ℕ) : Prop where
  head : ∀ h, t.head h = link (lastHash data h m)
  prev : ∀ p < m, m ≤ p + lzssN → t.prev (p % lzssN) = link (lastHash data (lzssHash3 data p) p)

theorem chained_init (data : List UInt8) : Chained data Encoder.init.tables 0 :=
  ⟨fun _ => rfl, fun p hp => absurd hp (Nat.not_lt_zero p)⟩

variable {data : List UInt8} {t : Tables} {pos maxChain : ℕ} {p : Mkpkg.Encoder} {mem : ℕ → Bool}

theorem Chained.insert {m : ℕ} (h : Chained data t m) :
    Chained data
      { head := Function.update t.head (lzssHash3 data m) m,
        prev := Function.update t.prev (m % lzssN) (t.head (lzssHash3 data m)) } (m + 1) := by
  refine ⟨fun k => ?_, fun p hp hin => ?_⟩
  · show Function.update t.head (lzssHash3 data m) m k = link (lastHash data k (m + 1))
    rw [lastHash, lastBelow]
    by_cases hk : lzssHash3 data m = k
    · rw [if_pos hk, ← hk, update_self]
      rfl
    · rw [if_neg hk, update_of_ne (Ne.symm hk)]
      exact h.head k
  · show Function.update t.prev (m % lzssN) _ (p % lzssN) = _
    by_cases hpm : p = m
    · rw [hpm, update_self, h.head]
    · have hne : p % lzssN ≠ m % lzssN := by unfold lzssN at hin ⊢; omega
      rw [update_of_ne hne]
      exact h.prev p (by omega) (by omega)

theorem Chained.insertRange (n : ℕ) :
    ∀ {t : Tables} {pos : ℕ}, Chained data t (entered data pos) →
      Chained data (lzssInsertRange data t pos n) (entered data (pos + n)) := by
  induction n with
  | zero => intro t pos h; exact h
  | succ n ih =>
    intro t pos h
    rw [lzssInsertRange]
    by_cases hend : data.length ≤ pos + 2
    · rw [if_pos hend]
      rwa [show entered data (pos + (n + 1)) = entered data pos by unfold entered; omega]
    · rw [if_neg hend, show pos + (n + 1) = pos + 1 + n by omega]
      apply ih
      rw [show entered data pos = pos by unfold entered; omega] at h
      rw [show entered data (pos + 1) = pos + 1 by unfold entered; omega]
      exact h.insert

/-- The start of the window before `pos`. -/
def windowStart (pos : ℕ) : ℕ := pos - lzssN

/-- **The walk.** With links that go back one position of the same hash at a time, and as many
steps as the window has positions, it finds the earliest of the longest matches among the positions
of the window with the hash. `b` is where the walk has come to. -/
theorem walkChain_tracks {maxLen : ℕ} (ht : Chained data t pos) (hpos : pos < lzssNone) :
    ∀ (chain b : ℕ) (best : ℕ × ℕ), windowStart pos ≤ b → b ≤ pos → b - windowStart pos ≤ chain →
      Tracks (common data pos maxLen) (0, 0)
        (fun q => b ≤ q ∧ q < pos ∧ lzssHash3 data q = lzssHash3 data pos) best →
      Tracks (common data pos maxLen) (0, 0)
        (fun q => windowStart pos ≤ q ∧ q < pos ∧ lzssHash3 data q = lzssHash3 data pos)
        (walkChain data t.prev pos maxLen (windowStart pos) chain
          (link (lastHash data (lzssHash3 data pos) b)) best) := by
  intro chain
  induction chain with
  | zero =>
    intro b best hwb _ hchain h
    rw [show b = windowStart pos by omega] at h
    exact h
  | succ chain ih =>
    intro b best hwb hb hchain h
    -- nothing of the window before `b` is left
    have hdone : (∀ q, windowStart pos ≤ q → q < b → lzssHash3 data q ≠ lzssHash3 data pos) →
        Tracks (common data pos maxLen) (0, 0)
          (fun q => windowStart pos ≤ q ∧ q < pos ∧ lzssHash3 data q = lzssHash3 data pos) best :=
      fun hno => h.congr fun q => ⟨fun ⟨h1, h2⟩ => ⟨hwb.trans h1, h2⟩, fun ⟨h1, h2, h3⟩ =>
        ⟨by by_contra hlt; exact hno q h1 (by omega) h3, h2, h3⟩⟩
    rw [walkChain]
    cases hlast : lastHash data (lzssHash3 data pos) b with
    | none =>
      exact hdone fun q _ hq => lastBelow_eq_none hlast q hq
    | some q =>
      obtain ⟨hqb, hqh, hbetween⟩ := lastBelow_eq_some hlast
      show Tracks _ _ _ (if q ≠ lzssNone ∧ windowStart pos ≤ q then _ else _)
      by_cases hq : windowStart pos ≤ q
      · rw [if_pos ⟨by omega, hq⟩]
        have hnext : t.prev (q % lzssN) = link (lastHash data (lzssHash3 data pos) q) := by
          rw [ht.prev q (by omega) (by unfold windowStart at hq; omega), hqh]
        show Tracks _ _ _ (if t.prev (q % lzssN) ≠ lzssNone ∧ q ≤ t.prev (q % lzssN) then _
          else walkChain _ _ _ _ _ _ (t.prev (q % lzssN)) _)
        rw [hnext, if_neg]
        · refine ih q _ hq (by omega) (by omega) ?_
          refine (h.before (q := q) (fun r hr => by omega) (Nat.zero_le _)).congr fun r => ?_
          constructor
          · rintro (rfl | ⟨h1, h2⟩)
            · exact ⟨le_rfl, by omega, hqh⟩
            · exact ⟨by omega, h2⟩
          · rintro ⟨h1, h2, h3⟩
            by_cases hrq : r = q
            · exact .inl hrq
            · exact .inr ⟨by by_contra hlt; exact hbetween r (by omega) (by omega) h3, h2, h3⟩
        · rintro ⟨hne, hle⟩
          cases hprev : lastHash data (lzssHash3 data pos) q with
          | none => rw [hprev] at hne; exact hne rfl
          | some r =>
            rw [hprev] at hle
            have := (lastBelow_eq_some hprev).1
            change q ≤ r at hle
            omega
      · rw [if_neg fun h => hq h.2]
        exact hdone fun r hr hrb hh => hbetween r (by omega) hrb hh

/-- The length up to which bytes are compared at `pos`. -/
def maxLenAt (data : List UInt8) (pos : ℕ) : ℕ := min lzssF (data.length - pos)

theorem findMatch_tracks (ht : Chained data t pos) (hchain : lzssN ≤ maxChain)
    (hpos : pos < lzssNone) (hlen : 3 ≤ maxLenAt data pos) :
    Tracks (common data pos (maxLenAt data pos)) (0, 0)
      (fun q => windowStart pos ≤ q ∧ q < pos ∧ lzssHash3 data q = lzssHash3 data pos)
      (findMatch maxChain data t pos) := by
  have hmax : (if data.length - pos < lzssF then data.length - pos else lzssF) =
      maxLenAt data pos := by
    unfold maxLenAt
    split_ifs <;> omega
  have hwin : (if lzssN < pos then pos - lzssN else 0) = windowStart pos := by
    unfold windowStart
    split_ifs <;> omega
  unfold findMatch
  rw [hmax, hwin, if_pos (by exact hlen), ht.head]
  exact walkChain_tracks ht hpos maxChain pos (0, 0) (Nat.sub_le _ _) le_rfl
    (by unfold windowStart; omega) (Tracks.nil fun q hq => by omega)

/-! ## The packer's index -/

namespace Mkpkg

/-- The dictionary after the first `m` positions have been indexed. -/
structure Indexed (data : List UInt8) (x : Index) (m : ℕ) : Prop where
  indexed : x.indexed = m
  chains : ∀ key, x.chains key = (List.range m).filter fun p => prefix3 data p = key

variable {data : List UInt8} {pos : ℕ}

theorem Indexed.add {x : Index} {m : ℕ} (h : Indexed data x m) :
    Indexed data
      { chains := Function.update x.chains (prefix3 data x.indexed)
          (x.chains (prefix3 data x.indexed) ++ [x.indexed])
        indexed := x.indexed + 1 } (m + 1) := by
  refine ⟨by show x.indexed + 1 = m + 1; rw [h.indexed], fun key => ?_⟩
  show Function.update x.chains (prefix3 data x.indexed) _ key = _
  rw [range_succ, filter_append, h.indexed]
  by_cases hk : key = prefix3 data m
  · rw [hk, update_self, h.chains, filter_singleton, decide_eq_true rfl]
    rfl
  · rw [update_of_ne hk, h.chains, filter_singleton,
      decide_eq_false (Ne.symm hk)]
    exact (append_nil _).symm

theorem indexUpTo_spec :
    ∀ (rounds : ℕ) {x : Index} {m : ℕ}, Indexed data x m → m ≤ entered data pos →
      entered data pos - m ≤ rounds →
      Indexed data (indexUpTo data pos rounds x) (entered data pos) := by
  intro rounds
  induction rounds with
  | zero =>
    intro x m h hm hr
    rw [show entered data pos = m by omega]
    exact h
  | succ rounds ih =>
    intro x m h hm hr
    rw [indexUpTo]
    by_cases hlt : m < entered data pos
    · rw [if_pos (by rw [h.indexed]; unfold entered at hlt; omega)]
      exact ih h.add hlt (by omega)
    · rw [if_neg (by rw [h.indexed]; unfold entered at hlt hm; omega),
        show entered data pos = m by omega]
      exact h

/-- **The packer's loop.** Going through candidates that agree in three bytes, in increasing order,
it finds the earliest of the longest. -/
theorem tryCandidates_tracks {maxLen : ℕ} (hlen : 3 ≤ maxLen) :
    ∀ (l : List ℕ) (C : ℕ → Prop) (best : ℕ × ℕ),
      (∀ q ∈ l, ∀ i < 3, data[q + i]! = data[pos + i]!) → l.Pairwise (· < ·) →
      (∀ q ∈ l, ∀ r, C r → r < q) → Tracks (common data pos maxLen) (0, 0) C best →
      Tracks (common data pos maxLen) (0, 0) (fun q => C q ∨ q ∈ l)
        (tryCandidates data pos maxLen l best) := by
  intro l
  induction l with
  | nil =>
    intro C best _ _ _ h
    exact h.congr fun q => by simp
  | cons src rest ih =>
    intro C best hagree hsorted hafter h
    have hsrc := hagree src mem_cons_self
    rw [pairwise_cons] at hsorted
    have hlong : 3 ≤ common data pos maxLen src := le_common_of_agree hlen hsrc
    have hnext := h.behind (hafter src mem_cons_self) (by omega)
    -- what is left of the list, whatever the best is now
    have hrest : ∀ best', Tracks (common data pos maxLen) (0, 0) (fun r => C r ∨ r = src) best' →
        Tracks (common data pos maxLen) (0, 0) (fun q => C q ∨ q ∈ src :: rest)
          (tryCandidates data pos maxLen rest best') := by
      intro best' h'
      refine (ih _ best' (fun q hq => hagree q (mem_cons_of_mem _ hq)) hsorted.2 ?_ h').congr
        fun q => by rw [mem_cons]; tauto
      rintro q hq r (hr | rfl)
      · exact hafter q (mem_cons_of_mem _ hq) r hr
      · exact hsorted.1 q hq
    rw [tryCandidates]
    by_cases hskip : best.1 ≠ 0 ∧ data[src + best.1]! ≠ data[pos + best.1]!
    · -- it differs from `pos` where a better one would agree
      rw [if_pos hskip]
      apply hrest
      rwa [if_neg fun hlt => hskip.2 (common_agree hlt)] at hnext
    · rw [if_neg hskip, matchLength_eq_common hlen hsrc]
      by_cases hlt : best.1 < common data pos maxLen src
      · rw [if_pos hlt] at hnext ⊢
        by_cases hfull : maxLen ≤ common data pos maxLen src
        · rw [if_pos hfull]
          rcases hnext with ⟨hn, _⟩ | he
          · exact absurd (.inr rfl) (hn src)
          · refine (Tracks.stop he (l := (· ∈ rest)) ?_ fun r _ => common_le.trans hfull).congr
              fun q => by rw [mem_cons]; tauto
            rintro r hr q (hq | rfl)
            · exact hafter r (mem_cons_of_mem _ hr) q hq
            · exact hsorted.1 r hr
        · rw [if_neg hfull]
          exact hrest _ hnext
      · rw [if_neg hlt] at hnext ⊢
        exact hrest _ hnext

theorem drop_bisectLeft {l : List ℕ} (h : l.Pairwise (· < ·)) (x : ℕ) :
    l.drop (bisectLeft l x) = l.filter fun q => x ≤ q := by
  induction l with
  | nil => rfl
  | cons a l ih =>
    rw [pairwise_cons] at h
    unfold bisectLeft
    by_cases ha : a < x
    · rw [takeWhile_cons_of_pos (by simpa using ha), length_cons,
        filter_cons_of_neg (by simpa using ha)]
      exact ih h.2
    · rw [takeWhile_cons_of_neg (by simpa using ha), length_nil]
      refine (filter_eq_self.mpr fun q hq => ?_).symm
      rcases mem_cons.mp hq with rfl | hq
      · simpa using ha
      · have := h.1 q hq
        simp only [decide_eq_true_eq]
        omega

theorem prefix3_eq_iff {p q : ℕ} (hp : p + 3 ≤ data.length) (hq : q + 3 ≤ data.length) :
    prefix3 data q = prefix3 data p ↔ ∀ i < 3, data[q + i]! = data[p + i]! := by
  have hget : ∀ r, r + 3 ≤ data.length →
      prefix3 data r = [data[r + 0]!, data[r + 1]!, data[r + 2]!] := by
    intro r hr
    unfold prefix3
    apply ext_getElem
    · rw [length_take, length_drop]
      show min 3 (data.length - r) = 3
      omega
    · intro i h1 h2
      rw [getElem_take, getElem_drop]
      have hi : i < 3 := h2
      interval_cases i <;> exact (getElem!_pos data _ (by omega)).symm
  rw [hget p hp, hget q hq]
  constructor
  · intro h i hi
    injection h with h0 h
    injection h with h1 h
    injection h with h2 _
    interval_cases i <;> assumption
  · intro h
    rw [h 0 (by omega), h 1 (by omega), h 2 (by omega)]

theorem findMatch_tracks {x : Index} (hx : Indexed data x pos) (hlen : 3 ≤ maxLenAt data pos) :
    Tracks (common data pos (maxLenAt data pos)) (0, 0)
      (fun q => windowStart pos ≤ q ∧ q < pos ∧ ∀ i < 3, data[q + i]! = data[pos + i]!)
      (findMatch data x pos) := by
  have hfit : pos + 3 ≤ data.length := by unfold maxLenAt at hlen; omega
  have hsorted : (x.chains (prefix3 data pos)).Pairwise (· < ·) := by
    rw [hx.chains]
    exact pairwise_lt_range.filter _
  have hmem : ∀ q, q ∈ (x.chains (prefix3 data pos)).drop
      (bisectLeft (x.chains (prefix3 data pos)) (windowStart pos)) ↔
        windowStart pos ≤ q ∧ q < pos ∧ ∀ i < 3, data[q + i]! = data[pos + i]! := by
    intro q
    rw [drop_bisectLeft hsorted, mem_filter, hx.chains, mem_filter, mem_range]
    simp only [decide_eq_true_eq]
    constructor
    · rintro ⟨⟨h1, h2⟩, h3⟩
      exact ⟨h3, h1, (prefix3_eq_iff hfit (by omega)).mp h2⟩
    · rintro ⟨h1, h2, h3⟩
      exact ⟨⟨h2, (prefix3_eq_iff hfit (by omega)).mpr h3⟩, h1⟩
  unfold findMatch
  rw [if_pos (by exact hlen)]
  refine (tryCandidates_tracks hlen _ (fun _ => False) (0, 0)
    (fun q hq => ((hmem q).mp hq).2.2) (hsorted.sublist (drop_sublist _ _))
    (fun _ _ _ h => h.elim) (Tracks.nil fun _ h => h)).congr fun q => ?_
  rw [false_or]
  exact hmem q

end Mkpkg

/-! ## Step by step -/

theorem lzssHash3_congr {p q : ℕ} (h : ∀ i < 3, data[q + i]! = data[p + i]!) :
    lzssHash3 data q = lzssHash3 data p := by
  unfold lzssHash3
  rw [show data[q]! = data[p]! from h 0 (by omega), h 1 (by omega), h 2 (by omega)]

theorem findMatch_agree {x : Mkpkg.Index} (ht : Chained data t (entered data pos))
    (hx : Mkpkg.Indexed data x (entered data pos)) (hchain : lzssN ≤ maxChain)
    (hsize : data.length < 2 ^ 32) :
    (lzssThreshold < (findMatch maxChain data t pos).1 ↔
        lzssThreshold < (Mkpkg.findMatch data x pos).1) ∧
      (lzssThreshold < (findMatch maxChain data t pos).1 →
        findMatch maxChain data t pos = Mkpkg.findMatch data x pos) := by
  by_cases hlen : 3 ≤ maxLenAt data pos
  · have hpos : pos + 3 ≤ data.length := by unfold maxLenAt at hlen; omega
    rw [show entered data pos = pos by unfold entered; omega] at ht hx
    refine (findMatch_tracks ht hchain (by unfold lzssNone; omega) hlen).unique
      (Mkpkg.findMatch_tracks hx hlen) (by decide) ?_ ?_
    · rintro q ⟨h1, h2, h3⟩
      exact ⟨h1, h2, lzssHash3_congr h3⟩
    · rintro q ⟨h1, h2, _⟩ hlong
      exact ⟨h1, h2, fun i hi => common_agree (hi.trans_le hlong)⟩
  · have hC : findMatch maxChain data t pos = (0, 0) := by
      unfold findMatch
      rw [if_neg]
      unfold maxLenAt at hlen
      unfold lzssThreshold
      split_ifs <;> omega
    have hP : Mkpkg.findMatch data x pos = (0, 0) := by
      unfold Mkpkg.findMatch
      rw [if_neg (by exact hlen)]
    rw [hC, hP]
    exact ⟨Iff.rfl, fun _ => rfl⟩

/-- The two encoders have written the same and are at the same place. -/
structure Alike (data : List UInt8) (e : Encoder) (p : Mkpkg.Encoder) : Prop where
  out : e.out = p.out
  flagByte : e.flagByte = p.flagByte
  flagBit : e.flagBit = p.flagBit
  chunk : e.chunk = p.chunk
  pos : e.pos = p.pos
  tables : Chained data e.tables (entered data e.pos)
  index : ∃ m ≤ entered data p.pos, Mkpkg.Indexed data p.index m

theorem alike_init (data : List UInt8) : Alike data Encoder.init Mkpkg.Encoder.init where
  out := rfl
  flagByte := rfl
  flagBit := rfl
  chunk := rfl
  pos := rfl
  tables := by
    show Chained data Encoder.init.tables (entered data 0)
    exact chained_init data
  index := ⟨0, Nat.zero_le _, rfl, fun _ => rfl⟩

theorem entered_mono {p q : ℕ} (h : p ≤ q) : entered data p ≤ entered data q := by
  unfold entered
  omega

theorem Alike.symbol {e : Encoder} (h : Alike data e p) (hchain : lzssN ≤ maxChain)
    (hsize : data.length < 2 ^ 32) : Alike data (e.symbol maxChain data) (p.symbol data) := by
  obtain ⟨m, hm, hidx⟩ := h.index
  have hx := Mkpkg.indexUpTo_spec p.pos hidx hm (by unfold entered; omega)
  have ht := h.tables
  rw [h.pos] at ht
  obtain ⟨hiff, heq⟩ := findMatch_agree ht hx hchain hsize
  unfold Encoder.symbol Mkpkg.Encoder.symbol
  rw [h.pos]
  by_cases hlong : lzssThreshold < (findMatch maxChain data e.tables p.pos).1
  · rw [if_pos hlong, if_pos (hiff.mp hlong), heq hlong]
    exact ⟨h.out, h.flagByte, by dsimp only; rw [h.flagBit], by dsimp only; rw [h.chunk], rfl,
      ht.insertRange _, ⟨_, entered_mono (Nat.le_add_right _ _), hx⟩⟩
  · rw [if_neg hlong, if_neg fun h' => hlong (hiff.mpr h')]
    exact ⟨h.out, by dsimp only; rw [h.flagByte, h.flagBit], by dsimp only; rw [h.flagBit],
      by dsimp only; rw [h.chunk], rfl, ht.insertRange 1,
      ⟨_, entered_mono (Nat.le_add_right _ _), hx⟩⟩

theorem Alike.flush {e e' : Encoder} (h : Alike data e p) (hbit : 0 < e.flagBit)
    (he : e.flush mem = some e') : Alike data e' p.flush := by
  obtain ⟨calls, cap, rfl⟩ : ∃ calls cap, e' = { e with
      out := e.out ++ UInt8.ofNat e.flagByte :: e.chunk, flagByte := 0, flagBit := 0, chunk := [],
      capacity := cap, calls := calls } := by
    obtain ⟨g, hg, rfl⟩ := map_eq_some_iff.mp he
    split_ifs at hg
    · cases hg
      exact ⟨_, _, rfl⟩
    · cases hg
      exact ⟨_, _, rfl⟩
  unfold Mkpkg.Encoder.flush
  rw [if_pos (h.flagBit ▸ hbit)]
  exact ⟨by dsimp only; rw [h.out, h.flagByte, h.chunk], rfl, rfl, rfl, h.pos, h.tables, h.index⟩

theorem encodeLoop_alike (hchain : lzssN ≤ maxChain) (hsize : data.length < 2 ^ 32) :
    ∀ (n : ℕ) {e e' : Encoder} {p : Mkpkg.Encoder}, Alike data e p →
      encodeLoop mem maxChain data n e = some e' → Alike data e' (Mkpkg.encodeLoop data n p) := by
  intro n
  induction n with
  | zero =>
    intro e e' p h he
    cases he
    exact h
  | succ n ih =>
    intro e e' p h he
    rw [encodeLoop] at he
    rw [Mkpkg.encodeLoop]
    by_cases hpos : e.pos < data.length
    · have hs := h.symbol hchain hsize
      rw [if_pos hpos] at he
      rw [if_pos (h.pos ▸ hpos)]
      dsimp only at ⊢
      by_cases h8 : (e.symbol maxChain data).flagBit = 8
      · rw [if_pos h8] at he
        rw [if_pos (hs.flagBit ▸ h8)]
        split at he
        · cases he
        · next g hg => exact ih (hs.flush (by omega) hg) he
      · rw [if_neg h8] at he
        rw [if_neg (hs.flagBit ▸ h8)]
        exact ih hs he
    · rw [if_neg hpos] at he
      rw [if_neg (h.pos ▸ hpos)]
      cases he
      exact h

/-- **The kernel's encoder and the packer's write the same stream.** With a chain at least as long
as the window, a stream the kernel's encoder returns is the packer's; it returns one unless a heap
request fails. Without data it returns none, and the packer's stream is empty. -/
theorem lzssCompress_eq_mkpkg (maxChain : ℕ) (hchain : 4096 ≤ maxChain) (data : List UInt8)
    (hsize : data.length < 2 ^ 32) :
    (∀ mem s, lzssCompress mem maxChain data = some s → s = Mkpkg.lzssCompress data) ∧
      (data ≠ [] →
        lzssCompress (fun _ => true) maxChain data = some (Mkpkg.lzssCompress data)) ∧
      (data = [] → Mkpkg.lzssCompress data = []) := by
  have hall : ∀ mem s, lzssCompress mem maxChain data = some s → s = Mkpkg.lzssCompress data := by
    intro mem s hs
    unfold lzssCompress at hs
    rw [ite_none_left_eq_some, ite_none_right_eq_some] at hs
    obtain ⟨_, _, hs⟩ := hs
    split at hs
    · cases hs
    · next e he =>
      have h := encodeLoop_alike hchain hsize data.length (alike_init data) he
      unfold Mkpkg.lzssCompress
      split_ifs at hs with hbit
      · obtain ⟨e', he', rfl⟩ := map_eq_some_iff.mp hs
        exact (h.flush hbit he').out
      · cases hs
        rw [Mkpkg.Encoder.flush, if_neg (h.flagBit ▸ hbit)]
        exact h.out
  refine ⟨hall, fun hne => ?_, fun h => by rw [h]; rfl⟩
  obtain ⟨s, hs⟩ := lzssCompress_isSome maxChain hne
  rw [hs, hall _ s hs]

/-- Eleven bytes with a match that has an equally long one behind it. -/
theorem lzssCompress_eq_mkpkg_sample :
    lzssCompress (fun _ => true) 4096 [1, 2, 3, 4, 1, 2, 3, 5, 1, 2, 3] =
      some (Mkpkg.lzssCompress [1, 2, 3, 4, 1, 2, 3, 5, 1, 2, 3]) :=
  (lzssCompress_eq_mkpkg 4096 le_rfl [1, 2, 3, 4, 1, 2, 3, 5, 1, 2, 3] (by decide)).2.1
    (by decide)

end MinimalOS.Lzss
