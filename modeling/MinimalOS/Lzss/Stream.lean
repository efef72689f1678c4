import Mathlib.Data.Nat.Bitwise
import MinimalOS.Lzss.Codec

/-!
# LZSS streams as tokens

The format between the two halves of the codec: a token is a literal byte or a reference to an
earlier position of the data, a group is a flag byte and the bytes of up to eight tokens, and a
stream is a sequence of groups of which all but the last are full. `Spans data p ts q` says that
the tokens `ts` describe the bytes of `data` from position `p` to position `q`.

`decodeLoop_groups`: the decoder turns every stream of tokens that spans the data back into the
data, from any ring contents.
-/

namespace MinimalOS.Lzss

open RingWindow List

inductive Token where
  | lit (c : UInt8)
  | ref (src len : ℕ)
deriving DecidableEq, Repr

/-- The flag bit of a token: 1 for a literal. -/
def Token.flag : Token → ℕ
  | .lit _ => 1
  | .ref _ _ => 0

/-- The window position the stream names for position `src` of the data. -/
def ringPos (src : ℕ) : ℕ := (lzssN - lzssF + src) % lzssN

def Token.bytes : Token → List UInt8
  | .lit c => [c]
  | .ref src len =>
    [UInt8.ofNat (ringPos src &&& 0xFF),
      UInt8.ofNat (((ringPos src >>> 8) <<< 4) ||| ((len - (lzssThreshold + 1)) &&& 0x0F))]

/-- The flag byte of a group, first token in bit 0. -/
def groupFlags : List Token → ℕ
  | [] => 0
  | t :: ts => t.flag + 2 * groupFlags ts

def groupBytes (ts : List Token) : List UInt8 := ts.flatMap Token.bytes

def encodeGroup (ts : List Token) : List UInt8 := UInt8.ofNat (groupFlags ts) :: groupBytes ts

/-- The tokens `ts` describe the bytes of `data` from `p` to `q`; a reference looks back at
most a window and copies bytes that agree. -/
def Spans (data : List UInt8) : ℕ → List Token → ℕ → Prop
  | p, [], q => p = q
  | p, .lit c :: ts, q => data[p]? = some c ∧ Spans data (p + 1) ts q
  | p, .ref src len :: ts, q =>
    (src < p ∧ p ≤ src + lzssN) ∧ (lzssThreshold < len ∧ len ≤ lzssF) ∧ p + len ≤ data.length ∧
      (∀ k < len, data[src + k]? = data[p + k]?) ∧ Spans data (p + len) ts q

variable {data rest : List UInt8} {p q m l fb : ℕ} {ts : List Token} {d : Decoder}

variable {us : List Token} {r i : ℕ}

theorem Spans.append (h : Spans data p ts q) (h' : Spans data q us r) :
    Spans data p (ts ++ us) r := by
  induction ts generalizing p with
  | nil => cases h; exact h'
  | cons t ts ih =>
    cases t with
    | lit c => exact ⟨h.1, ih h.2⟩
    | ref src len => exact ⟨h.1, h.2.1, h.2.2.1, h.2.2.2.1, ih h.2.2.2.2⟩

theorem Spans.split (h : Spans data p (ts ++ us) r) :
    ∃ q, Spans data p ts q ∧ Spans data q us r := by
  induction ts generalizing p with
  | nil => exact ⟨p, rfl, h⟩
  | cons t ts ih =>
    cases t with
    | lit c =>
      obtain ⟨q, h1, h2⟩ := ih h.2
      exact ⟨q, ⟨h.1, h1⟩, h2⟩
    | ref src len =>
      obtain ⟨q, h1, h2⟩ := ih h.2.2.2.2
      exact ⟨q, ⟨h.1, h.2.1, h.2.2.1, h.2.2.2.1, h1⟩, h2⟩

/-! ## Flag bytes -/

theorem Token.flag_le (t : Token) : t.flag ≤ 1 := by cases t <;> simp [Token.flag]

theorem groupFlags_lt (ts : List Token) : groupFlags ts < 2 ^ ts.length := by
  induction ts with
  | nil => simp [groupFlags]
  | cons t ts ih =>
    have := t.flag_le
    rw [groupFlags, length_cons]
    omega

theorem groupFlags_append (ts us : List Token) :
    groupFlags (ts ++ us) = groupFlags ts + 2 ^ ts.length * groupFlags us := by
  induction ts with
  | nil => simp [groupFlags]
  | cons t ts ih =>
    rw [cons_append, groupFlags, groupFlags, ih, length_cons]
    ring

theorem groupFlags_shift (ts us : List Token) :
    groupFlags (ts ++ us) / 2 ^ ts.length = groupFlags us := by
  rw [groupFlags_append, Nat.add_mul_div_left _ _ (by positivity),
    Nat.div_eq_of_lt (groupFlags_lt ts), Nat.zero_add]

theorem groupFlags_mod_two (t : Token) (ts : List Token) : groupFlags (t :: ts) % 2 = t.flag := by
  have := t.flag_le
  rw [groupFlags]
  omega

/-! ## Match bytes -/

theorem ringPos_lt (src : ℕ) : ringPos src < lzssN := Nat.mod_lt _ (by norm_num)

theorem matchByte_toNat (hm : m < 4096) (hl : l < 16) :
    (UInt8.ofNat (((m >>> 8) <<< 4) ||| (l &&& 0x0F))).toNat = 16 * (m / 256) + l := by
  have hl' : l &&& 0x0F = l := by
    rw [show (0x0F : ℕ) = 2 ^ 4 - 1 from rfl, Nat.and_two_pow_sub_one_eq_mod,
      Nat.mod_eq_of_lt hl]
  have hor : (m >>> 8) <<< 4 ||| l = 16 * (m / 256) + l := by
    rw [Nat.shiftRight_eq_div_pow, Nat.shiftLeft_eq, Nat.mul_comm,
      ← Nat.two_pow_add_eq_or_of_lt hl]
  rw [hl', hor, UInt8.toNat_ofNat_of_lt']
  show 16 * (m / 256) + l < 256
  omega

theorem matchPos_bytes (hm : m < 4096) (hl : l < 16) : (UInt8.ofNat (m &&& 0xFF)).toNat |||
      (((UInt8.ofNat (((m >>> 8) <<< 4) ||| (l &&& 0x0F))).toNat &&& 0xF0) <<< 4) = m := by
  have hlow : (UInt8.ofNat (m &&& 0xFF)).toNat = m % 256 := by
    rw [show (0xFF : ℕ) = 2 ^ 8 - 1 from rfl, Nat.and_two_pow_sub_one_eq_mod,
      UInt8.toNat_ofNat_of_lt']
    exact Nat.mod_lt _ (by norm_num)
  have hmask : ∀ a < 16, ∀ l < 16, (16 * a + l) &&& 0xF0 = 16 * a := by decide
  rw [hlow, matchByte_toNat hm hl, hmask _ (by omega) _ hl, Nat.shiftLeft_eq, Nat.or_comm,
    show 16 * (m / 256) * 2 ^ 4 = 2 ^ 8 * (m / 256) by ring,
    ← Nat.two_pow_add_eq_or_of_lt (Nat.mod_lt _ (by norm_num))]
  exact Nat.div_add_mod m 256

theorem matchLen_bytes (hm : m < 4096) (hl : l < 16) :
    (UInt8.ofNat (((m >>> 8) <<< 4) ||| (l &&& 0x0F))).toNat &&& 0x0F = l := by
  rw [matchByte_toNat hm hl, show (0x0F : ℕ) = 2 ^ 4 - 1 from rfl, Nat.and_two_pow_sub_one_eq_mod]
  omega

/-! ## The flag register -/

theorem register_eq (hfb : fb < 256) (i : ℕ) : (fb ||| 0xFF00) >>> i = (fb + 65280) / 2 ^ i := by
  rw [Nat.shiftRight_eq_div_pow, Nat.or_comm, show (0xFF00 : ℕ) = 2 ^ 8 * 255 from rfl,
    ← Nat.two_pow_add_eq_or_of_lt hfb, Nat.add_comm]

theorem register_guard (hfb : fb < 256) (hi : i < 8) : (fb ||| 0xFF00) >>> i &&& 0x100 ≠ 0 := by
  rw [register_eq hfb, show (0x100 : ℕ) = 2 ^ 8 from rfl, Nat.and_two_pow,
    Nat.testBit_eq_decide_div_mod_eq]
  interval_cases i <;> simp <;> omega

/-- After eight shifts it is clear, which is when the decoder fetches the next flag byte. -/
theorem register_spent (hfb : fb < 256) : (fb ||| 0xFF00) >>> 8 &&& 0x100 = 0 := by
  rw [register_eq hfb, show (0x100 : ℕ) = 2 ^ 8 from rfl, Nat.and_two_pow,
    Nat.testBit_eq_decide_div_mod_eq]
  simp
  omega

theorem register_bit (hfb : fb < 256) (hi : i < 8) :
    (fb ||| 0xFF00) >>> i &&& 1 = fb / 2 ^ i % 2 := by
  rw [register_eq hfb, Nat.and_one_is_mod]
  interval_cases i <;> omega

/-! ## Decoding a token -/

/-- The decoder has reproduced `data` up to position `p`, in `out` and in its ring. -/
structure Reads (data : List UInt8) (d : Decoder) (p : ℕ) : Prop where
  out_eq : d.out = data.take p
  le : p ≤ data.length
  holds : Holds lzssN (lzssN - lzssF) d.window d.out

theorem Reads.length (h : Reads data d p) : d.out.length = p := by
  rw [h.out_eq, length_take, Nat.min_eq_left h.le]

theorem Reads.put {c : UInt8} (h : Reads data d p) (hc : data[p]? = some c) :
    ∃ d', d.put data.length c = .ok d' ∧ Reads data d' (p + 1) ∧ d'.input = d.input ∧
      d'.flags = d.flags := by
  have hp : p < data.length := (List.getElem?_eq_some_iff.mp hc).1
  unfold Decoder.put
  rw [if_neg (by rw [h.length]; omega)]
  refine ⟨_, rfl, ⟨?_, hp, h.holds.push c⟩, rfl, rfl⟩
  show d.out ++ [c] = data.take (p + 1)
  rw [h.out_eq, take_add_one, hc]
  rfl

/-- The copy loop of a match reproduces the bytes it refers to, also where source and
destination overlap: byte `k` is in the ring by the time it is read. -/
theorem Reads.copyMatch {src len : ℕ} (hsrc : src < p) (hwin : p ≤ src + lzssN)
    (hlen : p + len ≤ data.length) (heq : ∀ k < len, data[src + k]? = data[p + k]?) :
    ∀ (n k : ℕ) (d : Decoder), k + n = len → Reads data d (p + k) →
      ∃ d', copyMatch data.length (ringPos src) n k d = .ok d' ∧ Reads data d' (p + len) ∧
        d'.input = d.input ∧ d'.flags = d.flags := by
  intro n
  induction n with
  | zero =>
    intro k d hk h
    obtain rfl : k = len := by omega
    exact ⟨d, rfl, h, rfl, rfl⟩
  | succ n ih =>
    intro k d hk h
    have hout : src + k < d.out.length := by rw [h.length]; omega
    have hcell : d.window.cell ((ringPos src + k) % lzssN) = d.out[src + k] := by
      have hr := h.holds.read hout (by rw [h.length]; omega)
      rw [← hr]
      unfold ringPos
      rw [Nat.mod_add_mod, Nat.add_assoc]
    have hbyte : data[p + k]? = some d.out[src + k] := by
      rw [← heq k (by omega), ← List.getElem?_eq_getElem hout, h.out_eq,
        List.getElem?_take_of_lt (by omega)]
    obtain ⟨d₁, hput, hr, hin, hfl⟩ := h.put hbyte
    obtain ⟨d₂, hcopy, hr₂, hin₂, hfl₂⟩ := ih (k + 1) d₁ (by omega) hr
    refine ⟨d₂, ?_, hr₂, hin₂.trans hin, hfl₂.trans hfl⟩
    rw [Lzss.copyMatch, hcell, hput]
    exact hcopy

theorem decodeLoop_token {t : Token} (hne : d.input ≠ [])
    (hin : d.shiftFlags.input = t.bytes ++ rest) (hflag : d.shiftFlags.flags &&& 1 = t.flag)
    (hr : Reads data d p) (hs : Spans data p [t] q) :
    ∃ d', (∀ n, decodeLoop data.length (n + 1) d = decodeLoop data.length n d') ∧
      Reads data d' q ∧ d'.input = rest ∧ d'.flags = d.shiftFlags.flags := by
  have hr' : ∀ inp, Reads data { d.shiftFlags with input := inp } p := by
    intro inp
    have hout : d.shiftFlags.out = d.out ∧ d.shiftFlags.window = d.window := by
      unfold Decoder.shiftFlags
      split
      · split <;> exact ⟨rfl, rfl⟩
      · exact ⟨rfl, rfl⟩
    exact ⟨hout.1.trans hr.out_eq, hr.le, by
      show Holds _ _ d.shiftFlags.window d.shiftFlags.out
      rw [hout.1, hout.2]; exact hr.holds⟩
  cases t with
  | lit c =>
    obtain ⟨hc, rfl⟩ := hs
    obtain ⟨d', hput, hr₁, hin₁, hfl₁⟩ := (hr' rest).put hc
    refine ⟨d', fun n => ?_, hr₁, hin₁, hfl₁⟩
    rw [decodeLoop, if_neg hne]
    simp only [hflag, hin, Token.flag, Token.bytes, singleton_append, ne_eq,
      one_ne_zero, not_false_eq_true, if_true, hput]
  | ref src len =>
    obtain ⟨⟨hsrc, hwin⟩, ⟨hlo, hhi⟩, hlen, heq, rfl⟩ := hs
    have hfield : len - (lzssThreshold + 1) < 16 := by unfold lzssF lzssThreshold at *; omega
    obtain ⟨d', hcopy, hr₁, hin₁, hfl₁⟩ :=
      Reads.copyMatch hsrc hwin hlen heq len 0 _ (by omega) (hr' rest)
    refine ⟨d', fun n => ?_, hr₁, hin₁, hfl₁⟩
    rw [decodeLoop, if_neg hne]
    simp only [hflag, hin, Token.flag, Token.bytes, cons_append, nil_append, ne_eq,
      not_true_eq_false, if_false, matchPos_bytes (ringPos_lt src) hfield,
      matchLen_bytes (ringPos_lt src) hfield,
      show len - (lzssThreshold + 1) + lzssThreshold + 1 = len by omega, hcopy]

/-! ## Decoding groups -/

theorem Token.bytes_ne_nil (t : Token) : t.bytes ≠ [] := by cases t <;> simp [Token.bytes]

theorem groupBytes_cons (t : Token) (ts : List Token) :
    groupBytes (t :: ts) = t.bytes ++ groupBytes ts := by
  unfold groupBytes
  rw [flatMap_cons]

theorem groupFlags_lt_256 (h : ts.length ≤ 8) : groupFlags ts < 256 :=
  lt_of_lt_of_le (groupFlags_lt ts) (Nat.pow_le_pow_right (by norm_num) h)

theorem decodeLoop_tokens :
    ∀ (post pre : List Token) (d : Decoder) (p : ℕ), pre ≠ [] → (pre ++ post).length ≤ 8 →
      d.flags = (groupFlags (pre ++ post) ||| 0xFF00) >>> (pre.length - 1) →
      d.input = groupBytes post ++ rest → Reads data d p → Spans data p post q →
      ∃ d', (∀ n, decodeLoop data.length (n + post.length) d = decodeLoop data.length n d') ∧
        Reads data d' q ∧ d'.input = rest ∧
        d'.flags = (groupFlags (pre ++ post) ||| 0xFF00) >>> ((pre ++ post).length - 1) := by
  intro post
  induction post with
  | nil =>
    intro pre d p _ _ hfl hin hr hs
    cases hs
    refine ⟨d, fun n => rfl, hr, hin, ?_⟩
    rw [append_nil] at hfl ⊢
    exact hfl
  | cons t post ih =>
    intro pre d p hpre hlen hfl hin hr hs
    have hpos : 0 < pre.length := length_pos_iff.mpr hpre
    rw [length_append, length_cons] at hlen
    have hfb : groupFlags (pre ++ t :: post) < 256 :=
      groupFlags_lt_256 (by rw [length_append]; exact hlen)
    -- the register is shifted, not refilled
    have hshift : d.flags >>> 1 = (groupFlags (pre ++ t :: post) ||| 0xFF00) >>> pre.length := by
      rw [hfl, ← Nat.shiftRight_add, Nat.sub_add_cancel hpos]
    have hsf : d.shiftFlags = { d with flags := d.flags >>> 1 } := by
      unfold Decoder.shiftFlags
      rw [if_neg (by rw [hshift]; exact register_guard hfb (by omega))]
    obtain ⟨p', hs₁, hs₂⟩ := Spans.split (show Spans data p ([t] ++ post) q from hs)
    have hne : d.input ≠ [] := by
      rw [hin, groupBytes_cons]
      simp [t.bytes_ne_nil]
    have hbit : d.shiftFlags.flags &&& 1 = t.flag := by
      rw [hsf]
      show d.flags >>> 1 &&& 1 = t.flag
      rw [hshift, register_bit hfb (by omega), groupFlags_shift, groupFlags_mod_two]
    have hin' : d.shiftFlags.input = t.bytes ++ (groupBytes post ++ rest) := by
      rw [hsf, ← append_assoc]
      exact hin
    obtain ⟨d₁, hrun, hr₁, hin₁, hfl₁⟩ := decodeLoop_token hne hin' hbit hr hs₁
    have hassoc : pre ++ [t] ++ post = pre ++ t :: post := by simp
    obtain ⟨d₂, hrun₂, hr₂, hin₂, hfl₂⟩ := ih (pre ++ [t]) d₁ p' (by simp)
      (by rw [hassoc, length_append]; exact hlen)
      (by rw [hassoc, hfl₁, hsf, length_append, length_singleton]; exact hshift) hin₁ hr₁ hs₂
    rw [hassoc] at hfl₂
    refine ⟨d₂, fun n => ?_, hr₂, hin₂, hfl₂⟩
    rw [length_cons, ← Nat.add_assoc, hrun, hrun₂]

theorem decodeLoop_group (hts : ts ≠ []) (hlen : ts.length ≤ 8)
    (hspent : d.flags >>> 1 &&& 0x100 = 0) (hin : d.input = encodeGroup ts ++ rest)
    (hr : Reads data d p) (hs : Spans data p ts q) :
    ∃ d', (∀ n, decodeLoop data.length (n + ts.length) d = decodeLoop data.length n d') ∧
      Reads data d' q ∧ d'.input = rest ∧
      (ts.length = 8 → d'.flags >>> 1 &&& 0x100 = 0) := by
  obtain ⟨t, post, rfl⟩ := exists_cons_of_ne_nil hts
  have hfb := groupFlags_lt_256 hlen
  have hsf : d.shiftFlags = { d with input := t.bytes ++ (groupBytes post ++ rest),
                                     flags := groupFlags (t :: post) ||| 0xFF00 } := by
    unfold Decoder.shiftFlags
    rw [if_pos hspent, hin]
    unfold encodeGroup
    rw [groupBytes_cons, cons_append, append_assoc]
    simp only [UInt8.toNat_ofNat_of_lt' (show groupFlags (t :: post) < UInt8.size from hfb)]
  obtain ⟨p', hs₁, hs₂⟩ := Spans.split (show Spans data p ([t] ++ post) q from hs)
  have hin' : d.shiftFlags.input = t.bytes ++ (groupBytes post ++ rest) := by rw [hsf]
  have hbit : d.shiftFlags.flags &&& 1 = t.flag := by
    rw [hsf]
    have := register_bit hfb (i := 0) (by omega)
    rw [pow_zero, Nat.div_one, groupFlags_mod_two] at this
    exact this
  obtain ⟨d₁, hrun, hr₁, hin₁, hfl₁⟩ := decodeLoop_token (by rw [hin]; simp [encodeGroup]) hin'
    hbit hr hs₁
  obtain ⟨d₂, hrun₂, hr₂, hin₂, hfl₂⟩ := decodeLoop_tokens post [t] d₁ p' (by simp)
    (by simpa using hlen) (by rw [hfl₁, hsf]; rfl) hin₁ hr₁ hs₂
  refine ⟨d₂, fun n => ?_, hr₂, hin₂, fun h8 => ?_⟩
  · rw [length_cons, ← Nat.add_assoc, hrun, hrun₂]
  · rw [singleton_append] at hfl₂
    rw [hfl₂, h8]
    exact register_spent hfb

def encodeGroups (gs : List (List Token)) : List UInt8 := gs.flatMap encodeGroup

theorem decodeLoop_groups :
    ∀ (gs : List (List Token)) (d : Decoder) (p q : ℕ), (∀ g ∈ gs, g.length = 8) →
      d.flags >>> 1 &&& 0x100 = 0 → d.input = encodeGroups gs ++ rest → Reads data d p →
      Spans data p gs.flatten q → ∃ d', (∀ n, decodeLoop data.length (n + gs.flatten.length) d =
          decodeLoop data.length n d') ∧
        Reads data d' q ∧ d'.input = rest ∧ d'.flags >>> 1 &&& 0x100 = 0 := by
  intro gs
  induction gs with
  | nil =>
    intro d p q _ hspent hin hr hs
    cases hs
    exact ⟨d, fun n => rfl, hr, hin, hspent⟩
  | cons g gs ih =>
    intro d p q hfull hspent hin hr hs
    have hg : g.length = 8 := hfull g (by simp)
    obtain ⟨p', hs₁, hs₂⟩ := hs.split
    unfold encodeGroups at hin
    rw [flatMap_cons, append_assoc] at hin
    obtain ⟨d₁, hrun, hr₁, hin₁, hsp₁⟩ := decodeLoop_group (by intro h; simp [h] at hg)
      (by omega) hspent hin hr hs₁
    obtain ⟨d₂, hrun₂, hr₂, hin₂, hsp₂⟩ := ih d₁ p' q (fun g' hg' => hfull g' (by simp [hg']))
      (hsp₁ hg) hin₁ hr₁ hs₂
    refine ⟨d₂, fun n => ?_, hr₂, hin₂, hsp₂⟩
    rw [flatten_cons, length_append, Nat.add_comm g.length, ← Nat.add_assoc, hrun, hrun₂]

end MinimalOS.Lzss
