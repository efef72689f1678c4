import MinimalOS.Audio.Stream
import MinimalOS.Lib.Transducer

/-!
# The decoder follows the encoders

An encoder leaves its predictor where the decoder will leave its own after the same nibble
(`imaDecodeNibble_encode`), so that along a stream the two go through the same states. What a byte
is decoded to depends on the states alone and not on the chunk it came in: a mono stream is a run
over its bytes, a stereo stream one over pairs of bytes. `Coding` states what the two layouts have
in common, and cutting and seeking are argued about once.
-/

namespace MinimalOS.Audio

open Transducer List

/-! ## Nibbles -/

structure State.InRange (s : State) : Prop where
  predictor : -32768 ≤ s.predictor ∧ s.predictor ≤ 32767
  stepIndex : 0 ≤ s.stepIndex ∧ s.stepIndex ≤ 88

theorem magnitude_lt (step diff : ℤ) : magnitude step diff < 8 := by
  unfold magnitude
  dsimp only
  split_ifs <;> decide

theorem quantize_lt (step diff : ℤ) : quantize step diff < 16 := by
  unfold quantize
  split_ifs
  · exact Nat.or_lt_two_pow (n := 4) (by decide) ((magnitude_lt _ _).trans (by decide))
  · exact (magnitude_lt _ _).trans (by decide)

/-- The order in which the two bounds are tested does not matter. -/
theorem clamp_eq (lo hi v : ℤ) (h : lo ≤ hi) :
    (if (if v > hi then hi else v) < lo then lo else if v > hi then hi else v) =
        max lo (min hi v) ∧
      (if (if v < lo then lo else v) > hi then hi else if v < lo then lo else v) =
        max lo (min hi v) := by
  constructor <;> split_ifs <;> omega

theorem imaEncode_eq : imaEncode = imaEncodeSample := by
  funext sample s
  unfold imaEncode imaEncodeSample
  dsimp only
  rw [(clamp_eq _ _ _ (by decide)).1, (clamp_eq _ _ _ (by decide)).2]

theorem encodeSample_eq (t : Tool) : t.encodeSample = imaEncodeSample := by
  cases t
  · rfl
  · exact imaEncode_eq

theorem imaIndexTable_low : ∀ code < 16,
    imaIndexTable.getD (code &&& 0xF) 0 = imaIndexTable.getD (code &&& 7) 0 := by
  decide

theorem imaDecodeNibble_encode (sample : ℤ) (s : State) :
    imaDecodeNibble (imaEncodeSample sample s).1 s = (imaEncodeSample sample s).2 := by
  unfold imaDecodeNibble imaEncodeSample
  dsimp only
  rw [(clamp_eq _ _ _ (by decide)).1, (clamp_eq _ _ _ (by decide)).2,
    imaIndexTable_low _ (quantize_lt _ _)]

theorem imaEncodeSample_inRange (sample : ℤ) (s : State) : (imaEncodeSample sample s).2.InRange := by
  unfold imaEncodeSample
  constructor <;> dsimp only <;> omega

theorem nibbles_pack : ∀ c0 < 16, ∀ c1 < 16,
    lowNibble (packNibbles c0 c1) = c0 ∧ highNibble (packNibbles c0 c1) = c1 := by
  decide +kernel

theorem decode_pack (t : Tool) (x y : ℤ) (s : State) :
    let a := t.encodeSample x s
    let b := t.encodeSample y a.2
    imaDecodeNibble (lowNibble (packNibbles a.1 b.1)) s = a.2 ∧
      imaDecodeNibble (highNibble (packNibbles a.1 b.1)) a.2 = b.2 := by
  intro a b
  have ha : a.1 < 16 := by subst a; rw [encodeSample_eq]; exact quantize_lt _ _
  have hb : b.1 < 16 := by subst b; rw [encodeSample_eq]; exact quantize_lt _ _
  obtain ⟨hlow, hhigh⟩ := nibbles_pack a.1 ha b.1 hb
  rw [hlow, hhigh]
  subst a b
  rw [encodeSample_eq]
  exact ⟨imaDecodeNibble_encode x s, imaDecodeNibble_encode y _⟩

theorem State.InRange.sample_toInt {s : State} (h : s.InRange) : s.sample.toInt = s.predictor := by
  obtain ⟨hlo, hhi⟩ := h.predictor
  exact Int16.toInt_ofInt_of_le (by omega) (by omega)

/-! ## Layouts -/

/-- A layout of a stream: letters of `width` bytes that are decoded as a whole. -/
structure Coding (ch : Channels) where
  Letter : Type
  width : ℕ
  split : List UInt8 → List Letter
  step : States → Letter → List Int16 × States
  width_dvd : width ∣ 2
  split_nil : split [] = []
  split_append : ∀ a b, width ∣ a.length → split (a ++ b) = split a ++ split b
  length_split : ∀ a, width ∣ a.length → (split a).length * width = a.length
  length_step : ∀ d x, (step d x).1.length = 2 * width
  decode_eq : ∀ maxOutput d a, 2 * a.length ≤ maxOutput →
    decode ch maxOutput d a = run step (split a) d
  encode_whole : ∀ t pcm, width ∣ (encode t ch pcm).bytes.length
  encode_run : ∀ t pcm, run step (split (encode t ch pcm).bytes) .init =
    ((encode t ch pcm).trace.map State.sample, (encode t ch pcm).final)

def stepMono (d : States) (b : UInt8) : List Int16 × States :=
  let s0 := imaDecodeNibble (lowNibble b) d.left
  let s1 := imaDecodeNibble (highNibble b) s0
  ([s0.sample, s1.sample], { d with left := s1 })

theorem decodeMono_eq (maxOutput : ℕ) (a : List UInt8) :
    ∀ (outPos : ℕ) (d : States), outPos + 2 * a.length ≤ maxOutput →
      decodeMono maxOutput a outPos d = run stepMono a d := by
  induction a with
  | nil => intro outPos d _; rfl
  | cons b rest ih =>
    intro outPos d h
    rw [length_cons] at h
    rw [decodeMono, if_pos (by omega)]
    dsimp only
    rw [ih (outPos + 2) _ (by omega)]
    rfl

theorem encodeMono_run (t : Tool) (pcm : List Int16) (d : States) :
    run stepMono (encodeMono t pcm d).bytes d =
      ((encodeMono t pcm d).trace.map State.sample, (encodeMono t pcm d).final) := by
  induction pcm, d using encodeMono.induct t with
  | case1 s0 s1 rest d a b ih =>
    obtain ⟨hlow, hhigh⟩ := decode_pack t s0.toInt s1.toInt d.left
    have hstep : stepMono d (packNibbles a.1 b.1) =
        ([a.2.sample, b.2.sample], { d with left := b.2 }) := by
      unfold stepMono
      dsimp only
      rw [hlow, hhigh]
    rw [encodeMono, run_cons, hstep, ih]
    rfl
  | case2 pcm d h =>
    rw [encodeMono]
    · rfl
    · exact h

def codingMono : Coding .mono where
  Letter := UInt8
  width := 1
  split := id
  step := stepMono
  width_dvd := one_dvd 2
  split_nil := rfl
  split_append _ _ _ := rfl
  length_split a _ := Nat.mul_one a.length
  length_step _ _ := rfl
  decode_eq maxOutput d a h := decodeMono_eq maxOutput a 0 d (by omega)
  encode_whole _ _ := one_dvd _
  encode_run t pcm := encodeMono_run t pcm .init

def pairs {α : Type} : List α → List (α × α)
  | a :: b :: rest => (a, b) :: pairs rest
  | _ => []

theorem eq_nil_of_even {α : Type} {a : List α} (ha : ∀ x y rest, a = x :: y :: rest → False)
    (h : 2 ∣ a.length) : a = [] := by
  match a with
  | [] => rfl
  | [_] => simp at h
  | x :: y :: rest => exact absurd rfl (ha x y rest)

theorem pairs_append {α : Type} (a b : List α) (h : 2 ∣ a.length) :
    pairs (a ++ b) = pairs a ++ pairs b := by
  induction a using pairs.induct with
  | case1 x y rest ih =>
    rw [cons_append, cons_append, pairs, pairs, cons_append, ih]
    simp only [length_cons] at h
    omega
  | case2 a ha =>
    obtain rfl := eq_nil_of_even ha h
    rfl

theorem length_pairs {α : Type} (a : List α) (h : 2 ∣ a.length) :
    (pairs a).length * 2 = a.length := by
  induction a using pairs.induct with
  | case1 x y rest ih =>
    simp only [length_cons] at h
    rw [pairs, length_cons, length_cons, length_cons, Nat.succ_mul, ih (by omega)]
  | case2 a ha =>
    obtain rfl := eq_nil_of_even ha h
    rfl

def stepStereo (d : States) (p : UInt8 × UInt8) : List Int16 × States :=
  let l0 := imaDecodeNibble (lowNibble p.1) d.left
  let r0 := imaDecodeNibble (lowNibble p.2) d.right
  let l1 := imaDecodeNibble (highNibble p.1) l0
  let r1 := imaDecodeNibble (highNibble p.2) r0
  ([l0.sample, r0.sample, l1.sample, r1.sample], ⟨l1, r1⟩)

theorem decodeStereo_eq (maxOutput : ℕ) (a : List UInt8) :
    ∀ (outPos : ℕ) (d : States), outPos + 2 * a.length ≤ maxOutput →
      decodeStereo maxOutput a outPos d = run stepStereo (pairs a) d := by
  induction a using pairs.induct with
  | case1 lb rb rest ih =>
    intro outPos d h
    simp only [length_cons] at h
    rw [decodeStereo, if_pos (by omega), pairs]
    dsimp only
    rw [ih (outPos + 4) _ (by omega)]
    rfl
  | case2 a ha =>
    intro outPos d _
    rw [decodeStereo, pairs, run_nil]
    · exact ha
    · exact ha

theorem encodeStereo_run (t : Tool) (pcm : List Int16) (d : States) :
    2 ∣ (encodeStereo t pcm d).bytes.length ∧
      run stepStereo (pairs (encodeStereo t pcm d).bytes) d =
        ((encodeStereo t pcm d).trace.map State.sample, (encodeStereo t pcm d).final) := by
  induction pcm, d using encodeStereo.induct t with
  | case1 l0 r0 l1 r1 rest d a a' b b' ih =>
    obtain ⟨hlow, hhigh⟩ := decode_pack t l0.toInt l1.toInt d.left
    obtain ⟨rlow, rhigh⟩ := decode_pack t r0.toInt r1.toInt d.right
    have hstep : stepStereo d (packNibbles a.1 a'.1, packNibbles b.1 b'.1) =
        ([a.2.sample, b.2.sample, a'.2.sample, b'.2.sample], ⟨a'.2, b'.2⟩) := by
      unfold stepStereo
      dsimp only
      rw [hlow, hhigh, rlow, rhigh]
    rw [encodeStereo]
    refine ⟨?_, ?_⟩
    · show 2 ∣ (encodeStereo t rest ⟨a'.2, b'.2⟩).bytes.length + 2
      exact Nat.dvd_add ih.1 dvd_rfl
    · rw [pairs, run_cons, hstep, ih.2]
      rfl
  | case2 pcm d h =>
    rw [encodeStereo]
    · exact ⟨⟨0, rfl⟩, rfl⟩
    · exact h

def codingStereo : Coding .stereo where
  Letter := UInt8 × UInt8
  width := 2
  split := pairs
  step := stepStereo
  width_dvd := dvd_rfl
  split_nil := rfl
  split_append := pairs_append
  length_split := length_pairs
  length_step _ _ := rfl
  decode_eq maxOutput d a h := decodeStereo_eq maxOutput a 0 d (by omega)
  encode_whole t pcm := (encodeStereo_run t pcm .init).1
  encode_run t pcm := (encodeStereo_run t pcm .init).2

def coding : (ch : Channels) → Coding ch
  | .mono => codingMono
  | .stereo => codingStereo

/-! ## Cutting and seeking -/

section Coding

variable {ch : Channels} (c : Coding ch)

/-- A chunk of whole letters for which the output buffer has room. -/
def Coding.Fits (maxOutput : ℕ) (a : List UInt8) : Prop :=
  c.width ∣ a.length ∧ 2 * a.length ≤ maxOutput

variable {maxOutput k : ℕ} {bytes : List UInt8}

theorem Coding.run_chunks {chunks : List (List UInt8)} (h : ∀ a ∈ chunks, c.Fits maxOutput a)
    (d : States) : run (decode ch maxOutput) chunks d = run c.step (c.split chunks.flatten) d :=
  run_pieces c.split_nil (fun a ha rest => c.split_append a rest (h a ha).1)
    (fun a ha d => c.decode_eq maxOutput d a (h a ha).2) d

/-- The states after the first `k` bytes. -/
def Coding.statesAt (bytes : List UInt8) (k : ℕ) : States :=
  (run c.step (c.split (bytes.take k)) .init).2

theorem Coding.run_drop (bytes : List UInt8) (hk : c.width ∣ k) (hle : k ≤ bytes.length) :
    run c.step (c.split (bytes.drop k)) (c.statesAt bytes k) =
      ((run c.step (c.split bytes) .init).1.drop (2 * k), (run c.step (c.split bytes) .init).2) := by
  have hlen : (bytes.take k).length = k := by rw [length_take, Nat.min_eq_left hle]
  have hsplit := c.split_append (bytes.take k) (bytes.drop k) (by rwa [hlen])
  rw [take_append_drop] at hsplit
  have hletters := c.length_split (bytes.take k) (by rwa [hlen])
  rw [hlen] at hletters
  rw [hsplit, Coding.statesAt, run_resume c.length_step, Nat.mul_left_comm, hletters]

theorem Coding.statesAt_add {o : ℕ} (ho : c.width ∣ o) (hle : o + k ≤ bytes.length)
    (hroom : 2 * k ≤ maxOutput) :
    (decode ch maxOutput (c.statesAt bytes o) ((bytes.drop o).take k)).2 =
      c.statesAt bytes (o + k) := by
  have hlen : ((bytes.drop o).take k).length = k := by
    rw [length_take, length_drop]
    omega
  have htake : (bytes.take o).length = o := by
    rw [length_take]
    omega
  rw [c.decode_eq _ _ _ (by rwa [hlen]), Coding.statesAt, Coding.statesAt, take_add,
    c.split_append _ _ (by rwa [htake]), run_append]

theorem readstream_eq {st : Stream} (heos : st.endOfStream = false) (hpos : 0 < st.chunkSize)
    (hle : st.currentOffset + st.chunkSize ≤ st.payload.length) :
    readstream st = ((st.payload.drop st.currentOffset).take st.chunkSize,
      { st with currentOffset := st.currentOffset + st.chunkSize }) := by
  have hlen : ((st.payload.drop st.currentOffset).take st.chunkSize).length = st.chunkSize := by
    rw [length_take, length_drop]
    omega
  unfold readstream
  rw [if_neg (by rw [heos]; decide), if_neg (by omega)]
  dsimp only
  rw [if_neg (show ¬ st.payload.length - st.currentOffset < st.chunkSize by omega), hlen,
    if_neg (by omega)]

theorem seekstream_spec (st : Stream) (offset : ℕ) (h : offset ≤ st.payload.length) :
    (seekstream st offset).payload = st.payload ∧ (seekstream st offset).currentOffset = offset ∧
      (offset < st.payload.length → (seekstream st offset).endOfStream = false) := by
  unfold seekstream
  split_ifs with hend
  · exact ⟨rfl, le_antisymm hend h, fun hlt => absurd hlt (by omega)⟩
  · exact ⟨rfl, rfl, fun _ => rfl⟩

/-- **The loop of the fast forward.** The decoder is where a decoder is after `currentOffset`
bytes, and the loop ends at the position that was asked for. -/
theorem Coding.fastForwardLoop_spec {chunk offset : ℕ} (hchunk : c.width ∣ chunk) (hpos : 0 < chunk)
    (hroom : 2 * chunk ≤ pcmCapacity ch) (hoff : c.width ∣ offset) (hle : offset ≤ bytes.length) :
    ∀ (rounds : ℕ) (st : Stream), st.payload = bytes → st.currentOffset ≤ offset →
      c.width ∣ st.currentOffset → (st.currentOffset < offset → st.endOfStream = false) →
      offset - st.currentOffset ≤ rounds →
      (fastForwardLoop ch chunk offset rounds st (c.statesAt bytes st.currentOffset)).1.payload =
          bytes ∧
        (fastForwardLoop ch chunk offset rounds st (c.statesAt bytes st.currentOffset)).2 =
          c.statesAt bytes offset := by
  intro rounds
  induction rounds with
  | zero =>
    intro st hst hcur _ _ hr
    rw [show st.currentOffset = offset by omega]
    exact ⟨hst, rfl⟩
  | succ rounds ih =>
    intro st hst hcur hdvd heos hr
    rw [fastForwardLoop]
    by_cases hlt : st.currentOffset < offset
    · rw [if_pos hlt]
      dsimp only
      -- the size of this round's chunk
      obtain ⟨k, hk, hk0, hkle, hkroom, hkdvd⟩ : ∃ k,
          (if offset - st.currentOffset < chunk then offset - st.currentOffset else chunk) = k ∧
            0 < k ∧ st.currentOffset + k ≤ offset ∧ k ≤ chunk ∧ c.width ∣ k := by
        refine ⟨_, rfl, ?_⟩
        split_ifs with h
        · exact ⟨by omega, by omega, by omega, Nat.dvd_sub hoff hdvd⟩
        · exact ⟨hpos, by omega, le_rfl, hchunk⟩
      have hread := @readstream_eq { st with chunkSize := k } (heos hlt) hk0
        (by dsimp only; rw [hst]; omega)
      rw [hk, hread]
      dsimp only
      rw [if_neg (by rw [length_take, length_drop, hst]; omega), hst,
        c.statesAt_add hdvd (by omega) (by omega)]
      exact ih _ rfl hkle (Nat.dvd_add hdvd hkdvd) (fun _ => heos hlt) (by dsimp only; omega)
    · rw [if_neg hlt, show st.currentOffset = offset by omega]
      exact ⟨hst, rfl⟩

theorem seekOffset_le (total positionMs bps : ℕ) : seekOffset total positionMs bps ≤ total := by
  unfold seekOffset
  dsimp only
  split_ifs <;> omega

theorem Coding.width_dvd_seekOffset {total : ℕ} (h : c.width ∣ total) (positionMs bps : ℕ) :
    c.width ∣ seekOffset total positionMs bps := by
  unfold seekOffset
  dsimp only
  split_ifs
  · exact h
  · exact c.width_dvd.trans (Nat.dvd_mul_left 2 _)

theorem Coding.chunkSizeBytes_fits (ch : Channels) (c : Coding ch) :
    c.width ∣ chunkSizeBytes ch ∧ 0 < chunkSizeBytes ch ∧
      2 * chunkSizeBytes ch ≤ pcmCapacity ch := by
  refine ⟨c.width_dvd.trans (Nat.dvd_mul_left 2 _), ?_, ?_⟩ <;> cases ch <;> decide

/-- A seek leaves the stream at the position and the decoder in the states of that position. -/
theorem Coding.seekMs_spec (st : Stream) (hchunk : st.chunkSize = chunkSizeBytes ch)
    (hdvd : c.width ∣ st.payload.length) (positionMs bps : ℕ) :
    (seekMs ch st positionMs bps).1.currentOffset =
        seekOffset st.payload.length positionMs bps ∧
      (seekMs ch st positionMs bps).1.payload = st.payload ∧
      (seekMs ch st positionMs bps).2 =
        c.statesAt st.payload (seekOffset st.payload.length positionMs bps) := by
  have hle := seekOffset_le st.payload.length positionMs bps
  have hoff := c.width_dvd_seekOffset hdvd positionMs bps
  obtain ⟨h1, h2, h3⟩ := Coding.chunkSizeBytes_fits ch c
  unfold seekMs
  generalize seekOffset st.payload.length positionMs bps = offset at *
  unfold fastForward
  rw [hchunk]
  have h0 : c.statesAt st.payload 0 = .init := by
    rw [Coding.statesAt, take_zero, c.split_nil, run_nil]
  obtain ⟨hp, hz, he⟩ := seekstream_spec st 0 (Nat.zero_le _)
  obtain ⟨hpay, hstates⟩ := c.fastForwardLoop_spec h1 h2 h3 hoff hle offset (seekstream st 0) hp
    (by omega) (by rw [hz]; exact dvd_zero _) (fun h => he (by omega)) (by omega)
  rw [hz, h0] at hpay hstates
  obtain ⟨hp', hz', _⟩ := seekstream_spec
    { (fastForwardLoop ch (chunkSizeBytes ch) offset offset (seekstream st 0) .init).1 with
      chunkSize := chunkSizeBytes ch } offset (by dsimp only; rwa [hpay])
  exact ⟨hz', hp'.trans hpay, hstates⟩

end Coding

/-! ## Every stream -/

theorem trace_inRange (t : Tool) (ch : Channels) (pcm : List Int16) :
    ∀ s ∈ (encode t ch pcm).trace, s.InRange := by
  have hone : ∀ x s, (t.encodeSample x s).2.InRange := by
    rw [encodeSample_eq]
    exact imaEncodeSample_inRange
  cases ch with
  | mono =>
    show ∀ s ∈ (encodeMono t pcm .init).trace, s.InRange
    generalize States.init = d
    induction pcm, d using encodeMono.induct t with
    | case1 s0 s1 rest d a b ih =>
      exact forall_mem_cons.mpr ⟨hone _ _, forall_mem_cons.mpr ⟨hone _ _, ih⟩⟩
    | case2 pcm d h =>
      rw [encodeMono]
      · exact fun _ hs => absurd hs not_mem_nil
      · exact h
  | stereo =>
    show ∀ s ∈ (encodeStereo t pcm .init).trace, s.InRange
    generalize States.init = d
    induction pcm, d using encodeStereo.induct t with
    | case1 l0 r0 l1 r1 rest d a a' b b' ih =>
      exact forall_mem_cons.mpr ⟨hone _ _, forall_mem_cons.mpr ⟨hone _ _,
        forall_mem_cons.mpr ⟨hone _ _, forall_mem_cons.mpr ⟨hone _ _, ih⟩⟩⟩⟩
    | case2 pcm d h =>
      rw [encodeStereo]
      · exact fun _ hs => absurd hs not_mem_nil
      · exact h

theorem map_sample_toInt {l : List State} (h : ∀ s ∈ l, s.InRange) :
    (l.map State.sample).map Int16.toInt = l.map State.predictor := by
  rw [map_map]
  exact map_congr_left fun s hs => (h s hs).sample_toInt

/-- A cut of a stream into chunks that the decoder takes: the output buffer has room for each, and
a stereo chunk has an even number of bytes. -/
structure Cut (ch : Channels) (maxOutput : ℕ) (bytes : List UInt8) (chunks : List (List UInt8)) :
    Prop where
  flatten : chunks.flatten = bytes
  room : ∀ a ∈ chunks, 2 * a.length ≤ maxOutput
  even : ch = .stereo → ∀ a ∈ chunks, 2 ∣ a.length

theorem Cut.fits {ch : Channels} {maxOutput : ℕ} {bytes : List UInt8} {chunks : List (List UInt8)}
    (h : Cut ch maxOutput bytes chunks) : ∀ a ∈ chunks, (coding ch).Fits maxOutput a := by
  intro a ha
  refine ⟨?_, h.room a ha⟩
  cases ch
  · exact one_dvd _
  · exact h.even rfl a ha

/-- **The decoder follows the encoders.** However the stream of either tool is cut, the kernel
decodes it to the predictors the encoder computed and ends in the encoder's states; the same from
every position that a seek reaches, whatever the stream was doing before; and predictors and step
indices stay in their ranges. -/
theorem decoder_follows_encoder (t : Tool) (ch : Channels) (pcm : List Int16) (maxOutput : ℕ) :
    (∀ chunks, Cut ch maxOutput (encode t ch pcm).bytes chunks →
      (run (decode ch maxOutput) chunks .init).1.map Int16.toInt =
          (encode t ch pcm).trace.map State.predictor ∧
        (run (decode ch maxOutput) chunks .init).2 = (encode t ch pcm).final) ∧
    (∀ o eos positionMs bps chunks,
      let st := seekMs ch ⟨(encode t ch pcm).bytes, chunkSizeBytes ch, o, eos⟩ positionMs bps
      let offset := seekOffset (encode t ch pcm).bytes.length positionMs bps
      st.1.currentOffset = offset ∧ st.1.payload = (encode t ch pcm).bytes ∧
        (Cut ch maxOutput ((encode t ch pcm).bytes.drop offset) chunks →
          (run (decode ch maxOutput) chunks st.2).1.map Int16.toInt =
              ((encode t ch pcm).trace.map State.predictor).drop (2 * offset) ∧
            (run (decode ch maxOutput) chunks st.2).2 = (encode t ch pcm).final)) ∧
    ∀ s ∈ (encode t ch pcm).trace, s.InRange := by
  have hrange := trace_inRange t ch pcm
  refine ⟨fun chunks hcut => ?_, fun o eos positionMs bps chunks => ?_, hrange⟩
  · rw [(coding ch).run_chunks hcut.fits, hcut.flatten, (coding ch).encode_run]
    exact ⟨map_sample_toInt hrange, rfl⟩
  · have hwhole := (coding ch).encode_whole t pcm
    obtain ⟨hoff, hpay, hst⟩ := (coding ch).seekMs_spec
      ⟨(encode t ch pcm).bytes, chunkSizeBytes ch, o, eos⟩ rfl hwhole positionMs bps
    refine ⟨hoff, hpay, fun hcut => ?_⟩
    rw [(coding ch).run_chunks hcut.fits, hcut.flatten, hst, (coding ch).run_drop _
      ((coding ch).width_dvd_seekOffset hwhole positionMs bps) (seekOffset_le _ _ _),
      (coding ch).encode_run]
    exact ⟨by rw [map_drop, map_sample_toInt hrange], rfl⟩

def samplePcm : List Int16 := [1000, -1000, 3000, -3000, 2000, -2000, 0, 0]

/-- Four frames of the converter, decoded in two chunks. -/
theorem decoder_follows_encoder_sample :
    Cut .stereo 4 (encode .wavtoadi .stereo samplePcm).bytes
        [(encode .wavtoadi .stereo samplePcm).bytes.take 2,
          (encode .wavtoadi .stereo samplePcm).bytes.drop 2] ∧
      (run (decode .stereo 4) [(encode .wavtoadi .stereo samplePcm).bytes.take 2,
          (encode .wavtoadi .stereo samplePcm).bytes.drop 2] .init).1.map Int16.toInt =
        (encode .wavtoadi .stereo samplePcm).trace.map State.predictor := by
  have hcut : Cut .stereo 4 (encode .wavtoadi .stereo samplePcm).bytes
      [(encode .wavtoadi .stereo samplePcm).bytes.take 2,
        (encode .wavtoadi .stereo samplePcm).bytes.drop 2] :=
    ⟨by decide +kernel, by decide +kernel, by decide +kernel⟩
  exact ⟨hcut, ((decoder_follows_encoder .wavtoadi .stereo samplePcm 4).1 _ hcut).1⟩

end MinimalOS.Audio
