import MinimalOS.Lzss.Codec

/-!
# What the decoder reads of its ring

`lzss_decompress` sets all but the last `LZSS_F` cells of its ring before it starts and fills the
rest as it writes. A stream says by itself which cells the copied bytes come from (`fetches`), so
it says whether a byte is ever copied from a cell that holds what the heap left there.
-/

namespace MinimalOS.Lzss

open RingWindow List Function

/-! ## A stream as a list of fetches -/

/-- Where the next output byte comes from. -/
inductive Fetch
  | byte (c : UInt8)
  | cell (i : ℕ)

def Fetch.value (w : Window UInt8) : Fetch → UInt8
  | byte c => c
  | cell i => w.cell i

/-- The fetches of a match, from `k` on for `n` more bytes. -/
def matchFetches (matchPos : ℕ) : ℕ → ℕ → List Fetch
  | 0, _ => []
  | n + 1, k => .cell ((matchPos + k) % lzssN) :: matchFetches matchPos n (k + 1)

/-- `flags >>= 1` and the flag byte, without a decoder around them. -/
def shiftFlags (flags : ℕ) (input : List UInt8) : ℕ × List UInt8 :=
  if (flags >>> 1) &&& 0x100 = 0 then
    match input with
    | [] => (flags >>> 1, [])
    | b :: rest => (b.toNat ||| 0xFF00, rest)
  else (flags >>> 1, input)

/-- All fetches of a stream, in at most `n` rounds. -/
def fetches : ℕ → ℕ → List UInt8 → List Fetch
  | 0, _, _ => []
  | n + 1, flags, input =>
    if input = [] then []
    else
      let (flags, input) := shiftFlags flags input
      if flags &&& 1 ≠ 0 then
        match input with
        | [] => []
        | c :: rest => .byte c :: fetches n flags rest
      else
        match input with
        | byte0 :: byte1 :: rest =>
          matchFetches (byte0.toNat ||| ((byte1.toNat &&& 0xF0) <<< 4))
            ((byte1.toNat &&& 0x0F) + lzssThreshold + 1) 0 ++ fetches n flags rest
        | _ => []

/-- Writes out fetches one by one, or stops when `out` is full. -/
def emit (capacity : ℕ) : List Fetch → Window UInt8 → List UInt8 → ℕ × List UInt8
  | [], _, out => (out.length, out)
  | f :: fs, w, out =>
    if capacity ≤ out.length then (0, out)
    else emit capacity fs (w.push lzssN (f.value w)) (out ++ [f.value w])

/-! ## The decoder emits the fetches -/

variable {capacity k : ℕ} {fs : List Fetch} {w w' : Window UInt8}

theorem emit_append_match {matchPos n : ℕ} {d : Decoder} :
    emit capacity (matchFetches matchPos n k ++ fs) d.window d.out =
      match copyMatch capacity matchPos n k d with
      | .error d' => (0, d'.out)
      | .ok d' => emit capacity fs d'.window d'.out := by
  induction n generalizing k d with
  | zero => rfl
  | succ n ih =>
    unfold copyMatch Decoder.put
    rw [matchFetches, cons_append, emit]
    split_ifs with hfull
    · rfl
    · exact ih (d := { d with
        window := d.window.push lzssN (d.window.cell ((matchPos + k) % lzssN))
        out := d.out ++ [d.window.cell ((matchPos + k) % lzssN)] })

theorem copyMatch_rest {matchPos n : ℕ} {d d' : Decoder}
    (h : copyMatch capacity matchPos n k d = .ok d') : d'.input = d.input ∧ d'.flags = d.flags := by
  induction n generalizing k d with
  | zero =>
    obtain rfl : d = d' := Except.ok.inj h
    exact ⟨rfl, rfl⟩
  | succ n ih =>
    unfold copyMatch Decoder.put at h
    split_ifs at h
    exact ih (d := { d with
      window := d.window.push lzssN (d.window.cell ((matchPos + k) % lzssN))
      out := d.out ++ [d.window.cell ((matchPos + k) % lzssN)] }) h

theorem shiftFlags_eq (d : Decoder) :
    d.shiftFlags = { d with
      flags := (shiftFlags d.flags d.input).1, input := (shiftFlags d.flags d.input).2 } := by
  unfold Decoder.shiftFlags shiftFlags
  split_ifs
  · cases hin : d.input with
    | nil => cases d; simp_all
    | cons b rest => rfl
  · rfl

/-- **The decoder's loop** is the emission of the stream's fetches. -/
theorem decodeLoop_eq_emit (capacity n : ℕ) (d : Decoder) :
    decodeLoop capacity n d = emit capacity (fetches n d.flags d.input) d.window d.out := by
  induction n generalizing d with
  | zero => rfl
  | succ n ih =>
    unfold decodeLoop fetches
    split_ifs with hnil
    · rfl
    · dsimp only
      rw [shiftFlags_eq]
      generalize shiftFlags d.flags d.input = r
      split_ifs with hbit
      · cases r.2 with
        | nil => rfl
        | cons c rest =>
          dsimp only [Decoder.put]
          rw [emit]
          split_ifs with hfull
          · rfl
          · exact ih _
      · match r.2 with
        | [] => rfl
        | [_] => rfl
        | byte0 :: byte1 :: rest =>
          dsimp only
          rw [emit_append_match (d := { d with flags := r.1, input := rest })]
          cases hcopy : copyMatch capacity (byte0.toNat ||| ((byte1.toNat &&& 0xF0) <<< 4))
              ((byte1.toNat &&& 0x0F) + lzssThreshold + 1) 0
              { d with flags := r.1, input := rest } with
          | error d' => rfl
          | ok d' =>
            obtain ⟨hinput, hflags⟩ := copyMatch_rest hcopy
            dsimp only
            rw [ih, hinput, hflags]

/-! ## Two rings -/

theorem emit_begins (capacity : ℕ) (fs : List Fetch) (w : Window UInt8) (out : List UInt8) :
    out <+: (emit capacity fs w out).2 := by
  induction fs generalizing w out with
  | nil => exact prefix_rfl
  | cons f fs ih =>
    rw [emit]
    split_ifs
    · exact prefix_rfl
    · exact (prefix_append out _).trans (ih _ _)

/-- The cells that are set after `k` bytes of output. -/
structure Agree (w w' : Window UInt8) (k : ℕ) : Prop where
  next : w.next = (lzssN - lzssF + k) % lzssN
  next' : w'.next = (lzssN - lzssF + k) % lzssN
  cell : ∀ i, i < lzssN → i < lzssN - lzssF + k → w.cell i = w'.cell i

theorem Agree.push (h : Agree w w' k) (c : UInt8) :
    Agree (w.push lzssN c) (w'.push lzssN c) (k + 1) := by
  refine ⟨?_, ?_, fun i hi hk => ?_⟩
  · rw [Window.push_next, h.next, Nat.mod_add_mod, Nat.add_assoc]
  · rw [Window.push_next, h.next', Nat.mod_add_mod, Nat.add_assoc]
  · rw [Window.push_cell, Window.push_cell, h.next, h.next']
    by_cases hcell : i = (lzssN - lzssF + k) % lzssN
    · rw [hcell, update_self, update_self]
    · rw [update_of_ne hcell, update_of_ne hcell]
      refine h.cell i hi (lt_of_le_of_ne (Nat.le_of_lt_succ (by omega)) fun he => hcell ?_)
      rw [← he, Nat.mod_eq_of_lt hi]

/-- Every byte that is copied is copied from a cell that is set by then. -/
def Covered (capacity k : ℕ) (fs : List Fetch) : Prop :=
  ∀ j i, fs[j]? = some (.cell i) → k + j < capacity → i < lzssN - lzssF + (k + j)

theorem Covered.tail {f : Fetch}
    (h : Covered capacity k (f :: fs)) : Covered capacity (k + 1) fs := by
  intro j i hj hlt
  have := h (j + 1) i (by simpa using hj) (by omega)
  omega

/-- All cells a stream names are cells of the ring. -/
def InRing (fs : List Fetch) : Prop := ∀ f ∈ fs, ∀ i, f = .cell i → i < lzssN

theorem matchFetches_inRing (matchPos n k : ℕ) : InRing (matchFetches matchPos n k) := by
  induction n generalizing k with
  | zero => exact fun f hf => absurd hf not_mem_nil
  | succ n ih =>
    intro f hf i hi
    rcases mem_cons.mp hf with rfl | hf
    · obtain rfl := Fetch.cell.inj hi
      exact Nat.mod_lt _ (by norm_num)
    · exact ih (k + 1) f hf i hi

theorem fetches_inRing (n flags : ℕ) (input : List UInt8) : InRing (fetches n flags input) := by
  induction n generalizing flags input with
  | zero => exact fun f hf => absurd hf not_mem_nil
  | succ n ih =>
    unfold fetches
    split_ifs
    · exact fun f hf => absurd hf not_mem_nil
    · generalize shiftFlags flags input = r
      dsimp only
      split_ifs
      · cases r.2 with
        | nil => exact fun f hf => absurd hf not_mem_nil
        | cons c rest =>
          intro f hf i hi
          rcases mem_cons.mp hf with rfl | hf
          · cases hi
          · exact ih _ _ f hf i hi
      · match r.2 with
        | [] => exact fun f hf => absurd hf not_mem_nil
        | [_] => exact fun f hf => absurd hf not_mem_nil
        | byte0 :: byte1 :: rest =>
          intro f hf i hi
          rcases mem_append.mp hf with hf | hf
          · exact matchFetches_inRing _ _ _ f hf i hi
          · exact ih _ _ f hf i hi

theorem emit_eq_of_covered (hring : InRing fs) (out : List UInt8) (hagree : Agree w w' out.length)
    (hcov : Covered capacity out.length fs) : emit capacity fs w out = emit capacity fs w' out := by
  induction fs generalizing w w' out with
  | nil => rfl
  | cons f fs ih =>
    rw [emit, emit]
    split_ifs with hfull
    · rfl
    · have hvalue : f.value w = f.value w' := by
        cases f with
        | byte c => rfl
        | cell i =>
          have hi := hcov 0 i rfl (by omega)
          exact hagree.cell i (hring _ mem_cons_self i rfl) hi
      rw [hvalue]
      refine ih (fun g hg => hring g (mem_cons_of_mem f hg)) _ ?_ ?_
      · rw [length_append]
        exact hagree.push _
      · rw [length_append]
        exact hcov.tail

theorem covered_of_emit_eq (hring : InRing fs) (out : List UInt8) (hagree : Agree w w' out.length)
    (hdiffer : ∀ i, lzssN - lzssF + out.length ≤ i → w.cell i ≠ w'.cell i)
    (heq : (emit capacity fs w out).2 = (emit capacity fs w' out).2) :
    Covered capacity out.length fs := by
  induction fs generalizing w w' out with
  | nil => exact fun j i hj => by simp at hj
  | cons f fs ih =>
    rw [emit, emit] at heq
    split_ifs at heq with hfull
    · exact fun j i _ hlt => absurd hlt (by omega)
    -- the byte written now is the same, or the outputs would part here
    have hvalue : f.value w = f.value w' := by
      have hpre := emit_begins capacity fs (w.push lzssN (f.value w)) (out ++ [f.value w])
      have hpre' := emit_begins capacity fs (w'.push lzssN (f.value w')) (out ++ [f.value w'])
      rw [← heq] at hpre'
      have := prefix_of_prefix_length_le hpre hpre' (by simp)
      simpa using (prefix_append_right_inj out).mp this
    rw [← hvalue] at heq
    have htail : Covered capacity (out ++ [f.value w]).length fs := by
      refine ih (fun g hg => hring g (mem_cons_of_mem f hg)) _ ?_ (fun i hi => ?_) heq
      · rw [length_append]
        exact hagree.push _
      · rw [length_append, length_singleton] at hi
        rw [Window.push_cell, Window.push_cell, hagree.next, hagree.next']
        have hne : i ≠ (lzssN - lzssF + out.length) % lzssN := by
          have := Nat.mod_le (lzssN - lzssF + out.length) lzssN
          omega
        rw [update_of_ne hne, update_of_ne hne]
        exact hdiffer i (by omega)
    rw [length_append, length_singleton] at htail
    intro j i hj hlt
    cases j with
    | zero =>
      obtain rfl : f = .cell i := by simpa using hj
      by_contra hi
      exact hdiffer i (by omega) hvalue
    | succ j =>
      have := htail j i (by simpa using hj) (by omega)
      omega

theorem initialWindow_agree (buf buf' : ℕ → UInt8) :
    Agree (initialWindow buf) (initialWindow buf') 0 := by
  refine ⟨rfl, rfl, fun i _ hi => ?_⟩
  have hi : i < lzssN - lzssF := hi
  simp only [initialWindow, if_pos hi]

/-- **What the heap block held before matters** exactly when a byte that fits into the output is
copied from one of the ring's last cells before that cell was written. -/
theorem lzssDecompress_ignores_heap_iff (input : List UInt8) (capacity : ℕ) :
    (∀ buf buf' : ℕ → UInt8,
      lzssDecompress (some buf) input capacity = lzssDecompress (some buf') input capacity) ↔
    ∀ k i, (fetches input.length 0 input)[k]? = some (.cell i) → k < capacity →
      i < lzssN - lzssF + k := by
  have hcov : Covered capacity 0 (fetches input.length 0 input) ↔
      ∀ k i, (fetches input.length 0 input)[k]? = some (.cell i) → k < capacity →
        i < lzssN - lzssF + k := by
    simp only [Covered, Nat.zero_add]
  have hring := fetches_inRing input.length 0 input
  rw [← hcov]
  unfold lzssDecompress
  split_ifs with hempty
  · refine ⟨fun _ => ?_, fun _ _ _ => rfl⟩
    rcases hempty with rfl | rfl
    · exact fun j i _ hlt => absurd hlt (Nat.not_lt_zero _)
    · exact fun j i hj => by simp [fetches] at hj
  · simp only [decodeLoop_eq_emit]
    constructor
    · intro h
      refine covered_of_emit_eq hring [] (initialWindow_agree _ _) (fun i hi => ?_)
        (congrArg Prod.snd (h (fun _ => 0) fun _ => 1))
      have hi : ¬ i < lzssN - lzssF := not_lt.mpr hi
      simp only [initialWindow, if_neg hi]
      decide
    · intro h buf buf'
      exact emit_eq_of_covered hring [] (initialWindow_agree buf buf') h

/-- A stream of one match at the ring's first unset cell copies the heap's bytes out. -/
theorem match_copies_heap :
    lzssDecompress (some fun _ => 0) [0x00, 0xEE, 0xF0] 3 = (3, [0, 0, 0]) ∧
    lzssDecompress (some fun _ => 1) [0x00, 0xEE, 0xF0] 3 = (3, [1, 1, 1]) := by
  decide +kernel

end MinimalOS.Lzss
