import Mathlib.Data.Nat.Bitwise
import MinimalOS.Partition.Gpt

/-!
# The CRC of a partition table

`partition_crc32` looks up what eight shifts do to the low byte of the register. Shifting is linear
in exclusive or, so this is the register into which the bits of the message are shifted one by one.
-/

namespace MinimalOS.Partition

/-- A bit of the message enters the register of the reflected CRC-32. -/
def crcBit (crc : UInt32) (bit : Bool) : UInt32 :=
  if (crc.toBitVec.getLsbD 0 ^^ bit) = true then (0xEDB88320 : UInt32) ^^^ (crc >>> 1) else crc >>> 1

def bitSerialCrc32 (p : List UInt8) : UInt32 :=
  (p.flatMap fun b => (List.range 8).map b.toBitVec.getLsbD).foldl crcBit 0xFFFFFFFF ^^^ 0xFFFFFFFF

theorem and_one_ne_zero (c : UInt32) : c &&& 1 ≠ 0 ↔ c.toBitVec.getLsbD 0 = true := by
  rw [Ne, ← UInt32.toBitVec_inj, UInt32.toBitVec_and]
  have h : c.toBitVec &&& (1 : UInt32).toBitVec = _ := BitVec.and_one_eq_setWidth_ofBool_getLsbD
  rw [h]
  cases c.toBitVec.getLsbD 0 <;> decide

theorem crcShift_xor (s v : UInt32) :
    crcShift (s ^^^ v) = crcBit s (v.toBitVec.getLsbD 0) ^^^ (v >>> 1) := by
  unfold crcShift crcBit
  simp only [and_one_ne_zero, UInt32.toBitVec_xor, BitVec.getLsbD_xor, UInt32.shiftRight_xor]
  split
  · rw [UInt32.xor_assoc]
  · rfl

/-- Of what is xored into the register, each shift uses up one bit. -/
theorem shifts_xor (s v : UInt32) (k : ℕ) :
    (List.range k).foldl (fun c _ => crcShift c) (s ^^^ v) =
      ((List.range k).map v.toBitVec.getLsbD).foldl crcBit s ^^^ ⟨v.toBitVec >>> k⟩ := by
  induction k with
  | zero => rfl
  | succ k ih =>
    rw [List.range_succ, List.foldl_concat, ih, crcShift_xor, List.map_append, List.foldl_append]
    simp only [BitVec.getLsbD_ushiftRight, add_zero]
    congr 1

/-- A byte goes through the table as its bits go into the register. -/
theorem crcStep_eq (crc : UInt32) (b : UInt8) :
    crcStep crc b = ((List.range 8).map b.toBitVec.getLsbD).foldl crcBit crc := by
  have hmask (i : ℕ) : (255#32).getLsbD i = decide (i < 8) := by
    show (BitVec.ofNat 32 (2 ^ 8 - 1)).getLsbD i = _
    rw [BitVec.getLsbD_ofNat, Nat.testBit_two_pow_sub_one, ← Bool.decide_and]
    exact decide_eq_decide.2 (by omega)
  have hbyte : (List.range 8).map b.toUInt32.toBitVec.getLsbD =
      (List.range 8).map b.toBitVec.getLsbD := by
    refine List.map_congr_left fun i hi => ?_
    have := List.mem_range.1 hi
    simp [(by omega : i < 32)]
  unfold crcStep crcTable
  generalize hx : crc ^^^ b.toUInt32 = x
  -- the bits that the table is not asked about only move down
  have hbits : (List.range 8).map (x ^^^ (x &&& 0xFF)).toBitVec.getLsbD =
      (List.range 8).map (0 : UInt32).toBitVec.getLsbD := by
    refine List.map_congr_left fun i hi => ?_
    simp [hmask, List.mem_range.1 hi]
  have hrest : ⟨(x ^^^ (x &&& 0xFF)).toBitVec >>> 8⟩ = crc >>> 8 := by
    rw [← hx, ← UInt32.toBitVec_inj]
    refine BitVec.eq_of_getLsbD_eq fun i _ => ?_
    simp [hmask]
  have htable := shifts_xor (x &&& 0xFF) (x ^^^ (x &&& 0xFF)) 8
  rw [hbits, hrest, UInt32.xor_comm x, ← UInt32.xor_assoc, UInt32.xor_self, UInt32.zero_xor]
    at htable
  have hsame := shifts_xor (x &&& 0xFF) 0 8
  have hserial := shifts_xor crc b.toUInt32 8
  have hnone : (⟨b.toUInt32.toBitVec >>> 8⟩ : UInt32) = 0 := by
    rw [← UInt32.toBitVec_inj]
    refine BitVec.eq_of_getLsbD_eq fun i _ => ?_
    simp
  rw [hx, hbyte, hnone, UInt32.xor_zero] at hserial
  rw [UInt32.xor_zero, show (⟨(0 : UInt32).toBitVec >>> 8⟩ : UInt32) = 0 from rfl, UInt32.xor_zero]
    at hsame
  rw [hsame, ← htable, hserial]

/-- **The table computes the CRC.** -/
theorem partitionCrc32_eq_bitSerial (p : List UInt8) : partitionCrc32 p = bitSerialCrc32 p := by
  unfold partitionCrc32 bitSerialCrc32
  rw [List.foldl_flatMap]
  simp only [← crcStep_eq]

/-! ## Bursts of errors -/

def messageBits (p : List UInt8) : List Bool :=
  p.flatMap fun b => (List.range 8).map b.toBitVec.getLsbD

theorem crcShift_injective : Function.Injective crcShift := by
  have hodd : ∀ c : UInt32, c &&& 1 ≠ 0 ↔ c.toNat % 2 = 1 := fun c => by
    rw [ne_eq, ← UInt32.toNat_inj]
    simp
  have hhalf : ∀ c : UInt32, (c >>> 1).toNat = c.toNat / 2 := fun c => by
    exact Nat.shiftRight_eq_div_pow _ _
  have hbit : ∀ c : UInt32, (c >>> 1).toNat.testBit 31 = false := fun c =>
    Nat.testBit_lt_two_pow (by have := c.toNat_lt; rw [hhalf]; omega)
  have htop : ∀ c : UInt32, (crcShift c).toNat.testBit 31 = decide (c.toNat % 2 = 1) := fun c => by
    rw [crcShift]
    by_cases h : c &&& 1 ≠ 0
    · rw [if_pos h, UInt32.toNat_xor, Nat.testBit_xor, hbit, decide_eq_true ((hodd c).mp h)]
      decide
    · rw [if_neg h, hbit, decide_eq_false (fun h' => h ((hodd c).mpr h'))]
  intro c c' h
  have hpar : c.toNat % 2 = 1 ↔ c'.toNat % 2 = 1 := by
    rw [← decide_eq_decide, ← htop, ← htop, h]
  have hsame : c >>> 1 = c' >>> 1 := by
    rw [crcShift, crcShift] at h
    by_cases hc : c &&& 1 ≠ 0
    · rw [if_pos hc, if_pos ((hodd c').mpr (hpar.mp ((hodd c).mp hc)))] at h
      exact (UInt32.xor_right_inj _).mp h
    · rwa [if_neg hc, if_neg (fun h' => hc ((hodd c).mpr (hpar.mpr ((hodd c').mp h'))))] at h
  have hhalves := congrArg UInt32.toNat hsame
  rw [hhalf, hhalf] at hhalves
  apply UInt32.toNat_inj.mp
  omega

theorem crcBit_eq (c : UInt32) (bit : Bool) :
    crcBit c bit = crcShift c ^^^ if bit then 0xEDB88320 else 0 := by
  unfold crcBit crcShift
  simp only [and_one_ne_zero]
  cases c.toBitVec.getLsbD 0 <;> cases bit <;> simp [UInt32.xor_comm]

theorem foldl_injective {α : Type} {f : UInt32 → α → UInt32} (hf : ∀ x, (f · x).Injective)
    (l : List α) : (l.foldl f).Injective := by
  induction l with
  | nil => exact Function.injective_id
  | cons x l ih => exact fun a b h => hf x (ih h)

theorem foldl_crcBit_eq (c : UInt32) {u : List Bool} (h : u.length ≤ 32) :
    ∃ v : UInt32, (∀ i, v.toBitVec.getLsbD i = u.getD i false) ∧
      u.foldl crcBit c = (List.range u.length).foldl (fun c _ => crcShift c) (c ^^^ v) := by
  have hbit (i : ℕ) : ((BitVec.ofBoolListLE u).setWidth 32).getLsbD i = u.getD i false := by
    rw [BitVec.getLsbD_setWidth, BitVec.getLsbD_ofBoolListLE]
    rcases Nat.lt_or_ge i 32 with hi | hi
    · simp [hi]
    · simp [List.getElem?_eq_none (h.trans hi)]
  refine ⟨⟨(BitVec.ofBoolListLE u).setWidth 32⟩, hbit, ?_⟩
  have hlist : (List.range u.length).map ((BitVec.ofBoolListLE u).setWidth 32).getLsbD = u := by
    refine List.ext_getElem (by simp) fun i _ hi => ?_
    rw [List.getElem_map, List.getElem_range, hbit, List.getD_eq_getElem _ _ hi]
  have hzero : ((BitVec.ofBoolListLE u).setWidth 32) >>> u.length = 0#32 := by
    refine BitVec.eq_of_getLsbD_eq fun i _ => ?_
    rw [BitVec.getLsbD_ushiftRight, hbit, List.getD_eq_default _ _ (by omega), BitVec.getLsbD_zero]
  rw [shifts_xor, hlist, hzero]
  exact UInt32.xor_zero.symm

variable {s u w t : List Bool}

/-- Messages that differ only within 32 consecutive bits have different checksums. -/
theorem partitionCrc32_ne_of_burst {p q : List UInt8}
    (hp : messageBits p = s ++ u ++ t) (hq : messageBits q = s ++ w ++ t)
    (hlen : u.length = w.length) (hle : u.length ≤ 32) (hne : u ≠ w) :
    partitionCrc32 p ≠ partitionCrc32 q := by
  have hbits (m : List UInt8) : partitionCrc32 m =
      (messageBits m).foldl crcBit 0xFFFFFFFF ^^^ 0xFFFFFFFF := by
    unfold partitionCrc32 messageBits
    rw [List.foldl_flatMap]
    simp only [← crcStep_eq]
  intro h
  rw [hbits, hbits, UInt32.xor_left_inj, hp, hq] at h
  simp only [List.foldl_append] at h
  obtain ⟨v, hv, hu⟩ := foldl_crcBit_eq (s.foldl crcBit 0xFFFFFFFF) hle
  obtain ⟨x, hx, hw⟩ := foldl_crcBit_eq (s.foldl crcBit 0xFFFFFFFF) (hlen ▸ hle)
  have hbit (bit : Bool) : (crcBit · bit).Injective := fun a b hab =>
    crcShift_injective (by simpa [crcBit_eq] using hab)
  have hsame := foldl_injective hbit t h
  rw [hu, hw, ← hlen] at hsame
  have hvx := (UInt32.xor_right_inj _).1 (foldl_injective (fun _ => crcShift_injective) _ hsame)
  refine hne (List.ext_getElem hlen fun i hi hi' => ?_)
  rw [← List.getD_eq_getElem _ false hi, ← List.getD_eq_getElem _ false hi', ← hv, ← hx, hvx]

end MinimalOS.Partition
