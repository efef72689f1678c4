import Mathlib.Data.List.Basic
import Mathlib.Tactic

/-!
# Packed records

The bytes of a C structure without padding: numbers in little-endian order, arrays and records
one field behind the other. A `Packed` layout carries its own round trip: what was laid out is
read back, whatever follows it, and what was read is laid out again.
-/

namespace MinimalOS

/-- The low `w` bytes of a number, lowest first. -/
def le : ℕ → ℕ → List UInt8
  | 0, _ => []
  | w + 1, n => UInt8.ofNat n :: le w (n / 256)

def leNat : List UInt8 → ℕ
  | [] => 0
  | b :: bs => b.toNat + 256 * leNat bs

theorem length_le (w n : ℕ) : (le w n).length = w := by
  induction w generalizing n with
  | zero => rfl
  | succ w ih => rw [le, List.length_cons, ih]

theorem leNat_le (w n : ℕ) : leNat (le w n) = n % 256 ^ w := by
  induction w generalizing n with
  | zero => rw [pow_zero, Nat.mod_one]; rfl
  | succ w ih =>
    rw [le, leNat, ih, pow_succ', Nat.mod_mul, UInt8.toNat_ofNat']

theorem le_leNat (p : List UInt8) : le p.length (leNat p) = p := by
  induction p with
  | nil => rfl
  | cons b bs ih =>
    have hlt := b.toNat_lt
    rw [List.length_cons, le, leNat, show (b.toNat + 256 * leNat bs) / 256 = leNat bs by omega, ih]
    congr 1
    rw [← UInt8.toNat_inj, UInt8.toNat_ofNat']
    omega

theorem leNat_lt (p : List UInt8) : leNat p < 256 ^ p.length := by
  induction p with
  | nil => exact Nat.one_pos
  | cons b bs ih =>
    have hlt := b.toNat_lt
    rw [leNat, List.length_cons, pow_succ']
    omega

structure Packed (α : Type) where
  size : ℕ
  enc : α → List UInt8
  dec : List UInt8 → α
  length_enc : ∀ a, (enc a).length = size
  dec_enc : ∀ a rest, dec (enc a ++ rest) = a
  enc_dec : ∀ p, size ≤ p.length → enc (dec p) = p.take size

namespace Packed

variable {α β : Type}

attribute [simp] length_enc

/-- A number of `w` bytes. -/
def number (w : ℕ) (toNat : α → ℕ) (ofNat : ℕ → α) (hlt : ∀ a, toNat a < 256 ^ w)
    (h : ∀ a, ofNat (toNat a) = a) (h' : ∀ n < 256 ^ w, toNat (ofNat n) = n) : Packed α where
  size := w
  enc a := le w (toNat a)
  dec p := ofNat (leNat (p.take w))
  length_enc a := length_le w _
  dec_enc a rest := by
    rw [List.take_left' (length_le w _), leNat_le, Nat.mod_eq_of_lt (hlt a), h]
  enc_dec p hp := by
    have hlen : (p.take w).length = w := List.length_take_of_le hp
    have hlt := leNat_lt (p.take w)
    rw [hlen] at hlt
    rw [h' _ hlt]
    nth_rw 1 [← hlen]
    exact le_leNat _

def u8 : Packed UInt8 :=
  number 1 UInt8.toNat UInt8.ofNat (fun a => a.toNat_lt) (fun _ => UInt8.ofNat_toNat)
    fun _ h => Nat.mod_eq_of_lt h

def u16 : Packed UInt16 :=
  number 2 UInt16.toNat UInt16.ofNat (fun a => a.toNat_lt) (fun _ => UInt16.ofNat_toNat)
    fun _ h => Nat.mod_eq_of_lt h

def u32 : Packed UInt32 :=
  number 4 UInt32.toNat UInt32.ofNat (fun a => a.toNat_lt) (fun _ => UInt32.ofNat_toNat)
    fun _ h => Nat.mod_eq_of_lt h

def u64 : Packed UInt64 :=
  number 8 UInt64.toNat UInt64.ofNat (fun a => a.toNat_lt) (fun _ => UInt64.ofNat_toNat)
    fun _ h => Nat.mod_eq_of_lt h

def both (A : Packed α) (B : Packed β) : Packed (α × β) where
  size := A.size + B.size
  enc p := A.enc p.1 ++ B.enc p.2
  dec p := (A.dec p, B.dec (p.drop A.size))
  length_enc p := by rw [List.length_append, A.length_enc, B.length_enc]
  dec_enc p rest := by
    rw [List.append_assoc, A.dec_enc, List.drop_left' (A.length_enc _), B.dec_enc]
  enc_dec p hp := by
    rw [A.enc_dec p (by omega), B.enc_dec _ (by rw [List.length_drop]; omega), List.take_add]

/-- The same bytes for a type with the same values. -/
def as (A : Packed α) (f : α → β) (g : β → α) (h : ∀ b, f (g b) = b) (h' : ∀ a, g (f a) = a) :
    Packed β where
  size := A.size
  enc b := A.enc (g b)
  dec p := f (A.dec p)
  length_enc b := A.length_enc _
  dec_enc b rest := by rw [A.dec_enc, h]
  enc_dec p hp := by rw [h', A.enc_dec p hp]

theorem length_flatMap_enc (A : Packed α) (l : List α) :
    (l.flatMap A.enc).length = l.length * A.size := by
  induction l with
  | nil => simp
  | cons a l ih => rw [List.flatMap_cons, List.length_append, ih, A.length_enc, List.length_cons]; ring

theorem drop_flatMap_enc (A : Packed α) (l : List α) (rest : List UInt8) {i : ℕ}
    (hi : i ≤ l.length) :
    (l.flatMap A.enc ++ rest).drop (i * A.size) = (l.drop i).flatMap A.enc ++ rest := by
  induction l generalizing i with
  | nil =>
    obtain rfl : i = 0 := by rw [List.length_nil] at hi; omega
    simp
  | cons a l ih =>
    cases i with
    | zero => simp
    | succ i =>
      rw [List.flatMap_cons, List.append_assoc, Nat.succ_mul, add_comm, ← List.drop_drop,
        List.drop_left' (A.length_enc _)]
      exact ih (by rw [List.length_cons] at hi; omega)

theorem flatMap_pieces (p : List UInt8) (s n : ℕ) :
    ((List.range n).flatMap fun i => (p.drop (i * s)).take s) = p.take (n * s) := by
  induction n with
  | zero => simp
  | succ n ih =>
    rw [List.range_succ, List.flatMap_append, ih, List.flatMap_singleton, Nat.succ_mul,
      List.take_add]

theorem dec_inj (A : Packed α) {p q : List UInt8} (hp : p.length = A.size) (hq : q.length = A.size) :
    A.dec p = A.dec q ↔ p = q := by
  refine ⟨fun h => ?_, congrArg A.dec⟩
  rw [← List.take_of_length_le hp.le, ← List.take_of_length_le hq.le, ← A.enc_dec p hp.ge,
    ← A.enc_dec q hq.ge, h]

def array (A : Packed α) (n : ℕ) : Packed (Vector α n) where
  size := n * A.size
  enc v := v.toList.flatMap A.enc
  dec p := Vector.ofFn fun i => A.dec (p.drop (i * A.size))
  length_enc v := by rw [length_flatMap_enc, Vector.length_toList]
  dec_enc v rest := by
    ext i hi
    rw [Vector.getElem_ofFn, drop_flatMap_enc A _ _ (by simp; omega),
      List.drop_eq_getElem_cons (by simpa using hi), List.flatMap_cons, List.append_assoc,
      A.dec_enc, Vector.getElem_toList]
  enc_dec p hp := by
    rw [Vector.toList_ofFn, List.ofFn_eq_map, List.flatMap_map, ← flatMap_pieces,
      ← List.map_coe_finRange_eq_range, List.flatMap_map]
    refine List.flatMap_congr fun i _ => A.enc_dec _ ?_
    have hi := Nat.mul_le_mul_right A.size i.isLt
    rw [Nat.succ_mul] at hi
    rw [List.length_drop]
    omega

end Packed

end MinimalOS
