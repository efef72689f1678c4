import Mathlib.Algebra.Order.Ring.Nat
import Mathlib.Tactic.Ring

/-!
# Byte memory

Memory is a function from addresses to bytes. Integers are read and written little-endian, `w`
bytes wide; `fill` and `copy` are `memset` and `memcpy`. Every write changes a range of
addresses and nothing else (`Changed`), and a read outside that range is not affected.
-/

namespace ByteMem

abbrev Mem := ℕ → UInt8

/-- The `w`-byte number at `a`. -/
def readLE (m : Mem) : ℕ → ℕ → ℕ
  | 0, _ => 0
  | w + 1, a => (m a).toNat + 256 * readLE m w (a + 1)

/-- Store the low `w` bytes of `v` at `a`. -/
def writeLE (m : Mem) (w a v : ℕ) : Mem :=
  fun i => if a ≤ i ∧ i < a + w then UInt8.ofNat (v / 256 ^ (i - a)) else m i

/-- Set `n` bytes from `a` on to `c`. -/
def fill (m : Mem) (a n : ℕ) (c : UInt8) : Mem :=
  fun i => if a ≤ i ∧ i < a + n then c else m i

/-- Copy `n` bytes from `src` to `dst`. -/
def copy (m : Mem) (dst src n : ℕ) : Mem :=
  fun i => if dst ≤ i ∧ i < dst + n then m (src + (i - dst)) else m i

/-- Store a list of bytes at `a`. -/
def store (m : Mem) (a : ℕ) (bytes : List UInt8) : Mem :=
  fun i => if a ≤ i ∧ i < a + bytes.length then bytes.getD (i - a) 0 else m i

/-- `m'` differs from `m` at most in the `n` bytes from `a` on. -/
def Changed (a n : ℕ) (m m' : Mem) : Prop := ∀ i, i < a ∨ a + n ≤ i → m' i = m i

theorem changed_writeLE (m : Mem) (w a v : ℕ) : Changed a w m (writeLE m w a v) :=
  fun _ hi => if_neg (by omega)

theorem changed_fill (m : Mem) (a n : ℕ) (c : UInt8) : Changed a n m (fill m a n c) :=
  fun _ hi => if_neg (by omega)

theorem changed_copy (m : Mem) (dst src n : ℕ) : Changed dst n m (copy m dst src n) :=
  fun _ hi => if_neg (by omega)

theorem changed_store (m : Mem) (a : ℕ) (bytes : List UInt8) :
    Changed a bytes.length m (store m a bytes) :=
  fun _ hi => if_neg (by omega)

variable {m m' : Mem} {w b : ℕ}

theorem readLE_congr :
    ∀ (w a : ℕ), (∀ i, a ≤ i → i < a + w → m' i = m i) → readLE m' w a = readLE m w a := by
  intro w
  induction w with
  | zero => intro a _; rfl
  | succ w ih =>
    intro a h
    rw [readLE, readLE, h a le_rfl (by omega), ih (a + 1) fun i hi hi' => h i (by omega) (by omega)]

theorem Changed.readLE_eq {a n : ℕ} (h : Changed a n m m') (hb : b + w ≤ a ∨ a + n ≤ b) :
    readLE m' w b = readLE m w b :=
  readLE_congr w b fun i hi hi' => h i (by omega)

theorem readLE_lt (m : Mem) : ∀ w a, readLE m w a < 256 ^ w := by
  intro w
  induction w with
  | zero => intro a; exact Nat.one_pos
  | succ w ih =>
    intro a
    have hb : (m a).toNat < 256 := (m a).toNat_lt
    have := ih (a + 1)
    rw [readLE, pow_succ]
    omega

theorem readLE_of_digits :
    ∀ (w a v : ℕ), (∀ i < w, (m (a + i)).toNat = v / 256 ^ i % 256) →
      readLE m w a = v % 256 ^ w := by
  intro w
  induction w with
  | zero => intro a v _; rw [pow_zero, Nat.mod_one]; rfl
  | succ w ih =>
    intro a v h
    have h0 := h 0 (Nat.succ_pos w)
    have hrest := ih (a + 1) (v / 256) fun i hi => by
      have := h (i + 1) (by omega)
      rw [show a + 1 + i = a + (i + 1) by omega, this, pow_succ', Nat.div_div_eq_div_mul]
    rw [readLE, hrest]
    rw [Nat.add_zero, pow_zero, Nat.div_one] at h0
    rw [h0, pow_succ', Nat.mod_mul]

@[simp]
theorem readLE_writeLE_self (m : Mem) (w a v : ℕ) : readLE (writeLE m w a v) w a = v % 256 ^ w := by
  apply readLE_of_digits
  intro i hi
  show (if a ≤ a + i ∧ a + i < a + w then _ else _ : UInt8).toNat = _
  rw [if_pos ⟨by omega, by omega⟩, Nat.add_sub_cancel_left]
  exact UInt8.toNat_ofNat'

theorem readLE_writeLE_of_le {a v w' : ℕ} (h : b + w' ≤ a ∨ a + w ≤ b) :
    readLE (writeLE m w a v) w' b = readLE m w' b :=
  (changed_writeLE m w a v).readLE_eq h

end ByteMem
