import Mathlib.Data.List.Basic
import Mathlib.Data.Nat.Basic
import Mathlib.Tactic

/-!
# AES-256-GCM as `impl/kernel/kcrypto.c` composes it

`gcm_core` is counter mode and a hash over the ciphertext, around a block cipher and a field
multiplication. Both of these are left open: decryption undoes encryption whatever they compute
(`gcmDecrypt_gcmEncrypt`).
-/

namespace MinimalOS.Ktls

open List

abbrev CipherBlock := Fin 16 → UInt8

abbrev Key := Fin 32 → UInt8

abbrev Nonce := Fin 12 → UInt8

/-- `aes256_encrypt_block` under an expanded key, and `ghash_mul` with the tables of `h`. -/
structure Cipher where
  encryptBlock : Key → CipherBlock → CipherBlock
  ghashMul : CipherBlock → CipherBlock → CipherBlock

/-- `gcm_inc32` from byte `i` on, towards byte 12. -/
def incFrom : List (Fin 16) → CipherBlock → CipherBlock
  | [], c => c
  | i :: is, c =>
    let c := Function.update c i (c i + 1)
    if c i ≠ 0 then c else incFrom is c

def gcmInc32 (c : CipherBlock) : CipherBlock := incFrom [15, 14, 13, 12] c

/-- The keystream loop of `gcm_core`: `n` bounds the number of blocks. -/
def gcmCounter (E : CipherBlock → CipherBlock) : ℕ → CipherBlock → List UInt8 → List UInt8
  | 0, _, _ => []
  | n + 1, counter, input =>
    let counter := gcmInc32 counter
    List.zipWith (· ^^^ ·) (input.take 16) (List.ofFn (E counter)) ++
      gcmCounter E n counter (input.drop 16)

/-- `ghash_update`, block by block. -/
def ghashUpdate (mul : CipherBlock → CipherBlock) : ℕ → CipherBlock → List UInt8 → CipherBlock
  | 0, y, _ => y
  | n + 1, y, data =>
    if data = [] then y
    else ghashUpdate mul n (mul fun i => y i ^^^ data[i.val]?.getD 0) (data.drop 16)

/-- The block of the two lengths: no additional data, `len` bytes of text. -/
def lengthsBlock (len : ℕ) : List UInt8 :=
  List.replicate 8 0 ++ (List.range 8).map fun i => UInt8.ofNat (len * 8 / 256 ^ (7 - i))

def initialCounter (iv : Nonce) : CipherBlock := fun i =>
  if h : i.val < 12 then iv ⟨i.val, h⟩ else if i.val = 15 then 1 else 0

variable (c : Cipher) (key : Key) (iv : Nonce)

def gcmStream (input : List UInt8) : List UInt8 :=
  gcmCounter (c.encryptBlock key) input.length (initialCounter iv) input

def gcmTag (ct : List UInt8) : CipherBlock :=
  let h := c.encryptBlock key fun _ => 0
  let y := ghashUpdate (c.ghashMul h) ct.length (fun _ => 0) ct
  let y := ghashUpdate (c.ghashMul h) 1 y (lengthsBlock ct.length)
  let s := c.encryptBlock key (initialCounter iv)
  fun i => y i ^^^ s i

def gcmEncrypt (pt : List UInt8) : List UInt8 × CipherBlock :=
  let ct := gcmStream c key iv pt
  (ct, gcmTag c key iv ct)

/-- `none` where the computed tag differs from the one received. -/
def gcmDecrypt (ct : List UInt8) (tag : CipherBlock) : Option (List UInt8) :=
  if gcmTag c key iv ct = tag then some (gcmStream c key iv ct) else none

/-! ## Decryption undoes encryption -/

theorem length_gcmCounter (E : CipherBlock → CipherBlock) (n : ℕ) (counter : CipherBlock)
    (input : List UInt8) (h : input.length ≤ n) :
    (gcmCounter E n counter input).length = input.length := by
  induction n generalizing counter input with
  | zero =>
    have hnil : input = [] := by simpa using h
    simp [gcmCounter, hnil]
  | succ n ih =>
    rw [gcmCounter, length_append, ih _ _ (by rw [length_drop]; omega)]
    simp only [length_zipWith, length_take, length_ofFn, length_drop]
    omega

theorem zipWith_xor_cancel (a k : List UInt8) (h : a.length ≤ k.length) :
    List.zipWith (· ^^^ ·) (List.zipWith (· ^^^ ·) a k) k = a := by
  induction a generalizing k with
  | nil => simp
  | cons x a ih =>
    cases k with
    | nil => simp at h
    | cons y k =>
      simp only [length_cons, Nat.add_le_add_iff_right] at h
      simp only [zipWith_cons_cons, ih k h, UInt8.xor_assoc, UInt8.xor_self, UInt8.xor_zero]

theorem gcmCounter_involutive (E : CipherBlock → CipherBlock) (n : ℕ) (counter : CipherBlock)
    (input : List UInt8) (h : input.length ≤ n) :
    gcmCounter E n counter (gcmCounter E n counter input) = input := by
  induction n generalizing counter input with
  | zero => simpa [gcmCounter] using h
  | succ n ih =>
    let first := List.zipWith (· ^^^ ·) (input.take 16) (List.ofFn (E (gcmInc32 counter)))
    have hfirst : first.length = min 16 input.length := by simp [first]
    have hstep : gcmCounter E (n + 1) counter input =
        first ++ gcmCounter E n (gcmInc32 counter) (input.drop 16) := rfl
    -- the first block of the result is the first block of the input, encrypted
    have hsplit : (gcmCounter E (n + 1) counter input).take 16 = first ∧
        (gcmCounter E (n + 1) counter input).drop 16 =
          gcmCounter E n (gcmInc32 counter) (input.drop 16) := by
      rw [hstep]
      by_cases hlong : 16 ≤ input.length
      · rw [min_eq_left hlong] at hfirst
        exact ⟨take_left' hfirst, drop_left' hfirst⟩
      · have hrest : gcmCounter E n (gcmInc32 counter) (input.drop 16) = [] := by
          rw [← length_eq_zero_iff, length_gcmCounter _ _ _ _ (by simp; omega)]
          simp only [length_drop]
          omega
        rw [hrest, append_nil]
        exact ⟨take_of_length_le (by omega), drop_of_length_le (by omega)⟩
    rw [gcmCounter, hsplit.1, hsplit.2, ih _ _ (by simp; omega),
      zipWith_xor_cancel _ _ (by simp), take_append_drop]

theorem length_gcmStream (input : List UInt8) : (gcmStream c key iv input).length = input.length :=
  length_gcmCounter _ _ _ _ le_rfl

theorem gcmStream_gcmStream (input : List UInt8) :
    gcmStream c key iv (gcmStream c key iv input) = input := by
  rw [gcmStream, length_gcmStream]
  exact gcmCounter_involutive _ _ _ _ le_rfl

/-- **Decryption undoes encryption**, for every block cipher and every multiplication. -/
theorem gcmDecrypt_gcmEncrypt (pt : List UInt8) :
    gcmDecrypt c key iv (gcmEncrypt c key iv pt).1 (gcmEncrypt c key iv pt).2 = some pt := by
  rw [gcmDecrypt, gcmEncrypt, if_pos rfl, gcmStream_gcmStream]

/-- **What is accepted.** A ciphertext with its tag decrypts to a text exactly if it is the
encryption of that text. -/
theorem gcmDecrypt_eq_some_iff (ct pt : List UInt8) (tag : CipherBlock) :
    gcmDecrypt c key iv ct tag = some pt ↔ gcmEncrypt c key iv pt = (ct, tag) := by
  constructor
  · intro h
    obtain ⟨rfl, hs⟩ := Option.ite_none_right_eq_some.1 h
    cases hs
    rw [gcmEncrypt, gcmStream_gcmStream]
  · intro h
    have hround := gcmDecrypt_gcmEncrypt c key iv pt
    rwa [h] at hround

end MinimalOS.Ktls
