import Mathlib.Data.ZMod.Basic
import MinimalOS.Lib.Checked
import MinimalOS.Lib.Limbs

/-!
# X25519 of `impl/net/tls13.c`

Field elements are sixteen signed 64-bit limbs to the base `2 ^ 16`, only partly reduced. Every
result of the source's arithmetic goes through `int64`, so that `x25519` is `none` as soon as a
limb, an accumulator or a term leaves the range. `rfc7748` is the function of RFC 7748 over the
integers modulo `2 ^ 255 - 19`.
-/

namespace MinimalOS.Tls13

open Checked Limbs

/-! ## The source -/

abbrev Fe := Vector ℤ 16

abbrev Bytes32 := Vector UInt8 32

def byte32 (b : Bytes32) (i : ℕ) : UInt8 := b[i]?.getD 0

/-- What the carry of the last limb brings to the first one on top of itself. -/
def wrapCarry (i : ℕ) (excess : ℤ) : Option ℤ := if i = 15 then int64 (37 * excess) else some 0

/-- One pass of the loop of `x25519_carry`. -/
def carryStep (a : Fe) (i : ℕ) : Option Fe := do
  let a := put a i (← int64 (limb a i + 2 ^ 16))
  let carry := limb a i >>> (16 : ℕ)
  let next := (i + 1) % 16
  let excess ← int64 (carry - 1)
  let excess ← int64 (excess + (← wrapCarry i excess))
  let a := put a next (← int64 (limb a next + excess))
  pure (put a i (← int64 (limb a i - (← int64 (carry * 2 ^ 16)))))

def feCarry (a : Fe) : Option Fe := (List.range 16).foldlM carryStep a

def feSelect (a b : Fe) (swap : UInt8) : Fe × Fe :=
  let mask : ℤ := -swap.toNat
  let t := fun i => and64 mask (xor64 (limb a i) (limb b i))
  (Vector.ofFn fun i => xor64 (limb a i) (t i), Vector.ofFn fun i => xor64 (limb b i) (t i))

def feAdd (a b : Fe) : Option Fe := Vector.ofFnM fun i => int64 (limb a i + limb b i)

def feSub (a b : Fe) : Option Fe := Vector.ofFnM fun i => int64 (limb a i - limb b i)

/-- `t[i+j] += a[i]*b[j]` -/
def mulStep (a b : Fe) (i : ℕ) (t : Vector ℤ 31) (j : ℕ) : Option (Vector ℤ 31) := do
  pure (put t (i + j) (← int64 (limb t (i + j) + (← int64 (limb a i * limb b j)))))

/-- The sixteen low columns with what the high ones add to them. -/
def foldColumns (t : Vector ℤ 31) : Option Fe :=
  Vector.ofFnM fun i =>
    if i.val < 15 then do int64 (limb t i + (← int64 (38 * limb t (i + 16)))) else some (limb t i)

def feMul (a b : Fe) : Option Fe := do
  let t ← (List.range 16).foldlM (fun t i => (List.range 16).foldlM (mulStep a b i) t)
    (Vector.replicate 31 0)
  let out ← foldColumns t
  feCarry (← feCarry out)

/-- `x25519_square` -/
def feSquare (a : Fe) : Option Fe := feMul a a

/-- The loop of `x25519_invert` from `i` down. -/
def invertLoop (a : Fe) : ℕ → Fe → Option Fe
  | 0, c => some c
  | i + 1, c => do
    let c ← feSquare c
    let c ← if i ≠ 2 ∧ i ≠ 4 then feMul c a else some c
    invertLoop a i c

def feInvert (a : Fe) : Option Fe := invertLoop a 254 a

def feUnpack (b : Bytes32) : Fe :=
  let out := Vector.ofFn fun i : Fin 16 =>
    ((byte32 b (2 * i)).toNat : ℤ) + ((byte32 b (2 * i + 1)).toNat : ℤ) * 2 ^ 8
  put out 15 (and64 (limb out 15) 0x7fff)

/-- One pass of the borrow loop of `x25519_pack`, for limb `i + 1`. -/
def borrowStep (t m : Fe) (i : ℕ) : Option Fe := do
  let d ← int64 (limb t (i + 1) - 0xffff)
  let m := put m (i + 1) (← int64 (d - and64 (limb m i >>> (16 : ℕ)) 1))
  pure (put m i (and64 (limb m i) 0xffff))

/-- `m`, which is `t` less the prime, and whether the top limb did not borrow. -/
def subtractPrime (t : Fe) : Option (Fe × UInt8) := do
  let m := put (Vector.replicate 16 0) 0 (← int64 (limb t 0 - 0xffed))
  let m ← (List.range 14).foldlM (borrowStep t) m
  let d ← int64 (limb t 15 - 0x7fff)
  let m := put m 15 (← int64 (d - and64 (limb m 14 >>> (16 : ℕ)) 1))
  let chooseM := UInt8.ofInt (1 - and64 (limb m 15 >>> (16 : ℕ)) 1)
  pure (put m 14 (and64 (limb m 14) 0xffff), chooseM)

/-- One pass of the outer loop of `x25519_pack`. -/
def reduceStep (t : Fe) : Option Fe := do
  let (m, chooseM) ← subtractPrime t
  pure (feSelect t m chooseM).1

def fePack (a : Fe) : Option Bytes32 := do
  let t ← feCarry (← feCarry (← feCarry a))
  let t ← reduceStep (← reduceStep t)
  pure (Vector.ofFn fun j =>
    if j.val % 2 = 0 then UInt8.ofInt (limb t (j / 2)) else UInt8.ofInt (limb t (j / 2) >>> (8 : ℕ)))

structure Ladder where
  x2 : Fe
  z2 : Fe
  x3 : Fe
  z3 : Fe
  swap : UInt8

def a24 : Fe := put (put (Vector.replicate 16 0) 0 0xdb41) 1 1

def feOne : Fe := put (Vector.replicate 16 0) 0 1

def clamp (scalar : Bytes32) : Bytes32 :=
  let s := scalar.setIfInBounds 0 (byte32 scalar 0 &&& 248)
  let s := s.setIfInBounds 31 (byte32 s 31 &&& 127)
  s.setIfInBounds 31 (byte32 s 31 ||| 64)

def scalarBit (scalar : Bytes32) (pos : ℕ) : UInt8 :=
  (byte32 scalar (pos / 8) >>> UInt8.ofNat (pos % 8)) &&& 1

/-- The exchange at the head of the loop of `x25519` and behind it. -/
def Ladder.exchange (s : Ladder) (swap : UInt8) : Ladder :=
  let x := feSelect s.x2 s.x3 swap
  let z := feSelect s.z2 s.z3 swap
  { s with x2 := x.1, x3 := x.2, z2 := z.1, z3 := z.2 }

def ladderStep (scalar : Bytes32) (x : Fe) (pos : ℕ) (s : Ladder) : Option Ladder := do
  let bit := scalarBit scalar pos
  let s := s.exchange (s.swap ^^^ bit)
  let a ← feAdd s.x2 s.z2
  let b ← feSub s.x2 s.z2
  let aa ← feSquare a
  let bb ← feSquare b
  let e ← feSub aa bb
  let c ← feAdd s.x3 s.z3
  let d ← feSub s.x3 s.z3
  let da ← feMul d a
  let cb ← feMul c b
  let x3 ← feSquare (← feAdd da cb)
  let z3 ← feMul x (← feSquare (← feSub da cb))
  let x2 ← feMul aa bb
  let z2 ← feMul e (← feAdd aa (← feMul e a24))
  pure ⟨x2, z2, x3, z3, bit⟩

/-- The loop of `x25519` for the positions below `n`, from the top. -/
def ladderLoop (scalar : Bytes32) (x : Fe) : ℕ → Ladder → Option Ladder
  | 0, s => some s
  | pos + 1, s => do ladderLoop scalar x pos (← ladderStep scalar x pos s)

def x25519 (scalar point : Bytes32) : Option Bytes32 := do
  let x := feUnpack point
  let s ← ladderLoop (clamp scalar) x 255 ⟨feOne, Vector.replicate 16 0, x, feOne, 0⟩
  let s := s.exchange s.swap
  fePack (← feMul s.x2 (← feInvert s.z2))

/-! ## RFC 7748 -/

def prime25519 : ℕ := 2 ^ 255 - 19

def F25519 : Type := ZMod prime25519

instance : CommRing F25519 := inferInstanceAs (CommRing (ZMod prime25519))

def decodeLittleEndian (b : Bytes32) : ℕ := ∑ i ∈ Finset.range 32, (byte32 b i).toNat * 256 ^ i

/-- The u-coordinate of a point; the unused top bit is masked. -/
def decodeUCoordinate (u : Bytes32) : F25519 := ((decodeLittleEndian u % 2 ^ 255 : ℕ) : F25519)

def encodeUCoordinate (u : F25519) : Bytes32 :=
  Vector.ofFn fun i => UInt8.ofNat (ZMod.val (n := prime25519) u / 256 ^ i.val)

def decodeScalar25519 (k : Bytes32) : ℕ := decodeLittleEndian (clamp k)

structure RfcLadder where
  x2 : F25519
  z2 : F25519
  x3 : F25519
  z3 : F25519
  swap : Bool

def RfcLadder.cswap (s : RfcLadder) (swap : Bool) : RfcLadder :=
  if swap then { s with x2 := s.x3, x3 := s.x2, z2 := s.z3, z3 := s.z2 } else s

def RfcLadder.step (k : ℕ) (u : F25519) (t : ℕ) (s : RfcLadder) : RfcLadder :=
  let kt := k.testBit t
  let s := s.cswap (s.swap ^^ kt)
  let a := s.x2 + s.z2
  let b := s.x2 - s.z2
  let e := a ^ 2 - b ^ 2
  let da := (s.x3 - s.z3) * a
  let cb := (s.x3 + s.z3) * b
  ⟨a ^ 2 * b ^ 2, e * (a ^ 2 + 121665 * e), (da + cb) ^ 2, u * (da - cb) ^ 2, kt⟩

def RfcLadder.loop (k : ℕ) (u : F25519) : ℕ → RfcLadder → RfcLadder
  | 0, s => s
  | t + 1, s => loop k u t (s.step k u t)

def rfc7748 (scalar point : Bytes32) : Bytes32 :=
  let u := decodeUCoordinate point
  let s := RfcLadder.loop (decodeScalar25519 scalar) u 255 ⟨1, 0, u, 1, false⟩
  let s := s.cswap s.swap
  encodeUCoordinate (s.x2 * s.z2 ^ (prime25519 - 2))

end MinimalOS.Tls13
