import MinimalOS.Fgpu.Machine

/-!
# The shader IR of `modules/GPU/fgpu_ir.c`

`fgpuIrLower` turns a stage of a checked program into straight-line scalar code in which every
instruction defines one value. Vectors become components, jumps become selects under the
condition that the thread has not jumped past the instruction, constants are folded, values are
shared through a hash table and instructions no output depends on are dropped.

The source keeps a flag for an overflow of the code array, goes on with meaningless values and
reports the failure at the end; here the overflow ends the lowering at once. Two immediates are
the same value when their bits are, so they are compared for equality; the hash takes the bits
from a parameter. Function arguments, whose order C leaves open, are emitted from left to right.
`reg`, which only register allocation sets, is left out.
-/

namespace MinimalOS.Fgpu

/-! ## Code -/

inductive IrOp
  | imm | input | special | uniform | add | mul | fma | min | max | floor | rcp | rsq | sqrt | ex2
  | lg2 | sin | cos | slt | sle | seq | sne | sel | tex | texc | output | discard
  deriving DecidableEq, Repr

/-- The opcodes `FGPU_IR_*` in the order of their numbers. -/
def irOps : List IrOp :=
  [.imm, .input, .special, .uniform, .add, .mul, .fma, .min, .max, .floor, .rcp, .rsq, .sqrt, .ex2,
    .lg2, .sin, .cos, .slt, .sle, .seq, .sne, .sel, .tex, .texc, .output, .discard]

/-- A source: the instruction that defines it, with the modifiers `FGPU_IR_NEG` and
`FGPU_IR_ABS`. -/
structure Src where
  value : ℕ
  neg : Bool := false
  abs : Bool := false
  deriving DecidableEq, Repr

def Src.mods (s : Src) : ℕ := s.neg.toNat + 2 * s.abs.toNat

structure IrInst (K : Type) where
  op : IrOp
  aux : ℕ := 0
  imm : K
  src : List Src := []
  deriving DecidableEq

def irSlot (reg : ℕ) (comp : Fin 4) : ℕ := reg * 4 + comp

def slotComp (aux : ℕ) : Fin 4 := ⟨aux % 4, Nat.mod_lt _ (by decide)⟩

/-! ## Evaluation

The reference evaluator of `tests/host/fgpu_ir_tests.c`. -/

section Eval

variable {K : Type} (A : Arith K)

structure IrEnv (K : Type) where
  input : ℕ → Fin 4 → K
  special : ℕ → Fin 4 → K
  uniform : ℕ → Fin 4 → K
  texture : ℕ → K → K → Fin 4 → K

/-- The value of an instruction, and of a `TEX` the four components it sampled. -/
structure Cell (K : Type) where
  val : K
  texel : Fin 4 → K

def noCell : Cell K := ⟨A.zero, fun _ => A.zero⟩

def Src.get (cells : ℕ → Cell K) (s : Src) : K :=
  let v := (cells s.value).val
  let v := if s.abs then A.mAbs v else v
  if s.neg then A.neg v else v

/-- The operations on numbers. The cosine is the machine's. -/
def irValue (op : IrOp) (a b c : K) : K :=
  match op with
  | .add => A.add a b
  | .mul => A.mul a b
  | .fma => A.add (A.mul a b) c
  | .min => if A.lt a b then a else b
  | .max => if A.lt b a then a else b
  | .floor => A.floor a
  | .rcp => A.div A.one a
  | .rsq => A.div A.one (A.sqrt a)
  | .sqrt => A.sqrt a
  | .ex2 => A.exp2 a
  | .lg2 => A.log2 a
  | .sin => A.sin a
  | .cos => A.sin (A.add a A.mPiHalf)
  | .slt => if A.lt a b then A.one else A.zero
  | .sle => if A.le a b then A.one else A.zero
  | .seq => if A.eq a b then A.one else A.zero
  | .sne => if !A.eq a b then A.one else A.zero
  | .sel => if !A.eq a A.zero then b else c
  | _ => A.zero

/-- Source `i` of an instruction, zero if it has none. -/
def IrInst.arg (x : IrInst K) (cells : ℕ → Cell K) (i : ℕ) : K :=
  match x.src[i]? with
  | some s => s.get A cells
  | none => A.zero

def evalInst (env : IrEnv K) (x : IrInst K) (cells : ℕ → Cell K) : Cell K :=
  let number := fun v => (⟨v, fun _ => A.zero⟩ : Cell K)
  match x.op with
  | .imm => number x.imm
  | .input => number (env.input (x.aux / 4) (slotComp x.aux))
  | .special => number (env.special (x.aux / 4) (slotComp x.aux))
  | .uniform => number (env.uniform (x.aux / 4) (slotComp x.aux))
  | .tex =>
    let t := env.texture x.aux (x.arg A cells 0) (x.arg A cells 1)
    ⟨t 0, t⟩
  | .texc =>
    match x.src[0]? with
    | some s => number ((cells s.value).texel (slotComp x.aux))
    | none => number A.zero
  | op => number (irValue A op (x.arg A cells 0) (x.arg A cells 1) (x.arg A cells 2))

structure Eval (K : Type) where
  cells : List (Cell K)
  out : ℕ → Fin 4 → K
  kept : Bool

def evalStep (env : IrEnv K) (e : Eval K) (x : IrInst K) : Eval K :=
  let cells := fun i => e.cells.getD i (noCell A)
  { cells := e.cells ++ [evalInst A env x cells]
    out := fun o c =>
      if x.op = .output ∧ o = x.aux / 4 ∧ c = slotComp x.aux then x.arg A cells 0 else e.out o c
    kept := e.kept && !(x.op = .discard && !A.eq (x.arg A cells 0) A.zero) }

def eval (env : IrEnv K) (code : List (IrInst K)) : Eval K :=
  code.foldl (evalStep A env) ⟨[], fun _ _ => A.zero, true⟩

end Eval

/-! ## The builder -/

inductive LowerError
  | why (text : String)
  | hang
  deriving DecidableEq, Repr

/-- The caller's storage: room for `capacity` instructions and twice as many hash words. `f2u`
gives the bits of an immediate. -/
structure Storage (K : Type) where
  capacity : ℕ
  f2u : K → ℕ

def irHashWords (capacity : ℕ) : ℕ := 2 * capacity

/-- The code so far and the hash table; a table word is an instruction's index plus one, or
zero. -/
structure Ir (K : Type) where
  code : List (IrInst K)
  hash : ℕ → ℕ

abbrev Build (K : Type) := StateT (Ir K) (Except LowerError)

section Builder

variable {K : Type} [DecidableEq K] (A : Arith K) (cfg : Storage K)

def isImm (ir : Ir K) (s : Src) : Bool :=
  match ir.code[s.value]? with
  | some x => x.op = .imm
  | none => false

/-- The value of an immediate source, with its modifiers applied. -/
def immOf (ir : Ir K) (s : Src) : K :=
  let v := match ir.code[s.value]? with
    | some x => x.imm
    | none => A.zero
  let v := if s.abs then A.mAbs v else v
  if s.neg then A.neg v else v

/-- `modify`: `|(+-x)| = |x|`, then the sign. -/
def Src.modify (s : Src) (abs neg : Bool) : Src :=
  if abs then { s with abs := true, neg := neg }
  else if neg then { s with neg := !s.neg }
  else s

def Src.negate (s : Src) : Src := s.modify false true

def hashInst (x : IrInst K) : ℕ :=
  let k := fun i => match x.src[i]? with
    | some s => [s.value, s.mods]
    | none => [0xFFFFFFFF, 0]
  let words := [irOps.idxOf x.op ||| (x.src.length <<< 8), x.aux, cfg.f2u x.imm] ++
    k 0 ++ k 1 ++ k 2
  words.foldl (fun h w => (h ^^^ w) * 16777619 % 2 ^ 32) 2166136261

def cseAllowed (op : IrOp) : Bool := op ≠ .output && op ≠ .discard

inductive Probe
  | found (index : ℕ)
  | free (slot : ℕ)
  | hang

/-- The search for an equal instruction, for at most `n` slots. -/
def probe (ir : Ir K) (x : IrInst K) (size : ℕ) : ℕ → ℕ → Probe
  | 0, _ => .hang
  | n + 1, slot =>
    let e := ir.hash slot
    if e = 0 then .free slot
    else if ir.code[e - 1]? = some x then .found (e - 1)
    else probe ir x size n ((slot + 1) % size)

def Ir.push (ir : Ir K) (x : IrInst K) (hash : ℕ → ℕ) : Except LowerError (Src × Ir K) :=
  if cfg.capacity ≤ ir.code.length then .error (.why "shader too large for the IR")
  else .ok ({ value := ir.code.length }, ⟨ir.code ++ [x], hash⟩)

/-- Append an instruction, or return an equal one emitted before. -/
def append (x : IrInst K) : Build K Src := fun ir =>
  let size := irHashWords cfg.capacity
  if cseAllowed x.op then
    match probe ir x size size (hashInst cfg x % size) with
    | .found index => .ok ({ value := index }, ir)
    | .free slot => ir.push cfg x (Function.update ir.hash slot (ir.code.length + 1))
    | .hang => .error .hang
  else ir.push cfg x ir.hash

def imm (v : K) : Build K Src := append cfg { op := .imm, imm := v }

def commutative (op : IrOp) : Bool :=
  op = .add || op = .mul || op = .min || op = .max || op = .seq || op = .sne

def fold (op : IrOp) (v : ℕ → K) : Option K :=
  match op with
  | .add => some (A.add (v 0) (v 1))
  | .mul => some (A.mul (v 0) (v 1))
  | .fma => some (A.add (A.mul (v 0) (v 1)) (v 2))
  | .min => some (if A.lt (v 0) (v 1) then v 0 else v 1)
  | .max => some (if A.lt (v 1) (v 0) then v 0 else v 1)
  | .floor => some (A.floor (v 0))
  | .rcp => if A.eq (v 0) A.zero then none else some (A.div A.one (v 0))
  | .slt => some (if A.lt (v 0) (v 1) then A.one else A.zero)
  | .sle => some (if A.le (v 0) (v 1) then A.one else A.zero)
  | .seq => some (if A.eq (v 0) (v 1) then A.one else A.zero)
  | .sne => some (if !A.eq (v 0) (v 1) then A.one else A.zero)
  | .sel => some (if !A.eq (v 0) A.zero then v 1 else v 2)
  | _ => none

/-- Immediates carry no modifiers: fold them into the value. -/
def normalizeImm (s : Src) : Build K Src := do
  let ir ← get
  if isImm ir s && (s.neg || s.abs) then imm cfg (immOf A ir s) else return s

def isConst (ir : Ir K) (s : Src) (k : K) : Bool := isImm ir s && A.eq (immOf A ir s) k

/-- A product with an immediate factor `k`. -/
def mulBy (k other : Src) : Build K (Option Src) := do
  let ir ← get
  if isConst A ir k A.one then return some other
  else if isConst A ir k (A.lit (-1)) then return some other.negate
  else if isConst A ir k A.zero then
    let s ← imm cfg A.zero
    return some s
  else return none

/-- The simplifications, those of `FMA` apart. -/
def simplifyFlat (op : IrOp) (srcs : List Src) : Build K (Option Src) := do
  let ir ← get
  match op, srcs with
  | .sel, [c, a, b] =>
    if isImm ir c then return some (if !A.eq (immOf A ir c) A.zero then a else b)
    else if a = b then return some a
    else return none
  | .add, [a, b] =>
    if isConst A ir b A.zero then return some a
    else if isConst A ir a A.zero then return some b
    else return none
  | .mul, [a, b] => do
    match ← mulBy A cfg a b with
    | some s => return some s
    | none => mulBy A cfg b a
  | .min, [a, b] => return if a = b then some a else none
  | .max, [a, b] => return if a = b then some a else none
  | _, _ => return none

/-- A canonical order, so that `a + b` and `b + a` are one value. -/
def canonical (op : IrOp) (srcs : List Src) : List Src :=
  match srcs with
  | [a, b] =>
    if commutative op ∧ (b.value < a.value ∨ (a.value = b.value ∧ b.mods < a.mods)) then [b, a]
    else [a, b]
  | _ => srcs

/-- `op3` over the given simplifications. -/
def op3With (simplify : IrOp → List Src → Build K (Option Src)) (op : IrOp) (srcs : List Src) :
    Build K Src := do
  let srcs ← srcs.mapM (normalizeImm A cfg)
  let ir ← get
  let folded :=
    if srcs.all (isImm ir) then fold A op fun i => (srcs.map (immOf A ir)).getD i A.zero else none
  match folded with
  | some r => imm cfg r
  | none =>
    match ← simplify op srcs with
    | some s => return s
    | none => append cfg { op := op, imm := A.zero, src := canonical op srcs }

/-- An `FMA` with an immediate factor `k`. -/
def fmaBy (k other c : Src) : Build K (Option Src) := do
  let ir ← get
  if isConst A ir k A.one then
    let s ← op3With A cfg (simplifyFlat A cfg) .add [other, c]
    return some s
  else if isConst A ir k A.zero then return some c
  else return none

def simplify (op : IrOp) (srcs : List Src) : Build K (Option Src) :=
  match op, srcs with
  | .fma, [a, b, c] => do
    match ← fmaBy A cfg a b c with
    | some s => return some s
    | none =>
      match ← fmaBy A cfg b a c with
      | some s => return some s
      | none =>
        let ir ← get
        if isConst A ir c A.zero then
          let s ← op3With A cfg (simplifyFlat A cfg) .mul [a, b]
          return some s
        else return none
  | op, srcs => simplifyFlat A cfg op srcs

def op3 (op : IrOp) (srcs : List Src) : Build K Src := op3With A cfg (simplify A cfg) op srcs

def load (op : IrOp) (aux : ℕ) : Build K Src := append cfg { op := op, aux := aux, imm := A.zero }

/-! ## Operations -/

/-- `a / b` with `x / 0 = 0`. -/
def div_ (a b : Src) : Build K Src := do
  let r ← op3 A cfg .rcp [b]
  let q ← op3 A cfg .mul [a, r]
  let zero ← imm cfg A.zero
  let nz ← op3 A cfg .sne [b, zero]
  op3 A cfg .sel [nz, q, zero]

def atanStep (z2 p : Src) (coeff : ℚ) : Build K Src := do
  let k ← imm cfg (A.lit coeff)
  op3 A cfg .fma [z2, p, k]

def atanPoly (z : Src) : Build K Src := do
  let z2 ← op3 A cfg .mul [z, z]
  let k ← imm cfg (A.lit (-0.01172120))
  let p ← atanStep A cfg z2 k 0.05265332
  let p ← atanStep A cfg z2 p (-0.11643287)
  let p ← atanStep A cfg z2 p 0.19354346
  let p ← atanStep A cfg z2 p (-0.33262347)
  let p ← atanStep A cfg z2 p 0.99997726
  op3 A cfg .mul [z, p]

/-- The arc tangent of `r`, by range reduction and a polynomial. -/
def atan_ (r : Src) : Build K Src := do
  let ar := r.modify true false
  let one ← imm cfg A.one
  let inv ← op3 A cfg .slt [one, ar]
  let rar ← op3 A cfg .rcp [ar]
  let z ← op3 A cfg .sel [inv, rar, ar]
  let p ← atanPoly A cfg z
  let half ← imm cfg A.mPiHalf
  let q ← op3 A cfg .add [half, p.negate]
  let p ← op3 A cfg .sel [inv, q, p]
  let zero ← imm cfg A.zero
  let neg ← op3 A cfg .slt [r, zero]
  op3 A cfg .sel [neg, p.negate, p]

def atan2_ (y x : Src) : Build K Src := do
  let rx ← op3 A cfg .rcp [x]
  let r ← op3 A cfg .mul [y, rx]
  let at_ ← atan_ A cfg r
  let zero ← imm cfg A.zero
  let up ← op3 A cfg .sle [zero, y]
  let pi ← imm cfg A.mPi
  let atUp ← op3 A cfg .add [at_, pi]
  let npi ← imm cfg (A.neg A.mPi)
  let atDown ← op3 A cfg .add [at_, npi]
  let left ← op3 A cfg .sel [up, atUp, atDown]
  let above ← op3 A cfg .slt [zero, y]
  let half ← imm cfg A.mPiHalf
  let below ← op3 A cfg .slt [y, zero]
  let nhalf ← imm cfg (A.div (A.neg A.mPi) (A.lit 2))
  let axis ← op3 A cfg .sel [below, nhalf, zero]
  let axis ← op3 A cfg .sel [above, half, axis]
  let right ← op3 A cfg .slt [zero, x]
  let isLeft ← op3 A cfg .slt [x, zero]
  let rest ← op3 A cfg .sel [isLeft, left, axis]
  op3 A cfg .sel [right, at_, rest]

def lowerComp (op : Op) (a b c : Src) : Build K Src := do
  let zero ← imm cfg A.zero
  match op with
  | .mov => return a
  | .add => op3 A cfg .add [a, b]
  | .sub => op3 A cfg .add [a, b.negate]
  | .mul => op3 A cfg .mul [a, b]
  | .div => div_ A cfg a b
  | .mad => op3 A cfg .fma [a, b, c]
  | .min => op3 A cfg .min [a, b]
  | .max => op3 A cfg .max [a, b]
  | .floor => op3 A cfg .floor [a]
  | .fract => do
    let f ← op3 A cfg .floor [a]
    op3 A cfg .add [a, f.negate]
  | .sqrt => do
    let m ← op3 A cfg .max [a, zero]
    op3 A cfg .sqrt [m]
  | .rsq => do
    let pos ← op3 A cfg .slt [zero, a]
    let r ← op3 A cfg .rsq [a]
    op3 A cfg .sel [pos, r, zero]
  | .exp2 => op3 A cfg .ex2 [a]
  | .log2 => do
    let pos ← op3 A cfg .slt [zero, a]
    let l ← op3 A cfg .lg2 [a]
    let low ← imm cfg (A.lit (-126))
    op3 A cfg .sel [pos, l, low]
  | .pow => do
    let l ← op3 A cfg .lg2 [a]
    let m ← op3 A cfg .mul [b, l]
    let e ← op3 A cfg .ex2 [m]
    let pos ← op3 A cfg .slt [zero, a]
    let bz ← op3 A cfg .seq [b, zero]
    op3 A cfg .sel [pos, e, bz]
  | .sin => op3 A cfg .sin [a]
  | .cos => op3 A cfg .cos [a]
  | .mix => do
    let d ← op3 A cfg .add [b, a.negate]
    op3 A cfg .fma [d, c, a]
  | .clamp => do
    let m ← op3 A cfg .max [a, b]
    op3 A cfg .min [m, c]
  | .step => op3 A cfg .sle [a, b]
  | .sstep => do
    let d ← op3 A cfg .add [b, a.negate]
    let n ← op3 A cfg .add [c, a.negate]
    let r ← op3 A cfg .rcp [d]
    let q ← op3 A cfg .mul [n, r]
    let nz ← op3 A cfg .sne [d, zero]
    let ge ← op3 A cfg .sle [a, c]
    let t ← op3 A cfg .sel [nz, q, ge]
    let m ← op3 A cfg .max [t, zero]
    let one ← imm cfg A.one
    let t ← op3 A cfg .min [m, one]
    let tt ← op3 A cfg .mul [t, t]
    let two ← imm cfg (A.lit (-2))
    let three ← imm cfg (A.lit 3)
    let f ← op3 A cfg .fma [t, two, three]
    op3 A cfg .mul [tt, f]
  | .slt => op3 A cfg .slt [a, b]
  | .sle => op3 A cfg .sle [a, b]
  | .seq => op3 A cfg .seq [a, b]
  | .sne => op3 A cfg .sne [a, b]
  | .sel => op3 A cfg .sel [a, b, c]
  | .mod => do
    let r ← op3 A cfg .rcp [b]
    let q ← op3 A cfg .mul [a, r]
    let f ← op3 A cfg .floor [q]
    let nz ← op3 A cfg .sne [b, zero]
    let v ← op3 A cfg .fma [b.negate, f, a]
    op3 A cfg .sel [nz, v, zero]
  | .sign => do
    let pos ← op3 A cfg .slt [zero, a]
    let one ← imm cfg A.one
    let neg ← op3 A cfg .slt [a, zero]
    let minus ← imm cfg (A.lit (-1))
    let rest ← op3 A cfg .sel [neg, minus, zero]
    op3 A cfg .sel [pos, one, rest]
  | .atan2 => atan2_ A cfg a b
  | _ => return zero

/-! ## Instructions -/

/-- The part of `lw_t` that names the values of a thread's state. -/
structure Lw where
  temp : ℕ → Fin 4 → Src
  out : ℕ → Fin 4 → Src
  wait : Src
  killed : Src
  active : Src
  activeKnown : Bool
  selectsForJumps : ℕ

/-- Component `k` of the register or constant a source word names. -/
def readBase (p : Program) (lw : Lw) (word : ℕ) (k : Fin 4) : Build K Src :=
  let index := operandIndex word
  match operandFile word with
  | some .temp => return lw.temp index k
  | some .output => return lw.out index k
  | some .input => load A cfg .input (irSlot index k)
  | some .special => load A cfg .special (irSlot index k)
  | some .uniform => load A cfg .uniform (irSlot index k)
  | some .const => imm cfg (constVec A p index k)
  | none => imm cfg A.zero

def read (p : Program) (lw : Lw) (word : ℕ) (comp : Fin 4) : Build K Src := do
  let s ← readBase A cfg p lw word (swizzleComp word comp)
  let abs := decide (word &&& fgpuSrcAbs ≠ 0)
  let neg := decide (word &&& fgpuSrcNegate ≠ 0)
  let s := s.modify abs neg
  let ir ← get
  if (abs || neg) && isImm ir s then imm cfg (immOf A ir s) else return s

def Lw.reg (lw : Lw) (d : ℕ) (comp : Fin 4) : Src :=
  match dstReg d with
  | .output => lw.out (operandIndex d) comp
  | _ => lw.temp (operandIndex d) comp

def Lw.setReg (lw : Lw) (d : ℕ) (comp : Fin 4) (v : Src) : Lw :=
  let set := fun (file : ℕ → Fin 4 → Src) index c =>
    if index = operandIndex d ∧ c = comp then v else file index c
  match dstReg d with
  | .output => { lw with out := set lw.out }
  | _ => { lw with temp := set lw.temp }

/-- Write a component; a thread that has jumped past the instruction keeps the old value. -/
def write (lw : Lw) (d : ℕ) (comp : Fin 4) (v : Src) : Build K Lw := do
  if lw.activeKnown then return lw.setReg d comp v
  else
    let sel ← op3 A cfg .sel [lw.active, v, lw.reg d comp]
    let lw := if sel = v then lw else { lw with selectsForJumps := lw.selectsForJumps + 1 }
    return lw.setReg d comp sel

def sourcesOf (op : Op) : ℕ :=
  match op with
  | .nop | .jmp => 0
  | .mov | .floor | .fract | .sqrt | .rsq | .exp2 | .log2 | .sin | .cos | .sign | .tex | .kill
  | .jz => 1
  | .mad | .mix | .clamp | .sstep | .sel => 3
  | _ => 2

def forComps {α : Type} (f : Fin 4 → Build K α) : Build K (Fin 4 → α) := do
  let r0 ← f 0
  let r1 ← f 1
  let r2 ← f 2
  let r3 ← f 3
  return fun
    | 0 => r0
    | 1 => r1
    | 2 => r2
    | 3 => r3

def noSrc : Src := { value := 0 }

def dotStep (p : Program) (lw : Lw) (i : Inst) (s : Src) (k : Fin 4) : Build K Src := do
  let a ← read A cfg p lw i.a k
  let b ← read A cfg p lw i.b k
  op3 A cfg .fma [a, b, s]

def lowerDot (p : Program) (lw : Lw) (i : Inst) (n : ℕ) : Build K Src := do
  let a ← read A cfg p lw i.a 0
  let b ← read A cfg p lw i.b 0
  let s ← op3 A cfg .mul [a, b]
  ((List.finRange 4).filter fun k => k.val ≠ 0 ∧ k.val < n).foldlM (dotStep A cfg p lw i) s

/-- A component of a cross product, `a.i * b.j - a.j * b.i`. -/
def crossComp (ai aj bi bj : Src) : Build K Src := do
  let m ← op3 A cfg .mul [aj, bi]
  op3 A cfg .fma [ai, bj, m.negate]

def crossRes (a0 a1 a2 b0 b1 b2 : Src) (c : Fin 4) : Build K Src :=
  match c with
  | 0 => crossComp A cfg a1 a2 b1 b2
  | 1 => crossComp A cfg a2 a0 b2 b0
  | 2 => crossComp A cfg a0 a1 b0 b1
  | 3 => imm cfg A.zero

/-- A source the opcode may not have; `a` stands in for it. -/
def readIf (used : Bool) (p : Program) (lw : Lw) (word : ℕ) (comp : Fin 4) (a : Src) :
    Build K Src :=
  if used then read A cfg p lw word comp else return a

def lowerRes (p : Program) (lw : Lw) (i : Inst) : Build K (Fin 4 → Src) :=
  match i.op with
  | .tex => do
    let u ← read A cfg p lw i.a 0
    let v ← read A cfg p lw i.a 1
    let t ← append cfg { op := .tex, aux := i.b, imm := A.zero, src := [u, v] }
    forComps fun c =>
      if c = 0 then return t
      else append cfg { op := .texc, aux := c, imm := A.zero, src := [t] }
  | .dp2 => do
    let s ← lowerDot A cfg p lw i 2
    return fun _ => s
  | .dp3 => do
    let s ← lowerDot A cfg p lw i 3
    return fun _ => s
  | .dp4 => do
    let s ← lowerDot A cfg p lw i 4
    return fun _ => s
  | .cross => do
    let a0 ← read A cfg p lw i.a 0
    let b0 ← read A cfg p lw i.b 0
    let a1 ← read A cfg p lw i.a 1
    let b1 ← read A cfg p lw i.b 1
    let a2 ← read A cfg p lw i.a 2
    let b2 ← read A cfg p lw i.b 2
    forComps (crossRes A cfg a0 a1 a2 b0 b1 b2)
  | op =>
    forComps fun c =>
      if maskBit i.dst c then do
        let a ← read A cfg p lw i.a c
        let b ← readIf A cfg (2 ≤ sourcesOf op) p lw i.b c a
        let cc ← readIf A cfg (3 ≤ sourcesOf op) p lw i.c c a
        lowerComp A cfg op a b cc
      else return noSrc

/-- 1 for the threads that run the instruction. -/
def runs (lw : Lw) : Build K Src := if lw.activeKnown then imm cfg A.one else return lw.active

/-- The new waiting point, where `take` is 1 for the threads that jump. -/
def lowerJump (lw : Lw) (target : ℕ) (take : Src) : Build K Lw := do
  let t ← imm cfg (A.lit target)
  let wait ← op3 A cfg .sel [take, t, lw.wait]
  return { lw with wait := wait }

/-- `KILL` where `k` is 1, for the threads that run it. -/
def lowerKill (lw : Lw) (k : Src) : Build K Lw := do
  let k ← (if lw.activeKnown then return k else op3 A cfg .mul [k, lw.active])
  let ir ← get
  if isConst A ir lw.killed A.zero then return { lw with killed := k }
  else
    let killed ← op3 A cfg .max [lw.killed, k]
    return { lw with killed := killed }

def lowerInst (p : Program) (lw : Lw) (i : Inst) : Build K Lw := do
  match i.op with
  | .nop => return lw
  | .jmp =>
    let take ← runs A cfg lw
    lowerJump A cfg lw i.dst take
  | .jz =>
    let take ← runs A cfg lw
    let a ← read A cfg p lw i.a 0
    let zero ← imm cfg A.zero
    let isZero ← op3 A cfg .seq [a, zero]
    let take ← op3 A cfg .mul [take, isZero]
    lowerJump A cfg lw i.dst take
  | .kill =>
    let a ← read A cfg p lw i.a 0
    let zero ← imm cfg A.zero
    let k ← op3 A cfg .sne [a, zero]
    lowerKill A cfg lw k
  | _ =>
    let res ← lowerRes A cfg p lw i
    (List.finRange 4).foldlM
      (fun lw c => if maskBit i.dst c then write A cfg lw i.dst c (res c) else return lw) lw

/-! ## Dead code -/

def hasEffect (op : IrOp) : Bool := op = .output || op = .discard

/-- Mark the sources of instruction `i` if it is marked itself. -/
def markStep (code : List (IrInst K)) (live : ℕ → Bool) (i : ℕ) : ℕ → Bool :=
  match code[i]? with
  | some x =>
    if live i then x.src.foldl (fun live s => Function.update live s.value true) live else live
  | none => live

/-- The instructions some effect depends on, from the last one back. -/
def markLive (code : List (IrInst K)) : ℕ → Bool :=
  (List.range code.length).reverse.foldl (markStep code) fun i =>
    match code[i]? with
    | some x => hasEffect x.op
    | none => false

/-- One round of the renumbering: `map` has the new indices so far. -/
def renumberStep (code : List (IrInst K)) (live : ℕ → Bool) (st : (ℕ → ℕ) × List (IrInst K))
    (i : ℕ) : (ℕ → ℕ) × List (IrInst K) :=
  match code[i]? with
  | some x =>
    if live i then
      (Function.update st.1 i st.2.length,
        st.2 ++ [{ x with src := x.src.map fun s => { s with value := st.1 s.value } }])
    else st
  | none => st

/-- Drop the instructions no output depends on and renumber the rest. -/
def eliminate (code : List (IrInst K)) : List (IrInst K) :=
  ((List.range code.length).foldl (renumberStep code (markLive code)) (fun _ => 0, [])).2

/-! ## Lowering -/

/-- The condition that a thread runs instruction `pc`; before `reach`, the furthest jump target
so far, some may not. -/
def lowerActive (lw : Lw) (reach pc : ℕ) : Build K Lw :=
  if reach ≤ pc then return { lw with activeKnown := true }
  else do
    let now ← imm cfg (A.lit pc)
    let active ← op3 A cfg .sle [lw.wait, now]
    return { lw with activeKnown := false, active := active }

def lowerStep (p : Program) (fragment : Bool) (st : Lw × ℕ) (pc : ℕ) : Build K (Lw × ℕ) := do
  let i := p.inst fragment pc
  let lw ← lowerActive A cfg st.1 st.2 pc
  let lw ← lowerInst A cfg p lw i
  return (lw, if (i.op = .jmp ∨ i.op = .jz) ∧ st.2 < i.dst then i.dst else st.2)

def outputInst (lw : Lw) (o : ℕ) (c : Fin 4) : IrInst K :=
  { op := .output, aux := irSlot o c, imm := A.zero, src := [lw.out o c] }

def lowerOutput (lw : Lw) (o : ℕ) : Build K Unit :=
  (List.finRange 4).forM fun c => do
    let _ ← append cfg (outputInst A lw o c)
    return ()

def discardInst (lw : Lw) : IrInst K := { op := .discard, imm := A.zero, src := [lw.killed] }

/-- The `DISCARD` of a fragment stage in which something may kill a thread. -/
def lowerDiscard (fragment : Bool) (lw : Lw) : Build K Unit := do
  let ir ← get
  if fragment && !isConst A ir lw.killed A.zero then
    let _ ← append cfg (discardInst A lw)
    return ()
  else return ()

def initLw (zero one : Src) : Lw where
  temp := fun _ _ => zero
  out := fun o c => if o = 0 ∧ c = 3 then one else zero
  wait := zero
  killed := zero
  active := noSrc
  activeKnown := false
  selectsForJumps := 0

def lowerStage (p : Program) (fragment : Bool) : Build K Unit := do
  let zero ← imm cfg A.zero
  let one ← imm cfg A.one
  let st ← (List.range (p.h.count fragment)).foldlM (lowerStep A cfg p fragment)
    (initLw zero one, 0)
  (List.range (p.h.regCount fragment .output)).forM (lowerOutput A cfg st.1)
  lowerDiscard A cfg fragment st.1

def fgpuIrLower (p : Program) (fragment : Bool) : Except LowerError (List (IrInst K)) :=
  if cfg.capacity < 16 then .error (.why "no storage")
  else do
    let (_, ir) ← lowerStage A cfg p fragment ⟨[], fun _ => 0⟩
    return eliminate ir.code

end Builder

end MinimalOS.Fgpu
