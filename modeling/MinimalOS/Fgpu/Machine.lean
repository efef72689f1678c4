import Mathlib
import MinimalOS.Fgpu.Program

/-!
# The shader machine of `modules/GPU/fgpu_shader.c`

Eight lanes run together: one program counter, a mask of lanes that run at it, and for every lane
the instruction it resumes at. Registers are `[file][register][component][lane]`.

Arithmetic is a parameter: `Arith K` has the operations the machine is built from, the
transcendental ones included, and `lit` the values of decimal constants. It also has what the
memory holds behind the array `k_zero`.

An access outside the registers of the stage, the bound texture units or the blob is a `Fault`,
and so is a loop that does not end. `trace` records the executed instruction indices, latest
first; nothing reads it.

`operand` leaves a row of sources that an opcode does not use at `k_zero`, which has four floats.
The vector loops load such rows too, for all eight lanes; `overread` counts the floats behind
`k_zero` that they load.
-/

namespace MinimalOS.Fgpu

instance neZero_four : NeZero 4 := ⟨by decide⟩

/-! ## Arithmetic -/

structure Arith (K : Type) where
  lit : ℚ → K
  ofBits : ℕ → K
  add : K → K → K
  sub : K → K → K
  mul : K → K → K
  div : K → K → K
  neg : K → K
  lt : K → K → Bool
  le : K → K → Bool
  eq : K → K → Bool
  floor : K → K
  sqrt : K → K
  exp2 : K → K
  log2 : K → K
  sin : K → K
  behind : ℕ → K

namespace Arith

variable {K : Type} (A : Arith K)

def zero : K := A.lit 0

def one : K := A.lit 1

def mPi : K := A.lit 3.14159265358979323846

def mPiHalf : K := A.div A.mPi (A.lit 2)

def mAbs (x : K) : K := if A.lt x A.zero then A.neg x else x

/-- The polynomial of `m_atan`. -/
def mAtanPoly (x : K) : K :=
  let x2 := A.mul x x
  let step := fun (coeff : ℚ) (acc : K) => A.add (A.lit coeff) (A.mul x2 acc)
  A.mul x (step 0.99997726 (step (-0.33262347) (step 0.19354346 (step (-0.11643287)
    (step 0.05265332 (A.lit (-0.01172120)))))))

def mAtan (x : K) : K :=
  let neg := A.lt x A.zero
  let x := if neg then A.neg x else x
  let inv := A.lt A.one x
  let x := if inv then A.div A.one x else x
  let r := A.mAtanPoly x
  let r := if inv then A.sub A.mPiHalf r else r
  if neg then A.neg r else r

def mAtan2 (y x : K) : K :=
  if A.lt A.zero x then A.mAtan (A.div y x)
  else if A.lt x A.zero then
    if A.le A.zero y then A.add (A.mAtan (A.div y x)) A.mPi
    else A.sub (A.mAtan (A.div y x)) A.mPi
  else if A.lt A.zero y then A.mPiHalf
  else if A.lt y A.zero then A.div (A.neg A.mPi) (A.lit 2)
  else A.zero

def vmin (a b : K) : K := if A.lt a b then a else b

def vmax (a b : K) : K := if A.lt b a then a else b

def vsqrt (x : K) : K := A.sqrt (A.vmax x A.zero)

def vbool (p : Bool) : K := if p then A.one else A.zero

def vdiv (a b : K) : K :=
  let nz := !A.eq b A.zero
  if nz then A.div a (if nz then b else A.one) else A.zero

def vlog2 (x : K) : K :=
  let ok := A.lt A.zero x
  if ok then A.log2 (if ok then x else A.one) else A.lit (-126)

def vpow (a b : K) : K :=
  let r := A.exp2 (A.mul b (A.vlog2 a))
  if A.lt A.zero a then r else if A.eq b A.zero then A.one else A.zero

def vsmooth (e0 e1 x : K) : K :=
  let d := A.sub e1 e0
  let t := if !A.eq d A.zero then A.vdiv (A.sub x e0) d else A.vbool (A.le e0 x)
  let t := A.vmin (A.vmax t A.zero) A.one
  A.mul (A.mul t t) (A.sub (A.lit 3) (A.mul (A.lit 2) t))

def alu (op : Op) (a b c : K) : K :=
  match op with
  | .mov => a
  | .add => A.add a b
  | .sub => A.sub a b
  | .mul => A.mul a b
  | .div => A.vdiv a b
  | .mad => A.add (A.mul a b) c
  | .min => A.vmin a b
  | .max => A.vmax a b
  | .floor => A.floor a
  | .fract => A.sub a (A.floor a)
  | .sqrt => A.vsqrt a
  | .rsq =>
    if A.lt A.zero a then A.div A.one (A.vsqrt (if A.lt A.zero a then a else A.one)) else A.zero
  | .exp2 => A.exp2 a
  | .log2 => A.vlog2 a
  | .pow => A.vpow a b
  | .sin => A.sin a
  | .cos => A.sin (A.add a A.mPiHalf)
  | .mix => A.add a (A.mul (A.sub b a) c)
  | .clamp => A.vmin (A.vmax a b) c
  | .step => if A.lt b a then A.zero else A.one
  | .sstep => A.vsmooth a b c
  | .slt => A.vbool (A.lt a b)
  | .sle => A.vbool (A.le a b)
  | .seq => A.vbool (A.eq a b)
  | .sne => A.vbool (!A.eq a b)
  | .sel => if !A.eq a A.zero then b else c
  | .mod => if !A.eq b A.zero then A.sub a (A.mul b (A.floor (A.vdiv a b))) else A.zero
  | .sign =>
    if A.lt A.zero a then A.one else if A.lt a A.zero then A.lit (-1) else A.zero
  | .atan2 => A.mAtan2 a b
  | _ => A.zero

/-- Opcodes that read other components than they write. -/
def across (op : Op) : Bool := op = .dp2 || op = .dp3 || op = .dp4 || op = .cross

/-- `dot`, over components `0` to `n - 1`. -/
def dot (a b : Fin 4 → K) (n : ℕ) : K :=
  ((List.finRange 4).filter fun k => k.val ≠ 0 ∧ k.val < n).foldl
    (fun s k => A.add s (A.mul (a k) (b k))) (A.mul (a 0) (b 0))

/-- The value of an opcode that reads across components. -/
def acrossValue (op : Op) (a b : Fin 4 → K) (c : Fin 4) : K :=
  match op with
  | .dp2 => A.dot a b 2
  | .dp3 => A.dot a b 3
  | .dp4 => A.dot a b 4
  | _ =>
    match c with
    | 0 => A.sub (A.mul (a 1) (b 2)) (A.mul (a 2) (b 1))
    | 1 => A.sub (A.mul (a 2) (b 0)) (A.mul (a 0) (b 2))
    | 2 => A.sub (A.mul (a 0) (b 1)) (A.mul (a 1) (b 0))
    | 3 => A.zero

end Arith

/-- The opcodes whose loop is `VEACH`: four lanes at a time, and a load from all three sources. -/
def Op.veach (op : Op) : Bool :=
  op ∉ [.nop, .jmp, .jz, .kill, .tex, .dp2, .dp3, .dp4, .cross, .atan2]

/-! ## State -/

abbrev fgpuLanes : ℕ := 8
abbrev Lane := Fin fgpuLanes
abbrev LaneSet := Lane → Bool

/-- The register files that have a value for each lane. -/
inductive RegFile
  | temp | input | output | special
  deriving DecidableEq, Repr

def RegFile.file : RegFile → File
  | .temp => .temp
  | .input => .input
  | .output => .output
  | .special => .special

abbrev Batch (K : Type) := RegFile → ℕ → Fin 4 → Lane → K

inductive Fault
  | blob (word : ℕ)
  | opcode (word : ℕ)
  | register (f : File) (index : ℕ)
  | textureUnit (unit : ℕ)
  | hang
  deriving DecidableEq, Repr

/-- What a run does not change. `none` is a `NULL` table. -/
structure Env (K : Type) where
  p : Program
  fragment : Bool
  uniforms : Option (ℕ → Fin 4 → K)
  textures : Option (ℕ → K → K → Fin 4 → K)

structure Inst where
  op : Op
  dst : ℕ
  a : ℕ
  b : ℕ
  c : ℕ
  deriving DecidableEq, Repr

/-- The instruction at `pc` of a checked stage. -/
def Program.inst (p : Program) (fragment : Bool) (pc : ℕ) : Inst where
  op := (opcodes[p.instWord fragment pc 0]?).getD .nop
  dst := p.instWord fragment pc 1
  a := p.instWord fragment pc 2
  b := p.instWord fragment pc 3
  c := p.instWord fragment pc 4

structure Machine (K : Type) where
  batch : Batch K
  res : Fin 4 → Lane → K
  wait : Lane → ℕ
  live : LaneSet
  active : LaneSet
  pc : ℕ
  wake : ℕ
  trace : List ℕ
  overread : ℕ

def kZero {K : Type} (A : Arith K) : Fin 4 → K := fun _ => A.zero

/-- A pointer to the values of one component for the lanes: into a register, to a copy, or to
`k_zero`. -/
inductive Row (K : Type)
  | reg (f : RegFile) (index : ℕ) (comp : Fin 4)
  | vals (v : Lane → K)
  | kZero

def Row.get {K : Type} (A : Arith K) (b : Batch K) : Row K → Lane → K
  | .reg f index comp, l => b f index comp l
  | .vals v, l => v l
  | .kZero, l => if h : l.val < 4 then Fgpu.kZero A ⟨l.val, h⟩ else A.behind (l.val - 4)

/-- The floats that a load for all lanes takes from behind the array of the row. -/
def Row.past {K : Type} : Row K → ℕ
  | .kZero => fgpuLanes - 4
  | _ => 0

section Machine

variable {K : Type} (A : Arith K) (env : Env K)

/-! ## Operands -/

def Env.checkReg (f : File) (index : ℕ) : Except Fault Unit :=
  if index < env.p.h.regCount env.fragment f then .ok () else .error (.register f index)

def constVec (p : Program) (index : ℕ) (k : Fin 4) : K :=
  A.ofBits (blobWord p.blob (p.h.constOffset + index * 4 + k))

def uniformVec (index : ℕ) (k : Fin 4) : K :=
  match env.uniforms with
  | some u => u index k
  | none => kZero A k

def swizzleComp (w : ℕ) (c : Fin 4) : Fin 4 :=
  ⟨(operandSwizzle w >>> (2 * c.val)) &&& 3, Nat.lt_of_le_of_lt Nat.and_le_right (by decide)⟩

/-- The modifiers of a source: absolute value, then sign. -/
def srcMods (w : ℕ) (x : K) : K :=
  let x := if w &&& fgpuSrcAbs ≠ 0 then A.mAbs x else x
  if w &&& fgpuSrcNegate ≠ 0 then A.neg x else x

/-- Rows of a register of the lanes, copied only when there are modifiers. -/
def laneRows (b : Batch K) (w : ℕ) (f : RegFile) (need : Fin 4 → Bool) (c : Fin 4) : Row K :=
  let k := swizzleComp w c
  if need c then
    if w &&& (fgpuSrcAbs ||| fgpuSrcNegate) = 0 then .reg f (operandIndex w) k
    else .vals fun l => srcMods A w (b f (operandIndex w) k l)
  else .kZero

def sharedRows (w : ℕ) (v : Fin 4 → K) (need : Fin 4 → Bool) (c : Fin 4) : Row K :=
  if need c then .vals fun _ => srcMods A w (v (swizzleComp w c)) else .kZero

def operand (b : Batch K) (w : ℕ) (need : Fin 4 → Bool) : Except Fault (Fin 4 → Row K) :=
  let index := operandIndex w
  let lanes := fun (f : RegFile) => do
    env.checkReg f.file index
    return laneRows A b w f need
  match operandFile w with
  | some .temp => lanes .temp
  | some .input => lanes .input
  | some .output => lanes .output
  | some .special => lanes .special
  | some .uniform => do
    env.checkReg .uniform index
    return sharedRows A w (uniformVec A env index) need
  | some .const => do
    env.checkReg .const index
    if env.p.h.constOffset + index * 4 + 4 ≤ env.p.blob.length / 4 then
      return sharedRows A w (constVec A env.p index) need
    else .error (.blob (env.p.h.constOffset + index * 4))
  | none => return sharedRows A w (kZero A) need

/-- A source an opcode may not use; its rows then stay at `k_zero`. -/
def operandIf (used : Bool) (b : Batch K) (w : ℕ) (need : Fin 4 → Bool) :
    Except Fault (Fin 4 → Row K) :=
  if used then operand A env b w need else .ok fun _ => .kZero

/-! ## Results -/

def dstReg (d : ℕ) : RegFile := if operandFile d = some .output then .output else .temp

def maskBit (d : ℕ) (c : Fin 4) : Bool := (dstMask d).testBit c

def Batch.setRow (b : Batch K) (f : RegFile) (index : ℕ) (c : Fin 4) (row : Lane → K) : Batch K :=
  fun f' index' c' => if f' = f ∧ index' = index ∧ c' = c then row else b f' index' c'

/-- A loop over the four components that rewrites rows of one register, each from the registers
as the loop has left them so far. -/
def eachRow (f : RegFile) (index : ℕ) (need : Fin 4 → Bool) (row : Batch K → Fin 4 → Lane → K)
    (b : Batch K) : Batch K :=
  (List.finRange 4).foldl (fun b c => if need c then b.setRow f index c (row b c) else b) b

def store (res : Fin 4 → Lane → K) (d : ℕ) (active : LaneSet) (b : Batch K) : Batch K :=
  eachRow (dstReg d) (operandIndex d) (maskBit d)
    (fun b c =>
      if ∀ l, active l then res c
      else fun l => if active l then res c l else b (dstReg d) (operandIndex d) c l) b

def reads (w d : ℕ) : Bool := w &&& 0xFFF = d &&& 0xFFF

/-- `fgpu_texture_sample`; an unbound table samples as opaque black. -/
def sampleUnit (unit : ℕ) (u v : K) (c : Fin 4) : K :=
  match env.textures with
  | some t => t unit u v c
  | none => if c = 3 then A.one else A.zero

def Env.checkUnit (unit : ℕ) : Except Fault Unit :=
  match env.textures with
  | some _ => if unit < fgpuMaxTextureUnits then .ok () else .error (.textureUnit unit)
  | none => .ok ()

/-- The opcodes that compute a value: the `default` case of `run`. -/
def executeAlu (m : Machine K) (i : Inst) : Except Fault (Machine K) := do
  let used := opSources i.op
  let need := fun c => if Arith.across i.op then true else maskBit i.dst c
  let a ← operand A env m.batch i.a need
  let b ← operandIf A env (used.testBit 1) m.batch i.b need
  let c ← operandIf A env (used.testBit 2) m.batch i.c need
  env.checkReg (dstReg i.dst).file (operandIndex i.dst)
  let direct := (∀ l, m.active l) ∧ ¬ Arith.across i.op ∧ ¬ reads i.a i.dst ∧
    ¬ (used.testBit 1 ∧ reads i.b i.dst) ∧ ¬ (used.testBit 2 ∧ reads i.c i.dst)
  let value := fun (batch : Batch K) (k : Fin 4) (l : Lane) =>
    if Arith.across i.op then
      A.acrossValue i.op (fun k => (a k).get A batch l) (fun k => (b k).get A batch l) k
    else A.alu i.op ((a k).get A batch l) ((b k).get A batch l) ((c k).get A batch l)
  let past := ((List.finRange 4).map fun k =>
    if i.op.veach ∧ need k then (a k).past + (b k).past + (c k).past else 0).sum
  if direct then
    return { m with
      overread := m.overread + past
      batch := eachRow (dstReg i.dst) (operandIndex i.dst) need value m.batch }
  else
    -- `atan2` is computed for the running lanes only
    let res := fun k l =>
      if need k ∧ (i.op = .atan2 → m.active l) then value m.batch k l else m.res k l
    return { m with
      overread := m.overread + past
      res := res
      batch := store res i.dst m.active m.batch }

/-- One instruction; the flag is `control`. -/
def execute (m : Machine K) (i : Inst) : Except Fault (Machine K × Bool) :=
  match i.op with
  | .nop => return (m, false)
  | .jmp => return ({ m with wait := fun l => if m.active l then i.dst else m.wait l }, true)
  | .jz => do
    let a ← operand A env m.batch i.a (· = 0)
    let taken := fun l => m.active l && A.eq ((a 0).get A m.batch l) A.zero
    return ({ m with wait := fun l => if taken l then i.dst else m.wait l }, true)
  | .kill => do
    let a ← operand A env m.batch i.a (· = 0)
    let hit := fun l => m.active l && !A.eq ((a 0).get A m.batch l) A.zero
    return ({ m with live := fun l => m.live l && !hit l }, true)
  | .tex => do
    let a ← operand A env m.batch i.a (· < 2)
    env.checkUnit i.b
    env.checkReg (dstReg i.dst).file (operandIndex i.dst)
    let res := fun c l =>
      if m.active l then sampleUnit A env i.b ((a 0).get A m.batch l) ((a 1).get A m.batch l) c
      else m.res c l
    return ({ m with res := res, batch := store res i.dst m.active m.batch }, false)
  | _ => do
    let m ← executeAlu A env m i
    return (m, false)

/-! ## The loop -/

/-- Lanes in `live` that run at instruction `pc`. -/
def running (wait : Lane → ℕ) (live : LaneSet) (pc : ℕ) : LaneSet :=
  fun l => live l && decide (wait l ≤ pc)

/-- The least `wait` of a live lane that is above `pc`, or `count`. -/
def nextWake (wait : Lane → ℕ) (live : LaneSet) (pc count : ℕ) : ℕ :=
  (List.finRange fgpuLanes).foldl
    (fun wake l => if live l ∧ pc < wait l ∧ wait l < wake then wait l else wake) count

/-- The nearest instruction a live lane waits for. -/
def nearest (wait : Lane → ℕ) (live : LaneSet) (count : ℕ) : ℕ :=
  (List.finRange fgpuLanes).foldl
    (fun next l => if live l ∧ wait l < next then wait l else next) count

def Machine.rejoin (m : Machine K) (count : ℕ) : Machine K :=
  { m with active := running m.wait m.live m.pc, wake := nextWake m.wait m.live m.pc count }

def fetchWord (pc k : ℕ) : Except Fault ℕ :=
  let i := env.p.h.offset env.fragment + pc * fgpuShaderInstructionWords + k
  if pc < env.p.h.count env.fragment ∧ i < env.p.blob.length / 4 then .ok (blobWord env.p.blob i)
  else .error (.blob i)

def fetch (pc : ℕ) : Except Fault Inst := do
  let w ← fetchWord env pc 0
  let dst ← fetchWord env pc 1
  let a ← fetchWord env pc 2
  let b ← fetchWord env pc 3
  let c ← fetchWord env pc 4
  match opcodes[w]? with
  | some op => return { op := op, dst := dst, a := a, b := b, c := c }
  | none => .error (.opcode w)

def Machine.round (count : ℕ) (m : Machine K) : Except Fault (Machine K) := do
  let i ← fetch env m.pc
  let (m, control) ← execute A env { m with pc := m.pc + 1, trace := m.pc :: m.trace } i
  return if control ∨ m.wake ≤ m.pc then m.rejoin count else m

/-- The loop of `run`, for at most `n` rounds. -/
def runLoop (count : ℕ) : ℕ → Machine K → Except Fault (Machine K)
  | 0, m => if m.pc < count ∧ ∃ l, m.live l then .error .hang else .ok m
  | n + 1, m =>
    if m.pc < count ∧ ∃ l, m.live l then
      if ¬ ∃ l, m.active l then
        let m := { m with pc := nearest m.wait m.live count }
        if count ≤ m.pc then .ok m else runLoop count n (m.rejoin count)
      else do
        let m ← m.round A env count
        runLoop count n m
    else .ok m

/-- `run`: each round moves `pc` forward, so `count` rounds are enough. -/
def run (b : Batch K) (res : Fin 4 → Lane → K) (live : LaneSet) : Except Fault (Machine K) :=
  let count := env.p.h.count env.fragment
  runLoop A env count count
    { batch := b, res := res, wait := fun _ => 0, live := live, active := live, pc := 0,
      wake := count, trace := [], overread := 0 }

/-- The outputs before the first instruction: `(0, 0, 0, 1)` for position and colour. -/
def initOutputs (b : Batch K) : Batch K := fun f index c l =>
  if f = .output ∧ index < env.p.h.regCount env.fragment .output then
    if c = 3 ∧ (env.fragment ∨ index = 0) then A.one else A.zero
  else b f index c l

def fgpuShaderBatchReset (b : Batch K) (temps : ℕ) : Batch K := fun f index c l =>
  if f = .temp ∧ index < min temps fgpuShaderMaxTemps then A.zero else b f index c l

/-- `fgpu_shader_run_batch`: the machine at the end; its `live` lanes are those kept. `res` is
what the stack held. -/
def fgpuShaderRunBatch (b : Batch K) (res : Fin 4 → Lane → K) (lanes : LaneSet) :
    Except Fault (Machine K) :=
  run A env (initOutputs A env b) res lanes

end Machine

end MinimalOS.Fgpu
