import Mathlib.Data.Nat.Bitwise
import MinimalOS.Lib.ByteMem

/-!
# Shader programs of `modules/GPU/fgpu_shader.c`

A program is a blob of 32-bit little-endian words: a header, the instructions of the vertex and
the fragment stage, and a pool of constants. `fgpuProgramCheck` validates it once; the machine
then runs it without checks of its own.

Words are natural numbers below `2 ^ 32`. The header's `flags` and `reserved` words are read by
nothing here and left out.
-/

namespace MinimalOS.Fgpu

open ByteMem

/-! ## The binary interface -/

abbrev fgpuShaderMagic : ℕ := 0x4C534746
abbrev fgpuShaderVersion : ℕ := 1
abbrev fgpuShaderMaxInstructions : ℕ := 2048
abbrev fgpuShaderMaxTemps : ℕ := 32
abbrev fgpuShaderMaxVaryings : ℕ := 8
abbrev fgpuShaderMaxUniforms : ℕ := 64
abbrev fgpuShaderMaxConstants : ℕ := 256
abbrev fgpuMaxAttribs : ℕ := 8
abbrev fgpuMaxTextureUnits : ℕ := 4
abbrev fgpuShaderInstructionWords : ℕ := 5
abbrev fgpuSrcNegate : ℕ := 1 <<< 20
abbrev fgpuSrcAbs : ℕ := 1 <<< 21

inductive File
  | temp | input | output | uniform | const | special
  deriving DecidableEq, Repr

/-- `FGPU_OPERAND_FILE`; `none` is `FGPU_FILE_NONE` and the unassigned numbers. -/
def operandFile (w : ℕ) : Option File :=
  [none, some .temp, some .input, some .output, some .uniform, some .const, some .special].getD
    (w &&& 0xF) none

def operandIndex (w : ℕ) : ℕ := (w >>> 4) &&& 0xFF

def operandSwizzle (w : ℕ) : ℕ := (w >>> 12) &&& 0xFF

def dstMask (w : ℕ) : ℕ := (w >>> 12) &&& 0xF

inductive Op
  | nop | mov | add | sub | mul | div | mad | min | max | dp2 | dp3 | dp4 | cross | floor | fract
  | sqrt | rsq | exp2 | log2 | pow | sin | cos | mix | clamp | step | sstep | slt | sle | seq | sne
  | sel | mod | sign | atan2 | tex | kill | jmp | jz
  deriving DecidableEq, Repr

/-- The opcodes `FGPU_SOP_*` in the order of their numbers. -/
def opcodes : List Op :=
  [.nop, .mov, .add, .sub, .mul, .div, .mad, .min, .max, .dp2, .dp3, .dp4, .cross, .floor, .fract,
    .sqrt, .rsq, .exp2, .log2, .pow, .sin, .cos, .mix, .clamp, .step, .sstep, .slt, .sle, .seq,
    .sne, .sel, .mod, .sign, .atan2, .tex, .kill, .jmp, .jz]

structure Header where
  magic : ℕ
  version : ℕ
  size : ℕ
  vsOffset : ℕ
  vsCount : ℕ
  fsOffset : ℕ
  fsCount : ℕ
  constOffset : ℕ
  constCount : ℕ
  attribMask : ℕ
  varyingCount : ℕ
  uniformCount : ℕ
  textureMask : ℕ
  tempCount : ℕ
  deriving DecidableEq, Repr

abbrev headerWords : ℕ := 16

/-- The `i`-th word of a blob. -/
def blobWord (blob : List UInt8) (i : ℕ) : ℕ := readLE (fun j => blob.getD j 0) 4 (4 * i)

def readHeader (blob : List UInt8) : Header where
  magic := blobWord blob 0
  version := blobWord blob 1
  size := blobWord blob 2
  vsOffset := blobWord blob 4
  vsCount := blobWord blob 5
  fsOffset := blobWord blob 6
  fsCount := blobWord blob 7
  constOffset := blobWord blob 8
  constCount := blobWord blob 9
  attribMask := blobWord blob 10
  varyingCount := blobWord blob 11
  uniformCount := blobWord blob 12
  textureMask := blobWord blob 13
  tempCount := blobWord blob 14

/-- A checked program: its header and the blob the section pointers point into. -/
structure Program where
  h : Header
  blob : List UInt8

def Header.offset (h : Header) (fragment : Bool) : ℕ := if fragment then h.fsOffset else h.vsOffset

def Header.count (h : Header) (fragment : Bool) : ℕ := if fragment then h.fsCount else h.vsCount

/-! ## Validation -/

def opHasDst (op : Op) : Bool := op ≠ .nop && op ≠ .kill && op ≠ .jmp && op ≠ .jz

/-- `k_op_sources`: which of `a`, `b`, `c` an opcode reads, bit 0 for `a`. -/
def opSources : Op → ℕ
  | .nop => 0 | .mov => 1 | .add => 3 | .sub => 3 | .mul => 3 | .div => 3 | .mad => 7 | .min => 3
  | .max => 3 | .dp2 => 3 | .dp3 => 3 | .dp4 => 3 | .cross => 3 | .floor => 1 | .fract => 1
  | .sqrt => 1 | .rsq => 1 | .exp2 => 1 | .log2 => 1 | .pow => 3 | .sin => 1 | .cos => 1
  | .mix => 7 | .clamp => 7 | .step => 3 | .sstep => 7 | .slt => 3 | .sle => 3 | .seq => 3
  | .sne => 3 | .sel => 7 | .mod => 3 | .sign => 1 | .atan2 => 3 | .tex => 1 | .kill => 1
  | .jmp => 0 | .jz => 1

def checkSrc (h : Header) (w : ℕ) (fragment : Bool) : Bool :=
  let index := operandIndex w
  if w &&& 0xFFC00000 ≠ 0 then false
  else
    match operandFile w with
    | some .temp => index < h.tempCount
    | some .input => if fragment then index < h.varyingCount else index < fgpuMaxAttribs
    | some .output => if fragment then index < 1 else index < 1 + h.varyingCount
    | some .uniform => index < fgpuShaderMaxUniforms
    | some .const => index < h.constCount
    | some .special => fragment && index < 2
    | none => false

def checkDst (h : Header) (d : ℕ) (fragment : Bool) : Option String :=
  let index := operandIndex d
  if d &&& 0xFFFF0000 ≠ 0 ∨ dstMask d = 0 then some "bad destination"
  else
    match operandFile d with
    | some .temp => if index < h.tempCount then none else some "bad destination register"
    | some .output =>
      if index < (if fragment then 1 else 1 + h.varyingCount) then none
      else some "bad destination register"
    | _ => some "bad destination register"

def checkSources (h : Header) (used : ℕ) (src : ℕ → ℕ) (fragment : Bool) : Option String :=
  if (List.range 3).all fun k => !used.testBit k || checkSrc h (src k) fragment then none
  else some "bad source register"

/-- One round of `check_stage`, for the instruction whose words are `word 0` to `word 4`. -/
def checkInst (h : Header) (word : ℕ → ℕ) (pc count : ℕ) (fragment : Bool) : Option String :=
  match opcodes[word 0 &&& 0xFF]? with
  | none => some "unknown opcode"
  | some op =>
    if word 0 &&& 0xFFFFFF00 ≠ 0 then some "unknown opcode"
    else if op = .kill ∧ fragment = false then some "discard in vertex stage"
    else
      let target : Option String :=
        if op = .jmp ∨ op = .jz then
          if word 1 ≤ pc ∨ count < word 1 then some "bad jump target" else none
        else if opHasDst op then checkDst h (word 1) fragment
        else none
      match target with
      | some why => some why
      | none =>
        match checkSources h (opSources op) (fun k => word (2 + k)) fragment with
        | some why => some why
        | none =>
          if op = .tex ∧ fgpuMaxTextureUnits ≤ word 3 then some "bad texture unit" else none

/-- Word `k` of instruction `pc` of a stage. -/
def Program.instWord (p : Program) (fragment : Bool) (pc k : ℕ) : ℕ :=
  blobWord p.blob (p.h.offset fragment + pc * fgpuShaderInstructionWords + k)

def checkStage (p : Program) (fragment : Bool) : Option String :=
  (List.range (p.h.count fragment)).findSome? fun pc =>
    checkInst p.h (p.instWord fragment pc) pc (p.h.count fragment) fragment

/-- A section of `size` words at `offset` lies between the header and the end of the blob. -/
def Header.SectionInside (words offset size : ℕ) : Prop :=
  headerWords ≤ offset ∧ offset ≤ words ∧ size ≤ words - offset

instance (words offset size : ℕ) : Decidable (Header.SectionInside words offset size) :=
  inferInstanceAs (Decidable (_ ∧ _))

/-- `fgpu_program_check` for a blob at address `addr`; an error is the reason it sets. -/
def fgpuProgramCheck (addr : ℕ) (blob : List UInt8) : Except String Program :=
  let h := readHeader blob
  let words := blob.length / 4
  if addr = 0 ∨ blob.length < 4 * headerWords ∨ blob.length % 4 ≠ 0 ∨ addr % 4 ≠ 0 then
    .error "too small"
  else if h.magic ≠ fgpuShaderMagic ∨ h.version ≠ fgpuShaderVersion then
    .error "not an FGSL program"
  else if h.size ≠ blob.length then .error "size mismatch"
  else if h.vsCount = 0 ∨ h.fsCount = 0 ∨ fgpuShaderMaxInstructions < h.vsCount ∨
      fgpuShaderMaxInstructions < h.fsCount then
    .error "bad instruction count"
  else if fgpuShaderMaxTemps < h.tempCount ∨ fgpuShaderMaxVaryings < h.varyingCount ∨
      fgpuShaderMaxUniforms < h.uniformCount ∨ fgpuShaderMaxConstants < h.constCount ∨
      h.attribMask >>> fgpuMaxAttribs ≠ 0 ∨ h.textureMask >>> fgpuMaxTextureUnits ≠ 0 then
    .error "limits exceeded"
  else if ¬ (Header.SectionInside words h.vsOffset (h.vsCount * fgpuShaderInstructionWords) ∧
      Header.SectionInside words h.fsOffset (h.fsCount * fgpuShaderInstructionWords) ∧
      Header.SectionInside words h.constOffset (h.constCount * 4)) then
    .error "section outside the program"
  else
    let p : Program := ⟨h, blob⟩
    match checkStage p false with
    | some why => .error why
    | none =>
      match checkStage p true with
      | some why => .error why
      | none => .ok p

/-! ## What the check guarantees -/

def Header.regCount (h : Header) (fragment : Bool) : File → ℕ
  | .temp => h.tempCount
  | .input => if fragment then h.varyingCount else fgpuMaxAttribs
  | .output => if fragment then 1 else 1 + h.varyingCount
  | .uniform => fgpuShaderMaxUniforms
  | .const => h.constCount
  | .special => if fragment then 2 else 0

def Header.SrcOk (h : Header) (fragment : Bool) (w : ℕ) : Prop :=
  ∃ f, operandFile w = some f ∧ operandIndex w < h.regCount fragment f

def Header.DstOk (h : Header) (fragment : Bool) (d : ℕ) : Prop :=
  ∃ f, operandFile d = some f ∧ (f = .temp ∨ f = .output) ∧
    operandIndex d < h.regCount fragment f

/-- What `check_stage` establishes of the instruction at `pc`. -/
structure InstOk (h : Header) (fragment : Bool) (count pc : ℕ) (op : Op) (word : ℕ → ℕ) :
    Prop where
  opcode : opcodes[word 0]? = some op
  target : op = .jmp ∨ op = .jz → pc < word 1 ∧ word 1 ≤ count
  dst : opHasDst op → h.DstOk fragment (word 1)
  src : ∀ k < 3, (opSources op).testBit k → h.SrcOk fragment (word (2 + k))
  unit : op = .tex → word 3 < fgpuMaxTextureUnits
  kill : op = .kill → fragment = true

/-- What `fgpu_program_check` establishes. -/
structure Program.Ok (p : Program) : Prop where
  words : ∀ fragment, p.h.offset fragment + p.h.count fragment * fgpuShaderInstructionWords ≤
    p.blob.length / 4
  consts : p.h.constOffset + p.h.constCount * 4 ≤ p.blob.length / 4
  const_le : p.h.constCount ≤ fgpuShaderMaxConstants
  temps : p.h.tempCount ≤ fgpuShaderMaxTemps
  varyings : p.h.varyingCount ≤ fgpuShaderMaxVaryings
  count_le : ∀ fragment, p.h.count fragment ≤ fgpuShaderMaxInstructions
  inst : ∀ fragment, ∀ pc < p.h.count fragment,
    ∃ op, InstOk p.h fragment (p.h.count fragment) pc op (p.instWord fragment pc)

variable {h : Header} {fragment : Bool}

theorem srcOk_of_checkSrc {w : ℕ} (hc : checkSrc h w fragment = true) : h.SrcOk fragment w := by
  unfold checkSrc at hc
  split at hc
  · cases hc
  · cases hf : operandFile w with
    | none => rw [hf] at hc; cases hc
    | some f =>
      refine ⟨f, hf, ?_⟩
      rw [hf] at hc
      cases f <;> cases fragment <;> simp_all [Header.regCount]

theorem dstOk_of_checkDst {d : ℕ} (hc : checkDst h d fragment = none) : h.DstOk fragment d := by
  unfold checkDst at hc
  split at hc
  · cases hc
  · cases hf : operandFile d with
    | none => rw [hf] at hc; cases hc
    | some f =>
      refine ⟨f, hf, ?_⟩
      cases f <;> simp_all [Header.regCount]

theorem blobWord_lt (blob : List UInt8) (i : ℕ) : blobWord blob i < 2 ^ 32 :=
  readLE_lt _ 4 _

theorem and_low_byte {w : ℕ} (hw : w < 2 ^ 32) (h : w &&& 0xFFFFFF00 = 0) : w &&& 0xFF = w := by
  have hall : w &&& (0xFF ||| 0xFFFFFF00) = w := by
    rw [show 0xFF ||| 0xFFFFFF00 = 2 ^ 32 - 1 by decide, Nat.and_two_pow_sub_one_eq_mod,
      Nat.mod_eq_of_lt hw]
  rwa [Nat.and_or_distrib_left, h, Nat.or_zero] at hall

theorem instOk_of_checkInst {word : ℕ → ℕ} {pc count : ℕ} (hword : word 0 < 2 ^ 32)
    (hc : checkInst h word pc count fragment = none) :
    ∃ op, InstOk h fragment count pc op word := by
  unfold checkInst at hc
  split at hc
  · cases hc
  rename_i op hop
  refine ⟨op, ?_⟩
  split at hc
  · cases hc
  rename_i hlow
  rw [and_low_byte hword (not_not.mp hlow)] at hop
  split at hc
  · cases hc
  rename_i hkill
  dsimp only at hc
  split at hc
  · cases hc
  rename_i htarget
  split at hc
  · cases hc
  rename_i hsrc
  split at hc
  · cases hc
  rename_i htex
  refine ⟨hop, fun hj => ?_, fun hd => ?_, fun k hk hbit => ?_, fun ht => ?_, fun hk => ?_⟩
  · rw [if_pos hj] at htarget
    split at htarget
    · cases htarget
    · omega
  · have hj : ¬ (op = .jmp ∨ op = .jz) := by
      rintro (rfl | rfl) <;> simp [opHasDst] at hd
    rw [if_neg hj, if_pos hd] at htarget
    exact dstOk_of_checkDst htarget
  · unfold checkSources at hsrc
    split at hsrc
    · rename_i hall
      have := List.all_eq_true.mp hall k (List.mem_range.mpr hk)
      rw [hbit] at this
      exact srcOk_of_checkSrc (by simpa using this)
    · cases hsrc
  · have := htex
    rw [not_and] at this
    exact not_le.mp (this ht)
  · cases fragment
    · exact absurd ⟨hk, rfl⟩ hkill
    · rfl

/-- **The check.** -/
theorem Program.ok_of_check {addr : ℕ} {blob : List UInt8} {p : Program}
    (hc : fgpuProgramCheck addr blob = .ok p) : p.Ok ∧ p.blob = blob := by
  unfold fgpuProgramCheck at hc
  dsimp only at hc
  iterate 6
    split at hc
    · cases hc
  rename_i hsmall hmagic hsize hcount hlimits hsections
  rw [not_not] at hsections
  split at hc
  · cases hc
  rename_i hvs
  split at hc
  · cases hc
  rename_i hfs
  cases hc
  obtain ⟨⟨-, hv1, hv2⟩, ⟨-, hf1, hf2⟩, -, hk1, hk2⟩ := hsections
  refine ⟨⟨?_, by dsimp only; omega, by dsimp only; omega, by dsimp only; omega,
    by dsimp only; omega, ?_, ?_⟩, rfl⟩
  · rintro (_ | _)
    · show (readHeader blob).vsOffset + _ ≤ _; simp only [Header.count]; simp; omega
    · show (readHeader blob).fsOffset + _ ≤ _; simp only [Header.count]; simp; omega
  · rintro (_ | _)
    · show (readHeader blob).vsCount ≤ _; omega
    · show (readHeader blob).fsCount ≤ _; omega
  · intro fragment pc hpc
    have hstage : checkStage ⟨readHeader blob, blob⟩ fragment = none := by
      cases fragment
      · exact hvs
      · exact hfs
    exact instOk_of_checkInst (blobWord_lt _ _)
      (List.findSome?_eq_none_iff.mp hstage pc (List.mem_range.mpr hpc))

end MinimalOS.Fgpu
