import MinimalOS.Fgpu.Exact
import MinimalOS.Fgpu.Lockstep

/-!
# Accepted programs

What `fgpu_program_check` is for: a program it accepts runs without an access outside the
registers, constants, texture units and instructions that exist, and ends. And what lockstep
execution is for: a lane computes what it would compute in any other batch.
-/

namespace MinimalOS.Fgpu

/-- The size of the array that holds a register file. The constants are in the blob. -/
def File.capacity : File → ℕ
  | .temp => fgpuShaderMaxTemps
  | .input => fgpuMaxAttribs
  | .output => 1 + fgpuShaderMaxVaryings
  | .uniform => fgpuShaderMaxUniforms
  | .const => fgpuShaderMaxConstants
  | .special => 2

theorem regCount_le_capacity {p : Program} (hp : p.Ok) (fragment : Bool) (f : File) :
    p.h.regCount fragment f ≤ f.capacity := by
  have ht := hp.temps
  have hv := hp.varyings
  have hc := hp.const_le
  unfold Header.regCount File.capacity
  cases f <;> cases fragment <;> dsimp only [Bool.false_eq_true, if_true, if_false] <;> simp <;> omega

/-- A program with one vertex instruction, and a fragment stage that skips a move when a varying
is zero and then may discard. -/
def sampleProgram : List UInt8 :=
  [fgpuShaderMagic, fgpuShaderVersion, 144, 0, 16, 1, 21, 3, 36, 0, 1, 1, 0, 0, 0, 0,
    1, 0xF003, 0xE4002, 0, 0,
    37, 2, 0xE4002, 0, 0,
    1, 0xF003, 0xE4006, 0, 0,
    35, 0, 0x1002, 0, 0].flatMap fun w =>
      [UInt8.ofNat w, UInt8.ofNat (w >>> 8), UInt8.ofNat (w >>> 16), UInt8.ofNat (w >>> 24)]

theorem ok_of_toOption {ε α : Type} {e : Except ε α} {a : α} (h : e.toOption = some a) :
    e = .ok a := by
  cases e with
  | error why => cases h
  | ok a' => rw [Option.some.inj h]

theorem sampleProgram_accepted : ∃ p, fgpuProgramCheck 4096 sampleProgram = .ok p := by
  have hok : (fgpuProgramCheck 4096 sampleProgram).toOption.isSome = true := by decide +kernel
  obtain ⟨p, hp⟩ := Option.isSome_iff_exists.mp hok
  exact ⟨p, ok_of_toOption hp⟩

section

variable {K : Type} (A : Arith K) {addr : ℕ} {blob : List UInt8} {p : Program}

/-- **What the check is worth.** A run of either stage of an accepted program ends without a
fault: every register, constant, texture unit and instruction it touches exists. Registers exist
within the arrays that hold them, instructions within the blob, and none is executed twice. It
reads nothing else exactly when no instruction it executes leaves a row that is loaded at
`k_zero`. -/
theorem accepted_run_contained_iff (hc : fgpuProgramCheck addr blob = .ok p) (fragment : Bool)
    (uniforms : Option (ℕ → Fin 4 → K)) (textures : Option (ℕ → K → K → Fin 4 → K))
    (b : Batch K) (res : Fin 4 → Lane → K) (lanes : LaneSet) :
    (∀ f, p.h.regCount fragment f ≤ f.capacity) ∧
      ∃ m, fgpuShaderRunBatch A ⟨p, fragment, uniforms, textures⟩ b res lanes = .ok m ∧
        m.trace.Nodup ∧
        (∀ pc ∈ m.trace, pc < p.h.count fragment ∧
          p.h.offset fragment + (pc + 1) * fgpuShaderInstructionWords ≤ blob.length / 4) ∧
        (m.overread = 0 ↔ ∀ pc ∈ m.trace, (p.inst fragment pc).overreads = false) := by
  obtain ⟨hp, rfl⟩ := Program.ok_of_check hc
  obtain ⟨m, hrun, hm⟩ := fgpuShaderRunBatch_finished A
    ⟨p, fragment, uniforms, textures⟩ hp b res lanes
  refine ⟨regCount_le_capacity hp fragment, m, hrun, ?_, fun pc hpc => ?_, hm.counted⟩
  · exact hm.trace.imp fun h => Nat.ne_of_gt h
  · have hlt : pc < p.h.count fragment := hm.trace_lt pc hpc
    have hin := hp.words fragment
    unfold fgpuShaderInstructionWords at *
    exact ⟨hlt, by omega⟩

/-- A program with one instruction in each stage, `mad` and `mix`: opcodes with three sources. -/
def blendProgram : List UInt8 :=
  [fgpuShaderMagic, fgpuShaderVersion, 104, 0, 16, 1, 21, 1, 26, 0, 1, 1, 0, 0, 0, 0,
    6, 0xF003, 0xE4002, 0xE4002, 0xE4002,
    22, 0xF003, 0xE4002, 0xE4002, 0xE4002].flatMap fun w =>
      [UInt8.ofNat w, UInt8.ofNat (w >>> 8), UInt8.ofNat (w >>> 16), UInt8.ofNat (w >>> 24)]

theorem accepted_run_contained_blend :
    ∃ p m, fgpuProgramCheck 4096 blendProgram = .ok p ∧
      fgpuShaderRunBatch (Arith.exact ratFunctions) ⟨p, true, none, none⟩
        (fun _ _ _ l => (l.val : ℚ)) (fun _ _ => 0) (fun _ => true) = .ok m ∧
      m.trace.Nodup ∧ m.overread = 0 := by
  have hcheck : (fgpuProgramCheck 4096 blendProgram).toOption.map (fun p =>
      (p.h.count true, (p.inst true 0).overreads)) = some (1, false) := by decide +kernel
  obtain ⟨p, hp, hshape⟩ := Option.map_eq_some_iff.mp hcheck
  have hp := ok_of_toOption hp
  obtain ⟨hcount, hinst⟩ := Prod.mk.inj hshape
  obtain ⟨-, m, hm, htrace, hin, hiff⟩ := accepted_run_contained_iff (Arith.exact ratFunctions) hp
    true none none (fun _ _ _ l => (l.val : ℚ)) (fun _ _ => 0) (fun _ => true)
  refine ⟨p, m, hp, hm, htrace, hiff.mpr fun pc hpc => ?_⟩
  obtain rfl : pc = 0 := by have := (hin pc hpc).1; omega
  exact hinst

/-- A `mov` of four components loads 32 floats from behind `k_zero`, 16 for each source that it
does not have. -/
theorem accepted_run_overreads :
    ∃ p m, fgpuProgramCheck 4096 sampleProgram = .ok p ∧
      fgpuShaderRunBatch (Arith.exact ratFunctions) ⟨p, false, none, none⟩
        (fun _ _ _ _ => 0) (fun _ _ => 0) (fun _ => true) = .ok m ∧ m.overread = 32 := by
  have hrun : (do
      let p ← (fgpuProgramCheck 4096 sampleProgram).toOption
      let m ← (fgpuShaderRunBatch (Arith.exact ratFunctions) ⟨p, false, none, none⟩
        (fun _ _ _ _ => 0) (fun _ _ => 0) fun _ => true).toOption
      pure m.overread) = some 32 := by decide +kernel
  obtain ⟨p, hp, hrest⟩ := Option.bind_eq_some_iff.mp hrun
  obtain ⟨m, hm, hpast⟩ := Option.bind_eq_some_iff.mp hrest
  exact ⟨p, m, ok_of_toOption hp, ok_of_toOption hm, Option.some.inj hpast⟩

theorem lane_initOutputs {env : Env K} {b b' : Batch K} {l l' : Lane}
    (h : b'.lane l' = b.lane l) : (initOutputs A env b').lane l' = (initOutputs A env b).lane l := by
  funext f index c
  have hc := congrFun (congrFun (congrFun h f) index) c
  unfold Batch.lane initOutputs at *
  rw [hc]

/-- **Lanes are independent.** A batch of an accepted program leaves lane `l` kept or discarded,
and if kept with the registers, that any other batch leaves in a lane with the same initial
registers: run alone when `lanes'` has no other lane, or next to whatever else. -/
theorem lane_result_independent (hc : fgpuProgramCheck addr blob = .ok p) (fragment : Bool)
    (uniforms : Option (ℕ → Fin 4 → K)) (textures : Option (ℕ → K → K → Fin 4 → K))
    (b : Batch K) (res : Fin 4 → Lane → K) (lanes : LaneSet) {l : Lane} (hl : lanes l = true) :
    ∃ m, fgpuShaderRunBatch A ⟨p, fragment, uniforms, textures⟩ b res lanes = .ok m ∧
      ∀ (b' : Batch K) (res' : Fin 4 → Lane → K) (lanes' : LaneSet) (l' : Lane),
        lanes' l' = true → b'.lane l' = b.lane l →
        ∃ m', fgpuShaderRunBatch A ⟨p, fragment, uniforms, textures⟩ b' res' lanes' = .ok m' ∧
          m'.live l' = m.live l ∧
          (m.live l = true → ∀ index c,
            m'.batch .output index c l' = m.batch .output index c l ∧
            m'.batch .temp index c l' = m.batch .temp index c l) := by
  obtain ⟨hp, -⟩ := Program.ok_of_check hc
  obtain ⟨m, hrun, hm⟩ := fgpuShaderRunBatch_finished A
    ⟨p, fragment, uniforms, textures⟩ hp b res lanes
  refine ⟨m, hrun, fun b' res' lanes' l' hl' hsame => ?_⟩
  obtain ⟨m', hrun', hm'⟩ := fgpuShaderRunBatch_finished A
    ⟨p, fragment, uniforms, textures⟩ hp b' res' lanes'
  have hstate : m'.laneState l' = m.laneState l := by
    rw [hm.lane l, hm'.lane l']
    congr 1
    exact LaneState.ext (lane_initOutputs A hsame) rfl (hl'.trans hl.symm)
  have hregs : m'.batch.lane l' = m.batch.lane l := congrArg LaneState.regs hstate
  refine ⟨m', hrun', congrArg LaneState.live hstate, fun _ index c => ⟨?_, ?_⟩⟩
  · exact congrFun (congrFun (congrFun hregs .output) index) c
  · exact congrFun (congrFun (congrFun hregs .temp) index) c

end

/-- Lane 3 of a full batch, against lane 0 of a batch of one. -/
theorem lane_result_independent_sample :
    ∃ p m m', fgpuProgramCheck 4096 sampleProgram = .ok p ∧
      fgpuShaderRunBatch (Arith.exact ratFunctions) ⟨p, true, none, none⟩
        (fun _ _ _ l => (l.val : ℚ)) (fun _ _ => 0) (fun _ => true) = .ok m ∧
      fgpuShaderRunBatch (Arith.exact ratFunctions) ⟨p, true, none, none⟩
        (fun _ _ _ _ => 3) (fun _ _ => 0) (· = 0) = .ok m' ∧ m'.live 0 = m.live 3 := by
  obtain ⟨p, hp⟩ := sampleProgram_accepted
  obtain ⟨m, hm, hall⟩ := lane_result_independent (Arith.exact ratFunctions) hp true none none
    (fun _ _ _ l => (l.val : ℚ)) (fun _ _ => 0) (fun _ => true) (l := 3) rfl
  obtain ⟨m', hm', hlive, -⟩ := hall (fun _ _ _ _ => 3) (fun _ _ => 0) (· = 0) 0 rfl rfl
  exact ⟨p, m, m', hp, hm, hm', hlive⟩

end MinimalOS.Fgpu
