import MinimalOS.Fgpu.IrDce
import MinimalOS.Fgpu.IrLower
import MinimalOS.Fgpu.Safety

/-!
# Lowered stages

The loop of `fgpu_ir_lower` tracks the thread over the whole stage, the outputs and the discard
then store what it tracked, and dead code elimination keeps those effects. So the IR of a stage
keeps the threads the machine keeps, with the same outputs (`lowered_stage_eq`).
-/

namespace MinimalOS.Fgpu

open Growth StraightLine List

theorem lower_ok {K : Type} [DecidableEq K] {A : Arith K} {cfg : Storage K} {p : Program} {fragment : Bool}
    {code : List (IrInst K)} (h : fgpuIrLower A cfg p fragment = .ok code) :
    ∃ u ir, lowerStage A cfg p fragment ⟨[], fun _ => 0⟩ = .ok (u, ir) ∧
      eliminate ir.code = code := by
  unfold fgpuIrLower at h
  split at h
  · cases h
  · cases hstage : lowerStage A cfg p fragment ⟨[], fun _ => 0⟩ with
    | error e =>
      rw [hstage] at h
      cases h
    | ok res =>
      rw [hstage] at h
      exact ⟨res.1, res.2, rfl, Except.ok.inj h⟩

section Stage

variable {K : Type} [Field K] [LinearOrder K] {F : Functions K} {env : Env K} {r : Regs K}
  {lw : Lw} {t : Thread K} {ir : Ir K} {cfg : Storage K}

/-! ## The parts of a stage -/

structure Starts (env : Env K) (r : Regs K) : Prop where
  temp : ∀ index < env.p.h.regCount env.fragment .temp, ∀ c, r .temp index c = 0
  output : ∀ index < env.p.h.regCount env.fragment .output, ∀ c,
    r .output index c = if index = 0 ∧ c = 3 then 1 else 0

/-- The outputs of `lw`, in the order they are stored. -/
abbrev outputCode (F : Functions K) (env : Env K) (lw : Lw) : List (IrInst K) :=
  (outputSlots (env.p.h.regCount env.fragment .output)).map
    fun slot => outputInst (Arith.exact F) lw slot.1 slot.2

/-- The code of a stage: what tracks the thread, then its outputs, then its discard. -/
structure Lowered (F : Functions K) (env : Env K) (r : Regs K) (t : Thread K) (lw : Lw)
    (ir : Ir K) (tail code : List (IrInst K)) : Prop where
  tracks : Tracks F env r lw t ir
  pure : ∀ x ∈ ir.code, hasEffect x.op = false
  code : code = ir.code ++ outputCode F env lw ++ tail
  tail : tail = [discardInst (Arith.exact F) lw] ∨ tail = [] ∧ t.killed = false

theorem closed_outputs (h : Tracks F env r lw t ir) :
    Closed irSrcs (ir.code ++ outputCode F env lw) := by
  refine h.closed.append fun x hx k hk => ?_
  obtain ⟨⟨o, c⟩, hslot, rfl⟩ := mem_map.mp hx
  rw [mem_singleton.mp hk]
  exact (h.output o (mem_outputSlots.mp hslot) c).lt

variable [IsStrictOrderedRing K]

/-! ## The loop -/

theorem builds_lowerActive {reach pc : ℕ} (hreach : t.wait ≤ reach) :
    Builds (Tracks F env r lw t) (lowerActive F.arith cfg lw reach pc) fun lw' ir =>
      ∃ Γ, Ctx F env r lw' t Γ ir ∧ Active lw' (decide (t.wait ≤ pc)) Γ := by
  unfold lowerActive
  split
  · rename_i hpc
    refine .pure fun ir h => ⟨[], Tracks.ctx ?_, ?_⟩
    · exact ⟨h.closed, h.input, h.special, h.temp, h.output, h.wait, h.killed⟩
    · exact decide_eq_true (hreach.trans hpc)
  · refine .mono ?_ (fun ir h => h.ctx) fun _ _ h => h
    refine bind_emits (emits_imm _) fun now => ?_
    refine have_ctx (fun ir h => h.1.wait) ?_
    refine bind_emits (emits₂ .sle) fun active => ?_
    refine .pure fun ir h => ⟨[(active, if decide (t.wait ≤ pc) then 1 else 0)], ⟨?_, ?_⟩, ?_⟩
    · obtain ⟨h, -⟩ := h
      exact ⟨h.closed, h.input, h.special, h.temp, h.output, h.wait, h.killed⟩
    · refine sat_cons.mpr ⟨h.1.ctx.2, ?_⟩
      have hval := h.2.of_mem mem_cons_self
      simpa [irValue] using hval
    · exact mem_cons_self

/-- The loop invariant of `fgpu_ir_lower`. -/
def Loop (F : Functions K) (env : Env K) (r : Regs K) (t : Thread K) (n : ℕ) (st : Lw × ℕ)
    (ir : Ir K) : Prop :=
  Tracks F env r st.1 (threadRun (Arith.exact F) env n t) ir ∧
    (threadRun (Arith.exact F) env n t).wait ≤ st.2

/-- **One round** of the loop takes the thread over one instruction. -/
theorem builds_lowerStep (hp : env.p.Ok) {pc : ℕ} (hpc : pc < env.p.h.count env.fragment)
    (st : Lw × ℕ) :
    Builds (Loop F env r t pc st)
      (lowerStep F.arith cfg env.p env.fragment st pc) (Loop F env r t (pc + 1)) := by
  rintro ir st' ir' ⟨htracks, hreach⟩ heq
  obtain ⟨lw, ir₁, hactive, heq⟩ := bind_ok heq
  obtain ⟨hle₁, Γ, hctx, hrun⟩ := builds_lowerActive hreach ir lw ir₁ htracks hactive
  obtain ⟨lw', ir₂, hinst, heq⟩ := bind_ok heq
  obtain ⟨hle₂, htracks'⟩ := builds_lowerInst (inst_ok hp hpc).1 hrun ir₁ lw' ir₂ hctx hinst
  cases heq
  simp only [decide_eq_true_eq] at htracks'
  refine ⟨hle₁.trans hle₂, htracks', ?_⟩
  rw [threadRun]
  split
  · exact threadStep_wait_le hreach
  · split
    · omega
    · exact hreach

theorem tracks_initLw (hr : Starts env r) {zero one : Src}
    (h : Sat F.arith (threadEnv F.arith env r) [(one, 1), (zero, 0)] ir) :
    Tracks F env r (initLw zero one) (startThread r) ir := by
  have h0 : Den F.arith (threadEnv F.arith env r) ir zero 0 :=
    h.of_mem (by simp)
  have h1 : Den F.arith (threadEnv F.arith env r) ir one 1 := h.of_mem (by simp)
  refine ⟨h.closed, rfl, rfl, fun index hindex c => ?_, fun index hindex c => ?_, ?_, ?_⟩
  · show Den _ _ ir zero (r .temp index c)
    rw [hr.temp index hindex c]
    exact h0
  · show Den _ _ ir (if index = 0 ∧ c = 3 then one else zero) (r .output index c)
    rw [hr.output index hindex c]
    split
    · exact h1
    · exact h0
  · show Den _ _ ir zero ((0 : ℕ) : K)
    rw [Nat.cast_zero]
    exact h0
  · exact h0

/-! ## The stage -/

theorem lowerStage_lowered (hp : env.p.Ok) (hr : Starts env r) {u : Unit}
    (h : lowerStage F.arith cfg env.p env.fragment ⟨[], fun _ => 0⟩ = .ok (u, ir)) :
    ∃ lw ir₁ tail, Lowered F env r
      (threadRun F.arith env (env.p.h.count env.fragment) (startThread r)) lw ir₁ tail
      ir.code := by
  obtain ⟨zero, irz, hzero, h⟩ := bind_ok h
  obtain ⟨one, iro, hone, h⟩ := bind_ok h
  obtain ⟨st, ir₁, hloop, h⟩ := bind_ok h
  obtain ⟨u', ir₂, hout, hdiscard⟩ := bind_ok h
  have hstart : Sat F.arith (threadEnv F.arith env r) [] ⟨[], fun _ => 0⟩ :=
    ⟨closed_nil _, fun _ he => by simp at he⟩
  obtain ⟨hle₀, hden₀⟩ := emits_imm _ _ zero irz hstart hzero
  have hsat₀ : Sat F.arith (threadEnv F.arith env r) [(zero, 0)] irz :=
    sat_cons.mpr ⟨monotone_sat hle₀ hstart, by rwa [exact_zero] at hden₀⟩
  obtain ⟨hle₁, hden₁⟩ := emits_imm _ irz one iro hsat₀ hone
  have hsat₁ : Sat F.arith (threadEnv F.arith env r) [(one, 1), (zero, 0)] iro :=
    sat_cons.mpr ⟨monotone_sat hle₁ hsat₀, by rwa [exact_one] at hden₁⟩
  obtain ⟨hle₂, htracks, -⟩ := Builds.foldlM_range (Loop F env r (startThread r))
    (fun pc hpc st => builds_lowerStep hp hpc st) (initLw zero one, 0) iro st ir₁
    ⟨tracks_initLw hr hsat₁, le_rfl⟩ hloop
  obtain ⟨rest, hcode, hpure, -⟩ := (hle₀.trans hle₁).trans hle₂
  have hcode₂ : ir₂.code = ir₁.code ++ outputCode F env st.1 :=
    appends_outputs F.arith _ ir₁ u' ir₂ hout
  have hpure₁ : ∀ x ∈ ir₁.code, hasEffect x.op = false := by
    rw [hcode]
    exact hpure
  obtain ⟨_, _, hget, hdiscard⟩ := bind_ok hdiscard
  cases hget
  split at hdiscard
  · have hcode₃ := appends_effect rfl ir₂ u ir hdiscard
    exact ⟨st.1, ir₁, _, htracks, hpure₁, by rw [hcode₃, hcode₂], .inl rfl⟩
  · rename_i hcond
    cases hdiscard
    refine ⟨st.1, ir₁, [], htracks, hpure₁, by rw [hcode₂, append_nil], .inr ⟨rfl, ?_⟩⟩
    rcases Bool.eq_false_or_eq_true env.fragment with hv | hv
    · -- the kill flag is the constant zero
      have hconst : isConst F.arith ir st.1.killed F.arith.zero = true := by
        simpa [hv] using hcond
      have hden : Den F.arith (threadEnv F.arith env r) ir st.1.killed _ :=
        htracks.killed.extend ⟨_, hcode₂.symm⟩
      have hzero := hden.of_isConst_exact (hcode₂ ▸ closed_outputs htracks) hconst
      rw [exact_zero] at hzero
      by_contra hk
      rw [Bool.not_eq_false] at hk
      rw [hk] at hzero
      exact one_ne_zero hzero
    · exact threadRun_killed hp hv _ le_rfl

/-- **Effects of a lowered stage**: the outputs of the thread, kept unless it was killed. -/
theorem Lowered.eval_eq {tail code : List (IrInst K)} (h : Lowered F env r t lw ir tail code) :
    Closed irSrcs code ∧
      (effects F.arith (threadEnv F.arith env r) code).foldl
        (applyEffect F.arith) (fun _ _ => F.arith.zero, true) =
      (fun o c => if o < env.p.h.regCount env.fragment .output then t.regs .output o c else 0,
        !t.killed) := by
  have hout := closed_outputs h.tracks
  have hclosed : Closed irSrcs code := by
    rw [h.code]
    refine hout.append fun x hx k hk => ?_
    rcases h.tail with htail | ⟨htail, -⟩
    · rw [htail] at hx
      rw [mem_singleton.mp hx] at hk
      rw [mem_singleton.mp hk, length_append]
      exact h.tracks.killed.lt.trans_le (Nat.le_add_right _ _)
    · rw [htail] at hx
      cases hx
  refine ⟨hclosed, ?_⟩
  have hprefix : ir.code <+: code := by
    rw [h.code, append_assoc]
    exact prefix_append _ _
  have hnone : effects F.arith (threadEnv F.arith env r) ir.code = [] :=
    filterMap_eq_nil_iff.mpr fun x hx => effect_eq_none (h.pure x hx)
  set cells := (irLang F.arith (threadEnv F.arith env r)).val code with hcells
  have hget : ∀ {s v}, Den F.arith (threadEnv F.arith env r) ir s v →
      s.get F.arith cells = v := by
    intro s v hd
    have hd' : Den F.arith (threadEnv F.arith env r) ⟨code, fun _ => 0⟩ s v :=
      hd.extend hprefix
    exact hd'.get
  have houts : (outputCode F env lw).filterMap (effect F.arith cells) =
      (outputSlots (env.p.h.regCount env.fragment .output)).map
        fun slot => ⟨.output, irSlot slot.1 slot.2, t.regs .output slot.1 slot.2⟩ := by
    rw [filterMap_map, ← filterMap_eq_map]
    refine filterMap_congr fun slot hslot => ?_
    have hden := h.tracks.output slot.1 (mem_outputSlots.mp hslot) slot.2
    show some _ = some _
    rw [show (outputInst F.arith lw slot.1 slot.2).arg F.arith cells 0 = _ from
      hget hden]
    rfl
  have hall : effects F.arith (threadEnv F.arith env r) code =
      (outputSlots (env.p.h.regCount env.fragment .output)).map
        (fun slot => ⟨.output, irSlot slot.1 slot.2, t.regs .output slot.1 slot.2⟩) ++
      tail.filterMap (effect F.arith cells) := by
    have hcode : code = ir.code ++ (outputCode F env lw ++ tail) := by
      rw [h.code, append_assoc]
    rw [← houts, ← filterMap_append, hcells, hcode, effects_append h.tracks.closed, hnone,
      nil_append]
  rw [hall, foldl_append, foldl_outputs]
  simp only [mem_outputSlots, exact_zero]
  rcases h.tail with htail | ⟨htail, hkilled⟩
  · have hkill := hget h.tracks.killed
    have hdiscard : tail.filterMap (effect F.arith cells) =
        [⟨.discard, 0, if t.killed then 1 else 0⟩] := by
      rw [htail, ← hkill]
      rfl
    rw [hdiscard]
    cases hk : t.killed <;> simp [applyEffect]
  · rw [htail, hkilled]
    rfl

end Stage

/-! ## The result -/

section Result

variable {K : Type} [Field K] [LinearOrder K] [IsStrictOrderedRing K] (F : Functions K)

omit [IsStrictOrderedRing K] in
theorem starts_reset {env : Env K} (hp : env.p.Ok) (b : Batch K) (l : Lane) :
    Starts env ((initOutputs F.arith env
      (fgpuShaderBatchReset F.arith b env.p.h.tempCount)).lane l) := by
  constructor
  · intro index hindex c
    have htemps : index < min env.p.h.tempCount fgpuShaderMaxTemps :=
      lt_min hindex (Nat.lt_of_lt_of_le hindex hp.temps)
    unfold Batch.lane initOutputs fgpuShaderBatchReset
    rw [if_neg (by simp), if_pos ⟨rfl, htemps⟩, exact_zero]
  · intro index hindex c
    unfold Batch.lane initOutputs
    rw [if_pos ⟨rfl, hindex⟩, exact_one, exact_zero]
    refine if_congr ?_ rfl rfl
    change index < if env.fragment then 1 else 1 + env.p.h.varyingCount at hindex
    constructor
    · rintro ⟨hc, hf | h0⟩
      · rw [if_pos hf] at hindex
        exact ⟨by omega, hc⟩
      · exact ⟨h0, hc⟩
    · rintro ⟨h0, hc⟩
      exact ⟨hc, .inr h0⟩

omit [IsStrictOrderedRing K] in
theorem threadEnv_reset (env : Env K) (b : Batch K) (l : Lane) :
    threadEnv F.arith env ((initOutputs F.arith env
      (fgpuShaderBatchReset F.arith b env.p.h.tempCount)).lane l) =
    threadEnv F.arith env (b.lane l) := by
  unfold threadEnv
  congr 1

theorem eval_lowered (env : Env K) (hp : env.p.Ok) {cfg : Storage K} {code : List (IrInst K)}
    (hlower : fgpuIrLower F.arith cfg env.p env.fragment = .ok code) (b : Batch K)
    (l : Lane) {r : Regs K} (hr : r = (initOutputs F.arith env
      (fgpuShaderBatchReset F.arith b env.p.h.tempCount)).lane l) {t : Thread K}
    (ht : t = threadRun F.arith env (env.p.h.count env.fragment) (startThread r)) :
    (eval F.arith (threadEnv F.arith env (b.lane l)) code).kept = !t.killed ∧
      ∀ o < env.p.h.regCount env.fragment .output, ∀ c,
        (eval F.arith (threadEnv F.arith env (b.lane l)) code).out o c =
          t.regs .output o c := by
  obtain ⟨u, ir, hstage, rfl⟩ := lower_ok hlower
  obtain ⟨lw, ir₁, tail, hlow⟩ :=
    lowerStage_lowered hp (hr ▸ starts_reset F hp b l) hstage
  rw [← ht] at hlow
  obtain ⟨hclosed, hfold⟩ := hlow.eval_eq
  obtain ⟨hclosed', heff⟩ := effects_eliminate hclosed
  rw [← threadEnv_reset F env b l, ← hr]
  rw [← heff, ← eval_eq_effects hclosed', Prod.mk.injEq] at hfold
  refine ⟨hfold.2, fun o ho c => ?_⟩
  rw [hfold.1]
  exact if_pos ho

/-- **Lowering is correct.** When a stage of an accepted program is lowered, evaluating the code
on a thread's inputs keeps the thread if the machine, started from zeroed temporaries, keeps the
lane with those inputs, and then has the machine's value for every output component. -/
theorem lowered_stage_eq {addr : ℕ} {blob : List UInt8} {p : Program}
    (hc : fgpuProgramCheck addr blob = .ok p) (fragment : Bool) (cfg : Storage K)
    {code : List (IrInst K)} (hlower : fgpuIrLower (Arith.exact F) cfg p fragment = .ok code)
    (uniforms : Option (ℕ → Fin 4 → K)) (textures : Option (ℕ → K → K → Fin 4 → K))
    (b : Batch K) (res : Fin 4 → Lane → K) (lanes : LaneSet) {l : Lane} (hl : lanes l = true) :
    ∃ m, fgpuShaderRunBatch (Arith.exact F) ⟨p, fragment, uniforms, textures⟩
        (fgpuShaderBatchReset (Arith.exact F) b p.h.tempCount) res lanes = .ok m ∧
      m.live l = (eval (Arith.exact F)
        (threadEnv (Arith.exact F) ⟨p, fragment, uniforms, textures⟩ (b.lane l)) code).kept ∧
      (m.live l = true → ∀ o < p.h.regCount fragment .output, ∀ c,
        m.batch .output o c l = (eval (Arith.exact F)
          (threadEnv (Arith.exact F) ⟨p, fragment, uniforms, textures⟩ (b.lane l)) code).out o c) := by
  obtain ⟨hp, -⟩ := Program.ok_of_check hc
  obtain ⟨m, hrun, hm⟩ := fgpuShaderRunBatch_finished (Arith.exact F)
    ⟨p, fragment, uniforms, textures⟩ hp
    (fgpuShaderBatchReset (Arith.exact F) b p.h.tempCount) res lanes
  obtain ⟨hkept, hout⟩ := eval_lowered F ⟨p, fragment, uniforms, textures⟩ hp hlower b l rfl rfl
  -- the lane of the machine is the thread that the code follows
  have hsame : SameThread (m.laneState l) (threadRun (Arith.exact F)
      ⟨p, fragment, uniforms, textures⟩ (p.h.count fragment) (startThread
        ((initOutputs (Arith.exact F) ⟨p, fragment, uniforms, textures⟩
          (fgpuShaderBatchReset (Arith.exact F) b p.h.tempCount)).lane l))) := by
    rw [hm.lane l]
    exact sameThread_run ⟨hl, fun _ => rfl, fun _ => rfl⟩ _
  refine ⟨m, hrun, ?_, fun hlive o ho c => ?_⟩
  · rw [hkept]
    exact hsame.live
  · rw [hout o ho c]
    exact congrFun (congrFun (congrFun (hsame.regs hlive) .output) o) c

end Result

/-- The fragment stage of the sample program, on a lane of a full batch. -/
theorem lowered_stage_eq_sample :
    ∃ p m code, fgpuProgramCheck 4096 sampleProgram = .ok p ∧
      fgpuIrLower (Arith.exact ratFunctions) ⟨64, fun _ => 0⟩ p true = .ok code ∧
      fgpuShaderRunBatch (Arith.exact ratFunctions) ⟨p, true, none, none⟩
        (fgpuShaderBatchReset (Arith.exact ratFunctions) (fun _ _ _ l => (l.val : ℚ))
          p.h.tempCount) (fun _ _ => 0) (fun _ => true) = .ok m ∧
      m.live 3 = (eval (Arith.exact ratFunctions) (threadEnv (Arith.exact ratFunctions)
        ⟨p, true, none, none⟩ (Batch.lane (fun _ _ _ l => (l.val : ℚ)) 3)) code).kept := by
  have hok : (match fgpuProgramCheck 4096 sampleProgram with
      | .ok p => (fgpuIrLower (Arith.exact ratFunctions) ⟨64, fun _ => 0⟩ p true).isOk
      | .error _ => false) = true := by decide +kernel
  cases hp : fgpuProgramCheck 4096 sampleProgram with
  | error why => rw [hp] at hok; cases hok
  | ok p =>
    rw [hp] at hok
    dsimp only at hok
    cases hcode : fgpuIrLower (Arith.exact ratFunctions) ⟨64, fun _ => 0⟩ p true with
    | error e => rw [hcode] at hok; cases hok
    | ok code =>
      obtain ⟨m, hm, hkept, -⟩ := lowered_stage_eq ratFunctions hp true _ hcode none none
        (fun _ _ _ l => (l.val : ℚ)) (fun _ _ => 0) (fun _ => true) rfl
      exact ⟨p, m, code, rfl, hcode, hm, hkept⟩

end MinimalOS.Fgpu
