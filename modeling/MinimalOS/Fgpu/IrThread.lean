import MinimalOS.Fgpu.IrOps
import MinimalOS.Fgpu.Lockstep

/-!
# Lowering follows a thread

A `Thread` is a lane that goes on after a `KILL`, with a flag that it was killed: what
if-converted code can track. `Tracks` says that the sources the lowering keeps for registers,
waiting point and kill flag have the thread's values. Each lowered instruction moves the thread
over that instruction (`builds_lowerInst`), so lowering a stage runs it (`builds_lowerStep`).
-/

namespace MinimalOS.Fgpu

open Growth StraightLine

/-! ## Threads -/

structure Thread (K : Type) where
  regs : Regs K
  wait : ℕ
  killed : Bool

section Defs

variable {K : Type} (A : Arith K) (env : Env K)

def threadStep (i : Inst) (t : Thread K) : Thread K :=
  match i.op with
  | .nop => t
  | .jmp => { t with wait := i.dst }
  | .jz => if A.eq (srcValue A env t.regs i.a 0) A.zero then { t with wait := i.dst } else t
  | .kill => { t with killed := t.killed || !A.eq (srcValue A env t.regs i.a 0) A.zero }
  | _ => { t with regs := t.regs.store i.dst (instValue A env t.regs i) }

/-- The thread after the first `n` instructions. -/
def threadRun : ℕ → Thread K → Thread K
  | 0, t => t
  | n + 1, t =>
    let t := threadRun n t
    if t.wait ≤ n then threadStep A env (env.p.inst env.fragment n) t else t

/-- What a thread with the registers `r` reads from outside. -/
def threadEnv (r : Regs K) : IrEnv K where
  input := r .input
  special := r .special
  uniform := uniformVec A env
  texture := sampleUnit A env

/-- The lane is the thread, until it is killed. -/
structure SameThread (s : LaneState K) (t : Thread K) : Prop where
  live : s.live = !t.killed
  regs : s.live = true → s.regs = t.regs
  wait : s.live = true → s.wait = t.wait

end Defs

section Threads

variable {K : Type} {A : Arith K} {env : Env K}

variable {t : Thread K} {s : LaneState K}

theorem threadStep_killed {i : Inst} (h : t.killed = true) :
    (threadStep A env i t).killed = true := by
  unfold threadStep
  split
  · exact h
  · exact h
  · split <;> exact h
  · simp [h]
  · exact h

theorem threadStep_wait_le {i : Inst} {reach : ℕ} (h : t.wait ≤ reach) :
    (threadStep A env i t).wait ≤
      if (i.op = .jmp ∨ i.op = .jz) ∧ reach < i.dst then i.dst else reach := by
  have hmax : i.op = .jmp ∨ i.op = .jz → i.dst ≤
      if (i.op = .jmp ∨ i.op = .jz) ∧ reach < i.dst then i.dst else reach := by
    intro hj
    split
    · exact le_rfl
    · rename_i hcon
      exact not_lt.mp fun hlt => hcon ⟨hj, hlt⟩
  have hold : t.wait ≤ if (i.op = .jmp ∨ i.op = .jz) ∧ reach < i.dst then i.dst else reach := by
    split
    · omega
    · exact h
  unfold threadStep
  split
  · exact hold
  · rename_i hop
    exact hmax (.inl hop)
  · rename_i hop
    split
    · exact hmax (.inr hop)
    · exact hold
  · exact hold
  · exact hold

theorem SameThread.step (h : SameThread s t) (hl : s.live = true) (i : Inst) :
    SameThread (laneStep A env i s) (threadStep A env i t) := by
  obtain ⟨regs, wait, live⟩ := s
  obtain ⟨hlive, hregs, hwait⟩ := h
  obtain rfl : regs = t.regs := hregs hl
  obtain rfl : wait = t.wait := hwait hl
  obtain rfl : live = true := hl
  have hk : t.killed = false := by simpa using hlive
  obtain ⟨op, dst, a, b, c⟩ := i
  cases op
  case jz =>
    unfold laneStep threadStep
    dsimp only
    split <;> exact ⟨hlive, fun _ => rfl, fun _ => rfl⟩
  case kill =>
    unfold laneStep threadStep
    dsimp only
    rw [hk]
    split
    · rename_i h0
      exact ⟨by simp [h0], fun _ => rfl, fun _ => rfl⟩
    · rename_i h0
      exact ⟨by simpa using h0, fun _ => rfl, fun _ => rfl⟩
  all_goals exact ⟨hlive, fun _ => rfl, fun _ => rfl⟩

def startThread (r : Regs K) : Thread K := ⟨r, 0, false⟩

theorem threadRun_killed {r : Regs K} (hp : env.p.Ok) (hv : env.fragment = false) (n : ℕ)
    (hn : n ≤ env.p.h.count env.fragment) : (threadRun A env n (startThread r)).killed = false := by
  induction n with
  | zero => rfl
  | succ n ih =>
    have hprev := ih (by omega)
    rw [threadRun]
    split
    · obtain ⟨op, hi⟩ := hp.inst env.fragment n hn
      have hop : (env.p.inst env.fragment n).op = op := by
        unfold Program.inst
        rw [hi.opcode]
        rfl
      unfold threadStep
      rw [hop]
      split
      · exact hprev
      · exact hprev
      · split <;> exact hprev
      · rw [hi.kill rfl] at hv
        cases hv
      · exact hprev
    · exact hprev

theorem sameThread_run (h : SameThread s t) (n : ℕ) :
    SameThread (laneRun A env n s) (threadRun A env n t) := by
  induction n with
  | zero => exact h
  | succ n ih =>
    rw [laneRun, threadRun]
    cases hl : (laneRun A env n s).live with
    | true =>
      rw [← ih.wait hl]
      by_cases hw : (laneRun A env n s).wait ≤ n
      · rw [if_pos ⟨rfl, hw⟩, if_pos hw]
        exact ih.step hl _
      · rw [if_neg fun h => hw h.2, if_neg hw]
        exact ih
    | false =>
      -- a discarded lane stays as it is, and its thread stays killed
      have hk : (threadRun A env n t).killed = true := by simpa [hl] using ih.live
      rw [if_neg fun h => by cases h.1]
      split
      · exact ⟨by rw [hl, threadStep_killed hk]; rfl, fun h => by simp [hl] at h,
          fun h => by simp [hl] at h⟩
      · exact ih

end Threads

/-! ## Tracking -/

section Tracks

variable {K : Type} [Field K] [LinearOrder K]

/-- The sources of `lw` have the values of the thread, whose inputs are those of `r`. -/
structure Tracks (F : Functions K) (env : Env K) (r : Regs K) (lw : Lw) (t : Thread K)
    (ir : Ir K) : Prop where
  closed : Closed irSrcs ir.code
  input : t.regs .input = r .input
  special : t.regs .special = r .special
  temp : ∀ index < env.p.h.regCount env.fragment .temp, ∀ c,
    Den (Arith.exact F) (threadEnv (Arith.exact F) env r) ir (lw.temp index c)
      (t.regs .temp index c)
  output : ∀ index < env.p.h.regCount env.fragment .output, ∀ c,
    Den (Arith.exact F) (threadEnv (Arith.exact F) env r) ir (lw.out index c)
      (t.regs .output index c)
  wait : Den (Arith.exact F) (threadEnv (Arith.exact F) env r) ir lw.wait (t.wait : K)
  killed : Den (Arith.exact F) (threadEnv (Arith.exact F) env r) ir lw.killed
    (if t.killed then 1 else 0)

/-- The thread is tracked and some sources have known values. -/
def Ctx (F : Functions K) (env : Env K) (r : Regs K) (lw : Lw) (t : Thread K)
    (Γ : List (Src × K)) (ir : Ir K) : Prop :=
  Tracks F env r lw t ir ∧ Sat (Arith.exact F) (threadEnv (Arith.exact F) env r) Γ ir

variable {F : Functions K} {env : Env K} {r : Regs K} {lw : Lw} {t : Thread K} {ir : Ir K}
  {Γ : List (Src × K)} {s : Src} {v : K}

theorem monotone_tracks : Monotone (Tracks F env r lw t) := fun _ _ hle h =>
  { closed := monotone_closed hle h.closed
    input := h.input
    special := h.special
    temp := fun index hi c => (h.temp index hi c).mono hle
    output := fun index hi c => (h.output index hi c).mono hle
    wait := h.wait.mono hle
    killed := h.killed.mono hle }

theorem monotone_ctx : Monotone (Ctx F env r lw t Γ) := fun _ _ hle h =>
  ⟨monotone_tracks hle h.1, monotone_sat hle h.2⟩

theorem Tracks.ctx (h : Tracks F env r lw t ir) : Ctx F env r lw t [] ir :=
  ⟨h, h.closed, fun _ he => by simp at he⟩

variable {m : Build K Src}

theorem Emits.builds {P : Ir K → Prop} (hm : Emits F.arith (threadEnv F.arith env r) Γ m v)
    (hP : ∀ ir, P ir → Sat F.arith (threadEnv F.arith env r) Γ ir) :
    Builds P m fun s ir => Den F.arith (threadEnv F.arith env r) ir s v :=
  Builds.mono hm hP fun _ _ h => h

theorem bind_ctx {α : Type} {f : Src → Build K α} {Q : α → Ir K → Prop}
    (hm : Builds (Ctx F env r lw t Γ) m fun s ir => Den F.arith (threadEnv F.arith env r) ir s v)
    (hf : ∀ s, Builds (Ctx F env r lw t ((s, v) :: Γ)) (f s) Q) :
    Builds (Ctx F env r lw t Γ) (m >>= f) Q :=
  Builds.bind monotone_ctx hm fun s =>
    Builds.mono (hf s) (fun _ h => ⟨h.1.1, sat_cons.mpr ⟨h.1.2, h.2⟩⟩) fun _ _ h => h

theorem have_ctx {α : Type} {m : Build K α} {Q : α → Ir K → Prop}
    (h : ∀ ir, Ctx F env r lw t Γ ir →
      Den F.arith (threadEnv F.arith env r) ir s v)
    (hm : Builds (Ctx F env r lw t ((s, v) :: Γ)) m Q) : Builds (Ctx F env r lw t Γ) m Q :=
  Builds.mono hm (fun ir hs => ⟨hs.1, sat_cons.mpr ⟨hs.2, h ir hs⟩⟩) fun _ _ h => h

theorem bind_emits {α : Type} {f : Src → Build K α} {Q : α → Ir K → Prop}
    (hm : Emits F.arith (threadEnv F.arith env r) Γ m v)
    (hf : ∀ s, Builds (Ctx F env r lw t ((s, v) :: Γ)) (f s) Q) :
    Builds (Ctx F env r lw t Γ) (m >>= f) Q :=
  bind_ctx (hm.builds fun _ h => h.2) hf

/-! ## Sources -/

theorem builds_readBase {cfg : Storage K} {w : ℕ} (hw : env.p.h.SrcOk env.fragment w) (k : Fin 4) :
    Builds (Ctx F env r lw t Γ) (readBase F.arith cfg env.p lw w k)
      fun s ir => Den F.arith (threadEnv F.arith env r) ir s
        (srcBase F.arith env t.regs w k) := by
  obtain ⟨f, hf, hindex⟩ := hw
  unfold srcBase readBase
  rw [hf]
  have hload : ∀ op, hasEffect op = false → ∀ v,
      (∀ cells, (evalInst F.arith (threadEnv F.arith env r)
        { op := op, aux := irSlot (operandIndex w) k, imm := F.arith.zero } cells).val = v) →
      Builds (Ctx F env r lw t Γ) (load F.arith cfg op (irSlot (operandIndex w) k))
        fun s ir => Den F.arith (threadEnv F.arith env r) ir s v :=
    fun op hop v hv => (emits_append hop (fun _ h => by simp at h) fun ir _ => hv _).builds
      fun _ h => h.2
  cases f with
  | temp => exact .pure fun ir h => h.1.temp _ hindex k
  | output => exact .pure fun ir h => h.1.output _ hindex k
  | input =>
    refine fun ir s ir' h heq => hload .input rfl _ (fun cells => ?_) ir s ir' h heq
    show r .input (irSlot _ k / 4) (slotComp (irSlot _ k)) = _
    rw [irSlot_div, slotComp_irSlot, ← h.1.input]
  | special =>
    refine fun ir s ir' h heq => hload .special rfl _ (fun cells => ?_) ir s ir' h heq
    show r .special (irSlot _ k / 4) (slotComp (irSlot _ k)) = _
    rw [irSlot_div, slotComp_irSlot, ← h.1.special]
  | uniform =>
    refine hload .uniform rfl _ fun cells => ?_
    show uniformVec _ env (irSlot _ k / 4) (slotComp (irSlot _ k)) = _
    rw [irSlot_div, slotComp_irSlot]
  | const => exact (emits_imm _).builds fun _ h => h.2

variable [IsStrictOrderedRing K] {cfg : Storage K} {w : ℕ}

theorem builds_read (hw : env.p.h.SrcOk env.fragment w) (c : Fin 4) :
    Builds (Ctx F env r lw t Γ) (read F.arith cfg env.p lw w c)
      fun s ir => Den F.arith (threadEnv F.arith env r) ir s
        (srcValue F.arith env t.regs w c) := by
  refine bind_ctx (builds_readBase hw _) fun s => ?_
  have hmods : ∀ v, (if decide (w &&& fgpuSrcNegate ≠ 0) then
      -(if decide (w &&& fgpuSrcAbs ≠ 0) then |v| else v)
      else if decide (w &&& fgpuSrcAbs ≠ 0) then |v| else v) = srcMods F.arith w v := by
    intro v
    unfold srcMods
    simp only [exact_mAbs, exact_neg, decide_eq_true_eq]
  refine .bind_get fun ir h => ?_
  have hden := (h.2.of_mem List.mem_cons_self).modify (decide (w &&& fgpuSrcAbs ≠ 0))
    (decide (w &&& fgpuSrcNegate ≠ 0))
  rw [hmods] at hden
  split
  · rename_i hi
    rw [Bool.and_eq_true] at hi
    rw [hden.immOf_eq h.1.closed hi.2]
    exact (emits_imm _).builds fun t ht => ht ▸ h.2
  · exact .pure fun t ht => ht ▸ hden

theorem bind_read {α : Type} {f : Src → Build K α} {Q : α → Ir K → Prop} {c : Fin 4}
    (hw : env.p.h.SrcOk env.fragment w)
    (hf : ∀ s, Builds (Ctx F env r lw t ((s, srcValue F.arith env t.regs w c) :: Γ))
      (f s) Q) : Builds (Ctx F env r lw t Γ) (read F.arith cfg env.p lw w c >>= f) Q :=
  bind_ctx (builds_read hw c) hf

end Tracks

end MinimalOS.Fgpu
