import MinimalOS.Fgpu.IrThread

/-!
# Lowered instructions

The code emitted for an instruction takes the tracked thread over that instruction if the thread
runs it, and leaves it otherwise (`builds_lowerInst`).
-/

namespace MinimalOS.Fgpu

open Growth StraightLine List

/-! ## Components -/

section Components

variable {K : Type}

variable {P : Ir K → Prop} {A : Arith K} {ienv : IrEnv K}

theorem builds_forComps {α : Type} {f : Fin 4 → Build K α} {Q : Fin 4 → α → Ir K → Prop}
    (hP : Monotone P) (hQ : ∀ c a, Monotone (Q c a)) (hf : ∀ c, Builds P (f c) (Q c)) :
    Builds P (forComps f) fun res ir => ∀ c, Q c (res c) ir := by
  refine .bind hP (hf 0) fun r0 => ?_
  have h0 : Monotone fun s => P s ∧ Q 0 r0 s := fun _ _ hle h => ⟨hP hle h.1, hQ 0 r0 hle h.2⟩
  refine .bind h0 (Builds.mono (hf 1) (fun _ h => h.1) fun _ _ h => h) fun r1 => ?_
  have h1 : Monotone fun s => (P s ∧ Q 0 r0 s) ∧ Q 1 r1 s := fun _ _ hle h =>
    ⟨h0 hle h.1, hQ 1 r1 hle h.2⟩
  refine .bind h1 (Builds.mono (hf 2) (fun _ h => h.1.1) fun _ _ h => h) fun r2 => ?_
  have h2 : Monotone fun s => ((P s ∧ Q 0 r0 s) ∧ Q 1 r1 s) ∧ Q 2 r2 s := fun _ _ hle h =>
    ⟨h1 hle h.1, hQ 2 r2 hle h.2⟩
  refine .bind h2 (Builds.mono (hf 3) (fun _ h => h.1.1.1) fun _ _ h => h) fun r3 => ?_
  refine .pure fun s h c => ?_
  match c with
  | 0 => exact h.1.1.1.2
  | 1 => exact h.1.1.2
  | 2 => exact h.1.2
  | 3 => exact h.2

theorem builds_forDen {f : Fin 4 → Build K Src} {v : Fin 4 → K} (hP : Monotone P)
    (hf : ∀ c, Builds P (f c) fun s ir => Den A ienv ir s (v c)) :
    Builds P (forComps f) fun res ir => ∀ c, Den A ienv ir (res c) (v c) :=
  builds_forComps hP (fun _ _ _ _ hle h => h.mono hle) hf

variable [DecidableEq K] {cfg : Storage K}

theorem slotComp_val (c : Fin 4) : slotComp c = c := Fin.ext (Nat.mod_eq_of_lt c.isLt)

theorem builds_tex {Γ : List (Src × K)} {a b : Src} {x y : K} (ha : (a, x) ∈ Γ) (hb : (b, y) ∈ Γ)
    (unit : ℕ) :
    Builds (Sat A ienv Γ)
      (do
        let t ← append cfg { op := .tex, aux := unit, imm := A.zero, src := [a, b] }
        forComps fun c =>
          if c = 0 then return t
          else append cfg { op := .texc, aux := c, imm := A.zero, src := [t] })
      fun res ir => ∀ c, Den A ienv ir (res c) (ienv.texture unit x y c) := by
  set tex : IrInst K := { op := .tex, aux := unit, imm := A.zero, src := [a, b] } with htex
  have htexel : ∀ ir, Sat A ienv Γ ir → evalInst A ienv tex ((irLang A ienv).val ir.code) =
      ⟨ienv.texture unit x y 0, ienv.texture unit x y⟩ := by
    intro ir hs
    have h0 : tex.arg A ((irLang A ienv).val ir.code) 0 = x := (hs.of_mem ha).get
    have h1 : tex.arg A ((irLang A ienv).val ir.code) 1 = y := (hs.of_mem hb).get
    unfold evalInst
    rw [h0, h1]
  refine .bind monotone_sat (builds_append_sat rfl fun s hs => ?_) fun t => ?_
  · rw [htex] at hs
    simp only [mem_cons, not_mem_nil, or_false] at hs
    rcases hs with rfl | rfl
    · exact ⟨x, ha⟩
    · exact ⟨y, hb⟩
  have hmono : Monotone fun ir => Sat A ienv Γ ir ∧ IsInst tex t ir := fun _ _ hle h =>
    ⟨monotone_sat hle h.1, monotone_isInst hle h.2⟩
  refine builds_forDen hmono fun c => ?_
  split
  · rename_i hc
    refine .pure fun ir h => ?_
    have hden : Den A ienv ir t _ := h.2.den h.1.closed
    rw [htexel ir h.1] at hden
    rw [hc]
    exact hden
  · refine .mono (Builds.keep hmono (Builds.mono (builds_append rfl)
      (fun ir h => ⟨h.1.closed, fun s hs => ?_⟩) fun _ _ h => h)) (fun _ h => h) ?_
    · rw [mem_singleton.mp hs]
      exact (h.2.den h.1.closed : Den A ienv ir t _).lt
    · intro s ir h
      have hden : Den A ienv ir s _ := h.2.den h.1.1.closed
      have hcell : (irLang A ienv).val ir.code t.value = _ :=
        (h.1.2.cell h.1.1.closed).trans (htexel ir h.1.1)
      have hval : (evalInst A ienv { op := .texc, aux := c, imm := A.zero, src := [t] }
          ((irLang A ienv).val ir.code)).val = ienv.texture unit x y c := by
        show (((irLang A ienv).val ir.code) t.value).texel (slotComp c) = _
        rw [hcell, slotComp_val]
      rw [hval] at hden
      exact hden

end Components

/-! ## Registers -/

section Registers

variable {K : Type} {r : Regs K}

def Regs.put (r : Regs K) (d : ℕ) (comp : Fin 4) (v : K) : Regs K := fun f index c =>
  if f = dstReg d ∧ index = operandIndex d ∧ c = comp then v else r f index c

variable {d : ℕ} {w : Fin 4 → K} {done : List (Fin 4)}

theorem put_of_ne {f : RegFile} (h : f ≠ dstReg d) (comp : Fin 4) (v : K) :
    r.put d comp v f = r f := by
  funext index c
  exact if_neg fun hc => h hc.1

theorem put_self (d : ℕ) (comp : Fin 4) :
    r.put d comp (r (dstReg d) (operandIndex d) comp) = r := by
  funext f index c
  unfold Regs.put
  split
  · rename_i h
    rw [h.1, h.2.1, h.2.2]
  · rfl

/-- The registers after the components `done` are written. -/
def Regs.storeOnly (r : Regs K) (d : ℕ) (v : Fin 4 → K) (done : List (Fin 4)) : Regs K :=
  fun f index c =>
    if f = dstReg d ∧ index = operandIndex d ∧ maskBit d c = true ∧ c ∈ done then v c
    else r f index c

theorem storeOnly_put {c : Fin 4} (hc : maskBit d c = true) :
    (r.storeOnly d w done).put d c (w c) = r.storeOnly d w (done ++ [c]) := by
  funext f index k
  unfold Regs.put Regs.storeOnly
  by_cases hk : k = c
  · subst hk
    simp only [hc, and_true, mem_append, mem_singleton, or_true]
    split <;> simp_all
  · simp [hk]

theorem storeOnly_skip {c : Fin 4} (hc : ¬ maskBit d c = true) :
    r.storeOnly d w done = r.storeOnly d w (done ++ [c]) := by
  funext f index k
  unfold Regs.storeOnly
  by_cases hk : k = c
  · subst hk
    simp [hc]
  · simp [hk]

theorem storeOnly_all (d : ℕ) (w : Fin 4 → K) :
    r.storeOnly d w (List.finRange 4) = r.store d w := by
  funext f index k
  unfold Regs.storeOnly Regs.store
  simp

theorem setReg_temp (lw : Lw) (d : ℕ) (comp : Fin 4) (s : Src) (index : ℕ) (c : Fin 4) :
    (lw.setReg d comp s).temp index c =
      if .temp = dstReg d ∧ index = operandIndex d ∧ c = comp then s else lw.temp index c := by
  unfold Lw.setReg dstReg
  split_ifs with h1 h2 h2 <;> simp_all

theorem setReg_out (lw : Lw) (d : ℕ) (comp : Fin 4) (s : Src) (index : ℕ) (c : Fin 4) :
    (lw.setReg d comp s).out index c =
      if .output = dstReg d ∧ index = operandIndex d ∧ c = comp then s else lw.out index c := by
  unfold Lw.setReg dstReg
  split_ifs with h1 h2 h2 <;> simp_all

theorem setReg_rest (lw : Lw) (d : ℕ) (comp : Fin 4) (s : Src) :
    (lw.setReg d comp s).wait = lw.wait ∧ (lw.setReg d comp s).killed = lw.killed ∧
      (lw.setReg d comp s).active = lw.active ∧
      (lw.setReg d comp s).activeKnown = lw.activeKnown := by
  unfold Lw.setReg
  split <;> exact ⟨rfl, rfl, rfl, rfl⟩

end Registers

variable {K : Type} [Field K] [LinearOrder K] {F : Functions K} {env : Env K} {r : Regs K}
  {lw : Lw} {t : Thread K} {ir : Ir K} {Γ : List (Src × K)} {s : Src} {v : K} {cfg : Storage K}
  {i : Inst}

theorem Tracks.setReg (h : Tracks F env r lw t ir) (d : ℕ) (comp : Fin 4)
    (hs : Den F.arith (threadEnv F.arith env r) ir s v) :
    Tracks F env r (lw.setReg d comp s) { t with regs := t.regs.put d comp v } ir := by
  obtain ⟨hwait, hkilled, -, -⟩ := setReg_rest lw d comp s
  refine ⟨h.closed, ?_, ?_, fun index hindex c => ?_, fun index hindex c => ?_, ?_, ?_⟩
  · exact (put_of_ne (by unfold dstReg; split <;> simp) comp v).trans h.input
  · exact (put_of_ne (by unfold dstReg; split <;> simp) comp v).trans h.special
  · rw [setReg_temp]
    show Den _ _ ir _ (if RegFile.temp = dstReg d ∧ index = operandIndex d ∧ c = comp then v
      else t.regs .temp index c)
    split
    · exact hs
    · exact h.temp index hindex c
  · rw [setReg_out]
    show Den _ _ ir _ (if RegFile.output = dstReg d ∧ index = operandIndex d ∧ c = comp then v
      else t.regs .output index c)
    split
    · exact hs
    · exact h.output index hindex c
  · rw [hwait]
    exact h.wait
  · rw [hkilled]
    exact h.killed

variable {d n : ℕ} {run kill : Bool} {w : Fin 4 → K} {ienv : IrEnv K}

theorem Tracks.reg (h : Tracks F env r lw t ir) (hd : env.p.h.DstOk env.fragment d) (comp : Fin 4) :
    Den F.arith (threadEnv F.arith env r) ir (lw.reg d comp)
      (t.regs (dstReg d) (operandIndex d) comp) := by
  obtain ⟨hfile, hindex⟩ := file_dstReg hd
  unfold Lw.reg
  unfold dstReg at *
  split_ifs at * with h1
  · exact h.output _ hindex comp
  · exact h.temp _ hindex comp

theorem Tracks.setWait (h : Tracks F env r lw t ir)
    (hs : Den F.arith (threadEnv F.arith env r) ir s n) :
    Tracks F env r { lw with wait := s } { t with wait := n } ir :=
  ⟨h.closed, h.input, h.special, h.temp, h.output, hs, h.killed⟩

theorem Tracks.setKilled (h : Tracks F env r lw t ir) {k : Bool}
    (hs : Den F.arith (threadEnv F.arith env r) ir s (if k then 1 else 0)) :
    Tracks F env r { lw with killed := s } { t with killed := k } ir :=
  ⟨h.closed, h.input, h.special, h.temp, h.output, h.wait, hs⟩

/-- The thread runs the instruction if `run`. -/
def Active (lw : Lw) (run : Bool) (Γ : List (Src × K)) : Prop :=
  if lw.activeKnown then run = true else (lw.active, if run then 1 else 0) ∈ Γ

omit [LinearOrder K] in
theorem Active.subset {Δ : List (Src × K)} (h : Active lw run Γ) (hsub : Γ ⊆ Δ) :
    Active lw run Δ := by
  unfold Active at h ⊢
  by_cases hknown : lw.activeKnown = true
  · rw [if_pos hknown] at h ⊢
    exact h
  · rw [if_neg hknown] at h ⊢
    exact hsub h

/-! ## Results -/

/-- The results of an instruction, where they are written. -/
def HasRes (F : Functions K) (env : Env K) (r : Regs K) (i : Inst) (v : Fin 4 → K)
    (c : Fin 4) (s : Src) (ir : Ir K) : Prop :=
  maskBit i.dst c = true → Den (Arith.exact F) (threadEnv (Arith.exact F) env r) ir s (v c)

theorem monotone_hasRes {c : Fin 4} : Monotone (HasRes F env r i w c s) :=
  fun _ _ hle h hm => (h hm).mono hle

theorem sourcesOf_eq (op : Op) (hop : op.IsAlu) :
    (opSources op).testBit 0 = true ∧
      ((opSources op).testBit 1 = true ↔ 2 ≤ sourcesOf op) ∧
      ((opSources op).testBit 2 = true ↔ 3 ≤ sourcesOf op) := by
  obtain ⟨h1, h2, h3, h4, -⟩ := hop
  cases op <;> first | contradiction | decide

theorem instValue_across (hx : Arith.across i.op = true) (c : Fin 4) :
    instValue F.arith env t.regs i c =
      F.arith.acrossValue i.op (srcValue F.arith env t.regs i.a)
        (srcValue F.arith env t.regs i.b) c := by
  unfold instValue
  rw [if_neg (fun h => by rw [h] at hx; cases hx), if_pos hx]

variable [IsStrictOrderedRing K]

theorem builds_readIf {used : Bool} {w : ℕ} (hw : used = true → env.p.h.SrcOk env.fragment w)
    (c : Fin 4) {a : Src} {x : K} (ha : (a, x) ∈ Γ) :
    Builds (Ctx F env r lw t Γ) (readIf F.arith cfg used env.p lw w c a) fun s ir =>
      Den F.arith (threadEnv F.arith env r) ir s
        (if used then srcValue F.arith env t.regs w c else x) := by
  cases used with
  | true => exact builds_read (hw rfl) c
  | false => exact .pure fun _ h => h.2.of_mem ha

theorem builds_lowerAlu (hi : i.Ok env.p.h env.fragment) (hop : i.op.IsAlu) (c : Fin 4) :
    Builds (Ctx F env r lw t Γ)
      (do
        let a ← read F.arith cfg env.p lw i.a c
        let b ← readIf F.arith cfg (2 ≤ sourcesOf i.op) env.p lw i.b c a
        let cc ← readIf F.arith cfg (3 ≤ sourcesOf i.op) env.p lw i.c c a
        lowerComp F.arith cfg i.op a b cc)
      fun s ir => Den F.arith (threadEnv F.arith env r) ir s
        (F.arith.alu i.op (srcValue F.arith env t.regs i.a c)
          (srcValue F.arith env t.regs i.b c)
          (srcValue F.arith env t.regs i.c c)) := by
  obtain ⟨h0, h1, h2⟩ := sourcesOf_eq i.op hop
  refine bind_read (hi.a h0) fun a => ?_
  refine bind_ctx (builds_readIf (fun h => hi.b (h1.mpr (of_decide_eq_true h))) c
    mem_cons_self) fun b => ?_
  refine bind_ctx (builds_readIf (fun h => hi.c (h2.mpr (of_decide_eq_true h))) c
    (mem_cons_of_mem _ mem_cons_self)) fun cc => ?_
  -- an operand the opcode does not have may be anything
  generalize srcValue F.arith env t.regs i.a c = x
  generalize srcValue F.arith env t.regs i.b c = y
  generalize srcValue F.arith env t.regs i.c c = z
  have hval : F.arith.alu i.op x (if decide (2 ≤ sourcesOf i.op) then y else x)
      (if decide (3 ≤ sourcesOf i.op) then z else x) = F.arith.alu i.op x y z :=
    alu_congr _ _ _ (fun h => if_pos (decide_eq_true (h1.mp h)))
      fun h => if_pos (decide_eq_true (h2.mp h))
  refine Emits.builds (Emits.eq (emits_lowerComp i.op ?_ ?_ ?_) hval) fun _ h => h.2
  all_goals apply_rules [mem_cons_self, mem_cons_of_mem]

theorem builds_lowerDot (ha : env.p.h.SrcOk env.fragment i.a) (hb : env.p.h.SrcOk env.fragment i.b)
    (n : ℕ) :
    Builds (Ctx F env r lw t Γ) (lowerDot F.arith cfg env.p lw i n) fun s ir =>
      Den F.arith (threadEnv F.arith env r) ir s
        (F.arith.dot (srcValue F.arith env t.regs i.a)
          (srcValue F.arith env t.regs i.b) n) := by
  refine bind_read ha fun a => ?_
  refine bind_read hb fun b => ?_
  refine bind_emits (emits₂ .mul) fun s => ?_
  -- the sum over the components done so far
  have hloop := Builds.foldlM
    (l := (List.finRange 4).filter fun k => k.val ≠ 0 ∧ k.val < n)
    (g := dotStep F.arith cfg env.p lw i)
    (fun done s ir => Ctx F env r lw t [(s, done.foldl (fun s k => s +
      srcValue F.arith env t.regs i.a k * srcValue F.arith env t.regs i.b k)
      (srcValue F.arith env t.regs i.a 0 * srcValue F.arith env t.regs i.b 0))] ir)
    (fun done k rest s _ => ?_) s
  · refine .mono hloop (fun ir h => ⟨h.1, h.2.subset ?_⟩) fun s ir h =>
      h.2.of_mem mem_cons_self
    intro e he
    rw [mem_singleton.mp he]
    exact mem_cons_self
  · have hmono : Monotone (Ctx F env r lw t
      [(s, done.foldl (fun s k => s +
        srcValue F.arith env t.regs i.a k * srcValue F.arith env t.regs i.b k)
        (srcValue F.arith env t.regs i.a 0 *
          srcValue F.arith env t.regs i.b 0))]) := monotone_ctx
    rw [foldl_append]
    refine .mono (Builds.keep hmono ?_) (fun _ h => h) fun s' ir h =>
      ⟨h.1.1, sat_cons.mpr ⟨h.1.1.ctx.2, h.2⟩⟩
    refine bind_read ha fun a => ?_
    refine bind_read hb fun b => ?_
    exact ((emits₃ .fma).eq (add_comm _ _)).builds fun _ h => h.2

theorem emits_crossComp {A₁ A₂ B₁ B₂ : Src} {a₁ a₂ b₁ b₂ : K} (h1 : (A₁, a₁) ∈ Γ)
    (h2 : (A₂, a₂) ∈ Γ) (h3 : (B₁, b₁) ∈ Γ) (h4 : (B₂, b₂) ∈ Γ) :
    Emits F.arith ienv Γ (crossComp F.arith cfg A₁ A₂ B₁ B₂)
      (a₁ * b₂ - a₂ * b₁) := by
  refine .bind (emits₂ .mul) fun m => ?_
  refine .negate mem_cons_self ?_
  exact .eq (emits₃ .fma) (sub_eq_add_neg _ _).symm

theorem builds_cross (ha : env.p.h.SrcOk env.fragment i.a)
    (hb : env.p.h.SrcOk env.fragment i.b) :
    Builds (Ctx F env r lw t Γ)
      (do
        let a0 ← read F.arith cfg env.p lw i.a 0
        let b0 ← read F.arith cfg env.p lw i.b 0
        let a1 ← read F.arith cfg env.p lw i.a 1
        let b1 ← read F.arith cfg env.p lw i.b 1
        let a2 ← read F.arith cfg env.p lw i.a 2
        let b2 ← read F.arith cfg env.p lw i.b 2
        forComps (crossRes F.arith cfg a0 a1 a2 b0 b1 b2))
      fun res ir => ∀ c, Den F.arith (threadEnv F.arith env r) ir (res c)
        (F.arith.acrossValue .cross (srcValue F.arith env t.regs i.a)
          (srcValue F.arith env t.regs i.b) c) := by
  refine bind_read ha fun a0 => ?_
  refine bind_read hb fun b0 => ?_
  refine bind_read ha fun a1 => ?_
  refine bind_read hb fun b1 => ?_
  refine bind_read ha fun a2 => ?_
  refine bind_read hb fun b2 => ?_
  refine builds_forDen monotone_ctx fun c => ?_
  match c with
  | 0 | 1 | 2 =>
    refine Emits.builds (emits_crossComp ?_ ?_ ?_ ?_) fun _ h => h.2
    all_goals apply_rules [mem_cons_self, mem_cons_of_mem]
  | 3 => exact (emits_imm _).builds fun _ h => h.2

theorem builds_lowerRes_dot (hx : Arith.across i.op = true) (hi : i.Ok env.p.h env.fragment)
    (hval : ∀ a b c, F.arith.acrossValue i.op a b c = F.arith.dot a b n) :
    Builds (Ctx F env r lw t Γ)
      (do
        let s ← lowerDot F.arith cfg env.p lw i n
        return fun _ => s)
      fun res ir => ∀ c, HasRes F env r i (instValue F.arith env t.regs i) c (res c) ir := by
  have ha := hi.a (by revert hx; cases i.op <;> decide)
  have hb := hi.b (opSources_of_across hx)
  refine bind_ctx (builds_lowerDot ha hb n) fun s => Builds.pure fun _ h c _ => ?_
  rw [instValue_across hx, hval]
  exact h.2.of_mem mem_cons_self

/-- **Results.** What an instruction is about to write has the machine's value. -/
theorem builds_lowerRes (hi : i.Ok env.p.h env.fragment) (hop : i.op.IsAlu ∨ i.op = .tex) :
    Builds (Ctx F env r lw t Γ) (lowerRes F.arith cfg env.p lw i) fun res ir =>
      ∀ c, HasRes F env r i (instValue F.arith env t.regs i) c (res c) ir := by
  unfold lowerRes
  split
  · rename_i htex
    have ha := hi.a (by rw [htex]; rfl)
    refine bind_read ha fun u => ?_
    refine bind_read ha fun v => ?_
    refine .mono (builds_tex (mem_cons_of_mem _ mem_cons_self) mem_cons_self
      i.b) (fun _ h => h.2) fun _ _ h c _ => ?_
    rw [show instValue F.arith env t.regs i c = _ from if_pos htex]
    exact h c
  · rename_i hdp
    exact builds_lowerRes_dot (by rw [hdp]; rfl) hi fun _ _ _ => by rw [hdp]; rfl
  · rename_i hdp
    exact builds_lowerRes_dot (by rw [hdp]; rfl) hi fun _ _ _ => by rw [hdp]; rfl
  · rename_i hdp
    exact builds_lowerRes_dot (by rw [hdp]; rfl) hi fun _ _ _ => by rw [hdp]; rfl
  · rename_i hcross
    have hx : Arith.across i.op = true := by rw [hcross]; rfl
    have ha := hi.a (by rw [hcross]; rfl)
    have hb := hi.b (opSources_of_across hx)
    refine .mono (builds_cross ha hb) (fun _ h => h) fun res ir h c _ => ?_
    rw [instValue_across hx, hcross]
    exact h c
  · rename_i h1 h2 h3 h4 h5
    have halu : i.op.IsAlu := hop.resolve_right h1
    have hx : ¬ Arith.across i.op = true := by
      simp only [Arith.across, Bool.or_eq_true, decide_eq_true_eq]
      rintro (((h | h) | h) | h)
      exacts [h2 h, h3 h, h4 h, h5 h]
    refine builds_forComps monotone_ctx (fun _ _ => monotone_hasRes) fun c => ?_
    split
    · refine .mono (builds_lowerAlu hi halu c) (fun _ h => h) fun s ir h _ => ?_
      unfold instValue
      rw [if_neg h1, if_neg hx]
      exact h
    · rename_i hmask
      exact .pure fun _ _ h => absurd h hmask

/-! ## Writes -/

/-- **A write** changes the thread's register if the thread runs the instruction. -/
theorem builds_write (hd : env.p.h.DstOk env.fragment d) (hrun : Active lw run Γ) (comp : Fin 4)
    (hs : (s, v) ∈ Γ) :
    Builds (Ctx F env r lw t Γ) (write F.arith cfg lw d comp s) fun lw' ir =>
      (lw'.active = lw.active ∧ lw'.activeKnown = lw.activeKnown) ∧
        Tracks F env r lw' { t with regs := if run then t.regs.put d comp v else t.regs } ir := by
  unfold write
  unfold Active at hrun
  split
  · rename_i hknown
    rw [if_pos hknown] at hrun
    subst hrun
    refine .pure fun ir h => ⟨(setReg_rest lw d comp s).2.2, ?_⟩
    exact h.1.setReg d comp (h.2.of_mem hs)
  · rename_i hknown
    rw [if_neg hknown] at hrun
    refine have_ctx (fun ir h => h.1.reg hd comp) ?_
    refine bind_emits (emits₃ .sel) fun sel => ?_
    refine .pure fun ir h => ?_
    have hsel : Den F.arith (threadEnv F.arith env r) ir sel
        (if run then v else t.regs (dstReg d) (operandIndex d) comp) := by
      have hval := h.2.of_mem mem_cons_self
      cases run <;> simpa [irValue] using hval
    have hregs : (if run then t.regs.put d comp v else t.regs) =
        t.regs.put d comp (if run then v else t.regs (dstReg d) (operandIndex d) comp) := by
      cases run
      · exact (put_self d comp).symm
      · rfl
    rw [hregs]
    -- the counter of selects is no part of what is tracked
    have hcount : Tracks F env r { lw with selectsForJumps := lw.selectsForJumps + 1 } t ir :=
      ⟨h.1.closed, h.1.input, h.1.special, h.1.temp, h.1.output, h.1.wait, h.1.killed⟩
    split
    · exact ⟨(setReg_rest _ d comp sel).2.2, h.1.setReg d comp hsel⟩
    · exact ⟨(setReg_rest _ d comp sel).2.2, hcount.setReg d comp hsel⟩

/-- **The writes of an instruction**, component after component. -/
theorem builds_writes (hd : env.p.h.DstOk env.fragment d) (hrun : Active lw run Γ)
    {res : Fin 4 → Src} :
    Builds (fun ir => Ctx F env r lw t Γ ir ∧ ∀ c, maskBit d c = true →
        Den F.arith (threadEnv F.arith env r) ir (res c) (w c))
      ((List.finRange 4).foldlM (fun lw c =>
        if maskBit d c then write F.arith cfg lw d c (res c) else return lw) lw)
      fun lw' ir => Tracks F env r lw'
        { t with regs := if run then t.regs.store d w else t.regs } ir := by
  have hres : Monotone fun ir => ∀ c, maskBit d c = true →
      Den F.arith (threadEnv F.arith env r) ir (res c) (w c) :=
    fun _ _ hle h c hc => (h c hc).mono hle
  have hloop := Builds.foldlM (l := List.finRange 4)
    (g := fun lw c => if maskBit d c then write F.arith cfg lw d c (res c) else return lw)
    (fun done lw' ir => (lw'.active = lw.active ∧ lw'.activeKnown = lw.activeKnown) ∧
      Ctx F env r lw' { t with regs := if run then t.regs.storeOnly d w done else t.regs } Γ ir ∧
      ∀ c, maskBit d c = true →
        Den F.arith (threadEnv F.arith env r) ir (res c) (w c))
    (fun done c rest lw' _ => ?_) lw
  · refine .mono hloop (fun ir h => ⟨⟨rfl, rfl⟩, ?_, h.2⟩) fun lw' ir h => ?_
    · have hnil : (if run then t.regs.storeOnly d w [] else t.regs) = t.regs := by
        cases run
        · rfl
        · funext f index c
          simp [Regs.storeOnly]
      rw [hnil]
      exact h.1
    · have htracks := h.2.1.1
      rw [storeOnly_all] at htracks
      exact htracks
  · rintro ir lw'' ir' ⟨hsame, hctx, hden⟩ heq
    by_cases hc : maskBit d c = true
    · rw [if_pos hc] at heq
      have hactive : Active lw' run ((res c, w c) :: Γ) := by
        unfold Active
        rw [hsame.1, hsame.2]
        exact hrun.subset (subset_cons_self _ _)
      obtain ⟨hle, hsame', htracks⟩ := builds_write hd hactive c mem_cons_self ir lw'' ir'
        ⟨hctx.1, sat_cons.mpr ⟨hctx.2, hden c hc⟩⟩ heq
      refine ⟨hle, ⟨hsame'.1.trans hsame.1, hsame'.2.trans hsame.2⟩,
        ⟨?_, monotone_sat hle hctx.2⟩, hres hle hden⟩
      rw [← storeOnly_put hc]
      cases run <;> exact htracks
    · rw [if_neg hc] at heq
      cases heq
      rw [← storeOnly_skip hc]
      exact ⟨le_refl _, hsame, hctx, hden⟩

/-! ## Control -/

omit [IsStrictOrderedRing K] in
theorem emits_runs (hrun : Active lw run Γ) :
    Emits F.arith ienv Γ (runs F.arith cfg lw) (if run then 1 else 0) := by
  unfold runs
  unfold Active at hrun
  by_cases hknown : lw.activeKnown = true
  · rw [if_pos hknown] at hrun ⊢
    rw [hrun]
    exact .eq (emits_imm _) (exact_one F)
  · rw [if_neg hknown] at hrun ⊢
    exact .known hrun

/-- **A jump** of the threads for which `take` is set. -/
theorem builds_lowerJump {take : Src} {jump : Bool} (target : ℕ)
    (htake : (take, if jump then 1 else 0) ∈ Γ) :
    Builds (Ctx F env r lw t Γ) (lowerJump F.arith cfg lw target take) fun lw' ir =>
      Tracks F env r lw' (if jump then { t with wait := target } else t) ir := by
  refine bind_emits (emits_imm _) fun n => ?_
  refine have_ctx (fun ir h => h.1.wait) ?_
  refine bind_emits (emits₃ .sel) fun wait => ?_
  refine .pure fun ir h => ?_
  have hval := h.2.of_mem mem_cons_self
  cases jump
  · have hwait : Den F.arith (threadEnv F.arith env r) ir wait (t.wait : K) := by
      simpa [irValue] using hval
    exact h.1.setWait hwait
  · have hwait : Den F.arith (threadEnv F.arith env r) ir wait (target : K) := by
      simpa [irValue] using hval
    exact h.1.setWait hwait

theorem emits_killNow {k : Src} (hrun : Active lw run Γ) (hk : (k, if kill then 1 else 0) ∈ Γ) :
    Emits F.arith ienv Γ
      (if lw.activeKnown then return k else op3 F.arith cfg .mul [k, lw.active])
      (if kill && run then 1 else 0) := by
  unfold Active at hrun
  by_cases hknown : lw.activeKnown = true
  · rw [if_pos hknown] at hrun ⊢
    rw [hrun, Bool.and_true]
    exact .known hk
  · rw [if_neg hknown] at hrun ⊢
    refine .eq (emits₂ .mul) ?_
    cases kill <;> cases run <;> simp [irValue]

/-- **A kill** of the threads for which `k` is set, if they run it. -/
theorem builds_lowerKill {k : Src} (hrun : Active lw run Γ) (hk : (k, if kill then 1 else 0) ∈ Γ) :
    Builds (Ctx F env r lw t Γ) (lowerKill F.arith cfg lw k) fun lw' ir =>
      Tracks F env r lw' (if run then { t with killed := t.killed || kill } else t) ir := by
  have hthread : (if run then { t with killed := t.killed || kill } else t) =
      { t with killed := t.killed || (kill && run) } := by
    cases run <;> simp
  rw [hthread]
  refine bind_emits (emits_killNow hrun hk) fun k' => ?_
  refine .bind_get fun ir h => ?_
  split
  · -- nothing could kill the thread before
    rename_i hconst
    have hnot : t.killed = false := by
      have := h.1.killed.of_isConst_exact h.1.closed hconst
      cases hkilled : t.killed with
      | false => rfl
      | true => simp [hkilled] at this
    refine .pure fun ir' heq => ?_
    rw [heq, hnot]
    exact h.1.setKilled (h.2.of_mem mem_cons_self)
  · refine .mono ?_
      (fun t ht => ht ▸ h) fun _ _ h => h
    refine have_ctx (fun ir h => h.1.killed) ?_
    refine bind_emits (emits₂ .max) fun killed => ?_
    refine .pure fun ir h => h.1.setKilled ?_
    have hval := h.2.of_mem mem_cons_self
    generalize (kill && run) = kr at hval
    have hlt : ¬ (1 : K) < 0 := not_lt.mpr zero_le_one
    cases ht : t.killed <;> cases kr <;> simpa [irValue, ht, hlt] using hval

/-! ## Instructions -/

/-- **One instruction** takes the thread over it, if the thread runs it. -/
theorem builds_lowerInst (hi : i.Ok env.p.h env.fragment) (hrun : Active lw run Γ) :
    Builds (Ctx F env r lw t Γ) (lowerInst F.arith cfg env.p lw i) fun lw' ir =>
      Tracks F env r lw' (if run then threadStep F.arith env i t else t) ir := by
  unfold lowerInst
  split
  · rename_i hop
    have hstep : threadStep F.arith env i t = t := by unfold threadStep; rw [hop]
    rw [hstep, ite_self]
    exact .pure fun _ h => h.1
  · rename_i hop
    have hstep : threadStep F.arith env i t = { t with wait := i.dst } := by
      unfold threadStep
      rw [hop]
    rw [hstep]
    refine bind_emits (emits_runs hrun) fun take => ?_
    exact builds_lowerJump i.dst mem_cons_self
  · rename_i hop
    refine bind_emits (emits_runs hrun) fun runs => ?_
    refine bind_read (hi.a (by rw [hop]; rfl)) fun a => ?_
    refine bind_emits (emits_imm _) fun zero => ?_
    refine bind_emits (emits₂ .seq) fun isZero => ?_
    generalize hx : srcValue F.arith env t.regs i.a 0 = x
    have hstep : (if run then threadStep F.arith env i t else t) =
        if run && decide (x = 0) then { t with wait := i.dst } else t := by
      unfold threadStep
      rw [hop]
      cases run <;> simp [hx]
    have hmul : irValue F.arith .mul (if run then 1 else 0)
        (irValue F.arith .seq x F.arith.zero 0) 0 =
        if run && decide (x = 0) then 1 else 0 := by
      cases run <;> simp [irValue]
    rw [hstep]
    refine bind_emits (Emits.eq (emits₂ .mul) hmul) fun take => ?_
    exact builds_lowerJump i.dst mem_cons_self
  · rename_i hop
    refine bind_read (hi.a (by rw [hop]; rfl)) fun a => ?_
    refine bind_emits (emits_imm _) fun zero => ?_
    generalize hx : srcValue F.arith env t.regs i.a 0 = x
    have hstep : threadStep F.arith env i t =
        { t with killed := t.killed || !decide (x = 0) } := by
      unfold threadStep
      rw [hop]
      simp [hx]
    have hsne : irValue F.arith .sne x F.arith.zero 0 =
        if !decide (x = 0) then 1 else 0 := by
      simp [irValue]
    rw [hstep]
    refine bind_emits (Emits.eq (emits₂ .sne) hsne) fun k => ?_
    exact builds_lowerKill (hrun.subset fun e he => by simp [he]) mem_cons_self
  · rename_i h1 h2 h3 h4
    have hdst := hi.dst (by simpa [opHasDst] using ⟨⟨⟨h1, h4⟩, h2⟩, h3⟩)
    have hstep : threadStep F.arith env i t =
        { t with regs := t.regs.store i.dst (instValue F.arith env t.regs i) } := by
      unfold threadStep
      split <;> first | contradiction | rfl
    have hop : i.op.IsAlu ∨ i.op = .tex := by
      by_cases htex : i.op = .tex
      · exact .inr htex
      · exact .inl ⟨h1, h2, h3, h4, htex⟩
    rw [hstep]
    refine .bind monotone_ctx (builds_lowerRes hi hop) fun res => ?_
    refine .mono (builds_writes hdst hrun) (fun _ h => h) fun lw' ir h => ?_
    cases run <;> exact h

end MinimalOS.Fgpu
