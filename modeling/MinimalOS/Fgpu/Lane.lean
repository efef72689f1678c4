import MinimalOS.Fgpu.Machine

/-!
# One lane of the shader machine

`laneRun` runs one lane by itself: it walks over the instructions in order and executes those it
neither waits past nor is discarded before. It has no other lanes, no masks and no rows. Every
instruction of the batch machine does to each running lane what `laneStep` does and leaves the
others alone (`execute_lane`), the direct writes included: they happen only when no source is the
destination register.
-/

namespace MinimalOS.Fgpu

section Defs

variable {K : Type} (A : Arith K) (env : Env K)

abbrev Regs (K : Type) := RegFile → ℕ → Fin 4 → K

def Batch.lane (b : Batch K) (l : Lane) : Regs K := fun f index c => b f index c l

/-- The register or constant a source word names, before modifiers. -/
def srcBase (r : Regs K) (w : ℕ) (k : Fin 4) : K :=
  match operandFile w with
  | some .temp => r .temp (operandIndex w) k
  | some .input => r .input (operandIndex w) k
  | some .output => r .output (operandIndex w) k
  | some .special => r .special (operandIndex w) k
  | some .uniform => uniformVec A env (operandIndex w) k
  | some .const => constVec A env.p (operandIndex w) k
  | none => kZero A k

/-- Component `c` of a source. -/
def srcValue (r : Regs K) (w : ℕ) (c : Fin 4) : K :=
  srcMods A w (srcBase A env r w (swizzleComp w c))

/-- Component `c` of the result of an instruction that has one. -/
def instValue (r : Regs K) (i : Inst) (c : Fin 4) : K :=
  if i.op = .tex then sampleUnit A env i.b (srcValue A env r i.a 0) (srcValue A env r i.a 1) c
  else if Arith.across i.op then
    A.acrossValue i.op (srcValue A env r i.a) (srcValue A env r i.b) c
  else A.alu i.op (srcValue A env r i.a c) (srcValue A env r i.b c) (srcValue A env r i.c c)

def Regs.store (r : Regs K) (d : ℕ) (v : Fin 4 → K) : Regs K := fun f index c =>
  if f = dstReg d ∧ index = operandIndex d ∧ maskBit d c then v c else r f index c

@[ext]
structure LaneState (K : Type) where
  regs : Regs K
  wait : ℕ
  live : Bool

def laneStep (i : Inst) (s : LaneState K) : LaneState K :=
  match i.op with
  | .nop => s
  | .jmp => { s with wait := i.dst }
  | .jz => if A.eq (srcValue A env s.regs i.a 0) A.zero then { s with wait := i.dst } else s
  | .kill => if A.eq (srcValue A env s.regs i.a 0) A.zero then s else { s with live := false }
  | _ => { s with regs := s.regs.store i.dst (instValue A env s.regs i) }

/-- The lane after the first `n` instructions. -/
def laneRun : ℕ → LaneState K → LaneState K
  | 0, s => s
  | n + 1, s =>
    let s := laneRun n s
    if s.live ∧ s.wait ≤ n then laneStep A env (env.p.inst env.fragment n) s else s

end Defs

section Sources

variable {K : Type} {A : Arith K} {env : Env K}

/-! ## Sources -/

variable {w index d : ℕ} {b : Batch K} {need : Fin 4 → Bool} {f : RegFile} {v : Fin 4 → K}
  {h : Header} {fragment : Bool}

theorem srcMods_of_and_eq_zero (h : w &&& (fgpuSrcAbs ||| fgpuSrcNegate) = 0) (x : K) :
    srcMods A w x = x := by
  rw [Nat.and_or_distrib_left, Nat.or_eq_zero_iff] at h
  unfold srcMods
  rw [if_neg (not_not.mpr h.1)]
  exact if_neg (not_not.mpr h.2)

theorem alu_congr (A : Arith K) (op : Op) (a : K) {b b' c c' : K}
    (hb : (opSources op).testBit 1 = true → b = b') (hc : (opSources op).testBit 2 = true → c = c') :
    A.alu op a b c = A.alu op a b' c' := by
  cases op
  case mad | mix | clamp | sstep | sel => rw [hb rfl, hc rfl]
  case add | sub | mul | div | min | max | pow | step | slt | sle | seq | sne | mod | atan2 =>
    rw [hb rfl]; rfl
  all_goals rfl

/-- The batches agree on the register that source word `w` names, in lane `l`. -/
def SameSource (w : ℕ) (l : Lane) (b b' : Batch K) : Prop :=
  ∀ f : RegFile, operandFile w = some f.file →
    ∀ k, b' f (operandIndex w) k l = b f (operandIndex w) k l

/-- The rows of a source, read later: they still hold the source's value, unless the register
they point into has changed. None is left at `k_zero`. -/
def RowsOf (A : Arith K) (env : Env K) (b : Batch K) (w : ℕ) (need : Fin 4 → Bool)
    (rows : Fin 4 → Row K) : Prop :=
  ∀ c, need c = true → (rows c).past = 0 ∧ ∀ b' l, SameSource w l b b' →
    (rows c).get A b' l = srcValue A env (b.lane l) w c

theorem rowsOf_laneRows (hf : operandFile w = some f.file) :
    RowsOf A env b w need (laneRows A b w f need) := by
  intro c hc
  refine ⟨by unfold laneRows; rw [if_pos hc]; split <;> rfl, fun b' l hsame => ?_⟩
  have hbase : srcBase A env (b.lane l) w (swizzleComp w c) =
      b f (operandIndex w) (swizzleComp w c) l := by
    unfold srcBase
    rw [hf]
    cases f <;> rfl
  unfold laneRows srcValue
  rw [hbase]
  rw [if_pos hc]
  split
  · rename_i hmods
    rw [srcMods_of_and_eq_zero hmods]
    exact hsame f hf _
  · rfl

theorem rowsOf_sharedRows (hv : ∀ r k, srcBase A env r w k = v k) :
    RowsOf A env b w need (sharedRows A w v need) := by
  intro c hc
  unfold sharedRows srcValue
  rw [if_pos hc]
  refine ⟨rfl, fun b' l _ => ?_⟩
  rw [hv]
  rfl

theorem checkReg_ok {f : File} (h : index < env.p.h.regCount env.fragment f) :
    env.checkReg f index = .ok () := if_pos h

theorem operand_lanes (hf : operandFile w = some f.file)
    (hindex : operandIndex w < env.p.h.regCount env.fragment f.file) (b : Batch K)
    (need : Fin 4 → Bool) : operand A env b w need = .ok (laneRows A b w f need) := by
  have hreg := checkReg_ok hindex
  unfold operand
  rw [hf]
  cases f <;> (dsimp only [RegFile.file] at hreg ⊢; rw [hreg]; rfl)

/-- **A checked source** is read without a fault. -/
theorem operand_ok (hp : env.p.Ok) (hw : env.p.h.SrcOk env.fragment w) (b : Batch K)
    (need : Fin 4 → Bool) :
    ∃ rows, operand A env b w need = .ok rows ∧ RowsOf A env b w need rows := by
  obtain ⟨f, hf, hindex⟩ := hw
  have hlanes : ∀ f' : RegFile, f = f'.file →
      ∃ rows, operand A env b w need = .ok rows ∧ RowsOf A env b w need rows := by
    rintro f' rfl
    exact ⟨_, operand_lanes hf hindex b need, rowsOf_laneRows hf⟩
  cases f with
  | temp => exact hlanes .temp rfl
  | input => exact hlanes .input rfl
  | output => exact hlanes .output rfl
  | special => exact hlanes .special rfl
  | uniform =>
    refine ⟨_, ?_, rowsOf_sharedRows fun r k => by unfold srcBase; rw [hf]⟩
    unfold operand
    dsimp only
    rw [hf, checkReg_ok hindex]
    rfl
  | const =>
    have hin : env.p.h.constOffset + operandIndex w * 4 + 4 ≤ env.p.blob.length / 4 := by
      have := hp.consts
      have : operandIndex w < env.p.h.constCount := hindex
      omega
    refine ⟨_, ?_, rowsOf_sharedRows fun r k => by unfold srcBase; rw [hf]⟩
    unfold operand
    dsimp only
    rw [hf, checkReg_ok hindex, if_pos hin]
    rfl

theorem operandIf_ok (hp : env.p.Ok) {used : Bool} (hw : used = true → env.p.h.SrcOk env.fragment w)
    (b : Batch K) (need : Fin 4 → Bool) :
    ∃ rows, operandIf A env used b w need = .ok rows ∧
      (used = true → RowsOf A env b w need rows) ∧
      ∀ c, need c = true → ((rows c).past = 0 ↔ used = true) := by
  cases used with
  | false => exact ⟨_, rfl, nofun, fun _ _ => iff_of_false (by simp [Row.past]) nofun⟩
  | true =>
    obtain ⟨rows, h, hr⟩ := operand_ok hp (hw rfl) b need
    exact ⟨rows, h, fun _ => hr, fun c hc => iff_of_true (hr c hc).1 rfl⟩

/-! ## Destinations -/

theorem eq_of_operandFile {f : File} (hw : operandFile w = some f) (hd : operandFile d = some f) :
    w &&& 0xF = d &&& 0xF := by
  have hlt : ∀ x, x &&& 0xF < 16 := fun x => Nat.lt_of_le_of_lt Nat.and_le_right (by decide)
  have inj : ∀ x < 16, ∀ y < 16, operandFile x ≠ none → operandFile x = operandFile y → x = y := by
    decide
  have low : ∀ x, operandFile (x &&& 0xF) = operandFile x := fun x => by
    unfold operandFile
    rw [Nat.and_assoc, Nat.and_self]
  refine inj _ (hlt w) _ (hlt d) ?_ ?_
  · rw [low, hw]; simp
  · rw [low, low, hw, hd]

theorem reads_of_same (hfile : w &&& 0xF = d &&& 0xF) (hindex : operandIndex w = operandIndex d) :
    reads w d = true := by
  have low : ∀ x, x &&& 0xFFF = x % 4096 := fun x => Nat.and_two_pow_sub_one_eq_mod x 12
  have file : ∀ x, x &&& 0xF = x % 16 := fun x => Nat.and_two_pow_sub_one_eq_mod x 4
  have index : ∀ x, operandIndex x = x / 16 % 256 := fun x => by
    unfold operandIndex
    rw [Nat.shiftRight_eq_div_pow]
    exact Nat.and_two_pow_sub_one_eq_mod (x / 16) 8
  rw [index, index] at hindex
  rw [file, file] at hfile
  unfold reads
  rw [low, low]
  exact decide_eq_true (by omega)

theorem file_dstReg (hd : h.DstOk fragment d) :
    operandFile d = some (dstReg d).file ∧
      operandIndex d < h.regCount fragment (dstReg d).file := by
  obtain ⟨f, hf, rfl | rfl, hindex⟩ := hd
  · have : dstReg d = .temp := by unfold dstReg; rw [hf]; rfl
    rw [this]; exact ⟨hf, hindex⟩
  · have : dstReg d = .output := by unfold dstReg; rw [hf]; rfl
    rw [this]; exact ⟨hf, hindex⟩

theorem sameSource_of_not_reads (hd : h.DstOk fragment d) (hr : ¬ reads w d = true) {b' : Batch K}
    (l : Lane)
    (hb : ∀ f index c, ¬ (f = dstReg d ∧ index = operandIndex d) → b' f index c l = b f index c l) :
    SameSource w l b b' := by
  intro f hf k
  apply hb
  rintro ⟨rfl, hindex⟩
  exact hr (reads_of_same (eq_of_operandFile hf (file_dstReg hd).1) hindex)

/-! ## Rewriting a register -/

/-- A loop over the rows of a register whose value for lane `l` does not change while the loop
rewrites that register. -/
theorem eachRow_lane {row : Batch K → Fin 4 → Lane → K} {l : Lane}
    (hrow : ∀ b' c, need c = true →
      (∀ f' index' c', ¬ (f' = f ∧ index' = index) → b' f' index' c' l = b f' index' c' l) →
      (∀ c', c ≤ c' → b' f index c' l = b f index c' l) → row b' c l = v c) :
    (eachRow f index need row b).lane l = fun f' index' c' =>
      if f' = f ∧ index' = index ∧ need c' = true then v c' else b f' index' c' l := by
  -- after the components before `n`, exactly those have their new value
  suffices h : ∀ n ≤ 4, ∀ f' index' (c' : Fin 4),
      ((List.finRange 4).take n).foldl
        (fun b c => if need c then b.setRow f index c (row b c) else b) b f' index' c' l =
      if f' = f ∧ index' = index ∧ need c' = true ∧ c'.val < n then v c' else b f' index' c' l by
    funext f' index' c'
    have h4 := h 4 le_rfl f' index' c'
    rw [List.take_of_length_le (by simp)] at h4
    show eachRow f index need row b f' index' c' l = _
    unfold eachRow
    rw [h4]
    simp
  intro n
  induction n with
  | zero => intro _ f' index' c'; simp
  | succ n ih =>
    intro hn f' index' c'
    have ih := ih (by omega)
    have htake : ∀ n (h : n < 4),
        (List.finRange 4).take (n + 1) = (List.finRange 4).take n ++ [⟨n, h⟩] := by decide
    rw [htake n (by omega), List.foldl_append, List.foldl_cons, List.foldl_nil]
    generalize ((List.finRange 4).take n).foldl
      (fun b c => if need c then b.setRow f index c (row b c) else b) b = cur at ih
    have hstay : (f' = f → index' = index → need c' = true → c'.val ≠ n) → cur f' index' c' l =
        if f' = f ∧ index' = index ∧ need c' = true ∧ c'.val < n + 1 then v c'
        else b f' index' c' l := by
      intro hne
      rw [ih]
      refine if_congr ⟨fun ⟨h1, h2, h3, h4⟩ => ⟨h1, h2, h3, by omega⟩, ?_⟩ rfl rfl
      rintro ⟨h1, h2, h3, h4⟩
      have := hne h1 h2 h3
      exact ⟨h1, h2, h3, by omega⟩
    by_cases hneed : need ⟨n, by omega⟩ = true
    · rw [if_pos hneed]
      have hval : row cur ⟨n, by omega⟩ l = v ⟨n, by omega⟩ := by
        apply hrow cur _ hneed
        · intro f'' index'' c'' hne
          rw [ih, if_neg (by tauto)]
        · intro c'' hc''
          rw [ih, if_neg (by
            rintro ⟨-, -, -, hlt⟩
            have : n ≤ c''.val := hc''
            omega)]
      unfold Batch.setRow
      by_cases hhere : f' = f ∧ index' = index ∧ c' = ⟨n, by omega⟩
      · obtain ⟨rfl, rfl, rfl⟩ := hhere
        rw [if_pos ⟨rfl, rfl, rfl⟩, hval, if_pos ⟨rfl, rfl, hneed, Nat.lt_succ_self n⟩]
      · rw [if_neg hhere]
        exact hstay fun h1 h2 _ he => hhere ⟨h1, h2, Fin.ext he⟩
    · rw [if_neg hneed]
      exact hstay fun _ _ h3 he => hneed (by rw [← h3]; congr 1; exact Fin.ext he.symm)

theorem store_lane (res : Fin 4 → Lane → K) (d : ℕ) (active : LaneSet) (b : Batch K) (l : Lane) :
    (store res d active b).lane l =
      if active l then (b.lane l).store d fun c => res c l else b.lane l := by
  unfold store
  cases hl : active l with
  | true =>
    rw [eachRow_lane fun b' c _ _ _ => by
      split
      · rfl
      · exact if_pos hl]
    rfl
  | false =>
    rw [eachRow_lane fun b' c _ _ hsame => by
      rw [if_neg (fun hall => by rw [hall l] at hl; cases hl), if_neg (by rw [hl]; simp)]
      exact hsame c (Nat.le_refl _)]
    funext f index c
    split
    · rename_i h
      obtain ⟨rfl, rfl, -⟩ := h
      rfl
    · rfl

theorem Regs.store_congr {r : Regs K} {v' : Fin 4 → K} (h : ∀ c, maskBit d c = true → v c = v' c) :
    r.store d v = r.store d v' := by
  funext f index c
  unfold Regs.store
  split
  · rename_i hc
    exact h c hc.2.2
  · rfl

end Sources

/-! ## Instructions -/

section Execute

variable {K : Type} {A : Arith K} {env : Env K}

def Machine.laneState (m : Machine K) (l : Lane) : LaneState K where
  regs := m.batch.lane l
  wait := m.wait l
  live := m.live l

/-- The loop of the instruction loads a row that `operand` has left at `k_zero`. -/
def Inst.overreads (i : Inst) : Bool :=
  i.op.veach && !((opSources i.op).testBit 1 && (opSources i.op).testBit 2) &&
    (List.finRange 4).any (maskBit i.dst)

theorem overreads_of_not_veach {i : Inst} (h : i.op.veach = false) : i.overreads = false := by
  unfold Inst.overreads
  rw [h]
  rfl

/-- What an instruction does to the machine: the running lanes take a step, the others do not. -/
structure Executed (A : Arith K) (env : Env K) (i : Inst) (m m' : Machine K) (control : Bool) :
    Prop where
  pc : m'.pc = m.pc
  trace : m'.trace = m.trace
  overread : m'.overread = 0 ↔ m.overread = 0 ∧ i.overreads = false
  active : m'.active = m.active
  wake : m'.wake = m.wake
  steady : control = false → m'.wait = m.wait ∧ m'.live = m.live
  lane : ∀ l, m'.laneState l =
    if m.active l then laneStep A env i (m.laneState l) else m.laneState l

variable {i : Inst}

theorem Executed.of_regs {m : Machine K} {batch : Batch K} {res : Fin 4 → Lane → K} {n : ℕ}
    (hstep : ∀ s : LaneState K, laneStep A env i s =
      { s with regs := s.regs.store i.dst (instValue A env s.regs i) })
    (hb : ∀ l, batch.lane l =
      if m.active l then (m.batch.lane l).store i.dst (instValue A env (m.batch.lane l) i)
      else m.batch.lane l)
    (hn : n = 0 ↔ m.overread = 0 ∧ i.overreads = false) :
    Executed A env i m { m with res := res, batch := batch, overread := n } false where
  pc := rfl
  trace := rfl
  overread := hn
  active := rfl
  wake := rfl
  steady := fun _ => ⟨rfl, rfl⟩
  lane := fun l => by
    rw [hstep]
    unfold Machine.laneState
    rw [hb l]
    split <;> rfl

/-- The opcodes of the `default` case. -/
def Op.IsAlu (op : Op) : Prop :=
  op ≠ .nop ∧ op ≠ .jmp ∧ op ≠ .jz ∧ op ≠ .kill ∧ op ≠ .tex

variable {op : Op}

theorem opSources_of_isAlu (h : op.IsAlu) : (opSources op).testBit 0 = true := by
  obtain ⟨h1, h2, -, -, -⟩ := h
  cases op <;> first | rfl | contradiction

theorem opHasDst_of_isAlu (h : op.IsAlu) : opHasDst op = true := by
  obtain ⟨h1, h2, h3, h4, -⟩ := h
  cases op <;> first | rfl | contradiction

theorem opSources_of_across (h : Arith.across op = true) : (opSources op).testBit 1 = true := by
  cases op <;> first | rfl | cases h

theorem rows_value {b b' : Batch K} (hop : i.op ≠ .tex) {need : Fin 4 → Bool}
    {ra rb rc : Fin 4 → Row K} (ha : RowsOf A env b i.a need ra)
    (hb : (opSources i.op).testBit 1 = true → RowsOf A env b i.b need rb)
    (hc : (opSources i.op).testBit 2 = true → RowsOf A env b i.c need rc)
    (hneed : Arith.across i.op = true → ∀ c, need c = true) {k : Fin 4} (hk : need k = true)
    {l : Lane} (hsa : SameSource i.a l b b')
    (hsb : (opSources i.op).testBit 1 = true → SameSource i.b l b b')
    (hsc : (opSources i.op).testBit 2 = true → SameSource i.c l b b') :
    (if Arith.across i.op then
      A.acrossValue i.op (fun k => (ra k).get A b' l) (fun k => (rb k).get A b' l) k
    else A.alu i.op ((ra k).get A b' l) ((rb k).get A b' l) ((rc k).get A b' l)) =
      instValue A env (b.lane l) i k := by
  unfold instValue
  split
  · rename_i hx
    have hall := hneed hx
    have h1 := opSources_of_across hx
    rw [show (fun k => (ra k).get A b' l) = srcValue A env (b.lane l) i.a from
        funext fun c => (ha c (hall c)).2 b' l hsa,
      show (fun k => (rb k).get A b' l) = srcValue A env (b.lane l) i.b from
        funext fun c => (hb h1 c (hall c)).2 b' l (hsb h1)]
  · rw [(ha k hk).2 b' l hsa]
    exact alu_congr A i.op _ (fun h1 => (hb h1 k hk).2 b' l (hsb h1))
      fun h2 => (hc h2 k hk).2 b' l (hsc h2)

theorem not_across_of_veach (h : op.veach = true) : Arith.across op = false := by
  cases op <;> first | rfl | cases h

/-- The loads of one instruction leave `overread` at zero only when none is behind `k_zero`. -/
theorem overread_eq_zero_iff {n : ℕ} {need : Fin 4 → Bool} {ra rb rc : Fin 4 → Row K}
    (ha : ∀ c, need c = true → (ra c).past = 0)
    (hb : ∀ c, need c = true → ((rb c).past = 0 ↔ (opSources i.op).testBit 1 = true))
    (hc : ∀ c, need c = true → ((rc c).past = 0 ↔ (opSources i.op).testBit 2 = true))
    (hneed : i.op.veach = true → ∀ c, need c = maskBit i.dst c) :
    n + ((List.finRange 4).map fun k =>
        if i.op.veach ∧ need k then (ra k).past + (rb k).past + (rc k).past else 0).sum = 0 ↔
      n = 0 ∧ i.overreads = false := by
  rw [Nat.add_eq_zero_iff, List.sum_eq_zero_iff]
  refine and_congr_right fun _ => ?_
  cases hv : i.op.veach with
  | false => simp [overreads_of_not_veach hv]
  | true =>
    have hneed := hneed hv
    have hover : i.overreads = false ↔ ((opSources i.op).testBit 1 = false ∨
        (opSources i.op).testBit 2 = false → ∀ c, need c = false) := by
      unfold Inst.overreads
      rw [hv]
      simp [hneed]
    rw [List.forall_mem_map, hover]
    constructor
    · intro h hunused c
      by_contra hc'
      rw [Bool.not_eq_false] at hc'
      have hsum := h c (List.mem_finRange c)
      rw [if_pos ⟨rfl, hc'⟩, ha c hc', Nat.zero_add, Nat.add_eq_zero_iff, hb c hc', hc c hc'] at hsum
      simp [hsum.1, hsum.2] at hunused
    · intro h c _
      split
      · rename_i hc'
        rw [ha c hc'.2, Nat.zero_add, Nat.add_eq_zero_iff, hb c hc'.2, hc c hc'.2]
        by_contra hnot
        rw [not_and_or, Bool.not_eq_true, Bool.not_eq_true] at hnot
        exact Bool.false_ne_true ((h hnot c).symm.trans hc'.2)
      · rfl

theorem sameSource_refl (w : ℕ) (l : Lane) (b : Batch K) : SameSource w l b b :=
  fun _ _ _ => rfl

structure Inst.Ok (h : Header) (fragment : Bool) (i : Inst) : Prop where
  dst : opHasDst i.op = true → h.DstOk fragment i.dst
  a : (opSources i.op).testBit 0 = true → h.SrcOk fragment i.a
  b : (opSources i.op).testBit 1 = true → h.SrcOk fragment i.b
  c : (opSources i.op).testBit 2 = true → h.SrcOk fragment i.c
  unit : i.op = .tex → i.b < fgpuMaxTextureUnits

/-- **Computing opcodes**, through the direct writes or through `res`. -/
theorem executeAlu_ok (hp : env.p.Ok) (hi : i.Ok env.p.h env.fragment) (hop : i.op.IsAlu)
    (m : Machine K) : ∃ m', executeAlu A env m i = .ok m' ∧ Executed A env i m m' false := by
  have hdst := hi.dst (opHasDst_of_isAlu hop)
  have hnotTex : i.op ≠ .tex := hop.2.2.2.2
  have hstep : ∀ s : LaneState K, laneStep A env i s =
      { s with regs := s.regs.store i.dst (instValue A env s.regs i) } := by
    intro s
    obtain ⟨h1, h2, h3, h4, -⟩ := hop
    unfold laneStep
    split <;> first | contradiction | rfl
  set need : Fin 4 → Bool := fun c => if Arith.across i.op then true else maskBit i.dst c
    with hneedDef
  have hneed : Arith.across i.op = true → ∀ c, need c = true := fun hx c => by
    rw [hneedDef]; dsimp only; rw [if_pos hx]
  have hmask : ∀ c, maskBit i.dst c = true → need c = true := fun c hc => by
    rw [hneedDef]; dsimp only; split
    · rfl
    · exact hc
  obtain ⟨ra, hra, hA⟩ := operand_ok (A := A) hp (hi.a (opSources_of_isAlu hop)) m.batch need
  obtain ⟨rb, hrb, hB, hpastB⟩ := operandIf_ok (A := A) hp hi.b m.batch need
  obtain ⟨rc, hrc, hC, hpastC⟩ := operandIf_ok (A := A) hp hi.c m.batch need
  have hreg := checkReg_ok (file_dstReg hdst).2
  have hpast := overread_eq_zero_iff (n := m.overread) (i := i) (fun c hc => (hA c hc).1) hpastB
    hpastC fun hv c => by rw [hneedDef]; exact if_neg (by simp [not_across_of_veach hv])
  unfold executeAlu
  simp only [← hneedDef, hra, hrb, hrc, hreg, bind]
  split
  · rename_i hdirect
    obtain ⟨hall, hx, hna, hnb, hnc⟩ := hdirect
    refine ⟨_, rfl, Executed.of_regs hstep (fun l => ?_) hpast⟩
    rw [if_pos (hall l)]
    refine (eachRow_lane (v := instValue A env (m.batch.lane l) i)
      fun b' c hc houtside _ => ?_).trans ?_
    · exact rows_value hnotTex hA hB hC hneed hc (sameSource_of_not_reads hdst hna l houtside)
        (fun h1 => sameSource_of_not_reads hdst (fun h => hnb ⟨h1, h⟩) l houtside)
        fun h2 => sameSource_of_not_reads hdst (fun h => hnc ⟨h2, h⟩) l houtside
    · funext f index c
      rw [hneedDef]
      simp only [if_neg hx]
      rfl
  · refine ⟨_, rfl, Executed.of_regs hstep (fun l => ?_) hpast⟩
    rw [store_lane]
    split
    · rename_i hactive
      apply Regs.store_congr
      intro c hc
      rw [if_pos ⟨hmask c hc, fun _ => hactive⟩]
      exact rows_value hnotTex hA hB hC hneed (hmask c hc) (sameSource_refl _ _ _)
        (fun _ => sameSource_refl _ _ _) fun _ => sameSource_refl _ _ _
    · rfl

theorem execute_alu (hop : i.op.IsAlu) (m : Machine K) :
    execute A env m i = (executeAlu A env m i).map fun m => (m, false) := by
  obtain ⟨h1, h2, h3, h4, h5⟩ := hop
  unfold execute
  split <;> first | contradiction | skip
  cases executeAlu A env m i <;> rfl

theorem rowsOf_first {b : Batch K} {w : ℕ} {rows : Fin 4 → Row K}
    (h : RowsOf A env b w (· = 0) rows) (l : Lane) :
    (rows 0).get A b l = srcValue A env (b.lane l) w 0 :=
  (h 0 (by decide)).2 b l (sameSource_refl w l b)

/-- **One instruction** is executed without a fault, lane by lane. -/
theorem execute_lane (hp : env.p.Ok) (hi : i.Ok env.p.h env.fragment) (m : Machine K) :
    ∃ m' control, execute A env m i = .ok (m', control) ∧ Executed A env i m m' control := by
  by_cases hop : i.op.IsAlu
  · obtain ⟨m', hm', he⟩ := executeAlu_ok hp hi hop m
    exact ⟨m', false, by rw [execute_alu hop, hm']; rfl, he⟩
  have hcases : i.op = .nop ∨ i.op = .jmp ∨ i.op = .jz ∨ i.op = .kill ∨ i.op = .tex := by
    by_contra hnot
    push Not at hnot
    exact hop hnot
  have hsame : i.overreads = false := overreads_of_not_veach (by
    rcases hcases with h | h | h | h | h <;> rw [h] <;> decide)
  have hsrc := hi.a
  rcases hcases with h | h | h | h | h
  · have hexec : execute A env m i = .ok (m, false) := by unfold execute; rw [h]; rfl
    refine ⟨m, false, hexec, rfl, rfl, by simp [hsame], rfl, rfl, fun _ => ⟨rfl, rfl⟩, fun l => ?_⟩
    unfold laneStep
    rw [h]
    exact (ite_self _).symm
  · have hexec : execute A env m i =
        .ok ({ m with wait := fun l => if m.active l then i.dst else m.wait l }, true) := by
      unfold execute; rw [h]; rfl
    refine ⟨_, true, hexec, rfl, rfl, by simp [hsame], rfl, rfl, nofun, fun l => ?_⟩
    unfold laneStep Machine.laneState
    rw [h]
    dsimp only
    split <;> rfl
  · rw [h] at hsrc
    obtain ⟨ra, hra, hA⟩ := operand_ok (A := A) hp (hsrc rfl) m.batch (· = 0)
    have hexec : execute A env m i = .ok ({ m with
        wait := fun l =>
          if m.active l && A.eq ((ra 0).get A m.batch l) A.zero then i.dst else m.wait l }, true) := by
      unfold execute; rw [h]; simp [hra, bind]; rfl
    refine ⟨_, true, hexec, rfl, rfl, by simp [hsame], rfl, rfl, nofun, fun l => ?_⟩
    unfold laneStep Machine.laneState
    rw [h]
    dsimp only
    rw [rowsOf_first hA l]
    cases m.active l <;> cases A.eq (srcValue A env (m.batch.lane l) i.a 0) A.zero <;> rfl
  · rw [h] at hsrc
    obtain ⟨ra, hra, hA⟩ := operand_ok (A := A) hp (hsrc rfl) m.batch (· = 0)
    have hexec : execute A env m i = .ok ({ m with
        live := fun l =>
          m.live l && !(m.active l && !A.eq ((ra 0).get A m.batch l) A.zero) }, true) := by
      unfold execute; rw [h]; simp only [hra, bind]; rfl
    refine ⟨_, true, hexec, rfl, rfl, by simp [hsame], rfl, rfl, nofun, fun l => ?_⟩
    unfold laneStep Machine.laneState
    rw [h]
    dsimp only
    rw [rowsOf_first hA l]
    cases m.active l <;> cases A.eq (srcValue A env (m.batch.lane l) i.a 0) A.zero <;>
      cases m.live l <;> rfl
  · rw [h] at hsrc
    obtain ⟨ra, hra, hA⟩ := operand_ok (A := A) hp (hsrc rfl) m.batch (· < 2)
    have hunit : env.checkUnit i.b = .ok () := by
      unfold Env.checkUnit
      split
      · exact if_pos (hi.unit h)
      · rfl
    have hreg := checkReg_ok (file_dstReg (hi.dst (by rw [h]; rfl))).2
    set res : Fin 4 → Lane → K := fun c l =>
      if m.active l then sampleUnit A env i.b ((ra 0).get A m.batch l) ((ra 1).get A m.batch l) c
      else m.res c l with hres
    have hexec : execute A env m i =
        .ok ({ m with res := res, batch := store res i.dst m.active m.batch }, false) := by
      unfold execute; rw [h]; simp [hra, hunit, hreg, bind]; rfl
    refine ⟨_, false, hexec, Executed.of_regs (fun s => by unfold laneStep; rw [h])
      (fun l => ?_) (by simp [hsame])⟩
    rw [store_lane]
    split
    · rename_i hactive
      apply Regs.store_congr
      intro c _
      unfold instValue
      rw [hres, if_pos h]
      dsimp only
      rw [if_pos hactive, (hA 0 (by decide)).2 m.batch l (sameSource_refl _ _ _),
        (hA 1 (by decide)).2 m.batch l (sameSource_refl _ _ _)]
    · rfl

end Execute

end MinimalOS.Fgpu
