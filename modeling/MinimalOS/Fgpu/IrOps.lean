import Mathlib.Tactic.LinearCombination
import MinimalOS.Fgpu.IrSem

/-!
# Lowered arithmetic

Over an ordered field the simplifications of `op3` keep values (`simplifies_simplify`), and the
scalar code for a component-wise operation computes the machine's value (`emits_lowerComp`).
A reciprocal of zero may be computed on the way; it is never selected.
-/

namespace MinimalOS.Fgpu

open Growth StraightLine List

variable {K : Type} [Field K] [LinearOrder K] [IsStrictOrderedRing K] {F : Functions K}
  {env : IrEnv K} {cfg : Storage K} {ir : Ir K} {s a b c : Src} {v w x y z : K}
  {Γ : List (Src × K)}

/-! ## Modifiers -/

theorem Den.modify (h : Den F.arith env ir s v) (abs neg : Bool) :
    Den F.arith env ir (s.modify abs neg)
      (if neg then -(if abs then |v| else v) else if abs then |v| else v) := by
  obtain ⟨hlt, rfl⟩ := h
  refine ⟨by unfold Src.modify; split_ifs <;> exact hlt, ?_⟩
  cases abs <;> cases neg <;> cases hn : s.neg <;> cases ha : s.abs <;>
    simp [Src.modify, Src.get, hn, ha]

theorem Den.negate (h : Den F.arith env ir s v) :
    Den F.arith env ir s.negate (-v) := h.modify false true

variable {m : Build K Src}

theorem Emits.negate (h : (s, v) ∈ Γ) (hm : Emits F.arith env ((s.negate, -v) :: Γ) m w) :
    Emits F.arith env Γ m w :=
  Emits.have (fun _ hs => (hs.of_mem h).negate) hm

/-! ## Simplifications -/

omit [IsStrictOrderedRing K] in
/-- The operands that `canonical` exchanges may be exchanged. -/
theorem commutes_exact : Commutes F.arith := by
  intro op hop a b c
  cases op <;> first | cases hop; done | skip
  case add => exact add_comm a b
  case mul => exact mul_comm a b
  case min =>
    simp only [irValue, exact_lt, decide_eq_true_eq]
    split_ifs with h1 h2 h2
    · exact absurd h1 (lt_asymm h2)
    · rfl
    · rfl
    · exact le_antisymm (not_lt.mp h1) (not_lt.mp h2)
  case max =>
    simp only [irValue, exact_lt, decide_eq_true_eq]
    split_ifs with h1 h2 h2
    · exact absurd h1 (lt_asymm h2)
    · rfl
    · rfl
    · exact le_antisymm (not_lt.mp h2) (not_lt.mp h1)
  case seq => simp only [irValue, exact_eq, eq_comm]
  case sne => simp only [irValue, exact_eq, eq_comm]

omit [IsStrictOrderedRing K] in
theorem Den.of_isConst_exact (hs : Den F.arith env ir s v) (hc : Closed irSrcs ir.code)
    {k : K} (hk : isConst F.arith ir s k = true) : v = k :=
  of_decide_eq_true (hs.of_isConst hc hk)

theorem builds_mulBy (ha : (a, x) ∈ Γ) (hb : (b, y) ∈ Γ) :
    Builds (Sat F.arith env Γ) (mulBy F.arith cfg a b)
      (MaybeDen F.arith env (x * y)) := by
  refine .bind_get fun ir hs => ?_
  have hda := hs.of_mem ha
  have hdb := hs.of_mem hb
  split_ifs with h1 h2 h3
  · have hx := hda.of_isConst_exact hs.closed h1
    rw [hx, exact_one, one_mul]
    exact builds_here hdb
  · have hx := hda.of_isConst_exact hs.closed h2
    rw [hx, exact_lit, Rat.cast_neg, Rat.cast_one, neg_one_mul]
    exact builds_here hdb.negate
  · have hx := hda.of_isConst_exact hs.closed h3
    rw [hx, exact_zero, zero_mul]
    exact .mono (Emits.some (emits_imm 0)) (fun t ht => ht ▸ hs) fun _ _ h => h
  · exact builds_none

omit [IsStrictOrderedRing K] in
/-- A choice between equal sources. -/
theorem builds_same (hs : Sat F.arith env [(a, x), (b, y)] ir) (p : Prop) [Decidable p] :
    Builds (· = ir) (pure (if a = b then some a else none) : Build K _)
      (MaybeDen F.arith env (if p then x else y)) := by
  by_cases hab : a = b
  · subst hab
    have hy : Den _ env ir a y := hs.of_mem (by simp)
    rw [if_pos rfl, (hs.of_mem (by simp) : Den _ env ir a x).unique hy, ite_self]
    exact builds_here hy
  · rw [if_neg hab]
    exact builds_none

theorem simplifies_simplifyFlat : Simplifies F.arith env (simplifyFlat F.arith cfg) := by
  intro op args
  refine .bind_get fun ir hs => ?_
  split
  · -- a select on an immediate, or between equal sources
    rename_i c a b hargs
    obtain ⟨z, x, y, rfl⟩ := exists_args₃ hargs
    have hc : Den _ env ir c z := hs.of_mem (by simp)
    have ha : Den _ env ir a x := hs.of_mem (by simp)
    have hb : Den _ env ir b y := hs.of_mem (by simp)
    by_cases h1 : isImm ir c = true
    · rw [if_pos h1, hc.immOf_eq hs.closed h1]
      refine builds_here ?_
      show Den _ env ir _ (if !F.arith.eq z F.arith.zero then x else y)
      split <;> assumption
    · rw [if_neg h1]
      split
      · rename_i hab
        subst hab
        refine builds_here ?_
        show Den _ env ir _ (if !F.arith.eq z F.arith.zero then x else y)
        rw [ha.unique hb, ite_self]
        exact hb
      · exact builds_none
  · rename_i a b hargs
    obtain ⟨x, y, rfl⟩ := exists_args₂ hargs
    have ha : Den _ env ir a x := hs.of_mem (by simp)
    have hb : Den _ env ir b y := hs.of_mem (by simp)
    split_ifs with h1 h2
    · refine builds_here ?_
      show Den _ env ir _ (x + y)
      rw [hb.of_isConst_exact hs.closed h1, exact_zero, add_zero]
      exact ha
    · refine builds_here ?_
      show Den _ env ir _ (x + y)
      rw [ha.of_isConst_exact hs.closed h2, exact_zero, zero_add]
      exact hb
    · exact builds_none
  · rename_i a b hargs
    obtain ⟨x, y, rfl⟩ := exists_args₂ hargs
    refine .mono (P := Sat _ env [(a, x), (b, y)]) ?_ (fun t ht => ht ▸ hs) fun _ _ h => h
    refine .bind monotone_sat (builds_mulBy (x := x) (y := y) (by simp) (by simp))
      fun r => ?_
    cases r with
    | some s => exact builds_some fun t ht => ht.2 s rfl
    | none =>
      rw [show irValues F.arith .mul ([(a, x), (b, y)].map Prod.snd) = y * x from
        mul_comm x y]
      exact .mono (builds_mulBy (by simp) (by simp)) (fun t ht => ht.1) fun _ _ h => h
  · rename_i a b hargs
    obtain ⟨x, y, rfl⟩ := exists_args₂ hargs
    exact builds_same hs _
  · rename_i a b hargs
    obtain ⟨x, y, rfl⟩ := exists_args₂ hargs
    exact builds_same hs _
  · exact builds_none

theorem builds_fmaBy (ha : (a, x) ∈ Γ) (hb : (b, y) ∈ Γ) (hc : (c, z) ∈ Γ) :
    Builds (Sat F.arith env Γ) (fmaBy F.arith cfg a b c)
      (MaybeDen F.arith env (x * y + z)) := by
  refine .bind_get fun ir hs => ?_
  have hda := hs.of_mem ha
  split_ifs with h1 h2
  · have hx := hda.of_isConst_exact hs.closed h1
    have hadd : Emits F.arith env [(b, y), (c, z)]
        (op3With F.arith cfg (simplifyFlat F.arith cfg) .add [b, c]) (y + z) :=
      builds_op3With simplifies_simplifyFlat commutes_exact rfl [(b, y), (c, z)]
    rw [hx, exact_one, one_mul]
    refine .mono (Emits.some hadd) (fun t ht => ?_) fun _ _ h => h
    rw [ht]
    exact hs.subset (by simp [hb, hc])
  · have hx := hda.of_isConst_exact hs.closed h2
    rw [hx, exact_zero, zero_mul, zero_add]
    exact builds_here (hs.of_mem hc)
  · exact builds_none

/-- **Simplifications** keep the value of an operation. -/
theorem simplifies_simplify : Simplifies F.arith env (simplify F.arith cfg) := by
  intro op args
  unfold simplify
  split
  · rename_i a b c hargs
    obtain ⟨x, y, z, rfl⟩ := exists_args₃ hargs
    refine .bind monotone_sat (builds_fmaBy (x := x) (y := y) (z := z) (by simp) (by simp)
      (by simp)) fun r => ?_
    cases r with
    | some s => exact builds_some fun t ht => ht.2 s rfl
    | none =>
      refine .mono (P := Sat _ env [(a, x), (b, y), (c, z)]) ?_ (fun t ht => ht.1)
        fun _ _ h => h
      rw [show irValues F.arith .fma ([(a, x), (b, y), (c, z)].map Prod.snd) =
        y * x + z from congrArg (· + z) (mul_comm x y)]
      refine .bind monotone_sat (builds_fmaBy (x := y) (y := x) (z := z) (by simp) (by simp)
        (by simp)) fun r => ?_
      cases r with
      | some s => exact builds_some fun t ht => ht.2 s rfl
      | none =>
        refine .bind_get ?_
        rintro ir ⟨hs, -⟩
        split
        · rename_i h0
          have hc : Den _ env ir c z := hs.of_mem (by simp)
          have hmul : Emits F.arith env [(a, x), (b, y)]
              (op3With F.arith cfg (simplifyFlat F.arith cfg) .mul [a, b])
              (x * y) :=
            builds_op3With simplifies_simplifyFlat commutes_exact rfl [(a, x), (b, y)]
          rw [hc.of_isConst_exact hs.closed h0, exact_zero, add_zero, mul_comm y x]
          refine .mono (Emits.some hmul) (fun t ht => ?_) fun _ _ h => h
          rw [ht]
          exact hs.subset (by simp)
        · exact builds_none
  · exact simplifies_simplifyFlat _ args

/-! ## Emitting operations -/

theorem emits_op3 {op : IrOp} (hop : op.arith = true) (args : List (Src × K)) (h : args ⊆ Γ) :
    Emits F.arith env Γ (op3 F.arith cfg op (args.map Prod.fst))
      (irValues F.arith op (args.map Prod.snd)) :=
  Emits.subset (builds_op3With simplifies_simplify commutes_exact hop args) h

theorem emits₁ (op : IrOp) (hop : op.arith = true := by rfl)
    (ha : (a, x) ∈ Γ := by apply_rules [mem_cons_self, mem_cons_of_mem]) :
    Emits F.arith env Γ (op3 F.arith cfg op [a])
      (irValue F.arith op x 0 0) :=
  (emits_op3 hop [(a, x)] (by simpa using ha)).eq (by simp [irValues])

theorem emits₂ (op : IrOp) (hop : op.arith = true := by rfl)
    (ha : (a, x) ∈ Γ := by apply_rules [mem_cons_self, mem_cons_of_mem])
    (hb : (b, y) ∈ Γ := by apply_rules [mem_cons_self, mem_cons_of_mem]) :
    Emits F.arith env Γ (op3 F.arith cfg op [a, b])
      (irValue F.arith op x y 0) :=
  (emits_op3 hop [(a, x), (b, y)] (by simp [ha, hb])).eq (by simp [irValues])

theorem emits₃ (op : IrOp) (hop : op.arith = true := by rfl)
    (ha : (a, x) ∈ Γ := by apply_rules [mem_cons_self, mem_cons_of_mem])
    (hb : (b, y) ∈ Γ := by apply_rules [mem_cons_self, mem_cons_of_mem])
    (hc : (c, z) ∈ Γ := by apply_rules [mem_cons_self, mem_cons_of_mem]) :
    Emits F.arith env Γ (op3 F.arith cfg op [a, b, c])
      (irValue F.arith op x y z) :=
  emits_op3 hop [(a, x), (b, y), (c, z)] (by simp [ha, hb, hc])

theorem Emits.abs (h : (s, v) ∈ Γ) (hm : Emits F.arith env ((s.modify true false, |v|) :: Γ) m w) :
    Emits F.arith env Γ m w :=
  Emits.have (fun _ hs => (hs.of_mem h).modify true false) hm

/-- The quotient, with 0 for a division by 0. -/
theorem emits_div (ha : (a, x) ∈ Γ) (hb : (b, y) ∈ Γ) :
    Emits F.arith env Γ (div_ F.arith cfg a b) (F.arith.vdiv x y) := by
  refine .bind (emits₁ .rcp) fun r => ?_
  refine .bind (emits₂ .mul) fun q => ?_
  refine .bind (emits_imm _) fun zero => ?_
  refine .bind (emits₂ .sne) fun nz => ?_
  refine .eq (emits₃ .sel) ?_
  by_cases hy : y = 0 <;> simp [irValue, Arith.vdiv, hy]

theorem emits_atanStep (coeff : ℚ)
    (ha : (a, x) ∈ Γ := by apply_rules [mem_cons_self, mem_cons_of_mem])
    (hb : (b, y) ∈ Γ := by apply_rules [mem_cons_self, mem_cons_of_mem]) :
    Emits F.arith env Γ (atanStep F.arith cfg a b coeff)
      (F.arith.add (F.arith.lit coeff) (F.arith.mul x y)) := by
  refine .bind (emits_imm _) fun k => ?_
  exact .eq (emits₃ .fma) (add_comm _ _)

theorem emits_atanPoly
    (ha : (a, x) ∈ Γ := by apply_rules [mem_cons_self, mem_cons_of_mem]) :
    Emits F.arith env Γ (atanPoly F.arith cfg a) (F.arith.mAtanPoly x) := by
  refine .bind (emits₂ .mul) fun z2 => ?_
  refine .bind (emits_imm _) fun k => ?_
  refine .bind (emits_atanStep _) fun p₁ => ?_
  refine .bind (emits_atanStep _) fun p₂ => ?_
  refine .bind (emits_atanStep _) fun p₃ => ?_
  refine .bind (emits_atanStep _) fun p₄ => ?_
  refine .bind (emits_atanStep _) fun p₅ => ?_
  exact .eq (emits₂ .mul) rfl

theorem emits_atan
    (ha : (a, x) ∈ Γ := by apply_rules [mem_cons_self, mem_cons_of_mem]) :
    Emits F.arith env Γ (atan_ F.arith cfg a) (F.arith.mAtan x) := by
  refine .abs ha ?_
  refine .bind (emits_imm _) fun one => ?_
  refine .bind (emits₂ .slt) fun inv => ?_
  refine .bind (emits₁ .rcp) fun rar => ?_
  refine .bind (emits₃ .sel) fun z => ?_
  refine .bind emits_atanPoly fun p => ?_
  refine .bind (emits_imm _) fun half => ?_
  refine .negate (s := p) (by apply_rules [mem_cons_self, mem_cons_of_mem]) ?_
  refine .bind (emits₂ .add) fun q => ?_
  refine .bind (emits₃ .sel) fun p' => ?_
  refine .bind (emits_imm _) fun zero => ?_
  refine .bind (emits₂ .slt) fun neg => ?_
  refine .negate (s := p') (by apply_rules [mem_cons_self, mem_cons_of_mem]) ?_
  refine .eq (emits₃ .sel) ?_
  have habs : (if F.arith.lt x F.arith.zero then F.arith.neg x else x) =
      |x| := exact_mAbs F x
  unfold Arith.mAtan
  dsimp only
  rw [habs]
  by_cases h1 : 1 < |x| <;> by_cases h0 : x < 0 <;>
    simp [irValue, h1, h0, sub_eq_add_neg]

theorem emits_atan2 (ha : (a, y) ∈ Γ) (hb : (b, x) ∈ Γ) :
    Emits F.arith env Γ (atan2_ F.arith cfg a b) (F.arith.mAtan2 y x) := by
  refine .bind (emits₁ .rcp) fun rx => ?_
  refine .bind (emits₂ .mul) fun r => ?_
  refine .bind emits_atan fun at_ => ?_
  refine .bind (emits_imm _) fun zero => ?_
  refine .bind (emits₂ .sle) fun up => ?_
  refine .bind (emits_imm _) fun pi => ?_
  refine .bind (emits₂ .add) fun atUp => ?_
  refine .bind (emits_imm _) fun npi => ?_
  refine .bind (emits₂ .add) fun atDown => ?_
  refine .bind (emits₃ .sel) fun left => ?_
  refine .bind (emits₂ .slt) fun above => ?_
  refine .bind (emits_imm _) fun half => ?_
  refine .bind (emits₂ .slt) fun below => ?_
  refine .bind (emits_imm _) fun nhalf => ?_
  refine .bind (emits₃ .sel) fun axis => ?_
  refine .bind (emits₃ .sel) fun axis' => ?_
  refine .bind (emits₂ .slt) fun right => ?_
  refine .bind (emits₂ .slt) fun isLeft => ?_
  refine .bind (emits₃ .sel) fun rest => ?_
  refine .eq (emits₃ .sel) ?_
  have hr : irValue F.arith .mul y (irValue F.arith .rcp x 0 0) 0 =
      F.arith.div y x := by simp [irValue]
  rw [hr]
  unfold Arith.mAtan2
  generalize F.arith.mAtan (F.arith.div y x) = t
  rcases lt_trichotomy x 0 with hx | hx | hx
  · by_cases hy : 0 ≤ y <;> simp [irValue, hx, lt_asymm hx, hy, sub_eq_add_neg]
  · by_cases hy : 0 < y <;> by_cases hy' : y < 0 <;> simp [irValue, hx, hy, hy']
  · simp [irValue, hx]

theorem smooth_eq (x y z : K) :
    let A := F.arith
    let d := irValue A .add y (-x) 0
    let q := irValue A .mul (irValue A .add z (-x) 0) (irValue A .rcp d 0 0) 0
    let t := irValue A .sel (irValue A .sne d A.zero 0) q (irValue A .sle x z 0)
    let t := irValue A .min (irValue A .max t A.zero 0) A.one 0
    irValue A .mul (irValue A .mul t t 0) (irValue A .fma t (A.lit (-2)) (A.lit 3)) 0 =
      A.vsmooth x y z := by
  intro A d q t₀ t
  have hd : d = A.sub y x := (sub_eq_add_neg y x).symm
  have ht₀ : t₀ = if !A.eq (A.sub y x) A.zero then A.vdiv (A.sub z x) (A.sub y x)
      else A.vbool (A.le x z) := by
    by_cases h : y - x = 0
    · simp [t₀, hd, irValue, A, h, Arith.vbool]
    · simp [t₀, q, hd, irValue, A, h, Arith.vdiv, ← sub_eq_add_neg]
  have ht : t = A.vmin (A.vmax t₀ A.zero) A.one := rfl
  have hlast : irValue A .fma t (A.lit (-2)) (A.lit 3) = A.sub (A.lit 3) (A.mul (A.lit 2) t) := by
    simp only [irValue, A, exact_add, exact_mul, exact_sub, exact_lit, Rat.cast_neg]
    ring
  rw [hlast, ht, ht₀]
  rfl

/-- **One component.** The code for an opcode has the value that the interpreter computes. -/
theorem emits_lowerComp (op : Op) (ha : (a, x) ∈ Γ) (hb : (b, y) ∈ Γ) (hc : (c, z) ∈ Γ) :
    Emits F.arith env Γ (lowerComp F.arith cfg op a b c)
      (F.arith.alu op x y z) := by
  refine .bind (emits_imm _) fun zero => ?_
  replace ha := mem_cons_of_mem (zero, F.arith.zero) ha
  replace hb := mem_cons_of_mem (zero, F.arith.zero) hb
  replace hc := mem_cons_of_mem (zero, F.arith.zero) hc
  cases op <;> dsimp only
  case mov => exact .known ha
  case add => exact .eq (emits₂ .add) rfl
  case sub =>
    refine .negate hb ?_
    exact .eq (emits₂ .add) (sub_eq_add_neg x y).symm
  case mul => exact .eq (emits₂ .mul) rfl
  case div => exact emits_div ha hb
  case mad => exact .eq (emits₃ .fma) rfl
  case min => exact .eq (emits₂ .min) rfl
  case max => exact .eq (emits₂ .max) rfl
  case floor => exact .eq (emits₁ .floor) rfl
  case fract =>
    refine .bind (emits₁ .floor) fun f => ?_
    refine .negate (s := f) mem_cons_self ?_
    exact .eq (emits₂ .add) (sub_eq_add_neg _ _).symm
  case sqrt =>
    refine .bind (emits₂ .max) fun m => ?_
    exact .eq (emits₁ .sqrt) rfl
  case rsq =>
    refine .bind (emits₂ .slt) fun pos => ?_
    refine .bind (emits₁ .rsq) fun r => ?_
    refine .eq (emits₃ .sel) ?_
    by_cases hx : 0 < x <;> simp [irValue, Arith.alu, Arith.vsqrt, Arith.vmax, hx]
  case exp2 => exact .eq (emits₁ .ex2) rfl
  case log2 =>
    refine .bind (emits₂ .slt) fun pos => ?_
    refine .bind (emits₁ .lg2) fun l => ?_
    refine .bind (emits_imm _) fun low => ?_
    refine .eq (emits₃ .sel) ?_
    by_cases hx : 0 < x <;> simp [irValue, Arith.alu, Arith.vlog2, hx]
  case pow =>
    refine .bind (emits₁ .lg2) fun l => ?_
    refine .bind (emits₂ .mul) fun m => ?_
    refine .bind (emits₁ .ex2) fun e => ?_
    refine .bind (emits₂ .slt) fun pos => ?_
    refine .bind (emits₂ .seq) fun bz => ?_
    refine .eq (emits₃ .sel) ?_
    by_cases hx : 0 < x <;> simp [irValue, Arith.alu, Arith.vpow, Arith.vlog2, hx]
  case sin => exact .eq (emits₁ .sin) rfl
  case cos => exact .eq (emits₁ .cos) rfl
  case mix =>
    refine .negate ha ?_
    refine .bind (emits₂ .add) fun d => ?_
    refine .eq (emits₃ .fma) ?_
    simp only [irValue, Arith.alu, exact_add, exact_mul, exact_sub]
    ring
  case clamp =>
    refine .bind (emits₂ .max) fun m => ?_
    exact .eq (emits₂ .min) rfl
  case step =>
    refine .eq (emits₂ .sle) ?_
    by_cases h : y < x
    · simp [irValue, Arith.alu, h]
    · simp [irValue, Arith.alu, h, not_lt.mp h]
  case sstep =>
    refine .negate ha ?_
    refine .bind (emits₂ .add) fun d => ?_
    refine .bind (emits₂ .add) fun n => ?_
    refine .bind (emits₁ .rcp) fun r => ?_
    refine .bind (emits₂ .mul) fun q => ?_
    refine .bind (emits₂ .sne) fun nz => ?_
    refine .bind (emits₂ .sle) fun ge => ?_
    refine .bind (emits₃ .sel) fun t => ?_
    refine .bind (emits₂ .max) fun m => ?_
    refine .bind (emits_imm _) fun one => ?_
    refine .bind (emits₂ .min) fun t' => ?_
    refine .bind (emits₂ .mul) fun tt => ?_
    refine .bind (emits_imm _) fun two => ?_
    refine .bind (emits_imm _) fun three => ?_
    refine .bind (emits₃ .fma) fun f => ?_
    refine .eq (emits₂ .mul) ?_
    exact smooth_eq x y z
  case slt => exact .eq (emits₂ .slt) rfl
  case sle => exact .eq (emits₂ .sle) rfl
  case seq => exact .eq (emits₂ .seq) rfl
  case sne => exact .eq (emits₂ .sne) rfl
  case sel => exact .eq (emits₃ .sel) rfl
  case mod =>
    refine .bind (emits₁ .rcp) fun r => ?_
    refine .bind (emits₂ .mul) fun q => ?_
    refine .bind (emits₁ .floor) fun f => ?_
    refine .bind (emits₂ .sne) fun nz => ?_
    refine .negate (s := b) (by apply_rules [mem_cons_of_mem]) ?_
    refine .bind (emits₃ .fma) fun v => ?_
    refine .eq (emits₃ .sel) ?_
    by_cases hy : y = 0
    · simp [irValue, Arith.alu, hy]
    · simp [irValue, Arith.alu, Arith.vdiv, hy]
      ring
  case sign =>
    refine .bind (emits₂ .slt) fun pos => ?_
    refine .bind (emits_imm _) fun one => ?_
    refine .bind (emits₂ .slt) fun neg => ?_
    refine .bind (emits_imm _) fun minus => ?_
    refine .bind (emits₃ .sel) fun rest => ?_
    refine .eq (emits₃ .sel) ?_
    by_cases hx : 0 < x <;> by_cases hx' : x < 0 <;> simp [irValue, Arith.alu, hx, hx']
  case atan2 => exact emits_atan2 ha hb
  all_goals exact .known mem_cons_self

end MinimalOS.Fgpu
