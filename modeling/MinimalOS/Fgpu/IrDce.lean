import MinimalOS.Fgpu.IrSem

/-!
# Dead code

What a thread leaves behind is decided by the effects of its code: the outputs and discards with
their values, in order (`eval_eq_effects`). `eliminate` keeps the instructions that some effect
depends on and renumbers them; the effects stay the same (`effects_eliminate`).
-/

namespace MinimalOS.Fgpu

open Growth StraightLine List Function

section Defs

variable {K : Type} (A : Arith K) (env : IrEnv K)

/-! ## Effects -/

/-- An output or a discard with its value. -/
structure Effect (K : Type) where
  op : IrOp
  aux : ℕ
  val : K

def effect (cells : ℕ → Cell K) (x : IrInst K) : Option (Effect K) :=
  if hasEffect x.op then some ⟨x.op, x.aux, x.arg A cells 0⟩ else none

def effects (code : List (IrInst K)) : List (Effect K) :=
  code.filterMap (effect A ((irLang A env).val code))

/-- The outputs and the decision to keep the thread, after one more effect. -/
def applyEffect (st : (ℕ → Fin 4 → K) × Bool) (e : Effect K) : (ℕ → Fin 4 → K) × Bool :=
  (fun o c => if e.op = .output ∧ o = e.aux / 4 ∧ c = slotComp e.aux then e.val else st.1 o c,
    st.2 && !(e.op = .discard && !A.eq e.val A.zero))

end Defs

section Effects

variable {K : Type} {A : Arith K} {env : IrEnv K} {code : List (IrInst K)} {x : IrInst K}

theorem effect_congr {f g : ℕ → Cell K} (h : ∀ i ∈ irSrcs x, f i = g i) :
    effect A f x = effect A g x := by
  unfold effect
  rw [IrInst.arg_congr A h]

theorem effect_eq_none {f : ℕ → Cell K} (h : hasEffect x.op = false) : effect A f x = none := by
  unfold effect
  rw [h]
  rfl

theorem effects_append {rest : List (IrInst K)} (h : Closed irSrcs code) :
    effects A env (code ++ rest) =
      effects A env code ++ rest.filterMap (effect A ((irLang A env).val (code ++ rest))) := by
  unfold effects
  rw [filterMap_append]
  congr 1
  refine filterMap_congr fun x hx => effect_congr fun k hk => ?_
  obtain ⟨i, hi, rfl⟩ := getElem_of_mem hx
  have hlt := h i _ (List.getElem?_eq_getElem hi) k hk
  exact Lang.val_append (hlt.trans hi)

theorem eval_concat : eval A env (code ++ [x]) = evalStep A env (eval A env code) x := by
  unfold eval
  rw [foldl_append]
  rfl

theorem eval_cells : (eval A env code).cells = (irLang A env).values code := by
  induction code using List.reverseRecOn with
  | nil => rfl
  | append_singleton code x ih =>
    rw [eval_concat, Lang.values_concat]
    unfold evalStep
    rw [ih]
    rfl

/-- **Evaluation** is the effects, one after the other. -/
theorem eval_eq_effects (h : Closed irSrcs code) :
    ((eval A env code).out, (eval A env code).kept) =
      (effects A env code).foldl (applyEffect A) (fun _ _ => A.zero, true) := by
  induction code using List.reverseRecOn with
  | nil => rfl
  | append_singleton code x ih =>
    have hcode := h.left
    have hlast : effect A ((irLang A env).val (code ++ [x])) x =
        effect A ((irLang A env).val code) x := effect_congr fun k hk =>
      Lang.val_append (h code.length x (by simp) k hk)
    rw [effects_append hcode, foldl_append, ← ih hcode, eval_concat]
    unfold evalStep
    rw [eval_cells]
    simp only [filterMap_cons, hlast]
    cases hx : hasEffect x.op with
    | true =>
      rw [show effect A ((irLang A env).val code) x = some _ from if_pos hx]
      rfl
    | false =>
      rw [effect_eq_none hx]
      have hop : x.op ≠ .output ∧ x.op ≠ .discard := by
        unfold hasEffect at hx
        simpa using hx
      simp [hop]

end Effects

/-! ## Marking -/

section Marking

variable {K : Type} {code : List (IrInst K)}

/-- From instruction `k` on, what a marked instruction reads is marked. -/
def MarkedFrom (code : List (IrInst K)) (k : ℕ) (live : ℕ → Bool) : Prop :=
  ∀ i, k ≤ i → live i = true → ∀ x, code[i]? = some x → ∀ j ∈ irSrcs x, live j = true

variable {live : ℕ → Bool}

theorem foldl_mark {srcs : List Src} (j : ℕ) :
    srcs.foldl (fun live s => Function.update live s.value true) live j = true ↔
      live j = true ∨ j ∈ srcs.map Src.value := by
  induction srcs generalizing live with
  | nil => simp
  | cons s srcs ih =>
    rw [foldl_cons, ih, map_cons]
    by_cases hj : j = s.value
    · simp [hj]
    · simp [hj]

theorem markStep_iff {i j : ℕ} :
    markStep code live i j = true ↔
      live j = true ∨ live i = true ∧ ∃ x, code[i]? = some x ∧ j ∈ irSrcs x := by
  unfold markStep
  cases hx : code[i]? with
  | none => simp
  | some x =>
    split
    · rename_i hi
      rw [foldl_mark]
      simp [hi, irSrcs]
    · rename_i hi
      simp [hi]

theorem markedFrom_step (hc : Closed irSrcs code) {k : ℕ} (h : MarkedFrom code (k + 1) live) :
    MarkedFrom code k (markStep code live k) := by
  intro i hki hi x hx j hj
  rw [markStep_iff] at hi ⊢
  rcases hki.eq_or_lt with rfl | hlt
  · -- no mark is set on `k` itself, it reads earlier values only
    rcases hi with hi | ⟨hi, y, hy, hmem⟩
    · exact .inr ⟨hi, x, hx, hj⟩
    · exact absurd (hc k y hy k hmem) (Nat.lt_irrefl k)
  · rcases hi with hi | ⟨-, y, hy, hmem⟩
    · exact .inl (h i hlt hi x hx j hj)
    · have := hc k y hy i hmem
      omega

theorem markAll (hc : Closed irSrcs code) (k : ℕ) (h : MarkedFrom code k live) :
    MarkedFrom code 0 ((List.range k).reverse.foldl (markStep code) live) ∧
      ∀ j, live j = true → (List.range k).reverse.foldl (markStep code) live j = true := by
  induction k generalizing live with
  | zero => exact ⟨h, fun _ h => h⟩
  | succ k ih =>
    rw [range_succ, reverse_append, reverse_singleton, singleton_append]
    obtain ⟨hmarked, hmono⟩ := ih (markedFrom_step hc h)
    exact ⟨hmarked, fun j hj => hmono j (markStep_iff.mpr (.inl hj))⟩

theorem markLive_spec (hc : Closed irSrcs code) :
    MarkedFrom code 0 (markLive code) ∧
      ∀ i x, code[i]? = some x → hasEffect x.op = true → markLive code i = true := by
  have hend : ∀ live, MarkedFrom code code.length live := by
    intro live i hi _ x hx
    have := (List.getElem?_eq_some_iff.mp hx).1
    omega
  refine ⟨(markAll hc code.length (hend _)).1,
    fun i x hx he => (markAll hc code.length (hend _)).2 i ?_⟩
  rw [hx]
  exact he

end Marking

/-! ## Renumbering -/

section Renumbering

variable {K : Type} {A : Arith K} {env : IrEnv K} {code : List (IrInst K)} {x : IrInst K}

def IrInst.rename (ρ : ℕ → ℕ) (x : IrInst K) : IrInst K :=
  { x with src := x.src.map fun s => { s with value := ρ s.value } }

theorem irSrcs_rename (ρ : ℕ → ℕ) (x : IrInst K) : irSrcs (x.rename ρ) = (irSrcs x).map ρ := by
  unfold irSrcs IrInst.rename
  rw [map_map, map_map]
  rfl

variable {ρ : ℕ → ℕ} {f g : ℕ → Cell K}

theorem rename_congr {σ : ℕ → ℕ} (h : ∀ i ∈ irSrcs x, ρ i = σ i) : x.rename ρ = x.rename σ := by
  unfold IrInst.rename
  congr 1
  refine map_congr_left fun s hs => ?_
  rw [h s.value (mem_map_of_mem hs)]

section

variable (h : ∀ i ∈ irSrcs x, f (ρ i) = g i)

include h

theorem arg_rename (n : ℕ) : (x.rename ρ).arg A f n = x.arg A g n := by
  unfold IrInst.arg IrInst.rename
  rw [List.getElem?_map]
  cases hs : x.src[n]? with
  | none => rfl
  | some s =>
    have hcell := h s.value (mem_map_of_mem (mem_of_getElem? hs))
    show Src.get A f { s with value := ρ s.value } = s.get A g
    unfold Src.get
    rw [hcell]

theorem evalInst_rename : evalInst A env (x.rename ρ) f = evalInst A env x g := by
  have harg := arg_rename (A := A) h
  unfold evalInst
  rw [harg 0, harg 1, harg 2]
  have hsrc : (x.rename ρ).src[0]? = x.src[0]?.map fun s => { s with value := ρ s.value } :=
    List.getElem?_map
  rw [hsrc]
  cases hs : x.src[0]? with
  | none => rfl
  | some s =>
    have hcell := h s.value (mem_map_of_mem (mem_of_getElem? hs))
    simp only [Option.map_some, hcell]
    rfl

theorem effect_rename : effect A f (x.rename ρ) = effect A g x := by
  unfold effect
  rw [arg_rename h]
  rfl

end

/-- The marked instructions before `k`, in order. -/
def liveIds (live : ℕ → Bool) (k : ℕ) : List ℕ := (List.range k).filter live

theorem liveIds_succ (live : ℕ → Bool) (k : ℕ) :
    liveIds live (k + 1) = liveIds live k ++ if live k then [k] else [] := by
  unfold liveIds
  rw [range_succ, filter_append]
  congr 1
  cases h : live k <;> simp [h]

/-- After `k` rounds: the new indices count the marked instructions, and the new code is the
marked instructions with their sources renumbered. -/
structure Renumbered (code : List (IrInst K)) (live : ℕ → Bool) (k : ℕ)
    (st : (ℕ → ℕ) × List (IrInst K)) : Prop where
  length : st.2.length = (liveIds live k).length
  index : ∀ j i, (liveIds live k)[j]? = some i → st.1 i = j
  code : st.2 = (liveIds live k).filterMap fun i => (code[i]?).map (IrInst.rename st.1)

theorem mem_liveIds {live : ℕ → Bool} {k i : ℕ} : i ∈ liveIds live k ↔ i < k ∧ live i = true := by
  unfold liveIds
  rw [mem_filter, mem_range]

theorem filterMap_getElem? {α β : Type} {f : α → Option β} {l : List α}
    (h : ∀ a ∈ l, (f a).isSome = true) (j : ℕ) : (l.filterMap f)[j]? = l[j]?.bind f := by
  induction l generalizing j with
  | nil => rfl
  | cons a l ih =>
    obtain ⟨b, hb⟩ := Option.isSome_iff_exists.mp (h a mem_cons_self)
    rw [filterMap_cons, hb]
    cases j with
    | zero => exact hb.symm
    | succ j => exact ih (fun c hc => h c (mem_cons_of_mem _ hc)) j

section

variable {live : ℕ → Bool} {k : ℕ} {st : (ℕ → ℕ) × List (IrInst K)}

theorem Renumbered.get (h : Renumbered code live k st) (hk : k ≤ code.length) (j : ℕ) :
    st.2[j]? = (liveIds live k)[j]?.bind fun i => (code[i]?).map (IrInst.rename st.1) := by
  rw [h.code]
  refine filterMap_getElem? (fun i hi => ?_) j
  rw [List.getElem?_eq_getElem ((mem_liveIds.mp hi).1.trans_le hk)]
  rfl

theorem renumbered_step (hc : Closed irSrcs code) (hk : k < code.length)
    (h : Renumbered code live k st) :
    Renumbered code live (k + 1) (renumberStep code live st k) := by
  have hx := List.getElem?_eq_getElem hk
  unfold renumberStep
  rw [hx]
  dsimp only
  cases hlive : live k with
  | false =>
    have hids : liveIds live (k + 1) = liveIds live k := by
      rw [liveIds_succ, hlive, if_neg (by simp), append_nil]
    exact ⟨hids ▸ h.length, hids ▸ h.index, hids ▸ h.code⟩
  | true =>
    rw [if_pos rfl]
    have hids : liveIds live (k + 1) = liveIds live k ++ [k] := by
      rw [liveIds_succ, hlive, if_pos rfl]
    -- instructions up to `k` read values before `k`, whose new indices are settled
    have hrename : ∀ i ≤ k, ∀ y, code[i]? = some y →
        y.rename (Function.update st.1 k st.2.length) = y.rename st.1 := by
      intro i hi y hy
      refine rename_congr fun j hj => update_of_ne ?_ _ _
      have := hc i y hy j hj
      omega
    refine ⟨?_, fun j i hj => ?_, ?_⟩
    · rw [hids, length_append, length_append, h.length]
      rfl
    · dsimp only
      rw [hids] at hj
      rcases Nat.lt_or_ge j (liveIds live k).length with hlt | hge
      · rw [List.getElem?_append_left hlt] at hj
        have hik := (mem_liveIds.mp (mem_of_getElem? hj)).1
        rw [update_of_ne (by omega)]
        exact h.index j i hj
      · rw [List.getElem?_append_right hge, List.getElem?_singleton] at hj
        split at hj
        · cases hj
          rw [update_self, h.length]
          omega
        · cases hj
    · dsimp only
      rw [hids, filterMap_append]
      congr 1
      · refine h.code.trans ?_
        refine filterMap_congr fun i hi => ?_
        cases hy : code[i]? with
        | none => rfl
        | some y =>
          rw [Option.map_some, Option.map_some, hrename i (mem_liveIds.mp hi).1.le y hy]
      · rw [filterMap_cons, hx, Option.map_some, hrename k le_rfl _ hx]
        rfl

theorem renumbered_all (hc : Closed irSrcs code) (hk : k ≤ code.length) :
    Renumbered code live k
      ((List.range k).foldl (renumberStep code live) (fun _ => 0, [])) := by
  induction k with
  | zero => exact ⟨rfl, fun j i h => by simp [liveIds] at h, rfl⟩
  | succ k ih =>
    rw [range_succ, foldl_append]
    exact renumbered_step hc hk (ih (by omega))

theorem Renumbered.index_getElem? (h : Renumbered code live k st) {i : ℕ} (hi : i < k)
    (hlive : live i = true) : (liveIds live k)[st.1 i]? = some i := by
  obtain ⟨j, hj⟩ := mem_iff_getElem?.mp (mem_liveIds.mpr ⟨hi, hlive⟩)
  rw [h.index j i hj]
  exact hj

theorem liveIds_lt {j j' i i' : ℕ} (hj : (liveIds live k)[j]? = some i)
    (hj' : (liveIds live k)[j']? = some i') (h : i < i') : j < j' := by
  have hsorted : (liveIds live k).Pairwise (· < ·) := pairwise_lt_range.filter live
  by_contra hge
  obtain ⟨hlt, rfl⟩ := List.getElem?_eq_some_iff.mp hj
  obtain ⟨hlt', rfl⟩ := List.getElem?_eq_some_iff.mp hj'
  rcases (not_lt.mp hge).eq_or_lt with heq | hgt
  · subst heq
    omega
  · have := pairwise_iff_getElem.mp hsorted j' j hlt' hlt hgt
    omega

end

theorem filterMap_range {α β : Type} (f : α → Option β) (l : List α) :
    l.filterMap f = (List.range l.length).filterMap fun i => l[i]?.bind f := by
  induction l using List.reverseRecOn with
  | nil => rfl
  | append_singleton l a ih =>
    have hfirst : ((List.range l.length).filterMap fun i => (l ++ [a])[i]?.bind f) =
        (List.range l.length).filterMap fun i => l[i]?.bind f := by
      refine filterMap_congr fun i hi => ?_
      rw [List.getElem?_append_left (mem_range.mp hi)]
    have hlast : (l ++ [a])[l.length]?.bind f = f a := by simp
    rw [length_append, length_singleton, range_succ, filterMap_append,
      filterMap_append, hfirst, ← ih]
    simp only [filterMap_cons, filterMap_nil, hlast]

/-- **Dead code elimination** keeps the effects, and the code closed. -/
theorem effects_eliminate (hc : Closed irSrcs code) :
    Closed irSrcs (eliminate code) ∧ effects A env (eliminate code) = effects A env code := by
  obtain ⟨hmarked, heffect⟩ := markLive_spec hc
  set live := markLive code with hlive
  obtain ⟨st, hst⟩ : ∃ st, st = (List.range code.length).foldl (renumberStep code live)
    (fun _ => 0, []) := ⟨_, rfl⟩
  have h : Renumbered code live code.length st := hst ▸ renumbered_all hc le_rfl
  have hcode : eliminate code = st.2 := by rw [hst]; rfl
  rw [hcode]
  -- where instruction `j` of the new code comes from
  have hfrom : ∀ (j : ℕ) x', st.2[j]? = some x' → ∃ (i : ℕ) (x : IrInst K), (liveIds live code.length)[j]? = some i ∧
      code[i]? = some x ∧ x' = x.rename st.1 ∧
      ∀ k ∈ irSrcs x, k < i ∧ (liveIds live code.length)[st.1 k]? = some k := by
    intro j x' hx'
    rw [h.get le_rfl j, Option.bind_eq_some_iff] at hx'
    obtain ⟨i, hi, hx'⟩ := hx'
    rw [Option.map_eq_some_iff] at hx'
    obtain ⟨x, hx, rfl⟩ := hx'
    obtain ⟨hilt, hil⟩ := mem_liveIds.mp (mem_of_getElem? hi)
    refine ⟨i, x, hi, hx, rfl, fun k hk => ?_⟩
    have hki := hc i x hx k hk
    exact ⟨hki, h.index_getElem? (hki.trans hilt) (hmarked i (Nat.zero_le i) hil x hx k hk)⟩
  have hclosed : Closed irSrcs st.2 := by
    intro j x' hx' k hk
    obtain ⟨i, x, hi, hx, rfl, hsrc⟩ := hfrom j x' hx'
    rw [irSrcs_rename, mem_map] at hk
    obtain ⟨k, hk, rfl⟩ := hk
    obtain ⟨hki, hidx⟩ := hsrc k hk
    exact liveIds_lt hidx hi hki
  refine ⟨hclosed, ?_⟩
  have hval : ∀ j < st.2.length, (irLang A env).val st.2 j =
      (irLang A env).val code ((liveIds live code.length).getD j 0) := by
    refine Lang.val_embed hc hclosed fun j x' hx' => ?_
    obtain ⟨i, x, hi, hx, rfl, hsrc⟩ := hfrom j x' hx'
    refine ⟨x, by rw [getD_eq_getElem?_getD, hi]; exact hx, fun f g hfg => ?_⟩
    refine evalInst_rename fun k hk => ?_
    rw [hfg (st.1 k) (by
      show st.1 k ∈ irSrcs (x.rename st.1)
      rw [irSrcs_rename]
      exact mem_map_of_mem hk), getD_eq_getElem?_getD, (hsrc k hk).2]
    rfl
  have hlive_val : ∀ k, k < code.length → live k = true →
      (irLang A env).val st.2 (st.1 k) = (irLang A env).val code k := by
    intro k hk hkl
    have hidx := h.index_getElem? hk hkl
    rw [hval (st.1 k) (by rw [h.length]; exact (List.getElem?_eq_some_iff.mp hidx).1),
      getD_eq_getElem?_getD, hidx]
    rfl
  unfold effects
  generalize (irLang A env).val st.2 = cells at hlive_val
  rw [h.code, filterMap_filterMap, filterMap_range _ code, liveIds, filterMap_filter]
  refine filterMap_congr fun i hi => ?_
  have hilt := mem_range.mp hi
  rw [List.getElem?_eq_getElem hilt]
  split
  · rename_i hil
    refine effect_rename fun k hk => ?_
    have hki := hc i _ (List.getElem?_eq_getElem hilt) k hk
    exact hlive_val k (hki.trans hilt)
      (hmarked i (Nat.zero_le i) hil _ (List.getElem?_eq_getElem hilt) k hk)
  · rename_i hil
    refine (effect_eq_none ?_).symm
    cases he : hasEffect code[i].op with
    | false => rfl
    | true => exact absurd (heffect i _ (List.getElem?_eq_getElem hilt) he) hil

end Renumbering

section Emitting

variable {K : Type} {lw : Lw} {ir : Ir K}

/-! ## Emitting effects -/

/-- `m` appends the instructions `xs`. -/
def Appends (m : Build K Unit) (xs : List (IrInst K)) : Prop :=
  ∀ ir u ir', m ir = .ok (u, ir') → ir'.code = ir.code ++ xs

theorem appends_forM {α : Type} {f : α → Build K Unit} {g : α → List (IrInst K)} {l : List α}
    (h : ∀ a, Appends (f a) (g a)) : Appends (l.forM f) (l.flatMap g) := by
  induction l with
  | nil =>
    intro ir u ir' heq
    cases heq
    exact (append_nil _).symm
  | cons a l ih =>
    intro ir u ir' heq
    obtain ⟨u₁, ir₁, h1, h2⟩ := bind_ok heq
    rw [ih ir₁ u ir' h2, h a ir u₁ ir₁ h1, flatMap_cons, append_assoc]

/-- The slots of `n` output registers. -/
def outputSlots (n : ℕ) : List (ℕ × Fin 4) :=
  (List.range n).flatMap fun o => (List.finRange 4).map fun c => (o, c)

theorem mem_outputSlots {n o : ℕ} {c : Fin 4} : (o, c) ∈ outputSlots n ↔ o < n := by
  simp [outputSlots]

theorem foldl_outputs (A : Arith K) (v : ℕ → Fin 4 → K) (slots : List (ℕ × Fin 4))
    (st : (ℕ → Fin 4 → K) × Bool) :
    (slots.map fun slot => (⟨.output, irSlot slot.1 slot.2, v slot.1 slot.2⟩ : Effect K)).foldl
      (applyEffect A) st = (fun o c => if (o, c) ∈ slots then v o c else st.1 o c, st.2) := by
  induction slots generalizing st with
  | nil => simp
  | cons slot slots ih =>
    rw [map_cons, foldl_cons, ih]
    unfold applyEffect
    rw [irSlot_div, slotComp_irSlot]
    refine Prod.ext (funext fun o => funext fun c => ?_) (by simp)
    by_cases hmem : (o, c) ∈ slots
    · simp [hmem]
    · by_cases heq : o = slot.1 ∧ c = slot.2
      · obtain ⟨rfl, rfl⟩ := heq
        simp
      · have hne : (o, c) ≠ slot := fun h => heq ⟨congrArg Prod.fst h, congrArg Prod.snd h⟩
        simp [heq, hne]

variable [DecidableEq K] {cfg : Storage K}

variable {x : IrInst K}

theorem append_effect (hx : hasEffect x.op = true) {s : Src} {ir' : Ir K}
    (h : append cfg x ir = .ok (s, ir')) : ir'.code = ir.code ++ [x] := by
  unfold append at h
  rw [if_neg (by revert hx; cases x.op <;> decide)] at h
  unfold Ir.push at h
  split at h
  · cases h
  · cases h
    rfl

theorem appends_effect (hx : hasEffect x.op = true) :
    Appends (do let _ ← append cfg x; return ()) [x] := by
  intro ir u ir' heq
  obtain ⟨s, ir₁, h1, h2⟩ := bind_ok heq
  cases h2
  exact append_effect hx h1

theorem appends_outputs (A : Arith K) (n : ℕ) :
    Appends ((List.range n).forM (lowerOutput A cfg lw))
      ((outputSlots n).map fun slot => outputInst A lw slot.1 slot.2) := by
  have hone : ∀ o, Appends (lowerOutput A cfg lw o)
      ((List.finRange 4).flatMap fun c => [outputInst A lw o c]) := fun o =>
    appends_forM fun c => appends_effect rfl
  have hall := appends_forM (l := List.range n) hone
  unfold outputSlots
  rw [map_flatMap]
  simp only [map_map]
  convert hall using 3
  simp [map_eq_flatMap]

end Emitting

end MinimalOS.Fgpu
