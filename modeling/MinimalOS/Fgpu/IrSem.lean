import MinimalOS.Fgpu.Exact
import MinimalOS.Fgpu.Ir
import MinimalOS.Lib.Growth
import MinimalOS.Lib.StraightLine

/-!
# What the builder emits

IR code is straight-line code (`irLang`). `Den ir s v` says that source `s` has the value `v` in
the code built so far, and `Emits Γ m v` that `m`, given sources with the values `Γ`, returns a
source with the value `v`. Sharing, folding, the simplifications and the canonical order return
sources of the value the plain instruction would have (`emits_op3`).

Values are those of one thread, so the thread's inputs `env` are fixed throughout.
-/

namespace MinimalOS.Fgpu

open Growth StraightLine List

section Lang

variable {K : Type} (A : Arith K) (env : IrEnv K)

/-! ## Code as straight-line code -/

theorem irSlot_div (index : ℕ) (k : Fin 4) : irSlot index k / 4 = index := by
  unfold irSlot
  omega

theorem slotComp_irSlot (index : ℕ) (k : Fin 4) : slotComp (irSlot index k) = k := by
  apply Fin.ext
  show (index * 4 + k.val) % 4 = k.val
  omega

def irSrcs (x : IrInst K) : List ℕ := x.src.map Src.value

variable {f g : ℕ → Cell K}

theorem Src.get_congr {s : Src} (h : f s.value = g s.value) : s.get A f = s.get A g := by
  unfold Src.get
  rw [h]

theorem IrInst.arg_congr {x : IrInst K} (h : ∀ i ∈ irSrcs x, f i = g i) (n : ℕ) :
    x.arg A f n = x.arg A g n := by
  unfold IrInst.arg
  cases hs : x.src[n]? with
  | none => rfl
  | some s => exact Src.get_congr A (h _ (mem_map_of_mem (mem_of_getElem? hs)))

theorem evalInst_congr (x : IrInst K) (f g : ℕ → Cell K) (h : ∀ i ∈ irSrcs x, f i = g i) :
    evalInst A env x f = evalInst A env x g := by
  have harg := IrInst.arg_congr A h
  have htexel : ∀ s, x.src[0]? = some s → f s.value = g s.value := fun s hs =>
    h _ (mem_map_of_mem (mem_of_getElem? hs))
  unfold evalInst
  rw [harg 0, harg 1, harg 2]
  cases hs : x.src[0]? with
  | none => rfl
  | some s => simp only [htexel s hs]

def irLang : Lang (IrInst K) (Cell K) where
  srcs := irSrcs
  sem := evalInst A env
  sem_congr := evalInst_congr A env
  dflt := noCell A

/-- The code grows by instructions without effect, and stays closed. -/
instance : Preorder (Ir K) where
  le ir ir' := ∃ rest, ir'.code = ir.code ++ rest ∧ (∀ x ∈ rest, hasEffect x.op = false) ∧
    (Closed irSrcs ir.code → Closed irSrcs ir'.code)
  le_refl ir := ⟨[], (append_nil _).symm, fun _ h => by simp at h, id⟩
  le_trans := by
    rintro a b c ⟨r, hr, hre, hrc⟩ ⟨t, ht, hte, htc⟩
    refine ⟨r ++ t, by rw [ht, hr, append_assoc], fun x hx => ?_, htc ∘ hrc⟩
    rcases mem_append.mp hx with h | h
    · exact hre x h
    · exact hte x h

/-- Source `s` has the value `v`. -/
structure Den (ir : Ir K) (s : Src) (v : K) : Prop where
  lt : s.value < ir.code.length
  get : s.get A ((irLang A env).val ir.code) = v

/-- The code is closed and its sources have the values listed. -/
structure Sat (Γ : List (Src × K)) (ir : Ir K) : Prop where
  closed : Closed irSrcs ir.code
  den : ∀ e ∈ Γ, Den A env ir e.1 e.2

/-- From sources with the values `Γ`, `m` returns one with the value `v`. -/
def Emits (Γ : List (Src × K)) (m : Build K Src) (v : K) : Prop :=
  Builds (Sat A env Γ) m fun s ir => Den A env ir s v

end Lang

section Emits

variable {K : Type} {A : Arith K} {env : IrEnv K} {ir ir' : Ir K} {s : Src} {v w : K}
  {Γ Δ : List (Src × K)}

theorem Den.extend (h : Den A env ir s v) (hpre : ir.code <+: ir'.code) : Den A env ir' s v := by
  refine ⟨lt_of_lt_of_le h.lt hpre.length_le, ?_⟩
  rw [← h.get]
  exact Src.get_congr A (Lang.val_extend hpre h.lt)

theorem Den.mono (h : Den A env ir s v) (hle : ir ≤ ir') : Den A env ir' s v := by
  obtain ⟨rest, hcode, -, -⟩ := hle
  exact h.extend ⟨rest, hcode.symm⟩

theorem Den.unique (h : Den A env ir s v) (h' : Den A env ir s w) : v = w := by
  rw [← h.get, ← h'.get]

theorem monotone_closed : Monotone fun ir : Ir K => Closed irSrcs ir.code :=
  fun _ _ hle h => by
    obtain ⟨-, -, -, hc⟩ := hle
    exact hc h

theorem monotone_sat : Monotone (Sat A env Γ) := fun _ _ hle h =>
  ⟨monotone_closed hle h.closed, fun e he => (h.den e he).mono hle⟩

theorem sat_cons : Sat A env ((s, v) :: Γ) ir ↔ Sat A env Γ ir ∧ Den A env ir s v := by
  constructor
  · intro h
    exact ⟨⟨h.closed, fun e he => h.den e (mem_cons_of_mem _ he)⟩,
      h.den _ mem_cons_self⟩
  · rintro ⟨h, hs⟩
    refine ⟨h.closed, fun e he => ?_⟩
    rcases mem_cons.mp he with rfl | he
    · exact hs
    · exact h.den e he

theorem Sat.of_mem (h : Sat A env Γ ir) (hs : (s, v) ∈ Γ) : Den A env ir s v := h.den _ hs

theorem Sat.subset (h : Sat A env Γ ir) (hsub : Δ ⊆ Γ) : Sat A env Δ ir :=
  ⟨h.closed, fun e he => h.den e (hsub he)⟩

variable {m : Build K Src} {f : Src → Build K Src}

theorem Emits.known (h : (s, v) ∈ Γ) : Emits A env Γ (pure s) v :=
  Builds.pure fun _ hs => hs.of_mem h

theorem Emits.bind (hm : Emits A env Γ m v) (hf : ∀ s, Emits A env ((s, v) :: Γ) (f s) w) :
    Emits A env Γ (m >>= f) w :=
  Builds.bind monotone_sat hm fun s =>
    Builds.mono (hf s) (fun _ h => sat_cons.mpr h) fun _ _ h => h

theorem Emits.eq (hm : Emits A env Γ m v) (h : v = w) : Emits A env Γ m w := h ▸ hm

theorem Emits.subset (hm : Emits A env Δ m v) (h : Δ ⊆ Γ) : Emits A env Γ m v :=
  Builds.mono hm (fun _ hs => hs.subset h) fun _ _ hd => hd

theorem Emits.have (h : ∀ ir, Sat A env Γ ir → Den A env ir s v)
    (hm : Emits A env ((s, v) :: Γ) m w) : Emits A env Γ m w :=
  Builds.mono hm (fun ir hs => sat_cons.mpr ⟨hs, h ir hs⟩) fun _ _ hd => hd

/-! ## Instructions in the code -/

variable {x : IrInst K}

theorem Den.immOf_eq (hs : Den A env ir s v) (hc : Closed irSrcs ir.code)
    (hi : isImm ir s = true) : immOf A ir s = v := by
  unfold isImm at hi
  rw [← hs.get]
  unfold immOf Src.get
  cases hx : ir.code[s.value]? with
  | none =>
    rw [hx] at hi
    cases hi
  | some x =>
    rw [hx] at hi
    have hop : x.op = .imm := of_decide_eq_true hi
    have hcell : (irLang A env).val ir.code s.value =
        evalInst A env x ((irLang A env).val ir.code) := Lang.val_eq hc hx
    unfold evalInst at hcell
    rw [hop] at hcell
    rw [hcell]

theorem Den.of_isConst (hs : Den A env ir s v) (hc : Closed irSrcs ir.code) {k : K}
    (hk : isConst A ir s k = true) : A.eq v k = true := by
  unfold isConst at hk
  rw [Bool.and_eq_true] at hk
  rw [← hs.immOf_eq hc hk.1]
  exact hk.2

/-- The instructions `op3` may emit. -/
def IrOp.arith (op : IrOp) : Bool :=
  op ≠ .imm && op ≠ .input && op ≠ .special && op ≠ .uniform && op ≠ .tex && op ≠ .texc &&
    op ≠ .output && op ≠ .discard

variable {op : IrOp} {args : List (Src × K)} {P : Ir K → Prop}

theorem IrOp.hasEffect_of_arith (h : op.arith = true) : hasEffect op = false := by
  cases op <;> first | rfl | cases h

def irValues (A : Arith K) (op : IrOp) (vs : List K) : K :=
  irValue A op (vs.getD 0 A.zero) (vs.getD 1 A.zero) (vs.getD 2 A.zero)

theorem Sat.arg_eq (hs : Sat A env args ir) (hx : x.src = args.map Prod.fst) (i : ℕ) :
    x.arg A ((irLang A env).val ir.code) i = (args.map Prod.snd).getD i A.zero := by
  unfold IrInst.arg
  rw [hx, List.getElem?_map, getD_eq_getElem?_getD, List.getElem?_map]
  cases he : args[i]? with
  | none => rfl
  | some e => exact (hs.den e (mem_of_getElem? he)).get

theorem evalInst_arith (hop : op.arith = true) (hs : Sat A env args ir)
    (hx : x.src = args.map Prod.fst) (hxop : x.op = op) :
    (evalInst A env x ((irLang A env).val ir.code)).val = irValues A op (args.map Prod.snd) := by
  unfold evalInst
  rw [hs.arg_eq hx 0, hs.arg_eq hx 1, hs.arg_eq hx 2, hxop]
  cases op <;> first | rfl | cases hop

theorem fold_eq {a : ℕ → K} {r : K} (h : fold A op a = some r) :
    r = irValue A op (a 0) (a 1) (a 2) := by
  cases op
  case rcp =>
    unfold fold at h
    dsimp only at h
    split at h
    · cases h
    · exact (Option.some.inj h).symm
  all_goals first | cases h; done | exact (Option.some.inj h).symm

/-- Commutative operations may swap their sources. -/
def Commutes (A : Arith K) : Prop :=
  ∀ op, commutative op = true → ∀ a b c, irValue A op a b c = irValue A op b a c

theorem canonical_eq (hcomm : Commutes A) (op : IrOp) (args : List (Src × K)) :
    ∃ args', canonical op (args.map Prod.fst) = args'.map Prod.fst ∧ args' ⊆ args ∧
      irValues A op (args'.map Prod.snd) = irValues A op (args.map Prod.snd) := by
  have hsame : ∃ args', args.map Prod.fst = args'.map Prod.fst ∧ args' ⊆ args ∧
      irValues A op (args'.map Prod.snd) = irValues A op (args.map Prod.snd) :=
    ⟨args, rfl, List.Subset.refl _, rfl⟩
  match args with
  | [] | [_] | _ :: _ :: _ :: _ => exact hsame
  | [a, b] =>
    simp only [canonical, map_cons, map_nil]
    split
    · rename_i h
      exact ⟨[b, a], rfl, fun e he => by
        simp only [mem_cons, not_mem_nil, or_false] at he ⊢
        exact he.symm, hcomm op h.1 _ _ _⟩
    · exact hsame

variable {a b c : Src}

theorem exists_args₂ (h : args.map Prod.fst = [a, b]) : ∃ x y, args = [(a, x), (b, y)] := by
  match args, h with
  | [e, d], h =>
    simp only [map_cons, map_nil, List.cons.injEq, and_true] at h
    exact ⟨e.2, d.2, by rw [← h.1, ← h.2]⟩

theorem exists_args₃ (h : args.map Prod.fst = [a, b, c]) :
    ∃ x y z, args = [(a, x), (b, y), (c, z)] := by
  match args, h with
  | [e, d, f], h =>
    simp only [map_cons, map_nil, List.cons.injEq, and_true] at h
    exact ⟨e.2, d.2, f.2, by rw [← h.1, ← h.2.1, ← h.2.2]⟩

/-- `r` is `none` or a source of value `v`. -/
def MaybeDen (A : Arith K) (env : IrEnv K) (v : K) (r : Option Src) (ir : Ir K) : Prop :=
  ∀ s, r = some s → Den A env ir s v

theorem builds_none : Builds P (pure none : Build K (Option Src)) (MaybeDen A env v) :=
  Builds.pure fun _ _ _ h => by cases h

theorem builds_some (h : ∀ ir, P ir → Den A env ir s v) :
    Builds P (pure (some s) : Build K (Option Src)) (MaybeDen A env v) :=
  Builds.pure fun ir hP _ hs => Option.some.inj hs ▸ h ir hP

theorem builds_here (h : Den A env ir s v) :
    Builds (· = ir) (pure (some s) : Build K (Option Src)) (MaybeDen A env v) :=
  builds_some fun _ ht => ht ▸ h

theorem Emits.some (h : Emits A env Γ m v) :
    Builds (Sat A env Γ) (m >>= fun s => pure (some s)) (MaybeDen A env v) :=
  Builds.bind monotone_sat h fun _ => builds_some fun _ hs => hs.2

variable [DecidableEq K] {cfg : Storage K}

/-! ## Appending -/

theorem probe_found {size n slot index : ℕ} (h : probe ir x size n slot = .found index) :
    ir.code[index]? = some x := by
  induction n generalizing slot with
  | zero => cases h
  | succ n ih =>
    rw [probe] at h
    split at h
    · cases h
    · split at h
      · rename_i hx
        cases h
        exact hx
      · exact ih h

/-- Source `s` is instruction `x`, without modifiers. -/
def IsInst (x : IrInst K) (s : Src) (ir : Ir K) : Prop :=
  s = { value := s.value } ∧ ir.code[s.value]? = some x

omit [DecidableEq K] in
theorem monotone_isInst : Monotone (IsInst x s) := fun _ _ hle h => by
  obtain ⟨rest, hcode, -, -⟩ := hle
  refine ⟨h.1, ?_⟩
  rw [hcode, List.getElem?_append_left (List.getElem?_eq_some_iff.mp h.2).1]
  exact h.2

omit [DecidableEq K] in
theorem IsInst.cell (h : IsInst x s ir) (hc : Closed irSrcs ir.code) :
    (irLang A env).val ir.code s.value = evalInst A env x ((irLang A env).val ir.code) :=
  Lang.val_eq hc h.2

omit [DecidableEq K] in
theorem IsInst.den (h : IsInst x s ir) (hc : Closed irSrcs ir.code) :
    Den A env ir s (evalInst A env x ((irLang A env).val ir.code)).val := by
  refine ⟨(List.getElem?_eq_some_iff.mp h.2).1, ?_⟩
  rw [← h.cell hc]
  rw [h.1]
  rfl

theorem builds_append (hx : hasEffect x.op = false) :
    Builds (fun ir => Closed irSrcs ir.code ∧ ∀ s ∈ x.src, s.value < ir.code.length)
      (append cfg x) (IsInst x) := by
  rintro ir s ir' ⟨hclosed, hsrc⟩ heq
  unfold append at heq
  rw [if_pos (by revert hx; cases x.op <;> decide)] at heq
  split at heq
  · rename_i index hfound
    cases heq
    exact ⟨le_refl _, rfl, probe_found hfound⟩
  · unfold Ir.push at heq
    split at heq
    · cases heq
    · cases heq
      have hgrow : Closed irSrcs (ir.code ++ [x]) := hclosed.append fun y hy k hk => by
        rw [mem_singleton.mp hy] at hk
        obtain ⟨s, hs, rfl⟩ := mem_map.mp hk
        exact hsrc s hs
      refine ⟨⟨[x], rfl, fun y hy => ?_, fun _ => hgrow⟩, rfl, by simp⟩
      rw [mem_singleton.mp hy]
      exact hx
  · cases heq

section

variable (hx : hasEffect x.op = false) (hsrc : ∀ s ∈ x.src, ∃ v, (s, v) ∈ Γ)

include hx hsrc

theorem builds_append_sat : Builds (Sat A env Γ) (append cfg x) (IsInst x) :=
  Builds.mono (builds_append hx)
    (fun _ hs => ⟨hs.closed, fun s hs' => (hs.den _ (hsrc s hs').choose_spec).lt⟩) fun _ _ h => h

theorem emits_append
    (hv : ∀ ir, Sat A env Γ ir → (evalInst A env x ((irLang A env).val ir.code)).val = v) :
    Emits A env Γ (append cfg x) v :=
  Builds.mono (Builds.keep monotone_sat (builds_append_sat hx hsrc)) (fun _ hs => hs)
    fun _ ir h => hv ir h.1 ▸ h.2.den h.1.closed

end

theorem emits_imm (v : K) : Emits A env Γ (imm cfg v) v :=
  emits_append rfl (fun _ h => by simp at h) fun _ _ => rfl

/-! ## Immediates -/

theorem emits_normalizeImm (h : (s, v) ∈ Γ) : Emits A env Γ (normalizeImm A cfg s) v := by
  refine .bind_get fun ir hs => ?_
  split
  · rename_i hi
    rw [Bool.and_eq_true] at hi
    rw [(hs.of_mem h).immOf_eq hs.closed hi.1]
    exact .mono (emits_imm v) (fun t ht => ht ▸ hs) fun _ _ hd => hd
  · exact .pure fun t ht => ht ▸ hs.of_mem h

theorem builds_normalize (args : List (Src × K)) :
    Builds (Sat A env args) ((args.map Prod.fst).mapM (normalizeImm A cfg)) fun srcs ir =>
      ∃ args', srcs = args'.map Prod.fst ∧ args'.map Prod.snd = args.map Prod.snd ∧
        Sat A env args' ir := by
  induction args with
  | nil =>
    exact .pure fun ir hs => ⟨[], rfl, rfl, hs⟩
  | cons e args ih =>
    rw [map_cons, mapM_cons]
    refine .bind monotone_sat (emits_normalizeImm mem_cons_self) fun s => ?_
    have hmono : Monotone fun ir => Sat A env (e :: args) ir ∧ Den A env ir s e.2 :=
      fun _ _ hle h => ⟨monotone_sat hle h.1, h.2.mono hle⟩
    refine .bind hmono
      (Builds.mono ih (fun ir h => h.1.subset (subset_cons_self e args)) fun _ _ h => h)
      fun srcs => ?_
    refine .pure ?_
    rintro ir ⟨⟨-, hs⟩, args', hsrcs, hsnd, hsat⟩
    refine ⟨(s, e.2) :: args', by rw [hsrcs, map_cons], ?_, sat_cons.mpr ⟨hsat, hs⟩⟩
    rw [map_cons, map_cons, hsnd]

/-! ## Operations on sources -/

/-- A simplification only returns sources that have the instruction's value. -/
def Simplifies (A : Arith K) (env : IrEnv K)
    (simp : IrOp → List Src → Build K (Option Src)) : Prop :=
  ∀ op args, Builds (Sat A env args) (simp op (args.map Prod.fst))
    (MaybeDen A env (irValues A op (args.map Prod.snd)))

theorem builds_op3With {simp : IrOp → List Src → Build K (Option Src)}
    (hsimp : Simplifies A env simp) (hcomm : Commutes A) (hop : op.arith = true)
    (args : List (Src × K)) :
    Emits A env args (op3With A cfg simp op (args.map Prod.fst))
      (irValues A op (args.map Prod.snd)) := by
  refine Builds.bind monotone_sat (builds_normalize args) fun srcs => ?_
  refine .bind_get ?_
  rintro ir ⟨-, args', rfl, hsnd, hs⟩
  rw [← hsnd]
  dsimp only
  split
  · rename_i r hr
    split at hr
    · -- every source is an immediate, so the folded operands are the values
      rename_i hall
      have hvals : (args'.map Prod.fst).map (immOf A ir) = args'.map Prod.snd := by
        rw [map_map]
        refine map_congr_left fun e he => ?_
        exact (hs.den e he).immOf_eq hs.closed
          (all_eq_true.mp hall _ (mem_map_of_mem he))
      rw [hvals] at hr
      rw [fold_eq hr]
      exact .mono (emits_imm _) (fun t ht => ht ▸ hs) fun _ _ h => h
    · cases hr
  · refine .mono ?_ (fun t ht => ht ▸ hs) fun _ _ h => h
    refine .bind monotone_sat (hsimp op args') fun r => ?_
    cases r with
    | some s => exact .pure fun t ht => ht.2 s rfl
    | none =>
      obtain ⟨args'', hsrc, hsub, hval⟩ := canonical_eq hcomm op args'
      refine .mono ?_ (fun t ht => ht.1.subset hsub) fun _ _ h => h
      rw [← hval, hsrc]
      refine emits_append (IrOp.hasEffect_of_arith hop) (fun s hs' => ?_)
        fun t ht => evalInst_arith hop ht rfl rfl
      obtain ⟨e, he, rfl⟩ := mem_map.mp hs'
      exact ⟨e.2, he⟩

end Emits

end MinimalOS.Fgpu
