import Mathlib.Data.List.Induction
import Mathlib.Data.List.GetD

/-!
# Straight-line code

Code is a list of instructions, each defining one value from the values of earlier instructions.
A `Lang` says which values an instruction reads and what it computes. Appending instructions
changes no earlier value, in closed code every value satisfies its own instruction's equation
(`Lang.val_eq`), and code embedded into other code computes the values there (`Lang.val_embed`).
-/

namespace StraightLine

open List

/-- What instructions read and compute. `dflt` stands for a value that does not exist. -/
structure Lang (ι V : Type*) where
  srcs : ι → List ℕ
  sem : ι → (ℕ → V) → V
  sem_congr : ∀ x f g, (∀ i ∈ srcs x, f i = g i) → sem x f = sem x g
  dflt : V

variable {ι V : Type*}

/-- Instructions read only values defined before them. -/
def Closed (srcs : ι → List ℕ) (code : List ι) : Prop :=
  ∀ i x, code[i]? = some x → ∀ k ∈ srcs x, k < i

theorem closed_nil (srcs : ι → List ℕ) : Closed srcs [] := fun _ _ h => by cases h

variable {srcs : ι → List ℕ} {code rest : List ι}

theorem Closed.left (h : Closed srcs (code ++ rest)) : Closed srcs code := by
  intro i x hx
  refine h i x ?_
  rw [List.getElem?_append_left (List.getElem?_eq_some_iff.mp hx).1]
  exact hx

theorem Closed.append (hc : Closed srcs code) (hrest : ∀ x ∈ rest, ∀ k ∈ srcs x, k < code.length) :
    Closed srcs (code ++ rest) := by
  intro i y hy k hk
  rcases Nat.lt_or_ge i code.length with hlt | hge
  · rw [List.getElem?_append_left hlt] at hy
    exact hc i y hy k hk
  · rw [List.getElem?_append_right hge] at hy
    exact Nat.lt_of_lt_of_le (hrest y (mem_of_getElem? hy) k hk) hge

namespace Lang

variable (L : Lang ι V)

def push (vs : List V) (x : ι) : List V := vs ++ [L.sem x fun i => vs.getD i L.dflt]

def values (code : List ι) : List V := code.foldl L.push []

/-- The value of instruction `i`. -/
def val (code : List ι) (i : ℕ) : V := (L.values code).getD i L.dflt

variable {L}

theorem values_concat (code : List ι) (x : ι) :
    L.values (code ++ [x]) = L.values code ++ [L.sem x (L.val code)] := by
  unfold values
  rw [foldl_append]
  rfl

@[simp]
theorem length_values (code : List ι) : (L.values code).length = code.length := by
  induction code using List.reverseRecOn with
  | nil => rfl
  | append_singleton code x ih => rw [values_concat, length_append, length_append, ih]; rfl

variable {code code' : List ι} {i : ℕ}

theorem val_append (hi : i < code.length) : L.val (code ++ rest) i = L.val code i := by
  induction rest using List.reverseRecOn with
  | nil => rw [append_nil]
  | append_singleton rest x ih =>
    rw [← ih, ← append_assoc]
    unfold val
    rw [values_concat, getD_append _ _ _ _ (by
      rw [length_values, length_append]; omega)]

theorem val_extend (h : code <+: code') (hi : i < code.length) : L.val code' i = L.val code i := by
  obtain ⟨rest, rfl⟩ := h
  exact val_append hi

theorem val_eq (hc : Closed L.srcs code) {x : ι} (hx : code[i]? = some x) :
    L.val code i = L.sem x (L.val code) := by
  obtain ⟨hi, rfl⟩ := List.getElem?_eq_some_iff.mp hx
  have hsplit : code = code.take i ++ [code[i]] ++ code.drop (i + 1) := by
    rw [append_assoc, singleton_append, getElem_cons_drop,
      take_append_drop]
  have hlen : (code.take i).length = i := by rw [length_take]; omega
  have hval : L.val code i = L.sem code[i] (L.val (code.take i)) := by
    conv_lhs => rw [hsplit]
    rw [val_append (by rw [length_append, hlen]; exact Nat.lt_succ_self i)]
    unfold val
    rw [values_concat, getD_append_right _ _ _ _ (by simp [hlen]),
      length_values,
      hlen, Nat.sub_self]
    rfl
  rw [hval]
  apply L.sem_congr
  intro k hk
  have hki := hc i _ hx k hk
  have htake : code.take i <+: code := take_prefix i code
  exact (val_extend htake (by rw [hlen]; exact hki)).symm

/-- Code `code'` that repeats instructions of `code`, reading the values at the places `pos`
its own come from, computes the values at those places. -/
theorem val_embed (hc : Closed L.srcs code) (hc' : Closed L.srcs code') {pos : ℕ → ℕ}
    (h : ∀ j x', code'[j]? = some x' → ∃ x, code[pos j]? = some x ∧
      ∀ f g, (∀ k ∈ L.srcs x', f k = g (pos k)) → L.sem x' f = L.sem x g) :
    ∀ j < code'.length, L.val code' j = L.val code (pos j) := by
  intro j
  induction j using Nat.strongRecOn with
  | ind j ih =>
    intro hj
    have hx' := List.getElem?_eq_getElem hj
    obtain ⟨x, hx, hsem⟩ := h j _ hx'
    rw [val_eq hc' hx', val_eq hc hx]
    exact hsem _ _ fun k hk => by
      have hkj := hc' j _ hx' k hk
      exact ih k hkj (by omega)

end Lang

end StraightLine
