import Mathlib.Data.List.Chain

/-!
# Doubly linked lists

The nodes of a doubly linked list, kept by two link functions `n` and `p` and a null pointer
`z`. The list head is read as the forward link of `z`, so that there is one kind of link and the
ends of the list need no case of their own.

`Linked.splice` is the one rule for edits: replace a stretch of the list, provided the links of
the nodes on both sides that do not face the stretch are left alone.
-/

namespace LinkedChain

open List

variable {α : Type*} {n p n' p' : α → α} {z : α}

/-- `y` follows `x`; the backward link of the null pointer is not stored. -/
def Link (n p : α → α) (z x y : α) : Prop := n x = y ∧ (y ≠ z → p y = x)

/-- The nodes `l` in order, from the head to the null pointer. -/
def Linked (n p : α → α) (z : α) (l : List α) : Prop :=
  List.IsChain (Link n p z) (z :: (l ++ [z]))

/-- A chain keeps when the forward links of all but its last node, and the backward links of
all but its first, are kept. -/
theorem isChain_congr :
    ∀ {l : List α}, List.IsChain (Link n p z) l → (∀ u ∈ l.dropLast, n' u = n u) →
      (∀ u ∈ l.tail, u ≠ z → p' u = p u) → List.IsChain (Link n' p' z) l := by
  intro l
  induction l with
  | nil => intro _ _ _; exact .nil
  | cons x l ih =>
    intro h hn hp
    cases l with
    | nil => exact .singleton x
    | cons y l =>
      rw [isChain_cons_cons] at h ⊢
      refine ⟨⟨(hn x (by simp)).trans h.1.1, fun hy => (hp y (by simp) hy).trans (h.1.2 hy)⟩, ?_⟩
      refine ih h.2 (fun u hu => hn u (by rw [dropLast_cons_cons]; exact .tail _ hu)) ?_
      exact fun u hu => hp u (mem_of_mem_tail hu)

variable {l l₁ l₂ : List α}

theorem head_eq (h : Linked n p z l) : n z = l.headD z := by
  cases l with
  | nil => exact (isChain_cons_cons.mp h).1.1
  | cons x l => exact (isChain_cons_cons.mp h).1.1

theorem Linked.node {x : α} (h : Linked n p z (l₁ ++ x :: l₂)) :
    n x = l₂.headD z ∧ (x ≠ z → p x = l₁.getLastD z) := by
  unfold Linked at h
  rw [append_assoc, ← cons_append] at h
  obtain ⟨h₁, h₂⟩ := isChain_split.mp h
  constructor
  · cases l₂ with
    | nil => exact (isChain_cons_cons.mp h₂).1.1
    | cons y l => exact (isChain_cons_cons.mp h₂).1.1
  · rcases eq_nil_or_concat l₁ with rfl | ⟨l, y, rfl⟩
    · exact (isChain_cons_cons.mp h₁).1.2
    · rw [concat_eq_append, getLastD_concat]
      rw [concat_eq_append, ← cons_append, append_assoc] at h₁
      exact (isChain_cons_cons.mp (isChain_split.mp h₁).2).1.2

theorem ne_getLastD_of_mem_dropLast {u : α} (hnd : (z :: l).Nodup) (hu : u ∈ (z :: l).dropLast) :
    u ≠ l.getLastD z := by
  rcases eq_nil_or_concat l with rfl | ⟨l, x, rfl⟩
  · exact absurd hu (by simp)
  · rw [concat_eq_append, ← cons_append] at hu hnd
    rw [dropLast_concat] at hu
    rw [concat_eq_append, getLastD_concat]
    rintro rfl
    exact (nodup_append.mp hnd).2.2 u hu u (by simp) rfl

theorem ne_headD_of_mem_tail {u : α} (hnd : l.Nodup) (hu : u ∈ l.tail) : u ≠ l.headD z := by
  cases l with
  | nil => simp at hu
  | cons x l =>
    rintro rfl
    exact (nodup_cons.mp hnd).1 hu

theorem headD_eq_or_mem (l : List α) : l.headD z = z ∨ l.headD z ∈ l := by
  cases l <;> simp

theorem getLastD_eq_or_mem (l : List α) : l.getLastD z = z ∨ l.getLastD z ∈ l := by
  rcases eq_nil_or_concat l with rfl | ⟨l, x, rfl⟩
  · exact Or.inl rfl
  · exact Or.inr (by simp)

/-- Replace the stretch `old` by `mid`: only the forward link of the node before it and the
backward link of the node after it change. -/
theorem Linked.splice {old mid : List α} (h : Linked n p z (l₁ ++ (old ++ l₂)))
    (hnd : (z :: (l₁ ++ l₂)).Nodup) (hn : ∀ u ∈ z :: (l₁ ++ l₂), u ≠ l₁.getLastD z → n' u = n u)
    (hp : ∀ u ∈ l₁ ++ l₂, u ≠ l₂.headD z → p' u = p u)
    (hmid : List.IsChain (Link n' p' z) (l₁.getLastD z :: (mid ++ [l₂.headD z]))) :
    Linked n' p' z (l₁ ++ (mid ++ l₂)) := by
  obtain ⟨hz, hnd₁, hnd₂, hdis⟩ : z ∉ l₁ ++ l₂ ∧ l₁.Nodup ∧ l₂.Nodup ∧
      ∀ a ∈ l₁, ∀ b ∈ l₂, a ≠ b := by
    rw [nodup_cons, nodup_append] at hnd
    exact hnd
  rw [mem_append, not_or] at hz
  have hn₁ : ∀ u ∈ (z :: l₁).dropLast, n' u = n u := by
    intro u hu
    refine hn u ?_ (ne_getLastD_of_mem_dropLast (nodup_cons.mpr ⟨hz.1, hnd₁⟩) hu)
    have := dropLast_subset _ hu
    rw [mem_cons] at this
    rw [mem_cons, mem_append]
    exact this.imp_right Or.inl
  have hp₁ : ∀ u ∈ l₁, p' u = p u := by
    intro u hu
    refine hp u (mem_append_left _ hu) fun heq => ?_
    rcases headD_eq_or_mem (z := z) l₂ with h | h
    · exact hz.1 (h ▸ heq ▸ hu)
    · exact hdis u hu _ h heq
  have hn₂ : ∀ u ∈ l₂, n' u = n u := by
    intro u hu
    refine hn u (mem_cons_of_mem _ (mem_append_right _ hu)) fun heq => ?_
    rcases getLastD_eq_or_mem (z := z) l₁ with h | h
    · exact hz.2 (h ▸ heq ▸ hu)
    · exact hdis _ h u hu heq.symm
  have hp₂ : ∀ u ∈ l₂.tail, p' u = p u := fun u hu =>
    hp u (mem_append_right _ (mem_of_mem_tail hu)) (ne_headD_of_mem_tail hnd₂ hu)
  obtain ⟨a, x, hx⟩ : ∃ a x, z :: l₁ = a ++ [x] :=
    ⟨_, _, (dropLast_append_getLast (cons_ne_nil z l₁)).symm⟩
  obtain ⟨y, b, hy⟩ : ∃ y b, l₂ ++ [z] = y :: b :=
    exists_cons_of_ne_nil (by simp)
  have hlast : l₁.getLastD z = x := by
    rcases eq_nil_or_concat l₁ with rfl | ⟨l, w, rfl⟩
    · rw [← nil_append [z]] at hx
      simpa using append_inj_right' hx rfl
    · rw [concat_eq_append, ← cons_append] at hx
      simpa using append_inj_right' hx rfl
  have hhead : l₂.headD z = y := by
    cases l₂ with
    | nil => simpa using (List.cons.inj hy).1
    | cons w l => exact (List.cons.inj hy).1
  have hsides : List.IsChain (Link n p z) (a ++ [x]) ∧ List.IsChain (Link n p z) (y :: b) := by
    unfold Linked at h
    rw [append_assoc, append_assoc, ← cons_append, hx, hy, append_assoc] at h
    refine ⟨(isChain_split.mp h).1, ?_⟩
    exact (isChain_split.mp h).2.suffix ⟨x :: old, by simp⟩
  unfold Linked
  rw [append_assoc, append_assoc, ← cons_append, hx, hy, append_assoc,
    singleton_append, isChain_split]
  rw [hlast, hhead] at hmid
  refine ⟨isChain_congr hsides.1 ?_ ?_, ?_⟩
  · rwa [← hx]
  · rw [← hx]
    exact fun u hu _ => hp₁ u hu
  · rw [← cons_append, isChain_split]
    refine ⟨hmid, isChain_congr hsides.2 ?_ ?_⟩
    · rw [← hy, dropLast_concat]
      exact hn₂
    · intro u hu huz
      apply hp₂
      rw [← hy] at hu
      cases l₂ with
      | nil => simp at hu
      | cons w l =>
        rw [cons_append, tail_cons, mem_append, mem_singleton] at hu
        exact hu.resolve_right huz

end LinkedChain
