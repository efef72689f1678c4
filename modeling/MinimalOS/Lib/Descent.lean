import Mathlib.Data.Finset.Card
import Mathlib.Data.List.Chain
import Mathlib.Logic.Relation

/-!
# How far a relation leads

A recursion that follows a relation from `a` goes `n` levels deep if `n` steps can be made from
there. Over finitely many elements there is a bound on that exactly when no element that can be
reached is reached from itself again. A loop reaches its end if each of its steps lowers a
potential.
-/

namespace Descent

open Relation

variable {α : Type*} {r : α → α → Prop} {a b : α} {n : ℕ}

/-- `n` steps can be made from an element. -/
def Deep (r : α → α → Prop) : ℕ → α → Prop
  | 0, _ => True
  | n + 1, a => ∃ b, r a b ∧ Deep r n b

theorem Deep.pred (h : Deep r (n + 1) a) : Deep r n a := by
  induction n generalizing a with
  | zero => trivial
  | succ n ih =>
    obtain ⟨b, hab, hb⟩ := h
    exact ⟨b, hab, ih hb⟩

theorem Deep.of_reaches (hab : ReflTransGen r a b) (h : Deep r n b) : Deep r n a := by
  induction hab using ReflTransGen.head_induction_on with
  | refl => exact h
  | head hac _ ih => exact Deep.pred ⟨_, hac, ih⟩

theorem deep_of_cycle (hab : ReflTransGen r a b) (hcycle : TransGen r b b) (n : ℕ) :
    Deep r n a := by
  refine Deep.of_reaches hab ?_
  induction n with
  | zero => trivial
  | succ n ih =>
    obtain ⟨c, hbc, hcb⟩ := TransGen.head'_iff.mp hcycle
    exact ⟨c, hbc, ih.of_reaches hcb⟩

theorem Deep.chain (h : Deep r n a) : ∃ l : List α, l.length = n ∧ (a :: l).IsChain r := by
  induction n generalizing a with
  | zero => exact ⟨[], rfl, .singleton a⟩
  | succ n ih =>
    obtain ⟨b, hab, hb⟩ := h
    obtain ⟨l, hl, hchain⟩ := ih hb
    exact ⟨b :: l, by rw [List.length_cons, hl], List.isChain_cons_cons.mpr ⟨hab, hchain⟩⟩

theorem not_deep {s : Finset α} (hs : ∀ a b, r a b → b ∈ s)
    (hacyclic : ∀ b, ReflTransGen r a b → ¬ TransGen r b b) : ¬ Deep r (s.card + 1) a := by
  classical
  intro h
  obtain ⟨l, hlen, hchain⟩ := h.chain
  have hpair : (a :: l).Pairwise (TransGen r) :=
    List.isChain_iff_pairwise.mp (hchain.imp fun _ _ => TransGen.single)
  obtain ⟨hreach, hpair⟩ := List.pairwise_cons.mp hpair
  have hnodup : l.Nodup := by
    refine hpair.imp_of_mem fun {b c} hb hc hbc heq => ?_
    subst heq
    exact hacyclic b (hreach b hb).to_reflTransGen hbc
  have hsub : l.toFinset ⊆ s := by
    intro b hb
    obtain ⟨c, -, hcb⟩ := TransGen.tail'_iff.mp (hreach b (List.mem_toFinset.mp hb))
    exact hs c b hcb
  have hcard := Finset.card_le_card hsub
  rw [List.toFinset_card_of_nodup hnodup] at hcard
  omega

/-- If each step that is needed can be made at the cost of some potential, the end is reached. -/
theorem exists_reaches {Good Final : α → Prop} (μ : α → ℕ)
    (hstep : ∀ a, Good a → ¬ Final a → ∃ b, r a b ∧ Good b ∧ μ b < μ a) (ha : Good a) :
    ∃ b, ReflTransGen r a b ∧ Good b ∧ Final b := by
  induction hn : μ a using Nat.strong_induction_on generalizing a with
  | _ n ih =>
    by_cases hfinal : Final a
    · exact ⟨a, .refl, ha, hfinal⟩
    · obtain ⟨b, hab, hb, hless⟩ := hstep a ha hfinal
      obtain ⟨c, hbc, hc⟩ := ih (μ b) (hn ▸ hless) hb rfl
      exact ⟨c, hbc.head hab, hc⟩

end Descent
