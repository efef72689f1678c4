import Mathlib.Data.List.Basic
import Mathlib.Tactic

/-!
# Lists of intervals

A set of numbers below a bound, kept as a list of half-open intervals: in order, none empty, no two
touching. The elements of the list are anything with a lower and an upper end.
-/

namespace Intervals

open List

variable {α : Type} {lo hi : α → ℕ} {n : ℕ} {l m : List α} {x : α}

/-- The numbers in some interval of the list. -/
def Covers (lo hi : α → ℕ) (l : List α) (b : ℕ) : Prop := ∃ x ∈ l, lo x ≤ b ∧ b < hi x

@[simp] theorem covers_nil (b : ℕ) : ¬ Covers lo hi [] b := by
  rintro ⟨x, hx, -⟩
  cases hx

@[simp] theorem covers_cons (b : ℕ) :
    Covers lo hi (x :: l) b ↔ (lo x ≤ b ∧ b < hi x) ∨ Covers lo hi l b := by
  simp [Covers]

@[simp] theorem covers_append (b : ℕ) :
    Covers lo hi (l ++ m) b ↔ Covers lo hi l b ∨ Covers lo hi m b := by
  simp only [Covers, mem_append, or_and_right, exists_or]

/-- In order, none empty, with a gap between any two, all below `n`. -/
structure Spread (lo hi : α → ℕ) (n : ℕ) (l : List α) : Prop where
  apart : l.Pairwise fun x y => hi x < lo y
  proper : ∀ x ∈ l, lo x < hi x
  within : ∀ x ∈ l, hi x ≤ n

theorem spread_nil : Spread lo hi n [] := ⟨List.Pairwise.nil, nofun, nofun⟩

theorem spread_cons : Spread lo hi n (x :: l) ↔
    lo x < hi x ∧ hi x ≤ n ∧ (∀ y ∈ l, hi x < lo y) ∧ Spread lo hi n l := by
  constructor
  · rintro ⟨hapart, hproper, hwithin⟩
    obtain ⟨hx, hl⟩ := pairwise_cons.mp hapart
    exact ⟨hproper x mem_cons_self, hwithin x mem_cons_self, hx, hl,
      fun y hy => hproper y (mem_cons_of_mem x hy),
      fun y hy => hwithin y (mem_cons_of_mem x hy)⟩
  · rintro ⟨hproper, hwithin, hx, hl⟩
    refine ⟨pairwise_cons.mpr ⟨hx, hl.apart⟩, fun y hy => ?_, fun y hy => ?_⟩
    · rcases mem_cons.mp hy with rfl | hy
      · exact hproper
      · exact hl.proper y hy
    · rcases mem_cons.mp hy with rfl | hy
      · exact hwithin
      · exact hl.within y hy

theorem spread_append : Spread lo hi n (l ++ m) ↔
    Spread lo hi n l ∧ Spread lo hi n m ∧ ∀ x ∈ l, ∀ y ∈ m, hi x < lo y := by
  constructor
  · rintro ⟨hapart, hproper, hwithin⟩
    obtain ⟨hl, hm, hlm⟩ := pairwise_append.mp hapart
    exact ⟨⟨hl, fun x hx => hproper x (mem_append_left m hx),
        fun x hx => hwithin x (mem_append_left m hx)⟩,
      ⟨hm, fun x hx => hproper x (mem_append_right l hx),
        fun x hx => hwithin x (mem_append_right l hx)⟩, hlm⟩
  · rintro ⟨hl, hm, hlm⟩
    refine ⟨pairwise_append.mpr ⟨hl.apart, hm.apart, hlm⟩, fun x hx => ?_, fun x hx => ?_⟩
    · exact (mem_append.mp hx).elim (hl.proper x) (hm.proper x)
    · exact (mem_append.mp hx).elim (hl.within x) (hm.within x)

def size (lo hi : α → ℕ) (l : List α) : ℕ := (l.map fun x => hi x - lo x).sum

@[simp] theorem size_nil : size lo hi [] = 0 := rfl

@[simp] theorem size_cons : size lo hi (x :: l) = hi x - lo x + size lo hi l := rfl

@[simp] theorem size_append : size lo hi (l ++ m) = size lo hi l + size lo hi m := by
  simp [size]

theorem Spread.size_add_le (h : Spread lo hi n l) {k : ℕ} (hk : ∀ x ∈ l, k ≤ lo x) (hkn : k ≤ n) :
    size lo hi l + k ≤ n := by
  induction l generalizing k with
  | nil => simpa using hkn
  | cons x l ih =>
    obtain ⟨hproper, hwithin, hx, hl⟩ := spread_cons.mp h
    have hrest := ih hl (fun y hy => (hx y hy).le) hwithin
    have hkx := hk x mem_cons_self
    rw [size_cons]
    omega

theorem Spread.size_le (h : Spread lo hi n l) : size lo hi l ≤ n :=
  h.size_add_le (fun _ _ => Nat.zero_le _) (Nat.zero_le n)

end Intervals
