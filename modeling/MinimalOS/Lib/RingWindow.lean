import Mathlib.Data.List.Basic
import Mathlib.Tactic

/-!
# Ring windows

A ring of `N` cells is written one symbol at a time. Started at cell `s`, it holds symbol `j`
of everything written so far in cell `(s + j) % N`, as long as fewer than `N` further symbols
followed it (`Holds`). Pushing a symbol keeps this relation (`Holds.push`), so a reader that
looks back at most `N` symbols finds them (`Holds.read`), even at distance exactly `N`: the cell
of that symbol is the one the next push overwrites.
-/

namespace RingWindow

/-- A ring of cells and the cell written next. -/
structure Window (α : Type*) where
  cell : ℕ → α
  next : ℕ

variable {α : Type*} {N s : ℕ}

def Window.push (N : ℕ) (w : Window α) (c : α) : Window α :=
  ⟨Function.update w.cell w.next c, (w.next + 1) % N⟩

@[simp] theorem Window.push_cell (N : ℕ) (w : Window α) (c : α) :
    (w.push N c).cell = Function.update w.cell w.next c := rfl

@[simp] theorem Window.push_next (N : ℕ) (w : Window α) (c : α) :
    (w.push N c).next = (w.next + 1) % N := rfl

/-- `w` is what pushing the symbols `out` from cell `s` leaves: symbol `j` is still in its cell
while at most `N` symbols have been written from it on. -/
structure Holds (N s : ℕ) (w : Window α) (out : List α) : Prop where
  next_eq : w.next = (s + out.length) % N
  cell_eq : ∀ j (hj : j < out.length), out.length ≤ j + N → w.cell ((s + j) % N) = out[j]

variable {w : Window α} {out : List α}

theorem holds_nil (h : w.next = s % N) : Holds N s w [] where
  next_eq := by rw [h]; rfl
  cell_eq := by intro j hj; simp at hj

theorem cell_ne {a b : ℕ} (hlt : a < b) (hN : b < a + N) : (s + a) % N ≠ (s + b) % N := by
  intro h
  have hmod : (b - a) % N = 0 := by
    have h1 : (s + a) ≡ (s + b) [MOD N] := h
    have h2 := (Nat.modEq_iff_dvd' (by omega)).mp h1
    rw [show s + b - (s + a) = b - a by omega] at h2
    exact Nat.mod_eq_zero_of_dvd h2
  rw [Nat.mod_eq_of_lt (by omega)] at hmod
  omega

theorem Holds.push (h : Holds N s w out) (c : α) :
    Holds N s (w.push N c) (out ++ [c]) where
  next_eq := by
    rw [Window.push_next, h.next_eq, List.length_append, List.length_singleton, Nat.mod_add_mod, Nat.add_assoc]
  cell_eq := by
    intro j hj hjN
    rw [List.length_append, List.length_singleton] at hj hjN
    rw [Window.push_cell]
    rcases Nat.lt_or_ge j out.length with hlt | hge
    · -- an older symbol: its cell is not the one just written
      have hne : (s + j) % N ≠ (s + out.length) % N := cell_ne hlt (by omega)
      rw [h.next_eq, Function.update_of_ne hne, h.cell_eq j hlt (by omega),
        List.getElem_append_left hlt]
    · obtain rfl : j = out.length := by omega
      rw [h.next_eq]
      simp

theorem Holds.read (h : Holds N s w out) {j : ℕ} (hj : j < out.length) (hN : out.length ≤ j + N) :
    w.cell ((s + j) % N) = out[j] :=
  h.cell_eq j hj hN

end RingWindow
