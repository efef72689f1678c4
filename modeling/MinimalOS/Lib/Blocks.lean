import Mathlib.Data.List.Basic
import Mathlib.Tactic

/-!
# A list in blocks of one size

The blocks `f 0`, `f 1`, … of `w` values each, one behind the other, and a list that is cut into
such blocks.
-/

namespace Blocks

open List

variable {α : Type*} {w : ℕ} {f : ℕ → List α}

/-- The first `n` blocks as one list. -/
def image (f : ℕ → List α) (n : ℕ) : List α := (List.range n).flatMap f

theorem image_succ (f : ℕ → List α) (n : ℕ) : image f (n + 1) = image f n ++ f n := by
  simp [image, range_succ]

theorem image_add (f : ℕ → List α) (m n : ℕ) :
    image f (m + n) = image f m ++ image (fun i => f (m + i)) n := by
  simp [image, range_add, flatMap_map]

theorem length_image (hf : ∀ i, (f i).length = w) (n : ℕ) : (image f n).length = n * w := by
  induction n with
  | zero => simp [image]
  | succ n ih => rw [image_succ, length_append, ih, hf, Nat.succ_mul]

variable {n : ℕ} {l : List α}

theorem take_drop_image (hf : ∀ i, (f i).length = w) {k r c : ℕ} (hk : k < n) (hr : r + c ≤ w) :
    ((image f n).drop (k * w + r)).take c = ((f k).drop r).take c := by
  obtain ⟨m, rfl⟩ := Nat.exists_eq_add_of_lt hk
  have hsplit : image f (k + m + 1) = image f k ++ (f k ++ image (fun i => f (k + 1 + i)) m) := by
    rw [show k + m + 1 = k + 1 + m by omega, image_add, image_succ, append_assoc]
  rw [hsplit, ← drop_drop, drop_left' (length_image hf k),
    drop_append_of_le_length (by rw [hf]; omega), take_append_of_le_length]
  rw [length_drop, hf]
  omega

theorem image_eq (hl : l.length = n * w) (hf : ∀ i < n, f i = (l.drop (i * w)).take w) :
    image f n = l := by
  have hpart : ∀ k ≤ n, image f k = l.take (k * w) := by
    intro k hk
    induction k with
    | zero => simp [image]
    | succ k ih =>
      rw [image_succ, ih (by omega), hf k (by omega), Nat.succ_mul, take_add]
  rw [hpart n le_rfl, ← hl, take_length]

/-- The `w` values of a list from `o` on, with `z` behind its end. -/
def window (z : α) (l : List α) (w o : ℕ) : List α := (List.range w).map fun j => (l[o + j]?).getD z

theorem length_window (z : α) (l : List α) (w o : ℕ) : (window z l w o).length = w := by
  simp [window]

theorem getElem?_window (z : α) (l : List α) {j : ℕ} (o : ℕ) (hj : j < w) :
    (window z l w o)[j]? = some ((l[o + j]?).getD z) := by
  simp [window, hj]

theorem image_window {z : α} (h : l.length ≤ n * w) :
    image (fun i => window z l w (i * w)) n = l ++ List.replicate (n * w - l.length) z := by
  have hlen : (l ++ List.replicate (n * w - l.length) z).length = n * w := by
    rw [length_append, length_replicate]
    omega
  refine image_eq hlen fun i hi => ?_
  have hle : i * w + w ≤ n * w := by
    rw [← Nat.succ_mul]
    exact Nat.mul_le_mul_right w hi
  refine ext_getElem? fun j => ?_
  rw [List.getElem?_take]
  split_ifs with hj
  · rw [getElem?_window z l _ hj, List.getElem?_drop]
    by_cases hl : i * w + j < l.length
    · rw [List.getElem?_append_left hl, List.getElem?_eq_getElem hl]
      rfl
    · rw [List.getElem?_append_right (not_lt.mp hl), List.getElem?_eq_none (not_lt.mp hl),
        List.getElem?_replicate_of_lt (by omega)]
      rfl
  · exact List.getElem?_eq_none (by rw [length_window]; omega)

end Blocks
