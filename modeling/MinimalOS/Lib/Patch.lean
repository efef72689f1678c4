import Mathlib.Data.List.Basic
import Mathlib.Tactic

/-!
# Writing into a buffer

A patch is a run of values and the place where it goes. Patches that fit a buffer leave its length
alone, and if no two of them meet, each can be read back after all were written.
-/

namespace Patch

open List

variable {α : Type*}

/-- The `n` values of a buffer from `off` on. -/
def range (buf : List α) (off n : ℕ) : List α := (buf.drop off).take n

def write (buf : List α) (w : ℕ × List α) : List α :=
  buf.take w.1 ++ w.2 ++ buf.drop (w.1 + w.2.length)

def writeAll (buf : List α) (ws : List (ℕ × List α)) : List α := ws.foldl write buf

def Fits (buf : List α) (w : ℕ × List α) : Prop := w.1 + w.2.length ≤ buf.length

def Before (w v : ℕ × List α) : Prop := w.1 + w.2.length ≤ v.1

variable {buf : List α} {w : ℕ × List α} {ws : List (ℕ × List α)}

theorem length_write (h : Fits buf w) : (write buf w).length = buf.length := by
  unfold Fits at h
  simp only [write, length_append, length_take, length_drop]
  omega

theorem length_writeAll (h : ∀ w ∈ ws, Fits buf w) : (writeAll buf ws).length = buf.length := by
  induction ws generalizing buf with
  | nil => rfl
  | cons w ws ih =>
    have hw := length_write (h w mem_cons_self)
    have htail : ∀ v ∈ ws, Fits (write buf w) v := fun v hv => by
      rw [Fits, hw]
      exact h v (mem_cons_of_mem _ hv)
    exact (ih htail).trans hw

theorem getElem?_write (h : Fits buf w) (j : ℕ) : (write buf w)[j]? =
      if w.1 ≤ j ∧ j < w.1 + w.2.length then w.2[j - w.1]? else buf[j]? := by
  unfold Fits at h
  have hlen : (buf.take w.1).length = w.1 := by
    rw [length_take]
    omega
  rw [write, append_assoc]
  by_cases hlow : j < w.1
  · rw [if_neg (by omega), List.getElem?_append_left (by omega), List.getElem?_take_of_lt hlow]
  · rw [List.getElem?_append_right (by omega), hlen]
    by_cases hin : j < w.1 + w.2.length
    · rw [if_pos (by omega), List.getElem?_append_left (by omega)]
    · rw [if_neg (by omega), List.getElem?_append_right (by omega), List.getElem?_drop]
      congr 1
      omega

theorem length_write_max (h : w.1 ≤ buf.length) :
    (write buf w).length = max buf.length (w.1 + w.2.length) := by
  simp only [write, length_append, length_take, length_drop]
  omega

theorem write_of_take {buf' : List α} (h : w.1 ≤ buf.length)
    (hlen : buf'.length = max buf.length (w.1 + w.2.length)) (htake : buf'.take buf.length = buf) :
    write buf' w = write buf w := by
  have hfront : buf'.take w.1 = buf.take w.1 := by
    rw [← htake, take_take, Nat.min_eq_left h]
  by_cases hin : w.1 + w.2.length ≤ buf.length
  · have : buf' = buf := by
      rw [← htake, take_of_length_le (by omega)]
    rw [this]
  · rw [write, write, hfront, drop_eq_nil_of_le (by omega), drop_eq_nil_of_le (by omega)]

theorem range_write_self (h : Fits buf w) : range (write buf w) w.1 w.2.length = w.2 := by
  unfold Fits at h
  rw [range, write, append_assoc, drop_left' (by rw [length_take]; omega),
    take_left' rfl]

theorem range_write_of_le {off n : ℕ} (h : off + n ≤ w.1)
    (hw : Fits buf w) : range (write buf w) off n = range buf off n := by
  unfold Fits at hw
  rw [range, range, write, append_assoc, drop_append_of_le_length
    (by rw [length_take]; omega), take_append_of_le_length
    (by rw [length_drop, length_take]; omega), drop_take, take_take,
    Nat.min_eq_left (by omega)]

theorem range_writeAll_of_le {off n : ℕ} (h : ∀ w ∈ ws, off + n ≤ w.1)
    (hfits : ∀ w ∈ ws, Fits buf w) : range (writeAll buf ws) off n = range buf off n := by
  induction ws generalizing buf with
  | nil => rfl
  | cons w ws ih =>
    have hw := hfits w mem_cons_self
    have htail : ∀ v ∈ ws, Fits (write buf w) v := fun v hv => by
      rw [Fits, length_write hw]
      exact hfits v (mem_cons_of_mem _ hv)
    exact (ih (fun v hv => h v (mem_cons_of_mem _ hv)) htail).trans
      (range_write_of_le (h w mem_cons_self) hw)

theorem range_writeAll (hws : ws.Pairwise Before) (hfits : ∀ w ∈ ws, Fits buf w) (hw : w ∈ ws) :
    range (writeAll buf ws) w.1 w.2.length = w.2 := by
  induction ws generalizing buf with
  | nil => simp at hw
  | cons v ws ih =>
    obtain ⟨hfirst, hrest⟩ := pairwise_cons.mp hws
    have hv := hfits v mem_cons_self
    have htail : ∀ x ∈ ws, Fits (write buf v) x := fun x hx => by
      rw [Fits, length_write hv]
      exact hfits x (mem_cons_of_mem _ hx)
    rcases mem_cons.mp hw with rfl | hw
    · exact (range_writeAll_of_le hfirst htail).trans (range_write_self hv)
    · exact ih hrest htail hw

end Patch
