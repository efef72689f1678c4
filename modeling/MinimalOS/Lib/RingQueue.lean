import MinimalOS.Lib.RingWindow

/-!
# Queues in a ring

The values of a queue stand in the cells of a ring from a position on, where positions count up
without end and a cell is a position modulo the size of the ring. Two indices modulo the size tell
how much of the ring is free, as long as the queue never fills it.
-/

namespace RingQueue

open RingWindow

variable {α : Type*} {N start : ℕ} {cell : ℕ → α} {values : List α}

/-- The ring has these values from a position on. -/
def Shows (N : ℕ) (cell : ℕ → α) (start : ℕ) (values : List α) : Prop :=
  ∀ k (h : k < values.length), cell ((start + k) % N) = values[k]

theorem Shows.take (h : Shows N cell start values) (n : ℕ) :
    Shows N cell start (values.take n) := by
  intro k hk
  rw [List.length_take] at hk
  rw [h k (by omega), List.getElem_take]

variable {rest : List α} {used : ℕ}

theorem Shows.left (h : Shows N cell start (values ++ rest)) : Shows N cell start values := by
  have := h.take values.length
  rwa [List.take_left' rfl] at this

theorem Shows.right (h : Shows N cell start (values ++ rest)) :
    Shows N cell (start + values.length) rest := by
  intro k hk
  have := h (values.length + k) (by rw [List.length_append]; omega)
  rw [add_assoc, this]
  simp

theorem Shows.push (h : Shows N cell start values) (hN : values.length < N) (b : α) :
    Shows N (Function.update cell ((start + values.length) % N) b) start (values ++ [b]) := by
  intro k hk
  rw [List.length_append, List.length_singleton] at hk
  rcases Nat.lt_or_ge k values.length with hlt | hge
  · rw [Function.update_of_ne (cell_ne hlt (by omega)), h k hlt, List.getElem_append_left hlt]
  · obtain rfl : k = values.length := by omega
    simp

end RingQueue
