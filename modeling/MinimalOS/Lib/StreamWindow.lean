import Mathlib.Data.List.Basic
import Mathlib.Order.Lattice
import MinimalOS.Lib.ByteMem

/-!
# A buffer over a byte stream

A receive buffer shows a window of a stream: position `k` of the stream lives at index `k - d`
of the buffer, where `d` bytes have left it already. `Holds` says over which positions the buffer
agrees with the stream. Copying a slice of the stream to its place never spoils what is held,
and moving the buffer down by `n` bytes moves `d` up by `n`.

Spans of positions are pairs; two spans touch when they overlap or meet, and the hull of two
spans that touch touches exactly what one of them touches.
-/

namespace StreamWindow

open ByteMem

/-- The bytes at positions `lo` to `hi` of the stream are in the buffer. -/
def Holds (s : List UInt8) (d : ℕ) (buf : Mem) (lo hi : ℕ) : Prop :=
  ∀ k, lo ≤ k → k < hi → s[k]? = some (buf (k - d))

/-- `data` stands in the stream from position `a` on. -/
def IsSlice (s : List UInt8) (a : ℕ) (data : List UInt8) : Prop :=
  ∃ rest, s.drop a = data ++ rest

instance (s : List UInt8) (a : ℕ) (data : List UInt8) : Decidable (IsSlice s a data) :=
  decidable_of_iff (data <+: s.drop a)
    ⟨fun ⟨r, h⟩ => ⟨r, h.symm⟩, fun ⟨r, h⟩ => ⟨r, h.symm⟩⟩

variable {s : List UInt8} {d : ℕ} {buf : Mem} {lo hi : ℕ}

theorem Holds.le_length (h : Holds s d buf lo hi) (hlt : lo < hi) : hi ≤ s.length := by
  have hk := h (hi - 1) (by omega) (by omega)
  have := (List.getElem?_eq_some_iff.mp hk).1
  omega

theorem Holds.mono (h : Holds s d buf lo hi) {lo' hi' : ℕ} (hlo : lo ≤ lo') (hhi : hi' ≤ hi) :
    Holds s d buf lo' hi' := fun k h1 h2 => h k (by omega) (by omega)

theorem Holds.trans {mid lo' : ℕ} (h : Holds s d buf lo mid) (h' : Holds s d buf lo' hi)
    (hm : lo' ≤ mid) : Holds s d buf lo hi := by
  intro k hk hk'
  rcases Nat.lt_or_ge k mid with hlt | hge
  · exact h k hk hlt
  · exact h' k (by omega) hk'

variable {a : ℕ} {data : List UInt8}

theorem IsSlice.getElem? (h : IsSlice s a data) {k : ℕ} (hlo : a ≤ k)
    (hhi : k < a + data.length) : s[k]? = some (data.getD (k - a) 0) := by
  obtain ⟨rest, hr⟩ := h
  have hk : (s.drop a)[k - a]? = s[k]? := by rw [List.getElem?_drop]; congr 1; omega
  have hlt : k - a < data.length := by omega
  rw [← hk, hr, List.getElem?_append_left hlt, List.getD_eq_getElem?_getD,
    List.getElem?_eq_getElem hlt]
  rfl

theorem IsSlice.take (h : IsSlice s a data) (n : ℕ) : IsSlice s a (data.take n) := by
  obtain ⟨rest, hr⟩ := h
  exact ⟨data.drop n ++ rest, by rw [hr, ← List.append_assoc, List.take_append_drop]⟩

theorem IsSlice.le_length (h : IsSlice s a data) (h0 : data ≠ []) : a + data.length ≤ s.length := by
  obtain ⟨rest, hr⟩ := h
  have := congrArg List.length hr
  have := List.length_pos_iff.mpr h0
  rw [List.length_drop, List.length_append] at *
  omega

theorem holds_store (buf : Mem) (h : IsSlice s a data) (hd : d ≤ a) :
    Holds s d (store buf (a - d) data) a (a + data.length) := by
  intro k hlo hhi
  rw [h.getElem? hlo hhi, store, if_pos ⟨by omega, by omega⟩, show k - d - (a - d) = k - a by omega]

theorem Holds.store (hh : Holds s d buf lo hi) (h : IsSlice s a data) (hd : d ≤ a) (hlo : d ≤ lo) :
    Holds s d (store buf (a - d) data) lo hi := by
  intro k hk hk'
  by_cases hin : a ≤ k ∧ k < a + data.length
  · exact holds_store buf h hd k hin.1 hin.2
  · rw [hh k hk hk', ByteMem.store, if_neg (by omega)]

theorem Holds.shift (hh : Holds s d buf lo hi) {m n : ℕ} (hlo : d + m ≤ lo)
    (hn : hi ≤ d + m + n) : Holds s (d + m) (copy buf 0 m n) lo hi := by
  intro k hk hk'
  rw [hh k hk hk', copy, if_pos ⟨Nat.zero_le _, by omega⟩,
    show m + (k - (d + m) - 0) = k - d by omega]

theorem Holds.take_append (hh : Holds s d buf d hi) {n : ℕ} (hn : d + n ≤ hi) :
    s.take d ++ (List.range n).map buf = s.take (d + n) := by
  rw [List.take_add]
  congr 1
  apply List.ext_getElem?
  intro i
  rw [List.getElem?_map]
  rcases Nat.lt_or_ge i n with hlt | hge
  · rw [List.getElem?_range hlt, List.getElem?_take_of_lt hlt, List.getElem?_drop,
      hh (d + i) (by omega) (by omega), Nat.add_sub_cancel_left]
    rfl
  · rw [List.getElem?_eq_none (by rw [List.length_range]; exact hge),
      List.getElem?_eq_none (by rw [List.length_take]; omega)]
    rfl

/-! ## Spans -/

section Span

variable {ι : Type*} [LinearOrder ι]

def Touch (a b : ι × ι) : Prop := a.1 ≤ b.2 ∧ b.1 ≤ a.2

def hull (a b : ι × ι) : ι × ι := (min a.1 b.1, max a.2 b.2)

theorem Touch.symm {a b : ι × ι} (h : Touch a b) : Touch b a := ⟨h.2, h.1⟩

theorem touch_hull {a b c : ι × ι} (hab : Touch a b) (hc : c.1 ≤ c.2) :
    Touch c (hull a b) ↔ Touch c a ∨ Touch c b := by
  unfold Touch hull at *
  rw [le_max_iff, min_le_iff]
  constructor
  · rintro ⟨h1 | h1, h2 | h2⟩
    · exact .inl ⟨h1, h2⟩
    · rcases le_total a.1 c.2 with h | h
      · exact .inl ⟨h1, h⟩
      · exact .inr ⟨hc.trans (h.trans hab.1), h2⟩
    · rcases le_total b.1 c.2 with h | h
      · exact .inr ⟨h1, h⟩
      · exact .inl ⟨hc.trans (h.trans hab.2), h2⟩
    · exact .inr ⟨h1, h2⟩
  · rintro (⟨h1, h2⟩ | ⟨h1, h2⟩)
    · exact ⟨.inl h1, .inl h2⟩
    · exact ⟨.inr h1, .inr h2⟩

end Span

end StreamWindow
