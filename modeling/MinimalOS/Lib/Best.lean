import Mathlib.Order.Lattice
import Mathlib.Tactic

/-!
# The earliest of the best

A search goes through candidates and keeps the one of greatest value, the earliest of several that
are equally good. It may take the candidates from the last to the first, replacing the best so far
by one that is as good, or from the first to the last, replacing it only by a better one; both find
the same (`Tracks.unique`).
-/

namespace Best

variable {α β : Type} [LinearOrder α] [LinearOrder β] {f : α → β} {C D : α → Prop}

/-- Among the candidates `C` the value `best.1` is the greatest, and `best.2` is the first that
has it. -/
structure Earliest (f : α → β) (C : α → Prop) (best : β × α) : Prop where
  candidate : C best.2
  value : f best.2 = best.1
  greatest : ∀ q, C q → f q ≤ best.1
  first : ∀ q, C q → q < best.2 → f q < best.1

variable {b b' : β × α} {q : α}

theorem Earliest.unique (h : Earliest f C b) (h' : Earliest f C b') : b = b' := by
  have hv : b.1 = b'.1 := le_antisymm
    (h.value ▸ h'.greatest _ h.candidate) (h'.value ▸ h.greatest _ h'.candidate)
  refine Prod.ext hv ?_
  rcases lt_trichotomy b.2 b'.2 with hlt | heq | hlt
  · have := h'.first _ h.candidate hlt
    rw [h.value, hv] at this
    exact absurd this (lt_irrefl _)
  · exact heq
  · have := h.first _ h'.candidate hlt
    rw [h'.value, hv] at this
    exact absurd this (lt_irrefl _)

theorem Earliest.congr (h : Earliest f C b) (hCD : ∀ q, C q ↔ D q) : Earliest f D b :=
  ⟨(hCD _).mp h.candidate, h.value, fun q hq => h.greatest q ((hCD q).mpr hq),
    fun q hq => h.first q ((hCD q).mpr hq)⟩

/-- The best of the candidates seen so far; before the first one it is `start`. -/
def Tracks (f : α → β) (start : β × α) (C : α → Prop) (best : β × α) : Prop :=
  ((∀ q, ¬ C q) ∧ best = start) ∨ Earliest f C best

variable {start best : β × α}

theorem Tracks.nil (h : ∀ q, ¬ C q) : Tracks f start C start := .inl ⟨h, rfl⟩

theorem Tracks.congr (h : Tracks f start C best) (hCD : ∀ q, C q ↔ D q) : Tracks f start D best :=
  h.imp (fun ⟨hn, hb⟩ => ⟨fun q hq => hn q ((hCD q).mpr hq), hb⟩) fun he => he.congr hCD

theorem Tracks.before (h : Tracks f start C best) (hq : ∀ r, C r → q < r) (hstart : start.1 ≤ f q) :
    Tracks f start (fun r => r = q ∨ C r) (if best.1 ≤ f q then (f q, q) else best) := by
  right
  rcases h with ⟨hn, rfl⟩ | he
  · rw [if_pos hstart]
    refine ⟨.inl rfl, rfl, ?_, ?_⟩
    · rintro r (rfl | hr)
      · exact le_rfl
      · exact absurd hr (hn r)
    · rintro r (rfl | hr) hlt
      · exact absurd hlt (lt_irrefl _)
      · exact absurd hr (hn r)
  · split_ifs with hle
    · refine ⟨.inl rfl, rfl, ?_, ?_⟩
      · rintro r (rfl | hr)
        · exact le_rfl
        · exact (he.greatest r hr).trans hle
      · rintro r (rfl | hr) hlt
        · exact absurd hlt (lt_irrefl _)
        · exact absurd hlt (hq r hr).not_gt
    · have hlt := lt_of_not_ge hle
      refine ⟨.inr he.candidate, he.value, ?_, ?_⟩
      · rintro r (rfl | hr)
        · exact hlt.le
        · exact he.greatest r hr
      · rintro r (rfl | hr) hr'
        · exact hlt
        · exact he.first r hr hr'

theorem Tracks.behind (h : Tracks f start C best) (hq : ∀ r, C r → r < q) (hstart : start.1 < f q) :
    Tracks f start (fun r => C r ∨ r = q) (if best.1 < f q then (f q, q) else best) := by
  right
  rcases h with ⟨hn, rfl⟩ | he
  · rw [if_pos hstart]
    refine ⟨.inr rfl, rfl, ?_, ?_⟩
    · rintro r (hr | rfl)
      · exact absurd hr (hn r)
      · exact le_rfl
    · rintro r (hr | rfl) hlt
      · exact absurd hr (hn r)
      · exact absurd hlt (lt_irrefl _)
  · split_ifs with hlt
    · refine ⟨.inr rfl, rfl, ?_, ?_⟩
      · rintro r (hr | rfl)
        · exact (he.greatest r hr).trans hlt.le
        · exact le_rfl
      · rintro r (hr | rfl) hr'
        · exact (he.greatest r hr).trans_lt hlt
        · exact absurd hr' (lt_irrefl _)
    · refine ⟨.inl he.candidate, he.value, ?_, ?_⟩
      · rintro r (hr | rfl)
        · exact he.greatest r hr
        · exact le_of_not_gt hlt
      · rintro r (hr | rfl) hr'
        · exact he.first r hr hr'
        · exact absurd (hq _ he.candidate) hr'.not_gt

theorem Tracks.stop (h : Earliest f C best) {l : α → Prop} (hl : ∀ r, l r → ∀ q, C q → q < r)
    (hle : ∀ r, l r → f r ≤ best.1) : Tracks f start (fun r => C r ∨ l r) best := by
  right
  refine ⟨.inl h.candidate, h.value, ?_, ?_⟩
  · rintro r (hr | hr)
    · exact h.greatest r hr
    · exact hle r hr
  · rintro r (hr | hr) hr'
    · exact h.first r hr hr'
    · exact absurd (hl r hr _ h.candidate) hr'.not_gt

/-- Two searches through candidates that differ only in worthless ones find the same, if they find
anything of worth. -/
theorem Tracks.unique {k : β} (h : Tracks f start C b) (h' : Tracks f start D b')
    (hstart : start.1 < k) (hDC : ∀ q, D q → C q) (hCD : ∀ q, C q → k ≤ f q → D q) :
    (k ≤ b.1 ↔ k ≤ b'.1) ∧ (k ≤ b.1 → b = b') := by
  have hC : k ≤ b.1 → Earliest f C b := fun hk => by
    rcases h with ⟨_, rfl⟩ | h
    · exact absurd hk hstart.not_ge
    · exact h
  have hD : k ≤ b'.1 → Earliest f D b' := fun hk => by
    rcases h' with ⟨_, rfl⟩ | h'
    · exact absurd hk hstart.not_ge
    · exact h'
  have hforth : k ≤ b.1 → Earliest f D b := fun hk => by
    have hb := hC hk
    exact ⟨hCD _ hb.candidate (hb.value.symm ▸ hk), hb.value, fun q hq => hb.greatest q (hDC q hq),
      fun q hq => hb.first q (hDC q hq)⟩
  have hbest : k ≤ b.1 → b = b' := fun hk => by
    rcases h' with ⟨hn, _⟩ | h'
    · exact absurd (hforth hk).candidate (hn _)
    · exact (hforth hk).unique h'
  refine ⟨⟨fun hk => hbest hk ▸ hk, fun hk => ?_⟩, hbest⟩
  have hb' := hD hk
  rcases h with ⟨hn, _⟩ | h
  · exact absurd (hDC _ hb'.candidate) (hn _)
  · exact hk.trans (hb'.value ▸ h.greatest _ (hDC _ hb'.candidate))

end Best

/-! ## The last candidate -/

/-- The last number below a bound with a property. -/
def lastBelow (P : ℕ → Prop) [DecidablePred P] : ℕ → Option ℕ
  | 0 => none
  | b + 1 => if P b then some b else lastBelow P b

section lastBelow

variable {P : ℕ → Prop} [DecidablePred P] {b q : ℕ}

theorem lastBelow_eq_some (h : lastBelow P b = some q) :
    q < b ∧ P q ∧ ∀ r, q < r → r < b → ¬ P r := by
  induction b with
  | zero => cases h
  | succ b ih =>
    rw [lastBelow] at h
    split_ifs at h with hb
    · obtain rfl := Option.some.inj h
      exact ⟨Nat.lt_succ_self b, hb, fun r h1 h2 => by omega⟩
    · obtain ⟨h1, h2, h3⟩ := ih h
      refine ⟨h1.trans (Nat.lt_succ_self b), h2, fun r hqr hrb => ?_⟩
      rcases Nat.lt_succ_iff_lt_or_eq.mp hrb with hr | rfl
      · exact h3 r hqr hr
      · exact hb

theorem lastBelow_eq_none (h : lastBelow P b = none) : ∀ r < b, ¬ P r := by
  induction b with
  | zero => intro r hr; omega
  | succ b ih =>
    rw [lastBelow] at h
    split_ifs at h with hb
    intro r hr
    rcases Nat.lt_succ_iff_lt_or_eq.mp hr with hr | rfl
    · exact ih h r hr
    · exact hb

end lastBelow
