import Mathlib.Order.Monotone.Defs
import Mathlib.Data.List.Range

/-!
# Programs whose state grows

`Builds P m Q`: from a state with `P`, the program `m` either fails or ends in a state that is
above the old one and has `Q`. Preconditions that are kept when the state grows (`Monotone P`)
stay true along a sequence of programs, so `Builds.bind` hands them to the continuation.
-/

namespace Growth

variable {σ ε α β : Type}

theorem bind_ok {m : StateT σ (Except ε) α} {f : α → StateT σ (Except ε) β} {s : σ} {r : β × σ}
    (h : (m >>= f) s = .ok r) : ∃ a s', m s = .ok (a, s') ∧ f a s' = .ok r := by
  change (m s >>= fun x => f x.1 x.2) = .ok r at h
  cases hm : m s with
  | error e =>
    rw [hm] at h
    cases h
  | ok x =>
    rw [hm] at h
    exact ⟨x.1, x.2, rfl, h⟩

variable [Preorder σ]

/-- Hoare triples with a state that may only grow. -/
def Builds (P : σ → Prop) (m : StateT σ (Except ε) α) (Q : α → σ → Prop) : Prop :=
  ∀ s a s', P s → m s = .ok (a, s') → s ≤ s' ∧ Q a s'

variable {P P' : σ → Prop} {Q Q' : α → σ → Prop} {R : β → σ → Prop} {m : StateT σ (Except ε) α}
  {f : α → StateT σ (Except ε) β}

theorem Builds.pure {a : α} (h : ∀ s, P s → Q a s) :
    Builds P (Pure.pure a : StateT σ (Except ε) α) Q := by
  intro s b s' hs heq
  cases heq
  exact ⟨le_refl s, h s hs⟩

theorem Builds.bind (hP : Monotone P) (hm : Builds P m Q)
    (hf : ∀ a, Builds (fun s => P s ∧ Q a s) (f a) R) : Builds P (m >>= f) R := by
  intro s b s'' hs heq
  obtain ⟨a, s', hm', hf'⟩ := bind_ok heq
  obtain ⟨hle, hq⟩ := hm s a s' hs hm'
  obtain ⟨hle', hr⟩ := hf a s' b s'' ⟨hP hle hs, hq⟩ hf'
  exact ⟨hle.trans hle', hr⟩

theorem Builds.bind_get {g : σ → StateT σ (Except ε) β}
    (h : ∀ s, P s → Builds (fun t => t = s) (g s) R) : Builds P (MonadState.get >>= g) R := by
  intro s b s'' hs heq
  exact h s hs s b s'' rfl heq

theorem Builds.mono (h : Builds P m Q) (hP : ∀ s, P' s → P s) (hQ : ∀ a s, Q a s → Q' a s) :
    Builds P' m Q' := by
  intro s a s' hs heq
  obtain ⟨hle, hq⟩ := h s a s' (hP s hs) heq
  exact ⟨hle, hQ a s' hq⟩

theorem Builds.keep (hP : Monotone P) (h : Builds P m Q) : Builds P m fun a s => P s ∧ Q a s := by
  intro s a s' hs heq
  obtain ⟨hle, hq⟩ := h s a s' hs heq
  exact ⟨hle, hP hle hs, hq⟩

theorem Builds.foldlM {l : List α} {g : β → α → StateT σ (Except ε) β}
    (I : List α → β → σ → Prop)
    (hstep : ∀ done a rest b, l = done ++ a :: rest → Builds (I done b) (g b a) (I (done ++ [a]))) :
    ∀ b, Builds (I [] b) (l.foldlM g b) (I l) := by
  have hrun : ∀ rest done b, l = done ++ rest → Builds (I done b) (rest.foldlM g b) (I l) := by
    intro rest
    induction rest with
    | nil =>
      intro done b hl
      rw [List.append_nil] at hl
      subst hl
      exact Builds.pure fun _ h => h
    | cons a rest ih =>
      intro done b hl s b' s' hs heq
      obtain ⟨c, t, hc, ht⟩ := bind_ok heq
      obtain ⟨hle, hI⟩ := hstep done a rest b hl s c t hs hc
      obtain ⟨hle', hI'⟩ := ih (done ++ [a]) c (by rw [hl, List.append_assoc]; rfl) t b' s' hI ht
      exact ⟨hle.trans hle', hI'⟩
  exact fun b => hrun l [] b rfl

theorem Builds.foldlM_range {n : ℕ} {g : β → ℕ → StateT σ (Except ε) β} (I : ℕ → β → σ → Prop)
    (hstep : ∀ k < n, ∀ b, Builds (I k b) (g b k) (I (k + 1))) (b : β) :
    Builds (I 0 b) ((List.range n).foldlM g b) (I n) := by
  have h := Builds.foldlM (l := List.range n) (g := g) (fun done => I done.length)
    (fun done k rest b hl => ?_) b
  · rw [List.length_range] at h
    exact h
  · have hk : k = done.length ∧ k < n := by
      have hget : (List.range n)[done.length]? = some k := by rw [hl]; simp
      rw [List.getElem?_eq_some_iff] at hget
      obtain ⟨hlt, heq⟩ := hget
      rw [List.length_range] at hlt
      rw [List.getElem_range] at heq
      exact ⟨heq.symm, by omega⟩
    rw [List.length_append, ← hk.1]
    exact hstep k hk.2 b

end Growth
