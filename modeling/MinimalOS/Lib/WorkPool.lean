import Mathlib.Algebra.BigOperators.Group.Finset.Basic
import Mathlib.Algebra.Order.BigOperators.Group.Finset
import Mathlib.Data.Fintype.BigOperators
import Mathlib.Tactic

/-!
# Pools of workers

Workers take the parts of a job from a counter: a worker fetches the next number, leaves if it is
not a part, and otherwise runs the part and counts it as done. A worker is a point of a finite type;
what all of them do at one time is a sum over it (`tally`), and a step of one worker moves one term
of that sum (`tally_update`). When as many parts are counted as there are, every one has been run,
exactly once (`Inv.complete`).
-/

open Finset Function

namespace WorkPool

variable {ι : Type} [Fintype ι] {σ : Type}

def tally (g : σ → ℕ) (w : ι → σ) : ℕ := ∑ i, g (w i)

theorem tally_update [DecidableEq ι] (g : σ → ℕ) (w : ι → σ) (i : ι) (a : σ) :
    tally g (Function.update w i a) + g (w i) = tally g w + g a := by
  have h : ∀ v : ι → σ, tally g v = g (v i) + ∑ k ∈ univ.erase i, g (v k) := fun v =>
    (add_sum_erase univ (fun k => g (v k)) (mem_univ i)).symm
  have hrest : ∑ k ∈ univ.erase i, g (Function.update w i a k) = ∑ k ∈ univ.erase i, g (w k) :=
    sum_congr rfl fun k hk => by rw [update_of_ne (ne_of_mem_erase hk)]
  rw [h, h w, update_self]
  omega

theorem le_tally (g : σ → ℕ) (w : ι → σ) (i : ι) : g (w i) ≤ tally g w :=
  single_le_sum (f := fun k => g (w k)) (fun _ _ => Nat.zero_le _) (mem_univ i)

variable {g : σ → ℕ}

theorem tally_le_card (hg : ∀ a, g a ≤ 1) (w : ι → σ) : tally g w ≤ Fintype.card ι := by
  calc ∑ i, g (w i) ≤ ∑ _i : ι, 1 := sum_le_sum fun i _ => hg _
    _ = Fintype.card ι := by rw [sum_const, smul_eq_mul, mul_one, card_univ]

theorem tally_eq_zero {w : ι → σ} (h : ∀ i, g (w i) = 0) : tally g w = 0 :=
  sum_eq_zero fun i _ => h i

/-! ## Parts -/

inductive Stage
  | away
  /-- about to fetch -/
  | ready
  /-- has fetched this number -/
  | got (p : ℕ)
  | running (p : ℕ)
  /-- has run a part that it has not counted yet -/
  | ran

namespace Stage

def holds (p : ℕ) : Stage → ℕ
  | got q => if q = p then 1 else 0
  | _ => 0

def runs (p : ℕ) : Stage → ℕ
  | running q => if q = p then 1 else 0
  | _ => 0

def counts : Stage → ℕ
  | ran => 1
  | _ => 0

/-- The worker may still take a part. -/
def live (parts : ℕ) : Stage → ℕ
  | away => 0
  | got p => if p < parts then 1 else 0
  | _ => 1

end Stage

open Stage

/-- `joined` counts how often a worker has come to the job. -/
structure Pool (ι : Type) where
  workers : ι → Stage
  next : ℕ
  done : ℕ
  joined : ℕ
  begun : ℕ → ℕ
  ended : ℕ → ℕ

structure Inv (parts : ℕ) (s : Pool ι) : Prop where
  handed : ∀ p < parts, s.begun p + tally (holds p) s.workers = if p < s.next then 1 else 0
  ended : ∀ p, s.ended p + tally (runs p) s.workers = s.begun p
  outside : ∀ p, parts ≤ p → s.begun p = 0
  done : s.done + tally counts s.workers = ∑ p ∈ range parts, s.ended p
  next : s.next + tally (live parts) s.workers ≤ parts + s.joined
  joined : tally (live parts) s.workers ≤ s.joined

section Inv

variable {parts : ℕ} {s : Pool ι} {i : ι}

theorem Inv.init [DecidableEq ι] {w : ι → Stage} (hi : w i = .ready) (hw : ∀ k, k ≠ i → w k = .away) :
    Inv parts ⟨w, 0, 0, 1, fun _ => 0, fun _ => 0⟩ := by
  have hcases : ∀ k, w k = .ready ∨ w k = .away := fun k => by
    by_cases hk : k = i
    · exact .inl (hk ▸ hi)
    · exact .inr (hw k hk)
  have hlive : tally (live parts) w ≤ 1 := by
    have hrest : ∑ k ∈ univ.erase i, live parts (w k) = 0 :=
      sum_eq_zero fun k hk => by rw [hw k (ne_of_mem_erase hk)]; rfl
    have := add_sum_erase univ (fun k => live parts (w k)) (mem_univ i)
    rw [hrest, hi] at this
    exact this.symm.le
  refine ⟨fun p _ => ?_, fun p => ?_, fun _ _ => rfl, ?_, ?_, hlive⟩
  · show 0 + tally (holds p) w = _
    rw [if_neg (Nat.not_lt_zero p),
      tally_eq_zero fun k => by rcases hcases k with h | h <;> rw [h] <;> rfl]
  · show 0 + tally (runs p) w = 0
    rw [tally_eq_zero fun k => by rcases hcases k with h | h <;> rw [h] <;> rfl]
  · show 0 + tally counts w = _
    rw [tally_eq_zero fun k => by rcases hcases k with h | h <;> rw [h] <;> rfl]
    exact (sum_eq_zero fun _ _ => rfl).symm
  · show 0 + tally (live parts) w ≤ parts + 1
    omega

theorem Inv.begun_le (h : Inv parts s) (p : ℕ) : s.begun p ≤ 1 := by
  rcases Nat.lt_or_ge p parts with hp | hp
  · have := h.handed p hp
    split_ifs at this <;> omega
  · rw [h.outside p hp]
    exact Nat.zero_le 1

theorem Inv.ended_le (h : Inv parts s) (p : ℕ) : s.ended p ≤ 1 :=
  le_trans (by have := h.ended p; omega) (h.begun_le p)

theorem Inv.done_le (h : Inv parts s) : s.done + tally counts s.workers ≤ parts := by
  rw [h.done]
  calc ∑ p ∈ range parts, s.ended p ≤ ∑ _p ∈ range parts, 1 := sum_le_sum fun p _ => h.ended_le p
    _ = parts := by rw [sum_const, card_range, smul_eq_mul, mul_one]

/-- **Everything has been run.** -/
theorem Inv.complete (h : Inv parts s) (hdone : parts ≤ s.done) (p : ℕ) :
    s.begun p = (if p < parts then 1 else 0) ∧ s.ended p = if p < parts then 1 else 0 := by
  by_cases hp : p < parts
  · rw [if_pos hp]
    have hsum : ∑ q ∈ range parts, s.ended q = ∑ _q ∈ range parts, 1 := by
      rw [← h.done, sum_const, card_range, smul_eq_mul]
      have := h.done_le
      omega
    have hone : s.ended p = 1 :=
      (sum_eq_sum_iff_of_le fun q _ => h.ended_le q).mp hsum p (mem_range.mpr hp)
    have := h.ended p
    have := h.begun_le p
    exact ⟨by omega, hone⟩
  · rw [if_neg hp]
    have h0 := h.outside p (not_lt.mp hp)
    have := h.ended p
    exact ⟨h0, by omega⟩

/-! ## Steps -/

variable [DecidableEq ι]

/-- A step takes one worker from `a` to `b`. What it does to the counters has to balance what it
does to that worker's weights. -/
theorem Inv.move {t : Pool ι} {a b : Stage} (h : Inv parts s) (hi : s.workers i = a)
    (hw : t.workers = Function.update s.workers i b)
    (handed : ∀ p < parts, t.begun p + holds p b + (if p < s.next then 1 else 0) =
      s.begun p + holds p a + if p < t.next then 1 else 0)
    (ended : ∀ p, t.ended p + runs p b + s.begun p = s.ended p + runs p a + t.begun p)
    (outside : ∀ p, parts ≤ p → t.begun p = s.begun p)
    (done : t.done + counts b + ∑ p ∈ range parts, s.ended p =
      s.done + counts a + ∑ p ∈ range parts, t.ended p)
    (live : ∀ k l, l + live parts a = k + live parts b → s.next + k ≤ parts + s.joined →
      k ≤ s.joined → t.next + l ≤ parts + t.joined ∧ l ≤ t.joined) : Inv parts t := by
  have hmove : ∀ g, tally g t.workers + g a = tally g s.workers + g b := fun g => by
    rw [hw, ← hi]
    exact tally_update g s.workers i b
  obtain ⟨hnext, hjoined⟩ := live _ _ (hmove (Stage.live parts)) h.next h.joined
  refine ⟨fun p hp => ?_, fun p => ?_, fun p hp => ?_, ?_, hnext, hjoined⟩
  · have := hmove (holds p)
    have := h.handed p hp
    have := handed p hp
    omega
  · have := hmove (runs p)
    have := h.ended p
    have := ended p
    omega
  · rw [outside p hp, h.outside p hp]
  · have := hmove counts
    have := h.done
    omega

theorem Inv.join (h : Inv parts s) (hi : s.workers i = .away) :
    Inv parts { s with workers := Function.update s.workers i .ready, joined := s.joined + 1 } := by
  refine h.move hi rfl (fun _ _ => rfl) (fun _ => rfl) (fun _ _ => rfl) rfl fun k l hl _ _ => ?_
  simp only [Stage.live] at hl ⊢
  omega

theorem Inv.fetch (h : Inv parts s) (hi : s.workers i = .ready) :
    Inv parts { s with workers := Function.update s.workers i (.got s.next), next := s.next + 1 } := by
  refine h.move hi rfl (fun p _ => ?_) (fun _ => rfl) (fun _ _ => rfl) rfl fun k l hl _ _ => ?_
  · simp only [holds]
    split_ifs <;> omega
  · simp only [Stage.live] at hl ⊢
    split_ifs at hl <;> omega

variable {p : ℕ}

theorem Inv.leave (h : Inv parts s) (hi : s.workers i = .got p) (hp : parts ≤ p) :
    Inv parts { s with workers := Function.update s.workers i .away } := by
  refine h.move hi rfl (fun q hq => ?_) (fun _ => rfl) (fun _ _ => rfl) rfl fun k l hl _ _ => ?_
  · simp only [holds, if_neg (show p ≠ q by omega)]
  · simp only [Stage.live] at hl ⊢
    omega

theorem update_add_one (f : ℕ → ℕ) (p q : ℕ) :
    Function.update f p (f p + 1) q = f q + if p = q then 1 else 0 := by
  by_cases hq : p = q
  · rw [← hq, update_self, if_pos rfl]
  · rw [update_of_ne (Ne.symm hq), if_neg hq]
    rfl

theorem Inv.start (h : Inv parts s) (hi : s.workers i = .got p) (hp : p < parts) :
    Inv parts { s with
      workers := Function.update s.workers i (.running p)
      begun := Function.update s.begun p (s.begun p + 1) } := by
  refine h.move hi rfl (fun q _ => ?_) (fun q => ?_) (fun q hq => ?_) rfl fun k l hl _ _ => ?_
  · simp only [update_add_one, holds]
    omega
  · simp only [update_add_one, runs]
    omega
  · simp only [update_add_one, if_neg (show p ≠ q by omega), Nat.add_zero]
  · simp only [Stage.live, if_pos hp] at hl ⊢
    omega

theorem Inv.finish (h : Inv parts s) (hi : s.workers i = .running p) :
    Inv parts { s with
      workers := Function.update s.workers i .ran
      ended := Function.update s.ended p (s.ended p + 1) } := by
  have hp : p < parts := by
    by_contra hge
    have h0 := h.outside p (not_lt.mp hge)
    have hle := le_tally (runs p) s.workers i
    rw [hi, show runs p (.running p) = 1 from if_pos rfl] at hle
    have := h.ended p
    omega
  refine h.move hi rfl (fun _ _ => rfl) (fun q => ?_) (fun _ _ => rfl) ?_ fun k l hl _ _ => ?_
  · simp only [update_add_one, runs]
    omega
  · simp only [update_add_one, counts, sum_add_distrib, sum_ite_eq, mem_range, if_pos hp]
    omega
  · simp only [Stage.live] at hl ⊢
    omega

theorem Inv.count (h : Inv parts s) (hi : s.workers i = .ran) :
    Inv parts { s with workers := Function.update s.workers i .ready, done := s.done + 1 } := by
  refine h.move hi rfl (fun _ _ => rfl) (fun _ => rfl) (fun _ _ => rfl) ?_ fun k l hl _ _ => ?_
  · simp only [counts]
  · simp only [Stage.live] at hl ⊢
    omega

end Inv

end WorkPool
