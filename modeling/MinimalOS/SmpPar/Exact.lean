import MinimalOS.SmpPar.Helpers

/-!
# Every part once

The invariant holds of every run, and what callers of `smp_par_run` rely on follows from it.
-/

namespace MinimalOS.SmpPar

open WorkPool Function

variable {s : State} {t j parts : ℕ} {k : ℕ × ℕ}

theorem Good.start (h : Good s) (ht : s.callers t = .idle) (parts : Fin (2 ^ 31)) :
    Good { s with
      callers := Function.update s.callers t (.enter s.calls parts)
      calls := s.calls + 1
      partsOf := Function.update s.partsOf s.calls parts } := by
  have hcaller : ∀ t' k q,
      (Function.update s.callers t (.enter s.calls parts) t').call = some (k, q) →
      (t' = t ∧ k = s.calls ∧ q = parts) ∨ (t' ≠ t ∧ k < s.calls ∧ (s.callers t').call = some (k, q)) := by
    intro t' k q hk
    by_cases htt : t' = t
    · rw [htt, update_self] at hk
      obtain ⟨rfl, rfl⟩ := Prod.mk.inj (Option.some.inj hk)
      exact .inl ⟨htt, rfl, rfl⟩
    · rw [update_of_ne htt] at hk
      exact .inr ⟨htt, (h.call t' k q hk).1, hk⟩
  refine ⟨h.active, fun k hk => h.fresh k (Nat.le_of_succ_le hk), fun t' k q hk => ?_,
    fun t₁ t₂ k q q' h₁ h₂ => ?_, fun k hk => ?_, fun t' => ?_, ?_⟩
  · rcases hcaller t' k q hk with ⟨_, rfl, rfl⟩ | ⟨_, hlt, hk⟩
    · exact ⟨Nat.lt_succ_self _, (h.fresh _ le_rfl).2, update_self .., parts.isLt⟩
    · obtain ⟨_, hr, hp, hsmall⟩ := h.call t' k q hk
      exact ⟨Nat.lt_succ_of_lt hlt, hr, (update_of_ne hlt.ne ..).trans hp, hsmall⟩
  · rcases hcaller t₁ k q h₁ with ⟨e₁, hk₁, _⟩ | ⟨_, hlt₁, o₁⟩ <;>
      rcases hcaller t₂ k q' h₂ with ⟨e₂, hk₂, _⟩ | ⟨_, hlt₂, o₂⟩
    · exact e₁.trans e₂.symm
    · omega
    · omega
    · exact h.same t₁ t₂ k q q' o₁ o₂
  · have hne : k ≠ s.calls := by
      rintro rfl
      rw [(h.fresh _ le_rfl).2] at hk
      cases hk
    show Counts _ k (Function.update s.partsOf s.calls parts k)
      (Function.update s.partsOf s.calls parts k)
    rw [update_of_ne hne]
    exact h.returned k hk
  · by_cases htt : t' = t
    · rw [htt]
      show Alone _ (Function.update s.callers t _ t)
      rw [update_self]
      exact (h.fresh _ le_rfl).1
    · show Alone _ (Function.update s.callers t _ t')
      rw [update_of_ne htt]
      exact (h.alone t').congr fun _ _ _ => ⟨rfl, rfl⟩
  · exact h.lock.bystander (by rw [ht]; rfl) rfl rfl rfl rfl rfl rfl fun _ _ _ _ _ => ⟨rfl, rfl⟩

theorem Good.step (h : Good s) (e : Event) : Good (step s e) := by
  cases e with
  | start t parts =>
    unfold SmpPar.step
    dsimp only
    cases ht : s.callers t with
    | idle => exact h.start ht parts
    | _ => exact h
  | caller t choice => exact h.callerStep t choice
  | interrupt c =>
    unfold SmpPar.step
    dsimp only
    cases hp : s.pending c with
    | false => exact h
    | true =>
      cases hc : s.handlers c with
      | outside =>
        have hw := tally_update HandlerPc.waiting s.handlers c .enter
        have hi := tally_update HandlerPc.inside s.handlers c .enter
        have hd := tally_update pendingCount s.pending c false
        rw [hc] at hw hi
        rw [hp] at hd
        simp only [HandlerPc.waiting, HandlerPc.inside] at hw hi
        change _ + 1 = _ + 0 at hd
        exact h.pass (by rw [hc]; rfl) (fun hj => hj.elim) (fun _ _ hl => by cases hl)
          (by rw [h.active]; omega) (by omega)
      | _ => exact h
  | handler c => exact h.handlerStep c

theorem good_run (events : List Event) : Good (run events) := by
  unfold run
  induction events using List.reverseRecOn with
  | nil => exact good_init
  | append_singleton events e ih =>
    rw [List.foldl_append]
    exact ih.step e

/-! ## What callers rely on -/

/-- The job and the worker's index under which a caller or a core calls functions. -/
def State.index (s : State) : ℕ ⊕ Cpu → Option (ℕ × ℕ)
  | .inl t =>
    match s.callers t with
    | .serial j .. | .serialRunning j .. | .work j .. => some (j, 0)
    | _ => none
  | .inr c =>
    match s.handlers c with
    | .work w _ => s.job.fn.map (·, w)
    | _ => none

/-- A call that has returned has had all its parts called once, to the end; no part of one under way
has been called twice. A helper works for a caller that has not returned. Indices are below the bound
and nobody shares one. -/
structure Safe (s : State) : Prop where
  once : ∀ j, s.returned j = true → ∀ p,
    s.begun j p = (if p < s.partsOf j then 1 else 0) ∧ s.ended j p = if p < s.partsOf j then 1 else 0
  never_twice : ∀ t j parts, (s.callers t).call = some (j, parts) → ∀ p,
    s.begun j p ≤ (if p < parts then 1 else 0) ∧ s.ended j p ≤ s.begun j p
  helper : ∀ c, (s.handlers c).Joined → ∃ t j parts, (s.callers t).call = some (j, parts) ∧
    s.returned j = false ∧ s.job.fn = some j ∧ s.job.ctx = some j ∧ s.job.parts = parts ∧
    ∀ w pc, s.handlers c = .work w pc → pc.Ok j parts
  distinct : ∀ x y k, s.index x = some k → s.index y = some k → x = y
  bounded : ∀ x k, s.index x = some k → k.2 < smpParMaxWorkers

theorem Good.joined {c : Cpu} (h : Good s) (hc : (s.handlers c).Joined) :
    ∃ t j parts, (s.callers t).call = some (j, parts) ∧ Live s (s.callers t) j parts := by
  have hl := h.lock
  unfold LockOk at hl
  split_ifs at hl with hlock
  · obtain ⟨t, j, parts, hcall, _, hh⟩ := hl
    exact ⟨t, j, parts, hcall, (hh.live hc).2⟩
  · exact absurd hc (hl.2.2 c)

theorem Counts.le {b e p : ℕ} (h : Counts s j b e) (hb : b ≤ parts) (he : e ≤ b) :
    s.begun j p ≤ (if p < parts then 1 else 0) ∧ s.ended j p ≤ s.begun j p := by
  obtain ⟨h₁, h₂⟩ := h p
  rw [h₁, h₂]
  constructor <;> split_ifs <;> omega

theorem Good.never_twice (h : Good s) (hcall : (s.callers t).call = some (j, parts)) (p : ℕ) :
    s.begun j p ≤ (if p < parts then 1 else 0) ∧ s.ended j p ≤ s.begun j p := by
  by_cases hlocked : (s.callers t).locked = true
  · obtain ⟨_, _, ⟨_, hh⟩ | ⟨_, hh⟩⟩ := h.lock.holder hlocked hcall
    · exact hh.counts.le (Nat.zero_le _) le_rfl
    · have hb : s.begun j p ≤ 1 := hh.inv.begun_le p
      have he : s.ended j p + _ = s.begun j p := hh.inv.ended p
      refine ⟨?_, by omega⟩
      split_ifs with hp
      · exact hb
      · exact (hh.inv.outside p (not_lt.mp hp)).le
  · have ha := h.alone t
    revert ha hcall hlocked
    cases s.callers t <;> intro hcall hlocked ha <;> cases hcall <;>
      first
      | exact absurd rfl hlocked
      | exact ha.2.le (by have := ha.1; omega) (by omega)
      | exact Counts.le ha (Nat.zero_le _) le_rfl

theorem Good.index_caller (hk : s.index (.inl t) = some k) :
    (∃ parts, (s.callers t).call = some (k.1, parts)) ∧ k.2 = 0 := by
  unfold State.index at hk
  dsimp only at hk
  cases hpc : s.callers t <;> rw [hpc] at hk <;> cases hk <;> exact ⟨⟨_, rfl⟩, rfl⟩

theorem Good.index_helper {c : Cpu} (h : Good s) (hk : s.index (.inr c) = some k) :
    ∃ pc, s.handlers c = .work k.2 pc ∧ 1 ≤ k.2 ∧ k.2 < smpParMaxWorkers := by
  unfold State.index at hk
  dsimp only at hk
  cases hpc : s.handlers c with
  | work w pc =>
    rw [hpc] at hk
    obtain ⟨j, _, rfl⟩ := Option.map_eq_some_iff.mp hk
    obtain ⟨_, _, _, _, hlive⟩ := h.joined (HandlerPc.joined_of_work hpc)
    obtain ⟨h1, _, h3, _⟩ := hlive.helpers c w pc hpc
    exact ⟨pc, rfl, h1, h3⟩
  | _ => rw [hpc] at hk; cases hk

/-- **Every part once.** In every interleaving of any number of calls of `smp_par_run` with late
interrupts. -/
theorem run_safe (events : List Event) : Safe (run events) := by
  have h := good_run events
  refine ⟨h.returned, fun _ _ _ => h.never_twice, fun c hc => ?_, fun x y k hx hy => ?_,
    fun x k hx => ?_⟩
  · obtain ⟨t, j, parts, hcall, hlive⟩ := h.joined hc
    exact ⟨t, j, parts, hcall, (h.call t j parts hcall).2.1, hlive.fn, hlive.ctx, hlive.size,
      fun w pc hw => (hlive.helpers c w pc hw).2.2.2⟩
  · cases x with
    | inl t =>
      obtain ⟨⟨parts, hcall⟩, hzero⟩ := Good.index_caller hx
      cases y with
      | inl t' =>
        obtain ⟨⟨parts', hcall'⟩, _⟩ := Good.index_caller hy
        rw [h.same t t' k.1 parts parts' hcall hcall']
      | inr c =>
        obtain ⟨_, _, hpos, _⟩ := h.index_helper hy
        omega
    | inr c =>
      obtain ⟨pc, hc, hpos, _⟩ := h.index_helper hx
      cases y with
      | inl t' =>
        obtain ⟨_, hzero⟩ := Good.index_caller hy
        omega
      | inr c' =>
        obtain ⟨pc', hc', _⟩ := h.index_helper hy
        obtain ⟨_, _, _, _, hlive⟩ := h.joined (HandlerPc.joined_of_work hc)
        rw [hlive.distinct c c' k.2 pc pc' hc hc']
  · cases x with
    | inl t =>
      obtain ⟨_, hzero⟩ := Good.index_caller hx
      rw [hzero]
      decide
    | inr c => exact (h.index_helper hx).choose_spec.2.2

end MinimalOS.SmpPar
