import MinimalOS.SmpPar.Callers

/-!
# Helpers

Every step of `smp_par_ipi_handler` keeps the invariant, whichever job is open when it gets to look,
if one is.
-/

namespace MinimalOS.SmpPar

open WorkPool Function

section Handlers

variable {s s' : State} {c : Cpu} {hpc' : HandlerPc} {pc : CallerPc} {j parts : ℕ}

/-- What a step of a handler leaves alone. -/
structure Aside (s s' : State) : Prop where
  callers : s'.callers = s.callers
  lock : s'.lock = s.lock
  calls : s'.calls = s.calls
  partsOf : s'.partsOf = s.partsOf
  returned : s'.returned = s.returned

theorem Good.aside (h : Good s) (ha : Aside s s')
    (hactive : s'.job.active = tally HandlerPc.inside s'.handlers)
    (hfree : s.lock = false → s.job.isOpen = false → (∀ c, ¬ (s.handlers c).Joined) →
      s'.job.isOpen = false ∧ (∀ c, ¬ (s'.handlers c).Joined) ∧ s'.begun = s.begun ∧
        s'.ended = s.ended)
    (hholds : ∀ pc j parts, parts < 2 ^ 31 → Holds s pc j parts → Holds s' pc j parts ∧
      ∀ k, k ≠ j → s'.begun k = s.begun k ∧ s'.ended k = s.ended k) : Good s' := by
  -- the job that may be worked on
  have hlock : LockOk s' ∧ ∃ j₀, (∀ k, k ≠ j₀ → s'.begun k = s.begun k ∧ s'.ended k = s.ended k) ∧
      ((s'.begun = s.begun ∧ s'.ended = s.ended) ∨
        ∃ t q, (s.callers t).call = some (j₀, q) ∧ (s.callers t).locked = true) := by
    have hl := h.lock
    unfold LockOk at hl ⊢
    rw [ha.lock, ha.callers]
    split_ifs at hl ⊢ with hb
    · obtain ⟨t, j, parts, hcall, hothers, hh⟩ := hl
      obtain ⟨hh', hcounts⟩ := hholds _ j parts (h.call t j parts hcall).2.2.2 hh
      exact ⟨⟨t, j, parts, hcall, hothers, hh'⟩, j, hcounts, .inr ⟨t, parts, hcall, hh.locked⟩⟩
    · obtain ⟨hnots, hclosed, hnobody⟩ := hl
      obtain ⟨hclosed', hnobody', hb', he'⟩ := hfree (Bool.not_eq_true _ ▸ hb) hclosed hnobody
      exact ⟨⟨hnots, hclosed', hnobody'⟩, 0, fun k _ => ⟨by rw [hb'], by rw [he']⟩,
        .inl ⟨hb', he'⟩⟩
  obtain ⟨hlock, j₀, hcounts, hwho⟩ := hlock
  -- nobody else's count is touched
  have hsame : ∀ k, (∀ t q, (s.callers t).call = some (k, q) → (s.callers t).locked = false) →
      s'.begun k = s.begun k ∧ s'.ended k = s.ended k := by
    intro k hk
    rcases hwho with ⟨hb, he⟩ | ⟨t, q, hcall, hlocked⟩
    · exact ⟨by rw [hb], by rw [he]⟩
    · refine hcounts k fun hkj => ?_
      rw [hk t q (hkj ▸ hcall)] at hlocked
      cases hlocked
  refine ⟨hactive, fun k hk => ?_, fun t k q hk => ?_, fun t t' k q q' h₁ h₂ => ?_, fun k hk => ?_,
    fun t => ?_, hlock⟩
  · rw [ha.calls] at hk
    obtain ⟨hb, he⟩ := hsame k fun t q hc => absurd (h.call t k q hc).1 (by omega)
    rw [ha.returned]
    exact ⟨(h.fresh k hk).1.congr hb he, (h.fresh k hk).2⟩
  · rw [ha.callers] at hk
    rw [ha.calls, ha.returned, ha.partsOf]
    exact h.call t k q hk
  · rw [ha.callers] at h₁ h₂
    exact h.same t t' k q q' h₁ h₂
  · rw [ha.returned] at hk
    obtain ⟨hb, he⟩ := hsame k fun t q hc => absurd hk (by rw [(h.call t k q hc).2.1]; decide)
    rw [ha.partsOf]
    exact (h.returned k hk).congr hb he
  · rw [ha.callers]
    by_cases hlocked : (s.callers t).locked = true
    · exact alone_of_locked hlocked
    · refine (h.alone t).congr fun k q hk => hsame k fun t' q' hk' => ?_
      rw [h.same t' t k q' q hk' hk]
      exact Bool.not_eq_true _ ▸ hlocked

theorem Holds.handler {active nextWorker : ℕ} {pending : Cpu → Bool} (h : Holds s pc j parts)
    (hstage : hpc'.stage = (s.handlers c).stage)
    (hjoined : hpc'.Joined → (s.handlers c).Joined ∨ s.job.isOpen = true)
    (hwork : ∀ w wpc, hpc' ≠ .work w wpc)
    (hworker : nextWorker = s.job.nextWorker ∨
      ((s.handlers c).Joined ∧ s.job.nextWorker ≤ nextWorker ∧
        min nextWorker smpParMaxWorkers = min s.job.nextWorker smpParMaxWorkers))
    (htickets : nextWorker + tally HandlerPc.waiting (Function.update s.handlers c hpc') +
      tally pendingCount pending ≤
        s.job.nextWorker + tally HandlerPc.waiting s.handlers + tally pendingCount s.pending) :
    Holds ({ s with
      job := { s.job with active := active, nextWorker := nextWorker }
      pending := pending }.handler c hpc') pc j parts := by
  have hjoined' : ∀ c', (Function.update s.handlers c hpc' c').Joined →
      (s.handlers c').Joined ∨ s.job.isOpen = true := by
    intro c' hc'
    by_cases hcc : c' = c
    · rw [hcc, update_self] at hc'
      rw [hcc]
      exact hjoined hc'
    · rw [update_of_ne hcc] at hc'
      exact .inl hc'
  have hwork' : ∀ c' w wpc, Function.update s.handlers c hpc' c' = .work w wpc →
      s.handlers c' = .work w wpc := by
    intro c' w wpc hc'
    by_cases hcc : c' = c
    · rw [hcc, update_self] at hc'
      exact absurd hc' (hwork w wpc)
    · rwa [update_of_ne hcc] at hc'
  rcases h with ⟨hp, h⟩ | ⟨hl, h⟩
  · refine .inl ⟨hp, h.closed, fun c' hc' => ?_, h.counts, ?_⟩
    · rcases hjoined' c' hc' with hj | ho
      · exact h.nobody c' hj
      · rw [h.closed] at ho
        cases ho
    · obtain rfl | ⟨hj, _⟩ := hworker
      · have := h.assigned
        cases pc <;> exact this
      · exact absurd hj (h.nobody c)
  · have hle : s.job.nextWorker ≤ nextWorker ∧
        min nextWorker smpParMaxWorkers = min s.job.nextWorker smpParMaxWorkers := by
      obtain rfl | ⟨_, h1, h2⟩ := hworker
      · exact ⟨le_rfl, rfl⟩
      · exact ⟨h1, h2⟩
    refine .inr ⟨hl, h.fn, h.ctx, h.size, h.isOpen, fun c' hc' => ?_, ?_, h.positive.trans hle.1, ?_,
      fun c' w wpc hc' => ?_, fun c₁ c₂ w wpc wpc' h₁ h₂ => ?_, h.own, h.complete⟩
    · rcases hjoined' c' hc' with hj | ho
      · exact h.joined c' hj
      · rw [h.isOpen] at ho
        cases pc <;> first | rfl | cases ho
    · show WorkPool.Inv parts ⟨SmpPar.workers pc.stage (Function.update s.handlers c hpc'),
        s.job.next, s.job.done, min nextWorker smpParMaxWorkers, s.begun j, s.ended j⟩
      rw [workers_handler, hstage, hle.2]
      have hself : Function.update (SmpPar.workers pc.stage s.handlers) (some c)
          (s.handlers c).stage = SmpPar.workers pc.stage s.handlers := update_eq_self _ _
      rw [hself]
      exact h.inv
    · have := h.tickets
      show nextWorker + tally HandlerPc.waiting (Function.update s.handlers c hpc') +
        tally pendingCount pending + pc.remaining ≤ 1 + 3 * maxCpus
      omega
    · obtain ⟨h1, h2, h3⟩ := h.helpers c' w wpc (hwork' c' w wpc hc')
      exact ⟨h1, h2.trans_le hle.1, h3⟩
    · exact h.distinct c₁ c₂ w wpc wpc' (hwork' c₁ w wpc h₁) (hwork' c₂ w wpc' h₂)

theorem Live.join (h : Live s pc j parts) (hc : s.handlers c = .join)
    (hlt : s.job.nextWorker < smpParMaxWorkers) :
    Live ({ s with job := { s.job with nextWorker := s.job.nextWorker + 1 } }.handler c
      (.work s.job.nextWorker .fetch)) pc j parts := by
  have hothers : ∀ c' w wpc,
      Function.update s.handlers c (.work s.job.nextWorker .fetch) c' = .work w wpc →
      (c' = c ∧ w = s.job.nextWorker ∧ wpc = .fetch) ∨ (c' ≠ c ∧ s.handlers c' = .work w wpc) := by
    intro c' w wpc hc'
    by_cases hcc : c' = c
    · rw [hcc, update_self] at hc'
      cases hc'
      exact .inl ⟨hcc, rfl, rfl⟩
    · rw [update_of_ne hcc] at hc'
      exact .inr ⟨hcc, hc'⟩
  refine ⟨h.fn, h.ctx, h.size, h.isOpen, fun c' hc' => ?_, ?_, Nat.le_succ_of_le h.positive, ?_,
    fun c' w wpc hc' => ?_, fun c₁ c₂ w wpc wpc' h₁ h₂ => ?_, h.own, h.complete⟩
  · exact h.joined c (by rw [hc]; trivial)
  · show WorkPool.Inv parts ⟨SmpPar.workers pc.stage (Function.update s.handlers c
      (.work s.job.nextWorker .fetch)), s.job.next, s.job.done,
      min (s.job.nextWorker + 1) smpParMaxWorkers, s.begun j, s.ended j⟩
    have haway : SmpPar.workers pc.stage s.handlers (some c) = .away := by
      show (s.handlers c).stage = .away
      rw [hc]
      rfl
    rw [workers_handler, show min (s.job.nextWorker + 1) smpParMaxWorkers =
      min s.job.nextWorker smpParMaxWorkers + 1 by omega]
    exact h.inv.join haway
  · have hw := tally_update HandlerPc.waiting s.handlers c (.work s.job.nextWorker .fetch)
    rw [hc, show HandlerPc.waiting .join = 1 from rfl,
      show HandlerPc.waiting (.work s.job.nextWorker .fetch) = 0 from rfl] at hw
    have := h.tickets
    show s.job.nextWorker + 1 + tally HandlerPc.waiting (Function.update s.handlers c
      (.work s.job.nextWorker .fetch)) + tally pendingCount s.pending + pc.remaining ≤
        1 + 3 * maxCpus
    omega
  · rcases hothers c' w wpc hc' with ⟨_, rfl, rfl⟩ | ⟨_, hc'⟩
    · exact ⟨h.positive, Nat.lt_succ_self _, hlt, trivial⟩
    · obtain ⟨h1, h2, h3⟩ := h.helpers c' w wpc hc'
      exact ⟨h1, h2.trans (Nat.lt_succ_self _), h3⟩
  · rcases hothers c₁ w wpc h₁ with ⟨e₁, hw, _⟩ | ⟨_, o₁⟩ <;>
      rcases hothers c₂ w wpc' h₂ with ⟨e₂, hw', _⟩ | ⟨_, o₂⟩
    · exact e₁.trans e₂.symm
    · have := (h.helpers c₂ w wpc' o₂).2.1
      omega
    · have := (h.helpers c₁ w wpc o₁).2.1
      omega
    · exact h.distinct c₁ c₂ w wpc wpc' o₁ o₂

theorem Live.help {w : ℕ} {wpc : WorkPc} (h : Live s pc j parts) (hc : s.handlers c = .work w wpc)
    (hsmall : parts < 2 ^ 31) :
    Live ((workStep s wpc).1.handler c ((workStep s wpc).2.elim .leave (.work w))) pc j parts ∧
      ∀ k, k ≠ j → (workStep s wpc).1.begun k = s.begun k ∧ (workStep s wpc).1.ended k = s.ended k := by
  obtain ⟨hpos, hltw, hmax, hok⟩ := h.helpers c w wpc hc
  obtain ⟨next, done, begun, ended, pc', hstep, hrest, hinv, hok', hmono⟩ :=
    workStep_spec (i := some c) h.inv (by show (s.handlers c).stage = _; rw [hc]; rfl) hok h.fn
      h.ctx h.size hsmall (Nat.min_le_right _ _)
  have hstage : (pc'.elim HandlerPc.leave (.work w)).stage = pc'.elim .away WorkPc.stage := by
    cases pc' <;> rfl
  have hwait : (pc'.elim HandlerPc.leave (.work w)).waiting = 0 := by cases pc' <;> rfl
  -- who works, works under the number it had
  have hothers : ∀ c' w' q,
      Function.update s.handlers c (pc'.elim .leave (.work w)) c' = .work w' q →
      (c' = c ∧ w' = w ∧ pc' = some q) ∨ (c' ≠ c ∧ s.handlers c' = .work w' q) := by
    intro c' w' q hc'
    by_cases hcc : c' = c
    · rw [hcc, update_self] at hc'
      cases pc' with
      | none => cases hc'
      | some q' => cases hc'; exact .inl ⟨hcc, rfl, rfl⟩
    · rw [update_of_ne hcc] at hc'
      exact .inr ⟨hcc, hc'⟩
  have hwas : ∀ c' w' q,
      Function.update s.handlers c (pc'.elim .leave (.work w)) c' = .work w' q →
      ∃ q', s.handlers c' = .work w' q' := by
    intro c' w' q hc'
    rcases hothers c' w' q hc' with ⟨rfl, rfl, _⟩ | ⟨_, hc'⟩
    · exact ⟨wpc, hc⟩
    · exact ⟨q, hc'⟩
  rw [hstep]
  refine ⟨⟨h.fn, h.ctx, h.size, h.isOpen, fun c' hc' => ?_, ?_, h.positive, ?_,
    fun c' w' q hc' => ?_, fun c₁ c₂ w' q q' h₁ h₂ => ?_, h.own,
    fun hf => (h.complete hf).trans hmono⟩, hrest⟩
  · exact h.joined c (HandlerPc.joined_of_work hc)
  · show WorkPool.Inv parts ⟨SmpPar.workers pc.stage (Function.update s.handlers c
      (pc'.elim .leave (.work w))), next, done, min s.job.nextWorker smpParMaxWorkers, begun j,
      ended j⟩
    rw [workers_handler, hstage]
    exact hinv
  · have hw := tally_update HandlerPc.waiting s.handlers c (pc'.elim .leave (.work w))
    have := h.tickets
    show s.job.nextWorker + tally HandlerPc.waiting (Function.update s.handlers c
      (pc'.elim .leave (.work w))) + tally pendingCount s.pending + pc.remaining ≤ 1 + 3 * maxCpus
    omega
  · rcases hothers c' w' q hc' with ⟨rfl, rfl, hq⟩ | ⟨_, hc'⟩
    · exact ⟨hpos, hltw, hmax, hok' q hq⟩
    · exact h.helpers c' w' q hc'
  · obtain ⟨q₁, h₁⟩ := hwas c₁ w' q h₁
    obtain ⟨q₂, h₂⟩ := hwas c₂ w' q' h₂
    exact h.distinct c₁ c₂ w' q₁ q₂ h₁ h₂

theorem workStep_aside (s : State) (wpc : WorkPc) :
    Aside s (workStep s wpc).1 ∧ (workStep s wpc).1.handlers = s.handlers ∧
      (workStep s wpc).1.job.active = s.job.active := by
  cases wpc with
  | check part =>
    rw [workStep]
    split_ifs <;> exact ⟨⟨rfl, rfl, rfl, rfl, rfl⟩, rfl, rfl⟩
  | call part fn ctx => cases fn <;> exact ⟨⟨rfl, rfl, rfl, rfl, rfl⟩, rfl, rfl⟩
  | running part fn ctx => cases fn <;> exact ⟨⟨rfl, rfl, rfl, rfl, rfl⟩, rfl, rfl⟩
  | _ => exact ⟨⟨rfl, rfl, rfl, rfl, rfl⟩, rfl, rfl⟩

theorem Holds.live (h : Holds s pc j parts) (hc : (s.handlers c).Joined) :
    pc.live = true ∧ Live s pc j parts := by
  rcases h with ⟨_, h⟩ | h
  · exact absurd hc (h.nobody c)
  · exact h

end Handlers

theorem inside_le (hpc : HandlerPc) : hpc.inside ≤ 1 := by
  cases hpc <;> first | exact le_rfl | exact Nat.zero_le 1

variable {s : State} {c : Cpu}

theorem Good.pass {hpc' : HandlerPc} {active : ℕ} {pending : Cpu → Bool} (h : Good s)
    (hstage : hpc'.stage = (s.handlers c).stage) (hjoined : hpc'.Joined → s.job.isOpen = true)
    (hwork : ∀ w wpc, hpc' ≠ .work w wpc)
    (hactive : active = tally HandlerPc.inside (Function.update s.handlers c hpc'))
    (htickets : tally HandlerPc.waiting (Function.update s.handlers c hpc') +
      tally pendingCount pending ≤
        tally HandlerPc.waiting s.handlers + tally pendingCount s.pending) :
    Good ({ s with job := { s.job with active := active }, pending := pending }.handler c hpc') := by
  refine h.aside ⟨rfl, rfl, rfl, rfl, rfl⟩ hactive (fun _ hclosed hnobody => ?_)
    fun pc j parts _ hh => ⟨?_, fun _ _ => ⟨rfl, rfl⟩⟩
  · refine ⟨hclosed, fun c' hc' => ?_, rfl, rfl⟩
    change (Function.update s.handlers c hpc' c').Joined at hc'
    by_cases hcc : c' = c
    · rw [hcc, update_self] at hc'
      rw [hjoined hc'] at hclosed
      cases hclosed
    · rw [update_of_ne hcc] at hc'
      exact hnobody c' hc'
  · exact hh.handler hstage (fun hj => .inr (hjoined hj)) hwork
      (.inl rfl) (by omega)

theorem Good.help {w : ℕ} {wpc : WorkPc} (h : Good s) (hc : s.handlers c = .work w wpc) :
    Good ((workStep s wpc).1.handler c ((workStep s wpc).2.elim .leave (.work w))) := by
  have hj : (s.handlers c).Joined := HandlerPc.joined_of_work hc
  obtain ⟨⟨hcallers, hlock, hcalls, hpartsOf, hreturned⟩, hhandlers, hactive⟩ := workStep_aside s wpc
  refine h.aside ⟨hcallers, hlock, hcalls, hpartsOf, hreturned⟩ ?_
    (fun _ _ hnobody => absurd hj (hnobody c)) fun pc j parts hsmall hh => ?_
  · have hi := tally_update HandlerPc.inside s.handlers c ((workStep s wpc).2.elim .leave (.work w))
    have hone : ((workStep s wpc).2.elim HandlerPc.leave (.work w)).inside = 1 := by
      cases (workStep s wpc).2 <;> rfl
    rw [hc, hone] at hi
    show (workStep s wpc).1.job.active =
      tally HandlerPc.inside (Function.update (workStep s wpc).1.handlers c _)
    rw [hactive, hhandlers, h.active]
    exact (Nat.add_right_cancel hi).symm
  · obtain ⟨hl, hlive⟩ := hh.live hj
    obtain ⟨hlive', hcounts⟩ := hlive.help hc hsmall
    exact ⟨.inr ⟨hl, hlive'⟩, hcounts⟩

theorem Good.handlerStep (h : Good s) (c : Cpu) : Good (handlerStep s c) := by
  have hactive := h.active
  have hwait := fun hpc => tally_update HandlerPc.waiting s.handlers c hpc
  have hin := fun hpc => tally_update HandlerPc.inside s.handlers c hpc
  have hcard : tally HandlerPc.inside s.handlers ≤ 16 := by
    have := tally_le_card (g := HandlerPc.inside) inside_le s.handlers
    rwa [Fintype.card_fin] at this
  unfold SmpPar.handlerStep
  cases hc : s.handlers c with
  | outside => exact h
  | enter =>
    have hw := hwait .checkOpen
    have hi := hin .checkOpen
    rw [hc] at hw hi
    simp only [HandlerPc.waiting, HandlerPc.inside] at hw hi
    exact h.pass (by rw [hc]; rfl) (fun hj => hj.elim) (fun _ _ => nofun)
      (by rw [hactive, Nat.mod_eq_of_lt (by omega)]; omega) (by omega)
  | checkOpen =>
    cases ho : s.job.isOpen with
    | true =>
      rw [if_pos rfl]
      have hw := hwait .join
      have hi := hin .join
      rw [hc] at hw hi
      simp only [HandlerPc.waiting, HandlerPc.inside] at hw hi
      exact h.pass (by rw [hc]; rfl) (fun _ => ho) (fun _ _ => nofun)
        (by rw [hactive]; omega) (by omega)
    | false =>
      rw [if_neg Bool.false_ne_true]
      have hw := hwait .leave
      have hi := hin .leave
      rw [hc] at hw hi
      simp only [HandlerPc.waiting, HandlerPc.inside] at hw hi
      exact h.pass (by rw [hc]; rfl) (fun hj => hj.elim) (fun _ _ => nofun)
        (by rw [hactive]; omega) (by omega)
  | join =>
    dsimp only
    have hi := fun hpc => hin hpc
    simp only [hc, HandlerPc.inside] at hi
    refine h.aside ⟨rfl, rfl, rfl, rfl, rfl⟩ ?_ (fun _ _ hnobody => ?_)
      fun pc j parts hsmall hh => ⟨?_, fun _ _ => ⟨rfl, rfl⟩⟩
    · show s.job.active = tally HandlerPc.inside (Function.update s.handlers c _)
      split_ifs with hlt
      · have := hi (.work s.job.nextWorker .fetch)
        dsimp only at this
        omega
      · have := hi .leave
        dsimp only at this
        omega
    · exact absurd (show (s.handlers c).Joined by rw [hc]; trivial) (hnobody c)
    · obtain ⟨hl, hlive⟩ := hh.live (c := c) (by rw [hc]; trivial)
      have hone := le_tally HandlerPc.waiting s.handlers c
      have htickets := hlive.tickets
      rw [hc] at hone
      change 1 ≤ _ at hone
      rw [Nat.mod_eq_of_lt (show s.job.nextWorker + 1 < 2 ^ 32 by unfold maxCpus at htickets; omega)]
      split_ifs with hlt
      · exact .inr ⟨hl, hlive.join hc hlt⟩
      · have hw := hwait .leave
        rw [hc] at hw
        simp only [HandlerPc.waiting] at hw
        exact hh.handler (by rw [hc]; rfl) (fun hj => hj.elim) (fun _ _ => nofun)
          (.inr ⟨by rw [hc]; trivial, Nat.le_succ _, by omega⟩) (by omega)
  | work w wpc =>
    have hgood := h.help hc
    dsimp only
    rcases hws : workStep s wpc with ⟨s₁, _ | q⟩ <;> rw [hws] at hgood <;> exact hgood
  | leave =>
    have hw := hwait .outside
    have hi := hin .outside
    rw [hc] at hw hi
    simp only [HandlerPc.waiting, HandlerPc.inside] at hw hi
    have hpos := le_tally HandlerPc.inside s.handlers c
    rw [hc] at hpos
    simp only [HandlerPc.inside] at hpos
    exact h.pass (by rw [hc]; rfl) (fun hj => hj.elim) (fun _ _ => nofun)
      (by rw [hactive]; omega) (by omega)

end MinimalOS.SmpPar
