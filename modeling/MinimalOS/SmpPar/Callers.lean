import MinimalOS.SmpPar.Invariant

/-!
# Callers

Every step of `smp_par_run` keeps the invariant. A caller without the lock does its job alone; the
one with it takes the job from `Setup` to `Live`, works as one of its workers, and gives the lock
back when all parts are counted and no helper is inside.
-/

namespace MinimalOS.SmpPar

open WorkPool Function

section Moves

variable {s s' : State} {t j parts : ℕ} {pc' : CallerPc}

/-- What a step of a caller in call `j` leaves alone. -/
structure Moved (s s' : State) (t j : ℕ) (pc' : CallerPc) : Prop where
  callers : s'.callers = Function.update s.callers t pc'
  handlers : s'.handlers = s.handlers
  active : s'.job.active = s.job.active
  calls : s'.calls = s.calls
  partsOf : s'.partsOf = s.partsOf
  begun : ∀ k, k ≠ j → s'.begun k = s.begun k
  ended : ∀ k, k ≠ j → s'.ended k = s.ended k

theorem Moved.other (hm : Moved s s' t j pc') (h : Good s)
    (hcall : (s.callers t).call = some (j, parts)) {t' k q : ℕ} (ht : t' ≠ t)
    (hk : (s.callers t').call = some (k, q)) : k ≠ j ∧ s'.begun k = s.begun k ∧
      s'.ended k = s.ended k := by
  have hne : k ≠ j := by
    rintro rfl
    exact ht (h.same t' t k q parts hk hcall)
  exact ⟨hne, hm.begun k hne, hm.ended k hne⟩

theorem Good.go (h : Good s) (hm : Moved s s' t j pc')
    (hcall : (s.callers t).call = some (j, parts)) (hcall' : pc'.call = some (j, parts))
    (hret : s'.returned = s.returned) (halone : Alone s' pc') (hlock : LockOk s') : Good s' := by
  obtain ⟨hj, hnot, hparts, hsmall⟩ := h.call t j parts hcall
  -- every caller is in the call it was in
  have hcalls : ∀ t', (s'.callers t').call = (s.callers t').call := by
    intro t'
    rw [hm.callers]
    by_cases ht : t' = t
    · rw [ht, update_self, hcall, hcall']
    · rw [update_of_ne ht]
  refine ⟨?_, fun k hk => ?_, fun t' k q hk => ?_, fun t₁ t₂ k q q' h₁ h₂ => ?_, fun k hk => ?_,
    fun t' => ?_, hlock⟩
  · rw [hm.active, hm.handlers]
    exact h.active
  · rw [hm.calls] at hk
    have hne : k ≠ j := by omega
    rw [hret]
    exact ⟨(h.fresh k hk).1.congr (hm.begun k hne) (hm.ended k hne), (h.fresh k hk).2⟩
  · rw [hm.calls, hret, hm.partsOf]
    exact h.call t' k q (hcalls t' ▸ hk)
  · exact h.same t₁ t₂ k q q' (hcalls t₁ ▸ h₁) (hcalls t₂ ▸ h₂)
  · rw [hret] at hk
    have hne : k ≠ j := by
      rintro rfl
      rw [hnot] at hk
      cases hk
    rw [hm.partsOf]
    exact (h.returned k hk).congr (hm.begun k hne) (hm.ended k hne)
  · rw [hm.callers]
    by_cases ht : t' = t
    · rw [ht, update_self]
      exact halone
    · rw [update_of_ne ht]
      exact (h.alone t').congr fun k q hk => (hm.other h hcall ht hk).2

theorem Good.ret (h : Good s) (b : Bool) (hcall : (s.callers t).call = some (j, parts))
    (hcounts : Counts s j parts parts) (hlock : LockOk ({ s with lock := b }.ret t j)) :
    Good ({ s with lock := b }.ret t j) := by
  obtain ⟨hj, hnot, hparts, hsmall⟩ := h.call t j parts hcall
  have hreturned : ∀ k, k ≠ j → ({ s with lock := b }.ret t j).returned k = s.returned k :=
    fun k hk => update_of_ne hk ..
  -- a caller that is in a call was in it before
  have hstill : ∀ t' k q, (({ s with lock := b }.ret t j).callers t').call = some (k, q) →
      t' ≠ t ∧ (s.callers t').call = some (k, q) := by
    intro t' k q hk
    change (Function.update s.callers t .idle t').call = some (k, q) at hk
    by_cases ht : t' = t
    · rw [ht, update_self] at hk
      cases hk
    · rw [update_of_ne ht] at hk
      exact ⟨ht, hk⟩
  refine ⟨h.active, fun k hk => ?_, fun t' k q hk => ?_, fun t₁ t₂ k q q' h₁ h₂ => ?_,
    fun k hk => ?_, fun t' => ?_, hlock⟩
  · have hk : s.calls ≤ k := hk
    rw [hreturned k (by omega)]
    exact h.fresh k hk
  · obtain ⟨ht, hk⟩ := hstill t' k q hk
    rw [hreturned k fun hkj => ht (h.same t' t j q parts (hkj ▸ hk) hcall)]
    exact h.call t' k q hk
  · exact h.same t₁ t₂ k q q' (hstill t₁ k q h₁).2 (hstill t₂ k q' h₂).2
  · by_cases hkj : k = j
    · rw [hkj]
      show Counts s j (s.partsOf j) (s.partsOf j)
      rw [hparts]
      exact hcounts
    · rw [hreturned k hkj] at hk
      exact h.returned k hk
  · show Alone _ (Function.update s.callers t .idle t')
    by_cases ht : t' = t
    · rw [ht, update_self]
      trivial
    · rw [update_of_ne ht]
      exact (h.alone t').congr fun _ _ _ => ⟨rfl, rfl⟩

/-! ## Callers without the lock -/

variable {pc : CallerPc} {hpc : HandlerPc}

theorem Good.goAlone (h : Good s) (hpc : s.callers t = pc) (hcall : pc.call = some (j, parts))
    (hnot : pc.locked = false) (hcall' : pc'.call = some (j, parts)) (hnot' : pc'.locked = false)
    {begun ended : ℕ → ℕ → ℕ} (hb : ∀ k, k ≠ j → begun k = s.begun k)
    (he : ∀ k, k ≠ j → ended k = s.ended k)
    (halone : Alone { s with begun := begun, ended := ended } pc') :
    Good ({ s with begun := begun, ended := ended }.caller t pc') := by
  subst hpc
  have hm : Moved s ({ s with begun := begun, ended := ended }.caller t pc') t j pc' :=
    ⟨rfl, rfl, rfl, rfl, rfl, hb, he⟩
  exact h.go hm hcall hcall' rfl (halone.congr fun _ _ _ => ⟨rfl, rfl⟩)
    (h.lock.bystander hnot hnot' rfl rfl rfl rfl rfl fun _ _ _ ht hk =>
      (hm.other h hcall ht hk).2)

theorem Good.retAlone (h : Good s) (hpc : s.callers t = pc) (hcall : pc.call = some (j, parts))
    (hnot : pc.locked = false) (hcounts : Counts s j parts parts) : Good (s.ret t j) := by
  subst hpc
  exact h.ret s.lock hcall hcounts
    (h.lock.bystander hnot rfl rfl rfl rfl rfl rfl fun _ _ _ _ _ => ⟨rfl, rfl⟩)

variable {p : ℕ} {job : Job}

theorem Counts.begin (h : Counts s j p p) :
    Counts { s with begun := State.bump s.begun j p } j (p + 1) p := by
  intro q
  refine ⟨?_, (h q).2⟩
  show State.bump s.begun j p j q = _
  rw [bump_self]
  by_cases hq : q = p
  · rw [hq, update_self, (h p).1, if_neg (lt_irrefl p), if_pos (Nat.lt_succ_self p)]
  · rw [update_of_ne hq, (h q).1]
    split_ifs <;> omega

theorem Counts.finish (h : Counts s j (p + 1) p) :
    Counts { s with ended := State.bump s.ended j p } j (p + 1) (p + 1) := by
  intro q
  refine ⟨(h q).1, ?_⟩
  show State.bump s.ended j p j q = _
  rw [bump_self]
  by_cases hq : q = p
  · rw [hq, update_self, (h p).2, if_neg (lt_irrefl p), if_pos (Nat.lt_succ_self p)]
  · rw [update_of_ne hq, (h q).2]
    split_ifs <;> omega

/-! ## The caller with the lock -/

theorem alone_of_locked (h : pc.locked = true) : Alone s pc := by
  cases pc <;> trivial

theorem Good.goLocked (pc' : CallerPc) (h : Good s) (hpc : s.callers t = pc)
    (hlocked : pc.locked = true) (hcall : pc.call = some (j, parts)) (hlocked' : pc'.locked = true)
    (hcall' : pc'.call = some (j, parts)) (hm : Moved s s' t j pc')
    (hret : s'.returned = s.returned) (hlock : s'.lock = s.lock)
    (hholds : Holds s pc j parts → Holds s' pc' j parts) : Good s' := by
  subst hpc
  obtain ⟨hl, hothers, hh⟩ := h.lock.holder hlocked hcall
  exact h.go hm hcall hcall' hret (alone_of_locked hlocked')
    (LockOk.intro (hlock.trans hl) hm.callers hothers hcall' (hholds hh))

theorem Holds.setup (h : Holds s pc j parts) (hnot : pc.live = false) : Setup s pc j parts := by
  rcases h with ⟨_, h⟩ | ⟨hl, _⟩
  · exact h
  · rw [hnot] at hl
    cases hl

theorem Holds.isLive (h : Holds s pc j parts) (hnot : pc.preparing = false) :
    Live s pc j parts := by
  rcases h with ⟨hp, _⟩ | ⟨_, h⟩
  · rw [hnot] at hp
    cases hp
  · exact h

/-- The holder of the lock sets one field and goes on to the next. -/
theorem Good.goSetup (pc' : CallerPc) (h : Good s) (hpc : s.callers t = pc)
    (hprep : pc.preparing = true) (hcall : pc.call = some (j, parts))
    (hprep' : pc'.preparing = true) (hcall' : pc'.call = some (j, parts))
    (hactive : job.active = s.job.active) (hopen : job.isOpen = s.job.isOpen)
    (hassigned : pc.Assigned s.job → pc'.Assigned job) :
    Good ({ s with job := job }.caller t pc') := by
  have hlocked : ∀ {pc : CallerPc}, pc.preparing = true → pc.locked = true := fun hp => by
    rw [CallerPc.locked, hp, Bool.true_or]
  refine h.goLocked pc' hpc (hlocked hprep) hcall (hlocked hprep') hcall'
    ⟨rfl, rfl, hactive, rfl, rfl, fun _ _ => rfl, fun _ _ => rfl⟩ rfl rfl fun hh => ?_
  have hs := hh.setup (by cases pc <;> first | rfl | cases hprep)
  exact .inl ⟨hprep', hopen.trans hs.closed, hs.nobody, hs.counts, hassigned hs.assigned⟩

theorem Counts.zero (h : Counts s j 0 0) : s.begun j = (fun _ => 0) ∧ s.ended j = fun _ => 0 :=
  ⟨funext fun p => (h p).1, funext fun p => (h p).2⟩

theorem stage_of_not_joined (h : ¬ hpc.Joined) : hpc.stage = .away := by
  cases hpc <;> first | rfl | exact absurd trivial h

theorem Setup.open (h : Setup s (.setOpen j parts) j parts) :
    Live ({ s with job := { s.job with isOpen := true } }.caller t (.ask j parts 0 0))
      (.ask j parts 0 0) j parts := by
  obtain ⟨⟨⟨⟨⟨hfn, hctx⟩, hsize⟩, hnext⟩, hdone⟩, hworker⟩ := h.assigned
  obtain ⟨hb, he⟩ := h.counts.zero
  constructor
  · exact hfn
  · exact hctx
  · exact hsize
  · rfl
  · exact fun c hc => absurd hc (h.nobody c)
  · show WorkPool.Inv parts ⟨SmpPar.workers .ready s.handlers, s.job.next, s.job.done,
      min s.job.nextWorker smpParMaxWorkers, s.begun j, s.ended j⟩
    rw [hnext, hdone, hworker, hb, he]
    refine WorkPool.Inv.init (i := none) rfl fun k hk => ?_
    cases k with
    | none => exact absurd rfl hk
    | some c => exact stage_of_not_joined (h.nobody c)
  · show 1 ≤ s.job.nextWorker
    omega
  · have hw := tally_le_card HandlerPc.waiting_le s.handlers
    have hp := tally_le_card (g := pendingCount) (fun b => by cases b <;> decide) s.pending
    rw [Fintype.card_fin] at hw hp
    show s.job.nextWorker + tally HandlerPc.waiting s.handlers + tally pendingCount s.pending +
      (maxCpus - 0) ≤ 1 + 3 * maxCpus
    omega
  · intro c w wpc hc
    exact absurd (HandlerPc.joined_of_work hc) (h.nobody c)
  · intro c c' w wpc wpc' hc
    exact absurd (HandlerPc.joined_of_work hc) (h.nobody c)
  · intro wpc hpc
    cases hpc
  · intro hf
    cases hf

theorem Live.work {wpc : WorkPc} (h : Live s (.work j parts wpc) j parts) (hsmall : parts < 2 ^ 31) :
    ∃ s₁ pc', workStep s wpc = (s₁, pc') ∧
      (∀ pc'', Moved s (s₁.caller t pc'') t j pc'') ∧ s₁.returned = s.returned ∧
      s₁.lock = s.lock ∧
      (∀ wpc', pc' = some wpc' → Live (s₁.caller t (.work j parts wpc')) (.work j parts wpc') j parts) ∧
      (pc' = none → Live (s₁.caller t (.waitDone j parts)) (.waitDone j parts) j parts) := by
  obtain ⟨next, done, begun, ended, pc', hstep, hrest, hinv, hok, hmono⟩ :=
    workStep_spec (i := none) h.inv rfl (h.own wpc rfl) h.fn h.ctx h.size hsmall
      (Nat.min_le_right _ _)
  refine ⟨_, pc', hstep, fun _ => ⟨rfl, rfl, rfl, rfl, rfl, fun k hk => (hrest k hk).1,
    fun k hk => (hrest k hk).2⟩, rfl, rfl, fun wpc' hpc => ?_, fun hpc => ?_⟩
  · subst hpc
    refine ⟨h.fn, h.ctx, h.size, h.isOpen, fun _ _ => rfl, ?_, h.positive, h.tickets, h.helpers,
      h.distinct, fun q hq => ?_, fun hf => (by cases hf)⟩
    · unfold pool
      rw [workers_own (WorkPc.stage wpc)]
      exact hinv
    · cases hq
      exact hok _ rfl
  · subst hpc
    refine ⟨h.fn, h.ctx, h.size, h.isOpen, fun _ _ => rfl, ?_, h.positive, h.tickets, h.helpers,
      h.distinct, fun q hq => (by cases hq), fun hf => (by cases hf)⟩
    unfold pool
    rw [workers_own (WorkPc.stage wpc)]
    exact hinv

/-- The caller goes on to a place where it is no worker or where it is the same as before. -/
theorem Live.advance {pending : Cpu → Bool} (h : Live s pc j parts)
    (hfields : job = { s.job with isOpen := job.isOpen }) (hopen : job.isOpen = pc'.opened)
    (hjoined : ∀ c, (s.handlers c).Joined → pc'.helped = true) (hstage : pc'.stage = pc.stage)
    (htickets : tally pendingCount pending + pc'.remaining ≤
      tally pendingCount s.pending + pc.remaining)
    (hown : ∀ wpc, pc' = .work j parts wpc → wpc.Ok j parts)
    (hdone : pc'.finished = true → parts ≤ s.job.done) :
    Live ({ s with job := job, pending := pending }.caller t pc') pc' j parts := by
  rw [hfields]
  refine ⟨h.fn, h.ctx, h.size, hopen, hjoined, ?_, h.positive, ?_, h.helpers, h.distinct, hown,
    hdone⟩
  · rw [hstage]
    exact h.inv
  · have := h.tickets
    show s.job.nextWorker + tally HandlerPc.waiting s.handlers + tally pendingCount pending +
      pc'.remaining ≤ 1 + 3 * maxCpus
    omega

theorem not_joined_of_inside (h : hpc.inside = 0) : ¬ hpc.Joined := by
  cases hpc <;> first | exact id | cases h

theorem Live.unlock (h : Live s (.unlock j parts) j parts) : Counts s j parts parts :=
  fun p => h.inv.complete (h.complete rfl) p

end Moves

/-! ## Every step of a caller -/

theorem Good.callerStep {s : State} (h : Good s) (t choice : ℕ) : Good (callerStep s t choice) := by
  have halone := h.alone t
  -- what most steps of the holder of the lock leave alone
  have hm : ∀ {j pc' s'}, s' = { s with job := s'.job, pending := s'.pending }.caller t pc' →
      s'.job.active = s.job.active → Moved s s' t j pc' := by
    intro j pc' s' hs hactive
    exact ⟨by rw [hs]; rfl, by rw [hs]; rfl, hactive, by rw [hs]; rfl, by rw [hs]; rfl,
      fun _ _ => by rw [hs]; rfl, fun _ _ => by rw [hs]; rfl⟩
  unfold SmpPar.callerStep
  cases hpc : s.callers t with
  | idle => exact h
  | enter j parts =>
    rw [hpc] at halone
    dsimp only
    split_ifs with h0 h1
    · exact h.retAlone hpc rfl rfl (h0 ▸ halone)
    · exact h.goAlone hpc rfl rfl rfl rfl (fun _ _ => rfl) (fun _ _ => rfl) ⟨Nat.zero_le _, halone⟩
    · exact h.goAlone hpc rfl rfl rfl rfl (fun _ _ => rfl) (fun _ _ => rfl) halone
  | tryLock j parts =>
    rw [hpc] at halone
    dsimp only
    split_ifs with hl
    · exact h.goAlone hpc rfl rfl rfl rfl (fun _ _ => rfl) (fun _ _ => rfl) ⟨Nat.zero_le _, halone⟩
    · -- the lock was free
      have hlock := h.lock
      unfold LockOk at hlock
      rw [if_neg hl] at hlock
      obtain ⟨hnots, hclosed, hnobody⟩ := hlock
      exact h.go ⟨rfl, rfl, rfl, rfl, rfl, fun _ _ => rfl, fun _ _ => rfl⟩ (by rw [hpc]; rfl) rfl rfl trivial
        (LockOk.intro rfl rfl (fun t' _ => hnots t') rfl
          (.inl ⟨rfl, hclosed, hnobody, halone, trivial⟩))
  | serial j parts part =>
    rw [hpc] at halone
    obtain ⟨hle, hcounts⟩ := halone
    dsimp only
    split_ifs with hlt
    · exact h.goAlone hpc rfl rfl rfl rfl (fun k hk => bump_of_ne _ _ hk) (fun _ _ => rfl)
        ⟨hlt, hcounts.begin⟩
    · obtain rfl : part = parts := by omega
      exact h.retAlone hpc rfl rfl hcounts
  | serialRunning j parts part =>
    rw [hpc] at halone
    exact h.goAlone hpc rfl rfl rfl rfl (fun _ _ => rfl) (fun k hk => bump_of_ne _ _ hk)
      ⟨halone.1, halone.2.finish⟩
  | setFn j parts => exact h.goSetup (.setCtx j parts) hpc rfl rfl rfl rfl rfl rfl fun _ => rfl
  | setCtx j parts =>
    exact h.goSetup (.setParts j parts) hpc rfl rfl rfl rfl rfl rfl fun ha => ⟨ha, rfl⟩
  | setParts j parts =>
    exact h.goSetup (.setNext j parts) hpc rfl rfl rfl rfl rfl rfl fun ha => ⟨ha, rfl⟩
  | setNext j parts =>
    exact h.goSetup (.setDone j parts) hpc rfl rfl rfl rfl rfl rfl fun ha => ⟨ha, rfl⟩
  | setDone j parts =>
    exact h.goSetup (.setNextWorker j parts) hpc rfl rfl rfl rfl rfl rfl fun ha => ⟨ha, rfl⟩
  | setNextWorker j parts =>
    exact h.goSetup (.setOpen j parts) hpc rfl rfl rfl rfl rfl rfl fun ha => ⟨ha, rfl⟩
  | setOpen j parts =>
    exact h.goLocked (.ask j parts 0 0) hpc rfl rfl rfl rfl (hm rfl rfl) rfl rfl fun hh =>
      .inr ⟨rfl, (hh.setup rfl).open⟩
  | ask j parts i asked =>
    have hwork : Good (s.caller t (.work j parts .fetch)) := by
      refine h.goLocked (.work j parts .fetch) hpc rfl rfl rfl rfl (hm rfl rfl) rfl rfl fun hh => ?_
      have hl := hh.isLive rfl
      exact .inr ⟨rfl, hl.advance rfl hl.isOpen (fun _ _ => rfl) rfl
        (Nat.add_le_add_left (Nat.zero_le _) _) (fun wpc hw => (by cases hw; trivial))
        fun hf => (by cases hf)⟩
    dsimp only
    split_ifs with hi hasked hchoice
    · refine h.goLocked (.ask j parts (i + 1) asked) hpc rfl rfl rfl rfl (hm rfl rfl) rfl rfl
        fun hh => ?_
      have hl := hh.isLive rfl
      exact .inr ⟨rfl, hl.advance rfl hl.isOpen (fun _ _ => rfl) rfl
        (Nat.add_le_add_left (show maxCpus - (i + 1) ≤ maxCpus - i by omega) _)
        (fun wpc hw => (by cases hw)) fun hf => (by cases hf)⟩
    · refine h.goLocked (.ask j parts (i + 1) (asked + 1)) hpc rfl rfl rfl rfl (hm rfl rfl) rfl rfl
        fun hh => ?_
      have hl := hh.isLive rfl
      have hp := tally_update pendingCount s.pending ⟨i, hi⟩ true
      refine .inr ⟨rfl, hl.advance rfl hl.isOpen (fun _ _ => rfl) rfl ?_
        (fun wpc hw => (by cases hw)) fun hf => (by cases hf)⟩
      show tally pendingCount _ + (maxCpus - (i + 1)) ≤ tally pendingCount s.pending + (maxCpus - i)
      rw [show pendingCount true = 1 from rfl] at hp
      omega
    · exact hwork
    · exact hwork
  | work j parts wpc =>
    obtain ⟨_, _, _, hsmall⟩ := h.call t j parts (by rw [hpc]; rfl)
    obtain ⟨_, _, hholds⟩ := h.lock.holder (by rw [hpc]; rfl)
      (show (s.callers t).call = some (j, parts) by rw [hpc]; rfl)
    rw [hpc] at hholds
    obtain ⟨s₁, pc', hstep, hmoved, hret, hl, hsome, hnone⟩ := (hholds.isLive rfl).work (t := t) hsmall
    dsimp only
    rw [hstep]
    cases pc' with
    | none =>
      exact h.goLocked (.waitDone j parts) hpc rfl rfl rfl rfl (hmoved _) hret hl
        fun _ => .inr ⟨rfl, hnone rfl⟩
    | some wpc' =>
      exact h.goLocked (.work j parts wpc') hpc rfl rfl rfl rfl (hmoved _) hret hl
        fun _ => .inr ⟨rfl, hsome wpc' rfl⟩
  | waitDone j parts =>
    dsimp only
    split_ifs with hdone
    · exact h
    · refine h.goLocked (.close j parts) hpc rfl rfl rfl rfl (hm rfl rfl) rfl rfl fun hh => ?_
      have hl := hh.isLive rfl
      exact .inr ⟨rfl, hl.advance rfl hl.isOpen (fun _ _ => rfl) rfl le_rfl
        (fun wpc hw => (by cases hw)) fun _ => not_lt.mp hdone⟩
  | close j parts =>
    refine h.goLocked (.waitActive j parts) hpc rfl rfl rfl rfl (hm rfl rfl) rfl rfl fun hh => ?_
    have hl := hh.isLive rfl
    exact .inr ⟨rfl, hl.advance rfl rfl (fun _ _ => rfl) rfl le_rfl (fun wpc hw => (by cases hw))
      fun _ => hl.complete rfl⟩
  | waitActive j parts =>
    dsimp only
    split_ifs with hactive
    · exact h
    · have hnobody : ∀ c, ¬ (s.handlers c).Joined := fun c => by
        have hle := le_tally HandlerPc.inside s.handlers c
        rw [← h.active, not_not.mp hactive] at hle
        exact not_joined_of_inside (Nat.le_zero.mp hle)
      refine h.goLocked (.unlock j parts) hpc rfl rfl rfl rfl (hm rfl rfl) rfl rfl fun hh => ?_
      have hl := hh.isLive rfl
      exact .inr ⟨rfl, hl.advance rfl hl.isOpen (fun c hc => absurd hc (hnobody c)) rfl le_rfl
        (fun wpc hw => (by cases hw)) fun _ => hl.complete rfl⟩
  | unlock j parts =>
    have hcall : (s.callers t).call = some (j, parts) := by rw [hpc]; rfl
    obtain ⟨_, hothers, hholds⟩ := h.lock.holder (by rw [hpc]; rfl) hcall
    rw [hpc] at hholds
    have hl := hholds.isLive rfl
    refine h.ret false hcall hl.unlock ⟨fun t' => ?_, hl.isOpen, fun c hc => ?_⟩
    · show (Function.update s.callers t .idle t').locked = false
      by_cases ht : t' = t
      · rw [ht, update_self]
        rfl
      · rw [update_of_ne ht]
        exact hothers t' ht
    · cases hl.joined c hc

end MinimalOS.SmpPar
