import MinimalOS.Fgpu.Lane

/-!
# Lockstep execution

The loop of `run` keeps every lane where `laneRun` would have it after the instructions before
`pc` (`Lockstep`). Jumps go forward, so a lane that waits does so for an instruction still to
come; skipping to the nearest such instruction skips only instructions no lane would run. Hence
the loop ends within one round an instruction, no round faults, and what a lane computes depends
on that lane alone.
-/

namespace MinimalOS.Fgpu

section Lockstep

variable {K : Type} {A : Arith K} {env : Env K}

/-! ## Fetching -/

variable {pc k count : ℕ} {s : LaneState K}

section

variable (hp : env.p.Ok) (hpc : pc < env.p.h.count env.fragment)

include hp hpc

theorem fetchWord_ok (hk : k < fgpuShaderInstructionWords) :
    fetchWord env pc k = .ok (env.p.instWord env.fragment pc k) := by
  have hin := hp.words env.fragment
  unfold fetchWord fgpuShaderInstructionWords at *
  exact if_pos ⟨hpc, by omega⟩

theorem fetch_ok : fetch env pc = .ok (env.p.inst env.fragment pc) := by
  obtain ⟨op, hi⟩ := hp.inst env.fragment pc hpc
  unfold fetch Program.inst
  simp only [fetchWord_ok hp hpc, bind, Except.bind, hi.opcode,
    show 0 < fgpuShaderInstructionWords by decide, show 1 < fgpuShaderInstructionWords by decide,
    show 2 < fgpuShaderInstructionWords by decide, show 3 < fgpuShaderInstructionWords by decide,
    show 4 < fgpuShaderInstructionWords by decide]
  rfl

theorem inst_ok :
    (env.p.inst env.fragment pc).Ok env.p.h env.fragment ∧
      ((env.p.inst env.fragment pc).op = .jmp ∨ (env.p.inst env.fragment pc).op = .jz →
        pc < (env.p.inst env.fragment pc).dst ∧ (env.p.inst env.fragment pc).dst ≤ env.p.h.count env.fragment) := by
  obtain ⟨op, hi⟩ := hp.inst env.fragment pc hpc
  have hop : (env.p.inst env.fragment pc).op = op := by unfold Program.inst; rw [hi.opcode]; rfl
  rw [hop]
  refine ⟨⟨?_, ?_, ?_, ?_, ?_⟩, hi.target⟩ <;> rw [hop]
  · exact hi.dst
  · exact hi.src 0 (by decide)
  · exact hi.src 1 (by decide)
  · exact hi.src 2 (by decide)
  · exact hi.unit

end

/-! ## The two searches over the lanes -/

theorem foldl_least {ι : Type} {q : ι → Prop} [DecidablePred q] {v : ι → ℕ} :
    ∀ (ls : List ι) (w : ℕ),
      let least := ls.foldl (fun w l => if q l ∧ v l < w then v l else w) w
      least ≤ w ∧ (∀ l ∈ ls, q l → least ≤ v l) ∧ (least = w ∨ ∃ l, q l ∧ least = v l) := by
  intro ls
  induction ls with
  | nil => exact fun w => ⟨le_rfl, nofun, .inl rfl⟩
  | cons l ls ih =>
    intro w
    rw [List.foldl_cons]
    by_cases h : q l ∧ v l < w
    · rw [if_pos h]
      obtain ⟨h1, h2, h3⟩ := ih (v l)
      refine ⟨by omega, fun x hx hq => ?_, h3.elim (fun he => .inr ⟨l, h.1, he⟩) .inr⟩
      rcases List.mem_cons.mp hx with rfl | hx
      · exact h1
      · exact h2 x hx hq
    · rw [if_neg h]
      obtain ⟨h1, h2, h3⟩ := ih w
      refine ⟨h1, fun x hx hq => ?_, h3⟩
      rcases List.mem_cons.mp hx with rfl | hx
      · have : ¬ v x < w := fun hlt => h ⟨hq, hlt⟩
        omega
      · exact h2 x hx hq

theorem nextWake_le {wait : Lane → ℕ} {live : LaneSet} {l : Lane} (hl : live l = true)
    (hw : pc < wait l) : nextWake wait live pc count ≤ wait l := by
  have h := foldl_least (q := fun l => live l = true ∧ pc < wait l) (v := wait)
    (List.finRange fgpuLanes) count
  simp only [and_assoc] at h
  exact h.2.1 l (List.mem_finRange l) ⟨hl, hw⟩

theorem nearest_spec (wait : Lane → ℕ) (live : LaneSet) (count : ℕ) :
    nearest wait live count ≤ count ∧
      (∀ l, live l = true → nearest wait live count ≤ wait l) ∧
      (nearest wait live count = count ∨
        ∃ l, live l = true ∧ nearest wait live count = wait l) := by
  have h := foldl_least (q := fun l => live l = true) (v := wait) (List.finRange fgpuLanes) count
  exact ⟨h.1, fun l => h.2.1 l (List.mem_finRange l), h.2.2⟩

/-! ## Lanes that do not run -/

theorem laneRun_idle {n : ℕ} (hnk : n ≤ k)
    (h : (laneRun A env n s).live = true → k ≤ (laneRun A env n s).wait) :
    laneRun A env k s = laneRun A env n s := by
  induction k, hnk using Nat.le_induction with
  | base => rfl
  | succ k hk ih =>
    have hprev := ih fun hl => by have := h hl; omega
    rw [laneRun, hprev]
    refine if_neg ?_
    rintro ⟨hl, hw⟩
    have := h hl
    omega

/-! ## The invariant -/

/-- Nothing behind `k_zero` was loaded, unless an executed instruction does so. -/
def Machine.Counted (env : Env K) (m : Machine K) : Prop :=
  m.overread = 0 ↔ ∀ t ∈ m.trace, (env.p.inst env.fragment t).overreads = false

/-- At the head of the loop. -/
structure Lockstep (A : Arith K) (env : Env K) (m₀ m : Machine K) : Prop where
  active : m.active = running m.wait m.live m.pc
  wake : ∀ l, m.live l = true → m.pc < m.wait l → m.wake ≤ m.wait l
  wait_le : ∀ l, m.wait l ≤ env.p.h.count env.fragment
  pc_le : m.pc ≤ env.p.h.count env.fragment
  trace : m.trace.Pairwise (· > ·)
  trace_lt : ∀ t ∈ m.trace, t < m.pc
  counted : m.Counted env
  lane : ∀ l, m.laneState l = laneRun A env m.pc (m₀.laneState l)

variable {m₀ m : Machine K}

theorem lockstep_rejoin (hwait : ∀ l, m.wait l ≤ env.p.h.count env.fragment)
    (hpc : m.pc ≤ env.p.h.count env.fragment) (htrace : m.trace.Pairwise (· > ·))
    (hlt : ∀ t ∈ m.trace, t < m.pc) (hcounted : m.Counted env)
    (hlane : ∀ l, m.laneState l = laneRun A env m.pc (m₀.laneState l)) :
    Lockstep A env m₀ (m.rejoin (env.p.h.count env.fragment)) where
  active := rfl
  wake := fun _ hl hw => nextWake_le hl hw
  wait_le := hwait
  pc_le := hpc
  trace := htrace
  trace_lt := hlt
  counted := hcounted
  lane := hlane

theorem laneStep_wait_le {i : Inst} (hs : s.wait ≤ count)
    (hi : i.op = .jmp ∨ i.op = .jz → i.dst ≤ count) : (laneStep A env i s).wait ≤ count := by
  unfold laneStep
  split
  · exact hs
  · rename_i h
    exact hi (.inl h)
  · rename_i h
    split
    · exact hi (.inr h)
    · exact hs
  · split <;> exact hs
  · exact hs

/-- **One round** moves every lane over one instruction. -/
theorem Lockstep.round (hp : env.p.Ok) (h : Lockstep A env m₀ m)
    (hpc : m.pc < env.p.h.count env.fragment) :
    ∃ m', m.round A env (env.p.h.count env.fragment) = .ok m' ∧ m'.pc = m.pc + 1 ∧
      Lockstep A env m₀ m' := by
  obtain ⟨hi, htarget⟩ := inst_ok hp hpc
  obtain ⟨m', control, hexec, he⟩ :=
    execute_lane (A := A) hp hi { m with pc := m.pc + 1, trace := m.pc :: m.trace }
  have hpc' : m'.pc = m.pc + 1 := he.pc
  have hrun : ∀ l, m.active l = true ↔ (m.laneState l).live = true ∧ (m.laneState l).wait ≤ m.pc := by
    intro l
    rw [h.active]
    unfold running
    rw [Bool.and_eq_true, decide_eq_true_iff]
    rfl
  have hlane : ∀ l, m'.laneState l = laneRun A env m'.pc (m₀.laneState l) := by
    intro l
    rw [hpc', laneRun, ← h.lane l, he.lane l]
    simp only [hrun l]
    rfl
  have hwait : ∀ l, m'.wait l ≤ env.p.h.count env.fragment := by
    intro l
    change (m'.laneState l).wait ≤ _
    rw [he.lane l]
    split
    · exact laneStep_wait_le (h.wait_le l) fun hj => (htarget hj).2
    · exact h.wait_le l
  have htrace : m'.trace.Pairwise (· > ·) := by
    rw [he.trace]
    exact List.pairwise_cons.mpr ⟨h.trace_lt, h.trace⟩
  have hlt : ∀ t ∈ m'.trace, t < m'.pc := by
    rw [he.trace]
    intro t ht
    rcases List.mem_cons.mp ht with rfl | ht
    · omega
    · have := h.trace_lt t ht; omega
  have hcounted : m'.Counted env := by
    unfold Machine.Counted
    rw [he.overread, he.trace, List.forall_mem_cons, and_comm]
    exact and_congr_right fun _ => h.counted
  have hround : m.round A env (env.p.h.count env.fragment) =
      .ok (if control ∨ m'.wake ≤ m'.pc then m'.rejoin (env.p.h.count env.fragment) else m') := by
    unfold Machine.round
    simp only [fetch_ok hp hpc, hexec, bind, Except.bind]
    rfl
  refine ⟨_, hround, ?_, ?_⟩
  · split <;> exact hpc'
  · split
    · exact lockstep_rejoin hwait (by omega) htrace hlt hcounted hlane
    · -- no jump and no lane resumes here: the same lanes run on
      rename_i hstay
      rw [not_or, Bool.not_eq_true] at hstay
      obtain ⟨hw, hl⟩ := he.steady hstay.1
      have hwake := he.wake
      change m'.wake = m.wake at hwake
      refine ⟨?_, ?_, hwait, by omega, htrace, hlt, hcounted, hlane⟩
      · rw [he.active, h.active]
        funext l
        rw [hw, hl, hpc']
        change (m.live l && decide (m.wait l ≤ m.pc)) =
          (m.live l && decide (m.wait l ≤ m.pc + 1))
        cases hlive : m.live l with
        | false => rfl
        | true =>
          have := h.wake l hlive
          have hiff : m.wait l ≤ m.pc ↔ m.wait l ≤ m.pc + 1 := by omega
          simp only [hiff]
      · intro l hlive hlater
        rw [hw] at hlater ⊢
        rw [hl] at hlive
        change m'.pc < m.wait l at hlater
        have := h.wake l hlive (by omega)
        change m'.wake ≤ m.wait l
        omega

structure Finished (A : Arith K) (env : Env K) (m₀ m : Machine K) : Prop where
  trace : m.trace.Pairwise (· > ·)
  trace_lt : ∀ t ∈ m.trace, t < env.p.h.count env.fragment
  counted : m.Counted env
  lane : ∀ l, m.laneState l = laneRun A env (env.p.h.count env.fragment) (m₀.laneState l)

theorem Lockstep.finished (h : Lockstep A env m₀ m)
    (hidle : ∀ l, m.live l = true → env.p.h.count env.fragment ≤ max m.pc (m.wait l)) :
    Finished A env m₀ m where
  trace := h.trace
  trace_lt := fun t ht => by have := h.trace_lt t ht; have := h.pc_le; omega
  counted := h.counted
  lane := fun l => by
    rw [h.lane l]
    rcases h.pc_le.eq_or_lt with he | hlt
    · rw [he]
    · symm
      apply laneRun_idle h.pc_le
      rw [← h.lane l]
      intro hl
      have := hidle l hl
      change _ ≤ m.wait l
      omega

/-- **The loop** ends, without a fault, with every lane run to the end. -/
theorem Lockstep.runLoop (hp : env.p.Ok) : ∀ (n : ℕ) {m : Machine K}, Lockstep A env m₀ m →
    env.p.h.count env.fragment ≤ m.pc + n →
    ∃ m', runLoop A env (env.p.h.count env.fragment) n m = .ok m' ∧ Finished A env m₀ m' := by
  intro n
  induction n with
  | zero =>
    intro m h hn
    have hge : env.p.h.count env.fragment ≤ m.pc := hn
    refine ⟨m, by rw [Fgpu.runLoop, if_neg (by omega)], h.finished fun l _ => ?_⟩
    exact hge.trans (le_max_left _ _)
  | succ n ih =>
    intro m h hn
    rw [Fgpu.runLoop]
    split
    · rename_i hgo
      split
      · rename_i hnone
        -- every live lane waits past `pc`; the nearest of them is where the loop goes on
        obtain ⟨hle, hmin, hmem⟩ := nearest_spec m.wait m.live (env.p.h.count env.fragment)
        have hlater : ∀ l, m.live l = true → m.pc < m.wait l := by
          intro l hl
          by_contra hcon
          refine hnone ⟨l, ?_⟩
          rw [h.active]
          unfold running
          rw [hl, Bool.true_and]
          exact decide_eq_true (by omega)
        have hfar : m.pc < nearest m.wait m.live (env.p.h.count env.fragment) := by
          rcases hmem with he | ⟨l, hl, he⟩
          · rw [he]; exact hgo.1
          · rw [he]; exact hlater l hl
        have hlane : ∀ l, m.laneState l =
            laneRun A env (nearest m.wait m.live (env.p.h.count env.fragment))
              (m₀.laneState l) := by
          intro l
          rw [h.lane l]
          symm
          apply laneRun_idle hfar.le
          rw [← h.lane l]
          exact hmin l
        have hlt : ∀ t ∈ m.trace, t < nearest m.wait m.live (env.p.h.count env.fragment) :=
          fun t ht => (h.trace_lt t ht).trans hfar
        have hjoin := lockstep_rejoin (m := { m with
          pc := nearest m.wait m.live (env.p.h.count env.fragment) }) h.wait_le hle h.trace hlt
          h.counted hlane
        dsimp only
        split
        · rename_i hend
          refine ⟨_, rfl, h.trace, fun t ht => (hlt t ht).trans_le hle, h.counted, fun l => ?_⟩
          rw [le_antisymm hle hend] at hlane
          exact hlane l
        · exact ih hjoin (by change _ ≤ nearest _ _ _ + n; omega)
      · obtain ⟨m', hround, hpc', h'⟩ := h.round hp hgo.1
        rw [hround]
        exact ih h' (by omega)
    · rename_i hstop
      refine ⟨m, rfl, h.finished fun l hl => ?_⟩
      have : ¬ m.pc < env.p.h.count env.fragment := fun hlt => hstop ⟨hlt, l, hl⟩
      exact (not_lt.mp this).trans (le_max_left _ _)

/-- The machine `run` starts from. -/
def startMachine (env : Env K) (b : Batch K) (res : Fin 4 → Lane → K) (live : LaneSet) :
    Machine K where
  batch := b
  res := res
  wait := fun _ => 0
  live := live
  active := live
  pc := 0
  wake := env.p.h.count env.fragment
  trace := []
  overread := 0

theorem lockstep_start (b : Batch K) (res : Fin 4 → Lane → K) (live : LaneSet) :
    Lockstep A env (startMachine env b res live) (startMachine env b res live) where
  active := by
    funext l
    exact (Bool.and_true (live l)).symm
  wake := fun l _ h => absurd h (Nat.lt_irrefl 0)
  wait_le := fun _ => Nat.zero_le _
  pc_le := Nat.zero_le _
  trace := List.Pairwise.nil
  trace_lt := nofun
  counted := iff_of_true rfl nofun
  lane := fun _ => rfl

/-- **Running a batch** runs each of its lanes. -/
theorem fgpuShaderRunBatch_finished (A : Arith K) (env : Env K) (hp : env.p.Ok) (b : Batch K)
    (res : Fin 4 → Lane → K) (lanes : LaneSet) :
    ∃ m, fgpuShaderRunBatch A env b res lanes = .ok m ∧
      Finished A env (startMachine env (initOutputs A env b) res lanes) m :=
  (lockstep_start _ _ _).runLoop hp (env.p.h.count env.fragment)
    (Nat.le_add_left _ 0)

end Lockstep

end MinimalOS.Fgpu
