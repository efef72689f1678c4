import MinimalOS.Lib.WorkPool
import MinimalOS.SmpPar.Run

/-!
# The course of a job

The caller that holds the lock goes through a fixed course: it sets the fields of
the job while no helper can be inside (`Setup`), opens it, and from then on helpers may join
(`Live`). A helper that has joined is counted in `active`, and the caller does not go on to return
before that count is zero. While the job is live its workers form a pool: the caller and the cores
that have joined.

Numbers do not wrap. At most sixteen calls of `work` are made for a job, each of which takes at most
one number too many from `next`. `next_worker` is bounded by the interrupts there can be: when a
job starts, a core has at most one pending and one being handled, and it is asked at most once.
-/

namespace MinimalOS.SmpPar

open WorkPool Function

/-! ## Courses -/

namespace WorkPc

def stage : WorkPc → Stage
  | fetch => .ready
  | check p | loadFn p | loadCtx p _ | call p _ _ => .got p
  | running p _ _ => .running p
  | count => .ran

/-- What has been loaded belongs to job `j`, and a part that passed the check is one. -/
def Ok (j parts : ℕ) : WorkPc → Prop
  | loadFn p => p < parts
  | loadCtx p fn => p < parts ∧ fn = some j
  | call p fn ctx | running p fn ctx => p < parts ∧ fn = some j ∧ ctx = some j
  | _ => True

end WorkPc

namespace CallerPc

def call : CallerPc → Option (ℕ × ℕ)
  | idle => none
  | enter j parts | tryLock j parts | serial j parts _ | serialRunning j parts _ => some (j, parts)
  | setFn j parts | setCtx j parts | setParts j parts | setNext j parts => some (j, parts)
  | setDone j parts | setNextWorker j parts | setOpen j parts => some (j, parts)
  | ask j parts _ _ | work j parts _ => some (j, parts)
  | waitDone j parts | close j parts | waitActive j parts | unlock j parts => some (j, parts)

/-- The caller has the lock and sets the fields of the job. -/
def preparing : CallerPc → Bool
  | setFn .. | setCtx .. | setParts .. | setNext .. | setDone .. | setNextWorker .. => true
  | setOpen .. => true
  | _ => false

/-- The caller has opened the job. -/
def live : CallerPc → Bool
  | ask .. | work .. | waitDone .. | close .. | waitActive .. | unlock .. => true
  | _ => false

def locked (pc : CallerPc) : Bool := pc.preparing || pc.live

def opened : CallerPc → Bool
  | ask .. | work .. | waitDone .. | close .. => true
  | _ => false

/-- There may be helpers. -/
def helped : CallerPc → Bool
  | ask .. | work .. | waitDone .. | close .. | waitActive .. => true
  | _ => false

/-- The caller has seen all parts counted. -/
def finished : CallerPc → Bool
  | close .. | waitActive .. | unlock .. => true
  | _ => false

def stage : CallerPc → Stage
  | ask .. => .ready
  | work _ _ pc => pc.stage
  | _ => .away

/-- What the holder of the lock has set so far. -/
def Assigned (job : Job) : CallerPc → Prop
  | setCtx j _ => job.fn = some j
  | setParts j _ => job.fn = some j ∧ job.ctx = some j
  | setNext j parts => (job.fn = some j ∧ job.ctx = some j) ∧ job.parts = parts
  | setDone j parts => ((job.fn = some j ∧ job.ctx = some j) ∧ job.parts = parts) ∧ job.next = 0
  | setNextWorker j parts =>
    (((job.fn = some j ∧ job.ctx = some j) ∧ job.parts = parts) ∧ job.next = 0) ∧ job.done = 0
  | setOpen j parts =>
    ((((job.fn = some j ∧ job.ctx = some j) ∧ job.parts = parts) ∧ job.next = 0) ∧ job.done = 0) ∧
      job.nextWorker = 1
  | _ => True

/-- How many cores it may still ask. -/
def remaining : CallerPc → ℕ
  | ask _ _ i _ => maxCpus - i
  | _ => 0

end CallerPc

namespace HandlerPc

/-- Counted in `active`. -/
def inside : HandlerPc → ℕ
  | outside | enter => 0
  | _ => 1

/-- May still take a worker's number. -/
def waiting : HandlerPc → ℕ
  | enter | checkOpen | join => 1
  | _ => 0

def Joined : HandlerPc → Prop
  | join | work .. => True
  | _ => False

theorem waiting_le (hpc : HandlerPc) : hpc.waiting ≤ 1 := by
  cases hpc <;> first | exact le_rfl | exact Nat.zero_le 1

theorem joined_of_work {hpc : HandlerPc} {w : ℕ} {pc : WorkPc} (h : hpc = work w pc) :
    hpc.Joined := by
  rw [h]
  trivial

def stage : HandlerPc → Stage
  | work _ pc => pc.stage
  | _ => .away

end HandlerPc

/-! ## Invariants -/

/-- The parts of job `j` below `b` have been begun once, those below `e` have ended once, and no
others. -/
def Counts (s : State) (j b e : ℕ) : Prop :=
  ∀ p, s.begun j p = (if p < b then 1 else 0) ∧ s.ended j p = if p < e then 1 else 0

variable {s s' : State}

theorem Counts.congr {j b e : ℕ} (h : Counts s j b e) (hb : s'.begun j = s.begun j)
    (he : s'.ended j = s.ended j) : Counts s' j b e := by
  intro p
  rw [hb, he]
  exact h p

/-- The holder of the lock sets the fields. -/
structure Setup (s : State) (pc : CallerPc) (j parts : ℕ) : Prop where
  closed : s.job.isOpen = false
  nobody : ∀ c, ¬ (s.handlers c).Joined
  counts : Counts s j 0 0
  assigned : pc.Assigned s.job

/-- The workers of a job: its caller and the cores that have joined. -/
def workers (own : Stage) (handlers : Cpu → HandlerPc) : Option Cpu → Stage
  | none => own
  | some c => (handlers c).stage

def pool (s : State) (own : Stage) (j : ℕ) : Pool (Option Cpu) where
  workers := workers own s.handlers
  next := s.job.next
  done := s.job.done
  joined := min s.job.nextWorker smpParMaxWorkers
  begun := s.begun j
  ended := s.ended j

def pendingCount (b : Bool) : ℕ := if b then 1 else 0

/-- The job has been opened and its caller has not returned. -/
structure Live (s : State) (pc : CallerPc) (j parts : ℕ) : Prop where
  fn : s.job.fn = some j
  ctx : s.job.ctx = some j
  size : s.job.parts = parts
  isOpen : s.job.isOpen = pc.opened
  joined : ∀ c, (s.handlers c).Joined → pc.helped = true
  inv : WorkPool.Inv parts (pool s pc.stage j)
  positive : 1 ≤ s.job.nextWorker
  tickets : s.job.nextWorker + tally HandlerPc.waiting s.handlers +
    tally pendingCount s.pending + pc.remaining ≤ 1 + 3 * maxCpus
  helpers : ∀ c w wpc, s.handlers c = .work w wpc →
    1 ≤ w ∧ w < s.job.nextWorker ∧ w < smpParMaxWorkers ∧ wpc.Ok j parts
  distinct : ∀ c c' w wpc wpc', s.handlers c = .work w wpc → s.handlers c' = .work w wpc' → c = c'
  own : ∀ wpc, pc = .work j parts wpc → wpc.Ok j parts
  complete : pc.finished = true → parts ≤ s.job.done

/-- A caller without the lock has done what it has done by itself. -/
def Alone (s : State) : CallerPc → Prop
  | .enter j _ | .tryLock j _ => Counts s j 0 0
  | .serial j parts p => p ≤ parts ∧ Counts s j p p
  | .serialRunning j parts p => p < parts ∧ Counts s j (p + 1) p
  | _ => True

/-! ## A step of `work` -/

theorem bump_self (count : ℕ → ℕ → ℕ) (j part : ℕ) :
    State.bump count j part j = Function.update (count j) part (count j part + 1) :=
  update_self ..

theorem bump_of_ne (count : ℕ → ℕ → ℕ) {j k : ℕ} (part : ℕ) (h : k ≠ j) :
    State.bump count j part k = count k := update_of_ne h ..

theorem workStep_spec {W : Option Cpu → Stage} {i : Option Cpu} {j parts joined : ℕ} {pc : WorkPc}
    (hinv : WorkPool.Inv parts ⟨W, s.job.next, s.job.done, joined, s.begun j, s.ended j⟩)
    (hi : W i = pc.stage) (hok : pc.Ok j parts) (hfn : s.job.fn = some j)
    (hctx : s.job.ctx = some j) (hparts : s.job.parts = parts) (hsmall : parts < 2 ^ 31)
    (hjoined : joined ≤ smpParMaxWorkers) :
    ∃ next done begun ended pc',
      workStep s pc =
        ({ s with job := { s.job with next := next, done := done }, begun := begun, ended := ended },
          pc') ∧
      (∀ k, k ≠ j → begun k = s.begun k ∧ ended k = s.ended k) ∧
      WorkPool.Inv parts
        ⟨Function.update W i (pc'.elim .away WorkPc.stage), next, done, joined, begun j, ended j⟩ ∧
      (∀ q, pc' = some q → q.Ok j parts) ∧ s.job.done ≤ done := by
  have hstay : ∀ pc' : WorkPc, pc'.stage = pc.stage →
      WorkPool.Inv parts ⟨Function.update W i pc'.stage, s.job.next, s.job.done, joined,
        s.begun j, s.ended j⟩ := by
    intro pc' h
    rw [h, ← hi, update_eq_self]
    exact hinv
  cases pc with
  | fetch =>
    have hnext : (s.job.next + 1) % 2 ^ 32 = s.job.next + 1 := by
      have := hinv.next
      unfold smpParMaxWorkers at hjoined
      exact Nat.mod_eq_of_lt (by dsimp only at this; omega)
    exact ⟨s.job.next + 1, s.job.done, s.begun, s.ended, some (.check s.job.next),
      by rw [workStep, hnext], fun _ _ => ⟨rfl, rfl⟩, hinv.fetch hi,
      fun q hq => by cases hq; trivial, le_rfl⟩
  | check part =>
    by_cases hle : s.job.parts ≤ part
    · exact ⟨s.job.next, s.job.done, s.begun, s.ended, none, by rw [workStep, if_pos hle],
        fun _ _ => ⟨rfl, rfl⟩, hinv.leave hi (hparts ▸ hle), fun q hq => (by cases hq), le_rfl⟩
    · exact ⟨s.job.next, s.job.done, s.begun, s.ended, some (.loadFn part),
        by rw [workStep, if_neg hle], fun _ _ => ⟨rfl, rfl⟩, hstay _ rfl,
        fun q hq => by cases hq; exact hparts ▸ not_le.mp hle, le_rfl⟩
  | loadFn part =>
    exact ⟨s.job.next, s.job.done, s.begun, s.ended, some (.loadCtx part s.job.fn), rfl,
      fun _ _ => ⟨rfl, rfl⟩, hstay _ rfl,
      fun q hq => by cases hq; exact ⟨hok, hfn⟩, le_rfl⟩
  | loadCtx part fn =>
    exact ⟨s.job.next, s.job.done, s.begun, s.ended, some (.call part fn s.job.ctx), rfl,
      fun _ _ => ⟨rfl, rfl⟩, hstay _ rfl,
      fun q hq => by cases hq; exact ⟨hok.1, hok.2, hctx⟩, le_rfl⟩
  | call part fn ctx =>
    obtain ⟨hlt, rfl, rfl⟩ := hok
    refine ⟨s.job.next, s.job.done, State.bump s.begun j part, s.ended,
      some (.running part (some j) (some j)), rfl, fun k hk => ⟨bump_of_ne _ _ hk, rfl⟩, ?_,
      fun q hq => by cases hq; exact ⟨hlt, rfl, rfl⟩, le_rfl⟩
    rw [bump_self]
    exact hinv.start hi hlt
  | running part fn ctx =>
    obtain ⟨hlt, rfl, rfl⟩ := hok
    refine ⟨s.job.next, s.job.done, s.begun, State.bump s.ended j part, some .count, rfl,
      fun k hk => ⟨rfl, bump_of_ne _ _ hk⟩, ?_,
      fun q hq => by cases hq; trivial, le_rfl⟩
    rw [bump_self]
    exact hinv.finish hi
  | count =>
    have hcount := hinv.count hi
    have hdone : (s.job.done + 1) % 2 ^ 32 = s.job.done + 1 := by
      have := hcount.done_le
      exact Nat.mod_eq_of_lt (by dsimp only at this; omega)
    exact ⟨s.job.next, s.job.done + 1, s.begun, s.ended, some .fetch, by rw [workStep, hdone],
      fun _ _ => ⟨rfl, rfl⟩, hcount, fun q hq => by cases hq; trivial,
      Nat.le_succ _⟩

/-! ## The holder of the lock -/

section Holder

variable {s s' : State} {pc pc' : CallerPc} {j parts : ℕ}

/-- The caller with the lock, in call `j`. -/
def Holds (s : State) (pc : CallerPc) (j parts : ℕ) : Prop :=
  (pc.preparing = true ∧ Setup s pc j parts) ∨ (pc.live = true ∧ Live s pc j parts)

/-- Who holds the lock; while it is free, the job is closed and nobody has joined. -/
def LockOk (s : State) : Prop :=
  if s.lock then
    ∃ t j parts, (s.callers t).call = some (j, parts) ∧
      (∀ t', t' ≠ t → (s.callers t').locked = false) ∧ Holds s (s.callers t) j parts
  else
    (∀ t, (s.callers t).locked = false) ∧ s.job.isOpen = false ∧ ∀ c, ¬ (s.handlers c).Joined

theorem Holds.congr (h : Holds s pc j parts) (hjob : s'.job = s.job)
    (hhandlers : s'.handlers = s.handlers) (hpending : s'.pending = s.pending)
    (hbegun : s'.begun j = s.begun j) (hended : s'.ended j = s.ended j) : Holds s' pc j parts := by
  rcases h with ⟨hp, h⟩ | ⟨hl, h⟩
  · refine .inl ⟨hp, ?_⟩
    constructor
    · rw [hjob]; exact h.closed
    · rw [hhandlers]; exact h.nobody
    · exact h.counts.congr hbegun hended
    · rw [hjob]; exact h.assigned
  · refine .inr ⟨hl, ?_⟩
    constructor
    · rw [hjob]; exact h.fn
    · rw [hjob]; exact h.ctx
    · rw [hjob]; exact h.size
    · rw [hjob]; exact h.isOpen
    · rw [hhandlers]; exact h.joined
    · have := h.inv
      unfold pool at ⊢
      rw [hjob, hhandlers, hbegun, hended]
      exact this
    · rw [hjob]; exact h.positive
    · rw [hjob, hhandlers, hpending]; exact h.tickets
    · rw [hjob, hhandlers]; exact h.helpers
    · rw [hhandlers]; exact h.distinct
    · exact h.own
    · rw [hjob]; exact h.complete

theorem workers_own (own own' : Stage) (handlers : Cpu → HandlerPc) :
    workers own' handlers = Function.update (workers own handlers) none own' := by
  funext o
  cases o with
  | none => rw [update_self]; rfl
  | some c => rw [update_of_ne (Option.some_ne_none c)]; rfl

theorem workers_handler (own : Stage) (handlers : Cpu → HandlerPc) (c : Cpu) (hpc : HandlerPc) :
    workers own (Function.update handlers c hpc) =
      Function.update (workers own handlers) (some c) hpc.stage := by
  funext o
  cases o with
  | none => rw [update_of_ne (Option.some_ne_none c).symm]; rfl
  | some c' =>
    by_cases hc : c' = c
    · rw [hc, update_self]
      show (Function.update handlers c hpc c).stage = _
      rw [update_self]
    · rw [update_of_ne fun h => hc (Option.some.inj h)]
      show (Function.update handlers c hpc c').stage = _
      rw [update_of_ne hc]
      rfl

variable {t : ℕ}

theorem LockOk.holder (h : LockOk s) (hlocked : (s.callers t).locked = true)
    (hcall : (s.callers t).call = some (j, parts)) :
    s.lock = true ∧ (∀ t', t' ≠ t → (s.callers t').locked = false) ∧ Holds s (s.callers t) j parts := by
  unfold LockOk at h
  split_ifs at h with hlock
  · obtain ⟨t₀, j₀, parts₀, hcall₀, hothers, hholds⟩ := h
    obtain rfl : t = t₀ := by
      by_contra hne
      rw [hothers t hne] at hlocked
      cases hlocked
    rw [hcall] at hcall₀
    obtain ⟨rfl, rfl⟩ := Prod.mk.inj (Option.some.inj hcall₀)
    exact ⟨hlock, hothers, hholds⟩
  · rw [h.1 t] at hlocked
    cases hlocked

theorem Holds.locked (h : Holds s pc j parts) : pc.locked = true := by
  rcases h with ⟨hp, _⟩ | ⟨hl, _⟩
  · rw [CallerPc.locked, hp, Bool.true_or]
  · rw [CallerPc.locked, hl, Bool.or_true]

theorem LockOk.intro (hlock : s'.lock = true)
    (hcallers : s'.callers = Function.update s.callers t pc')
    (hothers : ∀ t', t' ≠ t → (s.callers t').locked = false) (hcall : pc'.call = some (j, parts))
    (hholds : Holds s' pc' j parts) : LockOk s' := by
  unfold LockOk
  rw [if_pos hlock]
  refine ⟨t, j, parts, ?_, fun t' ht => ?_, ?_⟩
  · rw [hcallers, update_self]
    exact hcall
  · rw [hcallers, update_of_ne ht]
    exact hothers t' ht
  · rw [hcallers, update_self]
    exact hholds

theorem LockOk.bystander (h : LockOk s) (hnot : (s.callers t).locked = false)
    (hnot' : pc'.locked = false) (hcallers : s'.callers = Function.update s.callers t pc')
    (hlock : s'.lock = s.lock) (hjob : s'.job = s.job) (hhandlers : s'.handlers = s.handlers)
    (hpending : s'.pending = s.pending)
    (hcounts : ∀ t₀ k q, t₀ ≠ t → (s.callers t₀).call = some (k, q) →
      s'.begun k = s.begun k ∧ s'.ended k = s.ended k) : LockOk s' := by
  unfold LockOk at h ⊢
  rw [hlock]
  split_ifs at h ⊢ with hl
  · obtain ⟨t₀, j₀, parts₀, hcall₀, hothers, hholds⟩ := h
    have hne : t₀ ≠ t := by
      rintro rfl
      rw [hholds.locked] at hnot
      cases hnot
    obtain ⟨hb, he⟩ := hcounts t₀ j₀ parts₀ hne hcall₀
    refine ⟨t₀, j₀, parts₀, ?_, fun t' ht => ?_, ?_⟩
    · rw [hcallers, update_of_ne hne]
      exact hcall₀
    · rw [hcallers]
      by_cases htt : t' = t
      · rw [htt, update_self]
        exact hnot'
      · rw [update_of_ne htt]
        exact hothers t' ht
    · rw [hcallers, update_of_ne hne]
      exact hholds.congr hjob hhandlers hpending hb he
  · obtain ⟨hranks, hclosed, hnobody⟩ := h
    refine ⟨fun t' => ?_, by rw [hjob]; exact hclosed, by rw [hhandlers]; exact hnobody⟩
    rw [hcallers]
    by_cases htt : t' = t
    · rw [htt, update_self]
      exact hnot'
    · rw [update_of_ne htt]
      exact hranks t'

end Holder

/-! ## All of them -/

structure Good (s : State) : Prop where
  active : s.job.active = tally HandlerPc.inside s.handlers
  fresh : ∀ j, s.calls ≤ j → Counts s j 0 0 ∧ s.returned j = false
  call : ∀ t j parts, (s.callers t).call = some (j, parts) →
    j < s.calls ∧ s.returned j = false ∧ s.partsOf j = parts ∧ parts < 2 ^ 31
  same : ∀ t t' j parts parts', (s.callers t).call = some (j, parts) →
    (s.callers t').call = some (j, parts') → t = t'
  returned : ∀ j, s.returned j = true → Counts s j (s.partsOf j) (s.partsOf j)
  alone : ∀ t, Alone s (s.callers t)
  lock : LockOk s

theorem good_init : Good State.init where
  active := (tally_eq_zero fun _ => rfl).symm
  fresh _ _ := ⟨fun _ => ⟨rfl, rfl⟩, rfl⟩
  call _ _ _ h := by cases h
  same _ _ _ _ _ h := by cases h
  returned _ h := by cases h
  alone _ := trivial
  lock := ⟨fun _ => rfl, rfl, fun _ h => h⟩

theorem Alone.congr {pc : CallerPc} (h : Alone s pc)
    (hb : ∀ j parts, pc.call = some (j, parts) → s'.begun j = s.begun j ∧ s'.ended j = s.ended j) :
    Alone s' pc := by
  cases pc with
  | enter j parts => exact Counts.congr h (hb j parts rfl).1 (hb j parts rfl).2
  | tryLock j parts => exact Counts.congr h (hb j parts rfl).1 (hb j parts rfl).2
  | serial j parts p => exact ⟨h.1, h.2.congr (hb j parts rfl).1 (hb j parts rfl).2⟩
  | serialRunning j parts p => exact ⟨h.1, h.2.congr (hb j parts rfl).1 (hb j parts rfl).2⟩
  | _ => trivial

end MinimalOS.SmpPar
