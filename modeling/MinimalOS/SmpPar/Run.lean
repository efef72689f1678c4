import Mathlib.Logic.Function.Basic
import Mathlib.Tactic

/-!
# Jobs on several cores, `impl/kernel/smp_par.c`

`smp_par_run` calls a function once for every part of a job. The calling core works on the parts and
asks others to help: they join when an interrupt reaches them, which may be long after the job they
were asked for. A state has the shared variables and where every caller and every core's interrupt
handler is; a step is one access to a shared variable, the start of a call of the job's function or
the end of one. Any number of callers may be in `smp_par_run`, on any cores. An interrupt that is
already pending at a core is not counted twice, and a core is in its handler at most once, with
interrupts off.

A job is named by the number of the call of `smp_par_run` it belongs to: `some j` in the fields
`fn` and `ctx` is the function and the context of call `j`. What the calls of a job's functions
did, and which calls have returned, is recorded beside the variables of the source.
-/

namespace MinimalOS.SmpPar

abbrev maxCpus : ℕ := 16
abbrev smpParMaxWorkers : ℕ := 16

abbrev Cpu := Fin maxCpus

structure Job where
  fn : Option ℕ
  ctx : Option ℕ
  parts : ℕ
  isOpen : Bool
  next : ℕ
  done : ℕ
  active : ℕ
  nextWorker : ℕ

/-- Where a core is in `work`. -/
inductive WorkPc
  | fetch
  | check (part : ℕ)
  | loadFn (part : ℕ)
  | loadCtx (part : ℕ) (fn : Option ℕ)
  | call (part : ℕ) (fn ctx : Option ℕ)
  | running (part : ℕ) (fn ctx : Option ℕ)
  | count

/-- Where a caller is in `smp_par_run`, in call `j` with `parts` parts. -/
inductive CallerPc
  | idle
  | enter (j parts : ℕ)
  | tryLock (j parts : ℕ)
  /-- does everything itself, and has done the parts below `part` -/
  | serial (j parts part : ℕ)
  | serialRunning (j parts part : ℕ)
  | setFn (j parts : ℕ)
  | setCtx (j parts : ℕ)
  | setParts (j parts : ℕ)
  | setNext (j parts : ℕ)
  | setDone (j parts : ℕ)
  | setNextWorker (j parts : ℕ)
  | setOpen (j parts : ℕ)
  /-- the loop over the cores, at core `i` -/
  | ask (j parts i asked : ℕ)
  | work (j parts : ℕ) (pc : WorkPc)
  | waitDone (j parts : ℕ)
  | close (j parts : ℕ)
  | waitActive (j parts : ℕ)
  | unlock (j parts : ℕ)

/-- Where a core is in `smp_par_ipi_handler`. -/
inductive HandlerPc
  | outside
  | enter
  | checkOpen
  | join
  | work (worker : ℕ) (pc : WorkPc)
  | leave

/-- `calls` is the number of calls of `smp_par_run` so far and `partsOf j` the argument of call `j`;
`begun j p` and `ended j p` count how often its function was called for part `p` and returned. -/
structure State where
  job : Job
  lock : Bool
  pending : Cpu → Bool
  callers : ℕ → CallerPc
  handlers : Cpu → HandlerPc
  calls : ℕ
  partsOf : ℕ → ℕ
  begun : ℕ → ℕ → ℕ
  ended : ℕ → ℕ → ℕ
  returned : ℕ → Bool

def State.init : State where
  job := ⟨none, none, 0, false, 0, 0, 0, 0⟩
  lock := false
  pending _ := false
  callers _ := .idle
  handlers _ := .outside
  calls := 0
  partsOf _ := 0
  begun _ _ := 0
  ended _ _ := 0
  returned _ := false

namespace State

def caller (s : State) (t : ℕ) (pc : CallerPc) : State :=
  { s with callers := Function.update s.callers t pc }

def handler (s : State) (c : Cpu) (pc : HandlerPc) : State :=
  { s with handlers := Function.update s.handlers c pc }

/-- One more for part `part` of job `j`. -/
def bump (count : ℕ → ℕ → ℕ) (j part : ℕ) : ℕ → ℕ → ℕ :=
  Function.update count j (Function.update (count j) part (count j part + 1))

def begin (s : State) (fn : Option ℕ) (part : ℕ) : State :=
  match fn with
  | none => s
  | some j => { s with begun := bump s.begun j part }

def finish (s : State) (fn : Option ℕ) (part : ℕ) : State :=
  match fn with
  | none => s
  | some j => { s with ended := bump s.ended j part }

def ret (s : State) (t j : ℕ) : State :=
  { s.caller t .idle with returned := Function.update s.returned j true }

end State

/-- One step of `work`; `none` is its return. -/
def workStep (s : State) : WorkPc → State × Option WorkPc
  | .fetch =>
    ({ s with job := { s.job with next := (s.job.next + 1) % 2 ^ 32 } }, some (.check s.job.next))
  | .check part => if s.job.parts ≤ part then (s, none) else (s, some (.loadFn part))
  | .loadFn part => (s, some (.loadCtx part s.job.fn))
  | .loadCtx part fn => (s, some (.call part fn s.job.ctx))
  | .call part fn ctx => (s.begin fn part, some (.running part fn ctx))
  | .running part fn _ => (s.finish fn part, some .count)
  | .count => ({ s with job := { s.job with done := (s.job.done + 1) % 2 ^ 32 } }, some .fetch)

/-- One step of `smp_par_run`. `choice` is what `smp_par_workers` returns, and whether a core can
help. -/
def callerStep (s : State) (t choice : ℕ) : State :=
  match s.callers t with
  | .idle => s
  | .enter j parts =>
    if parts = 0 then s.ret t j
    else if parts = 1 ∨ choice ≤ 1 then s.caller t (.serial j parts 0)
    else s.caller t (.tryLock j parts)
  | .tryLock j parts =>
    if s.lock then s.caller t (.serial j parts 0)
    else { s with lock := true }.caller t (.setFn j parts)
  | .serial j parts part =>
    if part < parts then (s.begin (some j) part).caller t (.serialRunning j parts part)
    else s.ret t j
  | .serialRunning j parts part =>
    (s.finish (some j) part).caller t (.serial j parts (part + 1))
  | .setFn j parts => { s with job := { s.job with fn := some j } }.caller t (.setCtx j parts)
  | .setCtx j parts => { s with job := { s.job with ctx := some j } }.caller t (.setParts j parts)
  | .setParts j parts => { s with job := { s.job with parts := parts } }.caller t (.setNext j parts)
  | .setNext j parts => { s with job := { s.job with next := 0 } }.caller t (.setDone j parts)
  | .setDone j parts => { s with job := { s.job with done := 0 } }.caller t (.setNextWorker j parts)
  | .setNextWorker j parts =>
    { s with job := { s.job with nextWorker := 1 } }.caller t (.setOpen j parts)
  | .setOpen j parts =>
    { s with job := { s.job with isOpen := true } }.caller t (.ask j parts 0 0)
  | .ask j parts i asked =>
    if h : i < maxCpus then
      if asked + 1 < parts then
        if choice = 0 then s.caller t (.ask j parts (i + 1) asked)
        else
          { s with pending := Function.update s.pending ⟨i, h⟩ true }.caller t
            (.ask j parts (i + 1) (asked + 1))
      else s.caller t (.work j parts .fetch)
    else s.caller t (.work j parts .fetch)
  | .work j parts pc =>
    match workStep s pc with
    | (s, some pc) => s.caller t (.work j parts pc)
    | (s, none) => s.caller t (.waitDone j parts)
  | .waitDone j parts => if s.job.done < parts then s else s.caller t (.close j parts)
  | .close j parts =>
    { s with job := { s.job with isOpen := false } }.caller t (.waitActive j parts)
  | .waitActive j parts => if s.job.active ≠ 0 then s else s.caller t (.unlock j parts)
  | .unlock j _ => { s with lock := false }.ret t j

/-- One step of `smp_par_ipi_handler` on a core; every core's number is below `MAX_CPUS`. -/
def handlerStep (s : State) (c : Cpu) : State :=
  match s.handlers c with
  | .outside => s
  | .enter =>
    { s with job := { s.job with active := (s.job.active + 1) % 2 ^ 32 } }.handler c .checkOpen
  | .checkOpen => s.handler c (if s.job.isOpen then .join else .leave)
  | .join =>
    { s with job := { s.job with nextWorker := (s.job.nextWorker + 1) % 2 ^ 32 } }.handler c
      (if s.job.nextWorker < smpParMaxWorkers then .work s.job.nextWorker .fetch else .leave)
  | .work worker pc =>
    match workStep s pc with
    | (s, some pc) => s.handler c (.work worker pc)
    | (s, none) => s.handler c .leave
  | .leave =>
    { s with job := { s.job with active := (s.job.active + (2 ^ 32 - 1)) % 2 ^ 32 } }.handler c
      .outside

inductive Event
  /-- a caller that is not in `smp_par_run` calls it -/
  | start (t : ℕ) (parts : Fin (2 ^ 31))
  | caller (t choice : ℕ)
  | interrupt (c : Cpu)
  | handler (c : Cpu)

def step (s : State) : Event → State
  | .start t parts =>
    match s.callers t with
    | .idle =>
      { s with
        callers := Function.update s.callers t (.enter s.calls parts)
        calls := s.calls + 1
        partsOf := Function.update s.partsOf s.calls parts }
    | _ => s
  | .caller t choice => callerStep s t choice
  | .interrupt c =>
    match s.pending c, s.handlers c with
    | true, .outside => { s with pending := Function.update s.pending c false }.handler c .enter
    | _, _ => s
  | .handler c => handlerStep s c

def run (events : List Event) : State := events.foldl step .init

end MinimalOS.SmpPar
