import NodeToolkit.Base.EventLoop
import NodeToolkit.Spec.JobRunner
import NodeToolkit.Spec.JobsScheduler

/-!
# The scheduler at work

`InMemoryJobsScheduler` over the timers of the event loop: what `register` and `clearJobs` set and clear, what
the callbacks of the timers do, and the runners that they start. Jobs are numbered in the order of their
registration. The instant of a registration and the log of the firings are history variables.
-/

namespace NodeToolkit.InMemoryJobsScheduler

open Async Date EventLoop JobsScheduler

/-- What a timer runs: the callback of the timeout of a job, or its `runner`. -/
inductive Callback where
  | timeout (job : ℕ) (interval : Option ℤ)
  | runner (job : ℕ)
deriving DecidableEq

def Callback.job : Callback → ℕ
  | .timeout job _ => job
  | .runner job => job

/-- A job that is registered: since when, and with which timers. -/
structure Registered where
  since : ℕ
  timers : Timers

/-- The delay that Node gives a timer. -/
def delayOf (delay : Option ℤ) : ℕ := (setInterval delay).toNat

structure Scheduler where
  loop : Loop Callback
  jobsIntervals : List ℕ
  jobsTimeouts : List ℕ
  jobs : List Registered

def Scheduler.start : Scheduler := ⟨.start, [], [], []⟩

variable (config : Config)

def register (zone : ℤ) (today now : Time) (rhythm : Rhythm) (s : Scheduler) : Scheduler :=
  match JobsScheduler.register config zone today now rhythm with
  | none => s
  | some timers =>
    { s with
      loop := s.loop.set (.timeout s.jobs.length timers.interval) (delayOf timers.executeAfter) none
      jobsTimeouts := s.jobsTimeouts ++ [s.loop.refs]
      jobs := s.jobs ++ [⟨s.loop.now, timers⟩] }

def clearJobs (s : Scheduler) : Scheduler :=
  { s with loop := (s.loop.clearAll s.jobsIntervals).clearAll s.jobsTimeouts }

/-- A call of the scheduler, or time that passes. -/
inductive Act where
  | register (zone : ℤ) (today now : Time) (rhythm : Rhythm)
  | clearJobs
  | advance (t : ℕ)

def act (s : Scheduler) : Act → Scheduler
  | .register zone today now rhythm => register config zone today now rhythm s
  | .clearJobs => clearJobs s
  | .advance t => { s with loop := s.loop.advance t }

/-- A callback; `inner` is what `job.run` does before it first waits. -/
def callback (inner : List Act) (s : Scheduler) : Callback → Scheduler
  | .timeout job interval =>
    let s := inner.foldl (act config) s
    { s with
      loop := s.loop.set (.runner job) (delayOf interval) (some (delayOf interval))
      jobsIntervals := s.jobsIntervals ++ [s.loop.refs] }
  | .runner _ => inner.foldl (act config) s

/-- The scheduler, the runners that its timers have started, and the job and the instant of each firing. The
`n`-th firing has the process id `n`. -/
structure World where
  scheduler : Scheduler
  runners : Pool JobsScheduler.Resp Unit (Option JobConfig) (Except String Unit)
  fired : List (ℕ × ℕ)

def World.start : World := ⟨.start, Pool.init (), []⟩

inductive Event where
  | act (a : Act)
  /-- A timer runs, and `job.config()` returns `jobConfig`. -/
  | fire (ref : ℕ) (jobConfig : Option JobConfig) (inner : List Act)
  /-- A runner goes on. -/
  | step (pid : ℕ) (i : Choice)

def step (w : World) : Event → World
  | .act a => { w with scheduler := act config w.scheduler a }
  | .fire ref jobConfig inner =>
    match w.scheduler.loop.fire ref with
    | none => w
    | some (cb, loop) =>
      ⟨callback config inner { w.scheduler with loop := loop } cb,
        jobMachine.step w.runners (.call w.fired.length jobConfig), w.fired ++ [(cb.job, loop.now)]⟩
  | .step pid i => { w with runners := jobMachine.step w.runners (.step pid i) }

def run (w : World) (es : List Event) : World := es.foldl (step config) w

/-- The instants at which a job has been fired. -/
def World.firings (w : World) (job : ℕ) : List ℕ := (w.fired.filter fun e => e.1 = job).map Prod.snd

end NodeToolkit.InMemoryJobsScheduler
