import NodeToolkit.Async.Pool

/-!
# The runner of a job

`InMemoryJobsScheduler.register`: what a timer runs. The timers do not wait for it, so the firings of a
job overlap in any way. The world chooses the ids and what comes of each `job.run`; counters are exact.
-/

namespace NodeToolkit.JobsScheduler

open Async

/-- What `job.config()` returns. -/
structure JobConfig where
  retry : Option ℕ

inductive Cmd where
  /-- `crypto.randomUUID()`. -/
  | randomUUID
  /-- The call of `job.run({ correlationId })`. -/
  | run (correlationId : String)
  /-- Its promise settles. -/
  | settled

structure Choice where
  uuid : String
  outcome : Except String Unit

@[reducible] def Resp : Cmd → Type
  | .randomUUID => String
  | .run _ => Unit
  | .settled => Except String Unit

def exec (i : Choice) (s : Unit) : (c : Cmd) → Unit × Resp c
  | .randomUUID => (s, i.uuid)
  | .run _ => (s, ())
  | .settled => (s, i.outcome)

abbrev Client (α : Type) : Type := Prog Resp α

/-- `job.run({ correlationId })`, up to its outcome. -/
def attempt (correlationId : String) : Client (Except String Unit) := do
  .await (.run correlationId) .ret
  .await .settled .ret

/-- The `while` loop. -/
def loop (correlationId : String) (retry failures : ℕ) : Client Unit :=
  if failures ≤ retry then do
    match ← attempt correlationId with
    | .ok _ => return ()
    | .error _ => loop correlationId retry (failures + 1)
  else return ()
termination_by retry + 1 - failures

/-- The handler of the first `catch`. -/
def retrying (correlationId : String) (retry : ℕ) : Client (Except String Unit) :=
  if retry = 0 then return .ok ()
  else do
    loop correlationId retry 1
    return .ok ()

/-- `promise.catch(handler)`. -/
def catching (promise handler : Client (Except String Unit)) : Client (Except String Unit) := do
  match ← promise with
  | .ok _ => return .ok ()
  | .error _ => handler

/-- `job.config?.().retry ?? 2`. -/
def configuredRetry (config : Option JobConfig) : ℕ := (config.bind JobConfig.retry).getD 2

/-- `runner`. An error that it returns is a rejection that nobody handles. -/
def runner (config : Option JobConfig) : Client (Except String Unit) := do
  let correlationId ← .await .randomUUID .ret
  let retry := configuredRetry config
  catching (catching (attempt correlationId) (retrying correlationId retry)) (return .ok ())

/-- The firings of a job, each with the configuration that it reads. -/
def jobMachine : Machine Resp Unit Choice Empty (Option JobConfig) (Except String Unit) where
  exec := exec
  env := fun e _ => e.elim
  enter := fun _ s => s
  prog := runner

end NodeToolkit.JobsScheduler
