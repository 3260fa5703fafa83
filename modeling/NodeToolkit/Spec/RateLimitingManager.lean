import NodeToolkit.Spec.Authorize
import NodeToolkit.Spec.QuotaCache

/-!
# The rate-limiting manager

The use cases behind `RateLimitingManagerFacade`, over the cached limits and any implementation of
`RateLimitingAlgorithm`, and `RateLimitingManagerAuthorizationAndLoggerDecorator`. An algorithm is a pair
of async functions over commands of its own; those over Redis are such by `overRedis`. The logs are left out.

Limits are rational numbers: a number of the source that is neither `NaN` nor an infinity.
-/

namespace NodeToolkit

open Async

namespace RateLimitingPermissions

def GetQuotaSummary : String := "rate-limiting/read/quota-summary"
def GetQuotaLimits : String := "rate-limiting/read/quota-limits"
def ChangeQuotaLimits : String := "rate-limiting/write/change-quota-limits"

end RateLimitingPermissions

namespace RateLimiting

/-- A validation exception of the rate-limiting component. -/
structure ValidationException where
  code : String
  message : String
  payload : List (String × ℚ)
deriving DecidableEq

def ValidationException.make (suffix message : String) (payload : List (String × ℚ)) : ValidationException :=
  ⟨"RATE_LIMITING." ++ suffix, message, payload⟩

/-- What a use case throws. -/
inductive Exception where
  | validation (e : ValidationException)
  | tooManyRequests (e : TooManyRequestsException)
  | notAuthorized (e : Thrown)
deriving DecidableEq

/-- The interface, over the commands of an implementation. -/
structure Algorithm {C : Type} (R : C → Type) where
  request : String → String → ℕ → QuotaLimits → Prog R RequestResult
  quota : String → String → QuotaLimits → Prog R QuotaSummary

/-- The commands of an algorithm over Redis: it reads the clock and talks to the server. -/
inductive RedisCmd where
  | now
  | redis (c : Redis.Cmd)

@[reducible] def RedisResp : RedisCmd → Type
  | .now => ℕ
  | .redis c => Redis.Resp c

/-- Fixed window, sliding window or token bucket as an implementation of the interface. -/
def overRedis (A : RateLimitingAlgorithm) : Algorithm RedisResp where
  request := fun userId token score limits => .await .now fun now =>
    (A.request userId token score limits now).embed .redis fun _ r => r
  quota := fun userId token limits => .await .now fun now =>
    (A.quota userId token limits now).embed .redis fun _ r => r

/-- Execute a command; the choice is the reading of the clock of the process. -/
def execRedis (now : ℕ) (s : Redis) : (c : RedisCmd) → Redis × RedisResp c
  | .now => (s, now)
  | .redis c => Redis.exec s c

/-- The commands of the manager, over those of the algorithm. -/
inductive Cmd (C : Type) where
  | stores (c : QuotaCache.Cmd)
  | algorithm (c : C)

@[reducible] def Resp {C : Type} (R : C → Type) : Cmd C → Type
  | .stores c => QuotaCache.Resp c
  | .algorithm c => R c

section UseCases

variable {C : Type} {R : C → Type}

abbrev Client (R : C → Type) (α : Type) : Type := Prog (Resp R) α

/-- A function of the repository of limits. -/
def Client.stores {α : Type} (p : QuotaCache.Client α) : Client R α := p.embed .stores fun _ r => r

/-- A function of the algorithm. -/
def Client.algorithm {α : Type} (p : Prog R α) : Client R α := p.embed .algorithm fun _ r => r

/-! ## The use cases -/

structure ChangeQuotaLimitsCommand where
  session : Session
  userId : String
  perSecond : ℚ
  perMinute : ℚ
  perHour : ℚ
  perDay : ℚ

/-- The limits that the command is about. -/
def ChangeQuotaLimitsCommand.limits (command : ChangeQuotaLimitsCommand) : QuotaLimits :=
  ⟨command.perSecond, command.perMinute, command.perHour, command.perDay⟩

/-- The check of one limit. -/
def checkLimit (field message : String) (value : ℚ) : Except ValidationException Unit :=
  if value ≤ 0 then .error (.make "INVALID_QUOTA" message [(field, value)]) else .ok ()

def checkLimits (command : ChangeQuotaLimitsCommand) : Except ValidationException Unit := do
  checkLimit "perSecond" "Per second must be greater than 0" command.perSecond
  checkLimit "perMinute" "Per minute must be greater than 0" command.perMinute
  checkLimit "perHour" "Per hour must be greater than 0" command.perHour
  checkLimit "perDay" "Per day must be greater than 0" command.perDay

/-- `ChangeQuotaLimitsCommandHandler.execute`. -/
def changeQuotaLimits (command : ChangeQuotaLimitsCommand) : Client R (Except Exception String) :=
  match checkLimits command with
  | .error e => return .error (.validation e)
  | .ok () => do
    Client.stores (QuotaCache.update command.userId command.limits)
    return .ok command.userId

/-- `GetQuotaLimitsQueryHandler.handle`. -/
def getQuotaLimits (userId : String) : Client R QuotaLimits := do
  let quotaLimits ← Client.stores (QuotaCache.ofUser userId)
  return quotaLimits.getD defaultQuotaLimits

variable (A : Algorithm R)

/-- `GetQuotaSummaryQueryHandler.handle`. -/
def getQuotaSummary (userId token : String) : Client R QuotaSummary := do
  let limits ← getQuotaLimits userId
  Client.algorithm (A.quota userId token limits)

/-- `ThrottleCommandHandler.execute`. -/
def throttle (userId token : String) (score : ℕ) : Client R (Except Exception QuotaSummary) := do
  let limits ← getQuotaLimits userId
  let res ← Client.algorithm (A.request userId token score limits)
  match res with
  | .error e => return .error (.tooManyRequests e)
  | .ok summary => return .ok summary

/-! ## With authorization -/

/-- A method with one argument, under `@Authorize(permission)`. -/
def authorized {α : Type} (permission : String) (session : Session) (method : Client R (Except Exception α)) :
    Client R (Except Exception α) :=
  match Authorize permission (fun s => some (.session s)) (fun _ => method) [session] with
  | .threw e => return .error (.notAuthorized e)
  | .ran result => result

/-- The calls of the manager. A query is about the user of its session, whatever user id it comes with. -/
inductive Call where
  | throttle (userId token : String) (score : ℕ)
  | changeQuotaLimits (command : ChangeQuotaLimitsCommand)
  | getQuotaLimits (session : Session) (userId : Option String)
  | getQuotaSummary (session : Session) (userId : Option String) (token : String)

inductive Reply where
  | throttled (r : Except Exception QuotaSummary)
  | changed (r : Except Exception String)
  | limits (r : Except Exception QuotaLimits)
  | summary (r : Except Exception QuotaSummary)
deriving DecidableEq

def prog : Call → Client R Reply
  | .throttle userId token score => do
    let r ← throttle A userId token score
    return .throttled r
  | .changeQuotaLimits command => do
    let r ← authorized RateLimitingPermissions.ChangeQuotaLimits command.session (changeQuotaLimits command)
    return .changed r
  | .getQuotaLimits session _ => do
    let r ← authorized RateLimitingPermissions.GetQuotaLimits session do
      let limits ← getQuotaLimits session.user.id
      return .ok limits
    return .limits r
  | .getQuotaSummary session _ token => do
    let r ← authorized RateLimitingPermissions.GetQuotaSummary session do
      let summary ← getQuotaSummary A session.user.id token
      return .ok summary
    return .summary r

end UseCases

section Machine

variable {C : Type} {R : C → Type} {S In Env : Type}

/-- Any number of calls over the stores and an algorithm with a state of its own. The environment drops
entries of the cache and moves the algorithm. -/
def machine (A : Algorithm R) (exec : In → S → (c : C) → S × R c) (env : Env → S → S) :
    Machine (Resp R) (QuotaCache.Stores × S) (ℕ × In) (String ⊕ Env) Call Reply where
  exec := fun i s c =>
    match c with
    | .stores c => (((QuotaCache.exec i.1 s.1 c).1, s.2), (QuotaCache.exec i.1 s.1 c).2)
    | .algorithm c => ((s.1, (exec i.2 s.2 c).1), (exec i.2 s.2 c).2)
  env := fun e s =>
    match e with
    | .inl key => ({ s.1 with cache := s.1.cache.erase key }, s.2)
    | .inr e => (s.1, env e s.2)
  enter := fun _ s => s
  prog := prog A

end Machine

end RateLimiting

end NodeToolkit
