import NodeToolkit.Spec.Quota

/-!
# The token-bucket algorithm

`TokenBucketAlgorithm`: one counter for each client that holds what was consumed.
A request charges it and refunds the charge when the capacity is exceeded; once a
second a Lua script takes the fill rate off every counter, down to zero.
-/

namespace NodeToolkit.TokenBucket

open Async Redis

/-- The configuration; the fill rate is in tokens per second. -/
structure Config where
  capacity : ℚ
  fillRate : ℚ

def keyPrefix : String := "rate-limiting:token-bucket:"

def key (userId token : String) : String := keyPrefix ++ userId ++ ":" ++ token

variable (config : Config)

/-- `calculateRemaining`: what is left of the capacity, the same for all four windows. -/
def calculateRemaining (userId token : String) (consumed : Option ℤ) : Client ℚ :=
  match consumed with
  | some consumed => return config.capacity - consumed
  | none => do
    let value ← Client.get (key userId token)
    match value with
    | none => return config.capacity - 0
    | some consumed => return config.capacity - consumed

/-- The summary of a bucket. -/
def summary (limits : QuotaLimits) (remaining : ℚ) (now : ℕ) : QuotaSummary where
  perSecond := ⟨limits.perSecond, remaining, some (now + 1000)⟩
  perMinute := ⟨limits.perMinute, remaining, some (now + 1000)⟩
  perHour := ⟨limits.perHour, remaining, some (now + 1000)⟩
  perDay := ⟨limits.perDay, remaining, some (now + 1000)⟩

def request (userId token : String) (score : ℕ) (limits : QuotaLimits) (now : ℕ) :
    Client RequestResult := do
  let consumed ← Client.incrBy (key userId token) score
  if config.capacity < consumed then do
    let _ ← Client.decrBy (key userId token) score
    return .error tooManyRequests
  else do
    let remaining ← calculateRemaining config userId token (some consumed)
    return .ok (summary limits remaining now)

def quota (userId token : String) (limits : QuotaLimits) (now : ℕ) : Client QuotaSummary := do
  let remaining ← calculateRemaining config userId token none
  return summary limits remaining now

/-- What the timer runs. An error of the script leaves as `RESET_RATES_FAILED`. -/
def resetRates : Client (Except String Unit) := Client.evalRefill keyPrefix config.fillRate

/-- `TokenBucketAlgorithm`, whose timer refills the buckets. -/
def algorithm : RateLimitingAlgorithm where
  request := request config
  quota := quota config
  timer := do
    let _ ← resetRates config

end NodeToolkit.TokenBucket
