import NodeToolkit.Spec.Quota

/-!
# The fixed-window algorithm

`FixedWindowAlgorithm`: one counter for each window of each kind, charged by
`INCRBY` before the limits are checked and refunded by `DECRBY` when one of them
is exceeded.
-/

namespace NodeToolkit.FixedWindow

open Async Redis

def key (userId token : String) : String :=
  "rate-limiting:fixed-window:" ++ userId ++ ":" ++ token

/-- The key of the counter of the window that starts at `start`. -/
def counter (baseKey : String) (w : Span) (start : ℕ) : String :=
  baseKey ++ ":" ++ w.label ++ ":" ++ numberToString start

/-- The start of the window of `now`: `Math.trunc(now / ms) * ms`. -/
def windowStart (w : Span) (now : ℕ) : ℕ := now / w.ms * w.ms

def request (userId token : String) (score : ℕ) (limits : QuotaLimits) (now : ℕ) :
    Client RequestResult := do
  let baseKey := key userId token
  let second := windowStart .second now
  let minute := windowStart .minute now
  let hour := windowStart .hour now
  let day := windowStart .day now
  let consumedPerSecond ← Client.incrBy (counter baseKey .second second) score
  let consumedPerMinute ← Client.incrBy (counter baseKey .minute minute) score
  let consumedPerHour ← Client.incrBy (counter baseKey .hour hour) score
  let consumedPerDay ← Client.incrBy (counter baseKey .day day) score
  Client.expire (counter baseKey .second second) 2
  Client.expire (counter baseKey .minute minute) 61
  Client.expire (counter baseKey .hour hour) 3601
  Client.expire (counter baseKey .day day) 86401
  if limits.perSecond < consumedPerSecond ∨ limits.perMinute < consumedPerMinute ∨
      limits.perHour < consumedPerHour ∨ limits.perDay < consumedPerDay then do
    let _ ← Client.decrBy (counter baseKey .second second) score
    let _ ← Client.decrBy (counter baseKey .minute minute) score
    let _ ← Client.decrBy (counter baseKey .hour hour) score
    let _ ← Client.decrBy (counter baseKey .day day) score
    return .error tooManyRequests
  else
    return .ok
      { perSecond := ⟨limits.perSecond, limits.perSecond - consumedPerSecond, some (second + 1000)⟩
        perMinute := ⟨limits.perMinute, limits.perMinute - consumedPerMinute, some (minute + 60000)⟩
        perHour := ⟨limits.perHour, limits.perHour - consumedPerHour, some (hour + 3600000)⟩
        perDay := ⟨limits.perDay, limits.perDay - consumedPerDay, some (day + 86400000)⟩ }

/-- `Number(value)` of an answer of `GET`: an absent key counts as `0`. -/
def number (value : Option ℤ) : ℚ := value.getD 0

def quota (userId token : String) (limits : QuotaLimits) (now : ℕ) : Client QuotaSummary := do
  let baseKey := key userId token
  let second := windowStart .second now
  let minute := windowStart .minute now
  let hour := windowStart .hour now
  let day := windowStart .day now
  let consumedPerSecond ← Client.get (counter baseKey .second second)
  let consumedPerMinute ← Client.get (counter baseKey .minute minute)
  let consumedPerHour ← Client.get (counter baseKey .hour hour)
  let consumedPerDay ← Client.get (counter baseKey .day day)
  return {
    perSecond :=
      ⟨limits.perSecond, limits.perSecond - number consumedPerSecond, some (second + 1000)⟩
    perMinute :=
      ⟨limits.perMinute, limits.perMinute - number consumedPerMinute, some (minute + 60000)⟩
    perHour := ⟨limits.perHour, limits.perHour - number consumedPerHour, some (hour + 3600000)⟩
    perDay := ⟨limits.perDay, limits.perDay - number consumedPerDay, some (day + 86400000)⟩ }

/-- `FixedWindowAlgorithm`; it has no timer. -/
def algorithm : RateLimitingAlgorithm := ⟨request, quota, .ret ()⟩

end NodeToolkit.FixedWindow
