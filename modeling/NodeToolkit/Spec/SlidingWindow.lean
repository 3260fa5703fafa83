import NodeToolkit.Spec.Quota

/-!
# The sliding-window algorithm

`SlidingWindowAlgorithm`: four sorted sets for each client, one for each window
length. A request is the member `now:score` with the sorted-set score `now`;
`request` adds the second part of the members up, `quota` reads them by
`parseInt` of the whole text. Sums are exact, as they are in the source up to the
largest safe integer.
-/

namespace NodeToolkit.SlidingWindow

open Async Redis

def key (userId token : String) : String :=
  "rate-limiting:sliding-window:" ++ userId ++ ":" ++ token

/-- The key of the sorted set for a window length. -/
def setKey (baseKey : String) (w : Span) : String := baseKey ++ ":" ++ w.label

/-- The member that stands for a request: `now:score`. -/
def member (now score : ℕ) : String := numberToString now ++ ":" ++ numberToString score

/-- `parseInt(curr.split(':')[1])`. -/
def scorePart (curr : String) : ℕ := parseInt ((split curr ':')[1]?.getD "")

/-- `reduce((acc, curr) => acc + f(curr), 0)`. -/
def total (f : String → ℕ) (scores : List String) : ℕ :=
  scores.foldl (fun acc curr => acc + f curr) 0

/-- Record a request in one of the sorted sets and add up what the set holds. -/
def record (baseKey : String) (w : Span) (seconds now score : ℕ) : Client ℕ := do
  Client.zRemRangeByScore (setKey baseKey w) .negInf (.incl ((now : ℤ) - w.ms))
  Client.zAdd (setKey baseKey w) now (member now score)
  let scores ← Client.zRangeByScore (setKey baseKey w) .negInf .posInf
  Client.expire (setKey baseKey w) seconds
  return total scorePart scores

def request (userId token : String) (score : ℕ) (limits : QuotaLimits) (now : ℕ) :
    Client RequestResult := do
  let baseKey := key userId token
  let consumedPerSecond ← record baseKey .second 2 now score
  let consumedPerMinute ← record baseKey .minute 61 now score
  let consumedPerHour ← record baseKey .hour 3601 now score
  let consumedPerDay ← record baseKey .day 86401 now score
  if limits.perSecond < consumedPerSecond ∨ limits.perMinute < consumedPerMinute ∨
      limits.perHour < consumedPerHour ∨ limits.perDay < consumedPerDay then do
    Client.zRemRangeByScore (setKey baseKey .second) (.incl now) (.excl now)
    Client.zRemRangeByScore (setKey baseKey .minute) (.incl now) (.excl now)
    Client.zRemRangeByScore (setKey baseKey .hour) (.incl now) (.excl now)
    Client.zRemRangeByScore (setKey baseKey .day) (.incl now) (.excl now)
    return .error tooManyRequests
  else
    return .ok
      { perSecond := ⟨limits.perSecond, limits.perSecond - consumedPerSecond, some (now + 1000)⟩
        perMinute := ⟨limits.perMinute, limits.perMinute - consumedPerMinute, some (now + 60000)⟩
        perHour := ⟨limits.perHour, limits.perHour - consumedPerHour, some (now + 3600000)⟩
        perDay := ⟨limits.perDay, limits.perDay - consumedPerDay, some (now + 86400000)⟩ }

def quota (userId token : String) (limits : QuotaLimits) (now : ℕ) : Client QuotaSummary := do
  let baseKey := key userId token
  Client.zRemRangeByScore (setKey baseKey .second) .negInf (.incl ((now : ℤ) - 1000))
  Client.zRemRangeByScore (setKey baseKey .minute) .negInf (.incl ((now : ℤ) - 60000))
  Client.zRemRangeByScore (setKey baseKey .hour) .negInf (.incl ((now : ℤ) - 3600000))
  Client.zRemRangeByScore (setKey baseKey .day) .negInf (.incl ((now : ℤ) - 86400000))
  let secondScores ← Client.zRangeByScore (setKey baseKey .second) .negInf .posInf
  let minuteScores ← Client.zRangeByScore (setKey baseKey .minute) .negInf .posInf
  let hourScores ← Client.zRangeByScore (setKey baseKey .hour) .negInf .posInf
  let dayScores ← Client.zRangeByScore (setKey baseKey .day) .negInf .posInf
  let consumedPerSecond := total parseInt secondScores
  let consumedPerMinute := total parseInt minuteScores
  let consumedPerHour := total parseInt hourScores
  let consumedPerDay := total parseInt dayScores
  return {
    perSecond := ⟨limits.perSecond, limits.perSecond - consumedPerSecond, some (now + 1000)⟩
    perMinute := ⟨limits.perMinute, limits.perMinute - consumedPerMinute, some (now + 60000)⟩
    perHour := ⟨limits.perHour, limits.perHour - consumedPerHour, some (now + 3600000)⟩
    perDay := ⟨limits.perDay, limits.perDay - consumedPerDay, some (now + 86400000)⟩ }

/-- `SlidingWindowAlgorithm`; it has no timer. -/
def algorithm : RateLimitingAlgorithm := ⟨request, quota, .ret ()⟩

end NodeToolkit.SlidingWindow
