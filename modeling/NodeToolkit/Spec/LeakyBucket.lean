import NodeToolkit.Spec.Exceptions
import NodeToolkit.Spec.Quota

/-!
# The leaky-bucket algorithm

`LeakyBucketAlgorithm`: a queue of waiting requests for each client, in memory. A
request that finds its queue full is rejected at once; any other awaits a promise
that the timer resolves, `leaksPerSecond` promises of each queue in every tick. No
function of the algorithm awaits anything else, so each runs in one step. Numbers are
exact, as they are in the source up to the largest safe integer.
-/

namespace NodeToolkit

open Async

namespace LeakyBucket

/-- A configuration the constructor accepts. -/
structure Config where
  capacity : ℕ
  leaksPerSecond : ℕ
  capacity_pos : 1 ≤ capacity
  leaks_pos : 1 ≤ leaksPerSecond

/-- The checks of the constructor. -/
def Config.make (capacity leaksPerSecond : ℕ) : Except DeveloperException Config :=
  if hc : capacity < 1 then
    .error ⟨"DEVELOPER_ERROR.INVALID_CONFIGURATION", "The capacity must be greater than 0"⟩
  else if hl : leaksPerSecond < 1 then
    .error ⟨"DEVELOPER_ERROR.INVALID_CONFIGURATION", "The leaks per second must be greater than 0"⟩
  else
    .ok ⟨capacity, leaksPerSecond, by omega, by omega⟩

/-- A call: its identity and the client it is made for. -/
structure Call where
  id : ℕ
  userId : String
  token : String
deriving DecidableEq

/-- An entry of a queue. Its resolver resolves the promise that the call awaits. -/
structure Waiting where
  limits : QuotaLimits
  resolver : Call
deriving DecidableEq

/-- The queues, and the answers the calls have got, oldest first. -/
structure State where
  map : OMap String (List Waiting)
  replies : List (Call × RateReply)

def init : State := ⟨.empty, []⟩

def key (userId token : String) : String := userId ++ ":" ++ token

/-- `const [userId, token] = key.split(':')`. -/
def reverseKey (key : String) : String × String :=
  ((split key ':')[0]?.getD "undefined", (split key ':')[1]?.getD "undefined")

structure Remaining where
  perSecond : ℚ
  perMinute : ℚ
  perHour : ℚ
  perDay : ℚ

variable (config : Config)

def calculateRemaining (map : OMap String (List Waiting)) (userId token : String) : Remaining :=
  match map.get (key userId token) with
  | none =>
    { perSecond := config.capacity
      perMinute := config.leaksPerSecond * 60 + config.capacity
      perHour := config.leaksPerSecond * 60 * 60 + config.capacity
      perDay := config.leaksPerSecond * 60 * 60 * 24 + config.capacity }
  | some queuedRequests =>
    { perSecond := config.capacity - queuedRequests.length
      perMinute := config.leaksPerSecond * 60 + config.capacity - queuedRequests.length
      perHour := config.leaksPerSecond * 60 * 60 + config.capacity - queuedRequests.length
      perDay := config.leaksPerSecond * 60 * 60 * 24 + config.capacity - queuedRequests.length }

/-- The summary of a queue, with `passed` requests more than `remaining` says. -/
def summary (limits : QuotaLimits) (remaining : Remaining) (passed : ℕ) (reset : Option ℕ) :
    QuotaSummary where
  perSecond := ⟨limits.perSecond, remaining.perSecond + passed, reset⟩
  perMinute := ⟨limits.perMinute, remaining.perMinute + passed, reset⟩
  perHour := ⟨limits.perHour, remaining.perHour + passed, reset⟩
  perDay := ⟨limits.perDay, remaining.perDay + passed, reset⟩

/-- `request`. The algorithm does not look at the score. -/
def request (call : Call) (_score : ℕ) (limits : QuotaLimits) (s : State) : State :=
  let k := key call.userId call.token
  let map := if s.map.get k = none then s.map.set k [] else s.map
  let queue := (map.get k).getD []
  if config.capacity ≤ queue.length then
    ⟨map, s.replies ++ [(call, .requested (.error tooManyRequests))]⟩
  else
    ⟨map.set k (queue ++ [⟨limits, call⟩]), s.replies⟩

def quota (call : Call) (limits : QuotaLimits) (now : ℕ) (s : State) : State :=
  let requests := s.map.get (key call.userId call.token)
  let remaining := calculateRemaining config s.map call.userId call.token
  { s with replies := s.replies ++
      [(call, .quota (summary limits remaining 0 (if requests.isSome then some (now + 1000) else none)))] }

/-- The inner loop of the timer: the answers to the requests that pass, and their number. -/
def passRequests (remaining : Remaining) (now : ℕ) : ℕ → List Waiting → List (Call × RateReply) × ℕ
  | passedRequests, [] => ([], passedRequests)
  | passedRequests, w :: requests =>
    if config.leaksPerSecond ≤ passedRequests then ([], passedRequests)
    else
      let reply := summary w.limits remaining (passedRequests + 1) (some (now + 1000))
      let (replies, n) := passRequests remaining now (passedRequests + 1) requests
      ((w.resolver, .requested (.ok reply)) :: replies, n)

/-- One round of the outer loop. -/
def handleKey (now : ℕ) (s : State) (k : String) : State :=
  let requests := (s.map.get k).getD []
  if requests = [] then s
  else
    let (userId, token) := reverseKey k
    let remaining := calculateRemaining config s.map userId token
    let (replies, passedRequests) := passRequests config remaining now 0 requests
    ⟨s.map.set k (requests.drop passedRequests), s.replies ++ replies⟩

/-- The timer. Its loop runs over the keys of the map, whose number does not change in it. -/
def handler (now : ℕ) (s : State) : State := s.map.keys.foldl (handleKey config now) s

/-- What happens to the algorithm. A `tick` and a `quota` come with their clock reading. -/
inductive Event where
  | request (call : Call) (score : ℕ) (limits : QuotaLimits)
  | quota (call : Call) (limits : QuotaLimits) (now : ℕ)
  | tick (now : ℕ)

def step (s : State) : Event → State
  | .request call score limits => request config call score limits s
  | .quota call limits now => quota config call limits now s
  | .tick now => handler config now s

def run (es : List Event) : State := es.foldl (step config) init

end LeakyBucket

end NodeToolkit
