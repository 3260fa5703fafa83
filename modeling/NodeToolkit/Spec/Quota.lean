import NodeToolkit.Spec.Redis

/-!
# Quotas and the rate-limiting interface

The data of `quota.ts`, `quota-summary.ts` and `quota-limits.ts`, and the interface
`RateLimitingAlgorithm` as a pair of async functions over Redis. Instants are
milliseconds since the epoch; each call gets its clock reading as an argument.
-/

namespace NodeToolkit

open Async

/-- The four windows every algorithm reports on. -/
inductive Span where
  | second
  | minute
  | hour
  | day
deriving DecidableEq

/-- The length of a window in milliseconds. -/
def Span.ms : Span → ℕ
  | .second => 1000
  | .minute => 60000
  | .hour => 3600000
  | .day => 86400000

/-- The word for a window in the keys of Redis. -/
def Span.label : Span → String
  | .second => "secondly"
  | .minute => "minutely"
  | .hour => "hourly"
  | .day => "daily"

theorem Span.ms_pos (w : Span) : 0 < w.ms := by cases w <;> decide

theorem Span.ms_le_day (w : Span) : w.ms ≤ Span.day.ms := by cases w <;> decide

theorem Span.label_inj {w v : Span} (h : w.label = v.label) : w = v := by
  cases w <;> cases v <;> first | rfl | exact absurd h (by decide)

theorem Span.colon_notMem_label (w : Span) : ':' ∉ w.label.toList := by cases w <;> decide

theorem Span.forall_iff {p : Span → Prop} : (∀ v, p v) ↔ p .second ∧ p .minute ∧ p .hour ∧ p .day := by
  constructor
  · exact fun h => ⟨h _, h _, h _, h _⟩
  · rintro ⟨h1, h2, h3, h4⟩ v
    cases v <;> assumption

theorem Span.exists_iff {p : Span → Prop} : (∃ v, p v) ↔ p .second ∨ p .minute ∨ p .hour ∨ p .day := by
  rw [← not_iff_not, not_exists, Span.forall_iff]
  simp only [not_or]

instance {p : Span → Prop} [DecidablePred p] : Decidable (∀ v, p v) := decidable_of_iff _ Span.forall_iff.symm

instance {p : Span → Prop} [DecidablePred p] : Decidable (∃ v, p v) := decidable_of_iff _ Span.exists_iff.symm

structure QuotaLimits where
  perSecond : ℚ
  perMinute : ℚ
  perHour : ℚ
  perDay : ℚ
deriving DecidableEq

/-- The limit of a window. -/
def QuotaLimits.of (l : QuotaLimits) : Span → ℚ
  | .second => l.perSecond
  | .minute => l.perMinute
  | .hour => l.perHour
  | .day => l.perDay

def defaultQuotaLimits : QuotaLimits := ⟨5, 60, 600, 14400⟩

structure Quota where
  limit : ℚ
  remaining : ℚ
  reset : Option ℕ
deriving DecidableEq

structure QuotaSummary where
  perSecond : Quota
  perMinute : Quota
  perHour : Quota
  perDay : Quota
deriving DecidableEq

/-- The quota of a window. -/
def QuotaSummary.of (s : QuotaSummary) : Span → Quota
  | .second => s.perSecond
  | .minute => s.perMinute
  | .hour => s.perHour
  | .day => s.perDay

structure TooManyRequestsException where
  code : String
  message : String
deriving DecidableEq

def tooManyRequests : TooManyRequestsException :=
  ⟨"TOO_MANY_REQUESTS", "Quota exceeded. Please try again later."⟩

/-- `Result<QuotaSummary, TooManyRequestsException>`. -/
abbrev RequestResult : Type := Except TooManyRequestsException QuotaSummary

/-- A call of an algorithm, with its clock reading, or a run of its timer. -/
inductive RateCall where
  | request (userId token : String) (score : ℕ) (limits : QuotaLimits) (now : ℕ)
  | quota (userId token : String) (limits : QuotaLimits) (now : ℕ)
  | timer

inductive RateReply where
  | requested (r : RequestResult)
  | quota (s : QuotaSummary)
  | ticked
deriving DecidableEq

structure RateLimitingAlgorithm where
  request : String → String → ℕ → QuotaLimits → ℕ → Redis.Client RequestResult
  quota : String → String → QuotaLimits → ℕ → Redis.Client QuotaSummary
  timer : Redis.Client Unit

namespace RateLimitingAlgorithm

variable (A : RateLimitingAlgorithm)

/-- The async function behind a call. -/
def prog : RateCall → Redis.Client RateReply
  | .request userId token score limits now => do
    let r ← A.request userId token score limits now
    return .requested r
  | .quota userId token limits now => do
    let s ← A.quota userId token limits now
    return .quota s
  | .timer => do
    A.timer
    return .ticked

/-- Any number of calls over one server, whose clock the environment moves. -/
def machine : Machine Redis.Resp Redis Unit ℕ RateCall RateReply where
  exec := fun _ => Redis.exec
  env := fun t s => s.advance t
  enter := fun _ s => s
  prog := A.prog

end RateLimitingAlgorithm

end NodeToolkit
