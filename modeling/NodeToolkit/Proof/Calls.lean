import NodeToolkit.Spec.Quota

/-!
# Calls of a rate limiter

The words in which the results about concurrent calls are stated, the same for
every algorithm over Redis.
-/

namespace NodeToolkit

open Async Redis

/-- The calls of an algorithm made so far, with the state of Redis. -/
abbrev RateWorld : Type := Pool Resp Redis RateCall RateReply

/-- One call of an algorithm. -/
abbrev RateProc : Type := Proc Resp RateCall RateReply

/-- The score of a request. -/
def RateCall.score : RateCall → ℕ
  | .request _ _ score _ _ => score
  | _ => 0

def RateCall.isRequest : RateCall → Bool
  | .request _ _ _ _ _ => true
  | _ => false

def RateCall.isTimer : RateCall → Bool
  | .timer => true
  | _ => false

/-- The reply to a request that is accepted. -/
def RateReply.granted : RateReply → Bool
  | .requested (.ok _) => true
  | _ => false

/-- The call is a request that has returned a quota summary. -/
def accepted (p : RateProc) : Bool :=
  match p.result with
  | some (.requested (.ok _)) => true
  | _ => false

theorem accepted_iff {p : RateProc} : accepted p ↔ ∃ s, p.result = some (.requested (.ok s)) := by
  unfold accepted
  constructor
  · intro h
    split at h
    · rename_i s hs; exact ⟨s, hs⟩
    · simp at h
  · rintro ⟨s, hs⟩; simp [hs]

theorem not_accepted_of_running {p : RateProc} (h : p.Running) : accepted p = false := by
  have hres : p.result = none := h
  simp [accepted, hres]

end NodeToolkit
