import NodeToolkit.Spec.Delivery

/-!
# Outbox events: what the transitions keep

* `Valid`: how status, tries and times of a record fit together.
* `Valid.outcome`: an answer to a POST of a record that is open (pending or failed)
  leaves it valid, with one try more. The two limits of the program agree: the
  table of `getNextTryAt` ends where a seventh failure cancels the record.
* `Valid.retryable`: an open record can be retried from its `nextTryAt` on.
-/

namespace NodeToolkit.Outbox

/-- The time to the next try after so many failures. -/
def backoff : ℕ → ℕ
  | 1 => 5 * 60000
  | 2 => 30 * 60000
  | 3 => 2 * 3600000
  | 4 => 6 * 3600000
  | 5 => 12 * 3600000
  | 6 => 24 * 3600000
  | _ => 0

/-- The table of the source, as `backoff`. -/
theorem getNextTryAt_eq {tries : ℕ} (h1 : 1 ≤ tries) (h6 : tries ≤ 6) (now : ℕ) :
    getNextTryAt tries now = some (now + backoff tries) := by
  obtain rfl | rfl | rfl | rfl | rfl | rfl :
      tries = 1 ∨ tries = 2 ∨ tries = 3 ∨ tries = 4 ∨ tries = 5 ∨ tries = 6 := by omega
  all_goals rfl

/-- The record may still be POSTed. -/
def Open (r : OutboxEvent) : Prop := r.status = .pending ∨ r.status = .failed

/-- **A well-formed record.** -/
structure Valid (r : OutboxEvent) : Prop where
  pending : r.status = .pending ↔ r.tries = 0
  untried : r.tries = 0 → r.firstTryAt = none ∧ r.lastTryAt = none ∧ r.nextTryAt.isSome
  tried : 1 ≤ r.tries → r.firstTryAt.isSome ∧ r.lastTryAt.isSome
  failed : r.status = .failed → 1 ≤ r.tries ∧ r.tries ≤ 6 ∧
    ∃ last, r.lastTryAt = some last ∧ r.nextTryAt = some (last + backoff r.tries)
  cancelled : r.status = .cancelled → r.tries = 7 ∧ r.nextTryAt = none
  delivered : r.status = .delivered → 1 ≤ r.tries ∧ r.tries ≤ 7 ∧ r.nextTryAt = none

/-- The record after an answer. -/
def outcome (r : OutboxEvent) (a : Answer) : OutboxEvent :=
  if a.status = 200 ∨ a.status = 201 then OutboxEventDelivered r a.status a.response a.now
  else OutboxEventDeliveryFailed r a.status a.response a.now

section Records

variable {r : OutboxEvent} {a : Answer} {now : ℕ}

/-- A record is tried seven times at most. -/
theorem Valid.tries_le (h : Valid r) : r.tries ≤ 7 := by
  cases hs : r.status with
  | pending => have := h.pending.1 hs; omega
  | delivered => exact (h.delivered hs).2.1
  | failed => have := (h.failed hs).2.1; omega
  | cancelled => exact (h.cancelled hs).1.le

/-- A record with seven tries is closed. -/
theorem Valid.tries_le_of_open (h : Valid r) (ho : Open r) : r.tries ≤ 6 := by
  rcases ho with hs | hs
  · have := h.pending.1 hs; omega
  · exact (h.failed hs).2.1

/-- What `CanRetryOutboxEvent` checks. -/
theorem canRetry_iff : CanRetryOutboxEvent r now ↔ r.status = .pending ∨
    r.status = .failed ∧ r.tries ≤ 7 ∧ ∃ next, r.nextTryAt = some next ∧ next ≤ now := by
  unfold CanRetryOutboxEvent MAX_RETRIES
  cases r.status <;> simp

/-- Only open records are retried. -/
theorem open_of_canRetry (h : CanRetryOutboxEvent r now) : Open r := by
  rcases canRetry_iff.1 h with h | h
  · exact Or.inl h
  · exact Or.inr h.1

theorem canRetry_of_pending (h : r.status = .pending) : CanRetryOutboxEvent r now :=
  canRetry_iff.2 (Or.inl h)

/-- **No record is stuck.** -/
theorem Valid.retryable (h : Valid r) (ho : Open r) :
    ∃ next, r.nextTryAt = some next ∧ ∀ now, next ≤ now → CanRetryOutboxEvent r now := by
  rcases ho with hs | hs
  · obtain ⟨next, hn⟩ := Option.isSome_iff_exists.1 (h.untried (h.pending.1 hs)).2.2
    exact ⟨next, hn, fun now _ => canRetry_of_pending hs⟩
  · obtain ⟨-, h6, last, -, hn⟩ := h.failed hs
    exact ⟨_, hn, fun now hle => canRetry_iff.2 (Or.inr ⟨hs, by omega, _, hn, hle⟩)⟩

@[simp] theorem outcome_id : (outcome r a).id = r.id := by
  unfold outcome; split <;> rfl

@[simp] theorem outcome_tries : (outcome r a).tries = r.tries + 1 := by
  unfold outcome; split <;> rfl

@[simp] theorem outcome_firstTryAt : (outcome r a).firstTryAt = some (r.firstTryAt.getD a.now) := by
  unfold outcome; split <;> rfl

@[simp] theorem outcome_lastTryAt : (outcome r a).lastTryAt = some a.now := by
  unfold outcome; split <;> rfl

/-- **An answer** leaves an open record valid. -/
theorem Valid.outcome (h : Valid r) (ho : Open r) (a : Answer) : Valid (outcome r a) := by
  have h6 := h.tries_le_of_open ho
  by_cases hok : a.status = 200 ∨ a.status = 201
  · have he : Outbox.outcome r a = OutboxEventDelivered r a.status a.response a.now := if_pos hok
    rw [he]
    refine ⟨by simp [OutboxEventDelivered], by simp [OutboxEventDelivered], by simp [OutboxEventDelivered],
      by simp [OutboxEventDelivered], by simp [OutboxEventDelivered], fun _ => ⟨Nat.le_add_left .., ?_, rfl⟩⟩
    show r.tries + 1 ≤ 7
    omega
  · have he : Outbox.outcome r a = OutboxEventDeliveryFailed r a.status a.response a.now := if_neg hok
    rcases Nat.lt_or_ge r.tries 6 with hlt | hge
    · have hnext := getNextTryAt_eq (show 1 ≤ r.tries + 1 by omega) (show r.tries + 1 ≤ 6 by omega) a.now
      refine ⟨?_, ?_, ?_, ?_, ?_, ?_⟩ <;> rw [he] <;> simp [OutboxEventDeliveryFailed, hnext]
      omega
    · -- the seventh failure: the table has no entry
      have hseven : r.tries + 1 = 7 := by omega
      have hnext : getNextTryAt 7 a.now = none := rfl
      refine ⟨?_, ?_, ?_, ?_, ?_, ?_⟩ <;> rw [he] <;> simp [OutboxEventDeliveryFailed, hseven, hnext]

/-- An answer 200 or 201 delivers. -/
theorem outcome_delivered (hok : a.status = 200 ∨ a.status = 201) : (outcome r a).status = .delivered := by
  unfold outcome; rw [if_pos hok]; rfl

/-- A record just created. -/
theorem valid_of_created {webhook : Webhook} {event : Event} {isTest : Bool} {id : String}
    (h : CreateOutboxEvent webhook event isTest id now = .ok r) :
    Valid r ∧ r.id = id ∧ r.status = .pending ∧ r.tries = 0 := by
  unfold CreateOutboxEvent at h
  split at h
  · cases h
    exact ⟨⟨by simp, by simp, by simp, by simp, by simp, by simp⟩, rfl, rfl, rfl⟩
  · cases h

end Records

end NodeToolkit.Outbox
