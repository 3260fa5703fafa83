import NodeToolkit.Proof.Outbox

/-!
# What a call may do to the outbox

`protocol` says which command a call can issue next, from the records it holds: it
stores the records it has created, POSTs a record it holds once `CanRetryOutboxEvent`
is true of it, and after the answer writes the outcome back. `prog_follows`: the four
kinds of calls keep to it, whatever the answers.
-/

namespace NodeToolkit.Outbox

open Async

/-- Where a call is: the records it is about to store or may still POST, with the clock reading it
goes by, or the record it has POSTed and not written back. -/
inductive Phase where
  | creating (records : List OutboxEvent) (now : ℕ)
  | listing
  | holding (held : List OutboxEvent) (now : ℕ)
  | sent (outbox : OutboxEvent) (held : List OutboxEvent)
  | answered (outbox : OutboxEvent) (answer : Answer) (held : List OutboxEvent)

namespace Phase

/-- The record that was POSTed and is not written back. -/
def flying : Phase → Option OutboxEvent
  | sent outbox _ => some outbox
  | answered outbox _ _ => some outbox
  | _ => none

/-- The commands a call may issue. -/
def may : Phase → Cmd → Prop
  | creating records _, .create outbox => records = [outbox]
  | creating records _, .createBatch outboxEvents => records = outboxEvents
  | listing, .allToRetry => True
  | holding (outbox :: _) now, .post outbox' _ => outbox' = outbox ∧ CanRetryOutboxEvent outbox now
  | sent _ _, .answer => True
  | answered outbox answer _, .update outbox' => outbox' = outcome outbox answer
  | _, _ => False

def next : Phase → (c : Cmd) → Resp c → Phase
  | creating records _, .create _, now => holding records now
  | creating records _, .createBatch _, now => holding records now
  | listing, .allToRetry, (outboxEvents, now) => holding outboxEvents now
  | holding (_ :: held) _, .post outbox _, _ => sent outbox held
  | sent outbox held, .answer, answer => answered outbox answer held
  | answered _ _ held, .update _, now => holding held now
  | _, _, _ => holding [] 0

/-- **The commands of a call**, by its phase. -/
theorem may_cases {ph : Phase} {c : Cmd} (h : ph.may c) :
    (∃ rs now, ph = creating rs now ∧ (c = .createBatch rs ∨ ∃ r, rs = [r] ∧ c = .create r)) ∨
    (ph = listing ∧ c = .allToRetry) ∨
    (∃ r held now post, ph = holding (r :: held) now ∧ c = .post r post ∧ CanRetryOutboxEvent r now) ∨
    (∃ r held, ph = sent r held ∧ c = .answer) ∨
    ∃ r a held, ph = answered r a held ∧ c = .update (outcome r a) := by
  unfold may at h
  split at h
  · rename_i rs now r
    exact Or.inl ⟨rs, now, rfl, Or.inr ⟨r, h, rfl⟩⟩
  · rename_i rs now rs'
    exact Or.inl ⟨rs, now, rfl, Or.inl (h ▸ rfl)⟩
  · exact Or.inr (Or.inl ⟨rfl, rfl⟩)
  · rename_i r held now r' post
    exact Or.inr (Or.inr (Or.inl ⟨r, held, now, post, rfl, h.1 ▸ rfl, h.2⟩))
  · rename_i r held
    exact Or.inr (Or.inr (Or.inr (Or.inl ⟨r, held, rfl, rfl⟩)))
  · rename_i r a held r'
    exact Or.inr (Or.inr (Or.inr (Or.inr ⟨r, a, held, rfl, h ▸ rfl⟩)))
  · exact h.elim

end Phase

/-- The protocol of the calls, for functions that may return `a` in the phases `fin` allows. -/
def rules {α : Type} (fin : Phase → α → Prop) : Protocol Resp Phase α := ⟨Phase.may, Phase.next, fin⟩

/-- The protocol of whole calls: nothing is left open. -/
def protocol : Protocol Resp Phase Reply := rules fun ph _ => ph.flying = none

/-- The records a call creates. -/
def Call.created : Call → List OutboxEvent
  | .send webhook event isTest id now =>
    match CreateOutboxEvent webhook event isTest id now with
    | .ok outbox => [outbox]
    | .error _ => []
  | .sendBatch webhooks event isTest now =>
    match createAll event isTest now webhooks with
    | .ok outboxEvents => outboxEvents
    | .error _ => []
  | .retry _ _ => []
  | .job => []

/-- Where a call starts. -/
def Call.start : Call → Phase
  | .send webhook event isTest id now => .creating (Call.send webhook event isTest id now).created now
  | .sendBatch webhooks event isTest now => .creating (Call.sendBatch webhooks event isTest now).created now
  | .retry outbox now => .holding [outbox] now
  | .job => .listing

section Follows

variable {hmac : String → String → String} {held : List OutboxEvent} {r : OutboxEvent} {now : ℕ}

theorem createAll_created {event : Event} {isTest : Bool} {webhooks : List (Webhook × String)}
    {outboxEvents : List OutboxEvent} (h : createAll event isTest now webhooks = .ok outboxEvents) :
    ∀ r ∈ outboxEvents, Valid r ∧ r.status = .pending ∧ r.tries = 0 := by
  induction webhooks generalizing outboxEvents with
  | nil => cases h; simp
  | cons e webhooks ih =>
    obtain ⟨webhook, id⟩ := e
    unfold createAll at h
    cases hc : CreateOutboxEvent webhook event isTest id now with
    | error e => rw [hc] at h; cases h
    | ok outbox =>
      cases hr : createAll event isTest now webhooks with
      | error e => rw [hc, hr] at h; cases h
      | ok rest =>
        rw [hc, hr] at h
        cases h
        obtain ⟨hv, -, hp, ht⟩ := valid_of_created hc
        intro r hr'
        rcases List.mem_cons.1 hr' with rfl | hr'
        · exact ⟨hv, hp, ht⟩
        · exact ih hr r hr'

/-- **Created records** are valid and not yet tried. -/
theorem created_valid {x : Call} : ∀ r ∈ x.created, Valid r ∧ r.status = .pending ∧ r.tries = 0 := by
  intro r hr
  cases x with
  | send webhook event isTest id now =>
    simp only [Call.created] at hr
    cases hc : CreateOutboxEvent webhook event isTest id now with
    | error e => rw [hc] at hr; cases hr
    | ok outbox =>
      obtain ⟨hv, -, hp, ht⟩ := valid_of_created hc
      rw [hc] at hr
      rw [List.mem_singleton.1 hr]
      exact ⟨hv, hp, ht⟩
  | sendBatch webhooks event isTest now =>
    simp only [Call.created] at hr
    cases hc : createAll event isTest now webhooks with
    | error e => rw [hc] at hr; cases hr
    | ok outboxEvents =>
      rw [hc] at hr
      exact createAll_created hc r hr
  | retry outbox now => cases hr
  | job => cases hr

/-- Sequencing. -/
theorem rules_bind {α β : Type} {fin : Phase → α → Prop} {fin' : Phase → β → Prop} {p : Client α}
    {f : α → Client β} {ph : Phase} (hp : p.Follows (rules fin) ph)
    (hf : ∀ ph a, fin ph a → (f a).Follows (rules fin') ph) : (p >>= f).Follows (rules fin') ph :=
  Prog.Follows.bind (P := rules fin) (Q := rules fin') rfl rfl hf hp

/-- One record of a batch after the other: POST, answer, write back. -/
theorem sendBatch_follows (outboxEvents : List OutboxEvent) (hp : ∀ r ∈ outboxEvents, r.status = .pending) :
    ∀ {now : ℕ}, (SendBatchOutboxEvents hmac outboxEvents).Follows (rules fun ph _ => ∃ now, ph = .holding [] now)
      (.holding outboxEvents now) := by
  induction outboxEvents with
  | nil => exact fun {now} => ⟨now, rfl⟩
  | cons r outboxEvents ih =>
    intro now
    simp only [SendBatchOutboxEvents, Client.post, Client.update, Prog.await_bind, Prog.ret_bind,
      Prog.follows_await]
    refine ⟨⟨rfl, canRetry_of_pending (hp r (by simp))⟩, fun _ => ⟨trivial, fun a => ⟨rfl, fun now => ?_⟩⟩⟩
    exact rules_bind (ih fun r' hr' => hp r' (by simp [hr'])) fun ph l h => h

theorem send_follows {webhook : Webhook} {event : Event} {isTest : Bool} {id : String} :
    (SendEventToWebhook hmac webhook event isTest id now).Follows (rules fun ph _ => ph.flying = none)
      (Call.send webhook event isTest id now).start := by
  simp only [SendEventToWebhook, Call.start, Call.created]
  cases hc : CreateOutboxEvent webhook event isTest id now with
  | error e => exact rfl
  | ok outbox =>
    have hp : outbox.status = .pending := (valid_of_created hc).2.2.1
    simp only [Client.create, Client.post, Client.update, Prog.await_bind, Prog.ret_bind, Prog.follows_await]
    refine ⟨rfl, fun now => ⟨⟨rfl, canRetry_of_pending hp⟩, fun _ => ⟨trivial, fun a => ?_⟩⟩⟩
    by_cases hok : a.status = 200 ∨ a.status = 201
    · rw [if_pos hok]
      exact ⟨(if_pos hok).symm, fun now => rfl⟩
    · rw [if_neg hok]
      exact ⟨(if_neg hok).symm, fun now => rfl⟩

theorem sendAll_follows {webhooks : List (Webhook × String)} {event : Event} {isTest : Bool} :
    (SendEventToWebhooks hmac webhooks event isTest now).Follows (rules fun ph _ => ph.flying = none)
      (Call.sendBatch webhooks event isTest now).start := by
  simp only [SendEventToWebhooks, Call.start, Call.created]
  cases hc : createAll event isTest now webhooks with
  | error e => exact rfl
  | ok outboxEvents =>
    simp only [Client.createBatch, Prog.await_bind, Prog.ret_bind, Prog.follows_await]
    refine ⟨rfl, fun now => ?_⟩
    refine rules_bind (sendBatch_follows outboxEvents fun r hr => (createAll_created hc r hr).2.1) ?_
    rintro ph l ⟨now, rfl⟩
    exact rfl

/-- `RetryOutboxEvent` takes the first record held, and leaves the others. -/
theorem retry_follows : (RetryOutboxEvent hmac r now).Follows (rules fun ph res =>
    ph.flying = none ∧ ∀ r' now', res = .ok (r', now') → ph = .holding held now') (.holding (r :: held) now) := by
  unfold RetryOutboxEvent
  by_cases hcan : CanRetryOutboxEvent r now
  · rw [if_pos hcan]
    simp only [Client.post, Client.update, Prog.await_bind, Prog.ret_bind, Prog.follows_await]
    refine ⟨⟨rfl, hcan⟩, fun _ => ⟨trivial, fun a => ?_⟩⟩
    by_cases hok : a.status = 200 ∨ a.status = 201
    · rw [if_pos hok]
      refine ⟨(if_pos hok).symm, fun now => ⟨rfl, fun r' now' h => ?_⟩⟩
      cases h; rfl
    · rw [if_neg hok]
      refine ⟨(if_neg hok).symm, fun now => ⟨rfl, fun r' now' h => ?_⟩⟩
      cases h; rfl
  · rw [if_neg hcan]
    exact ⟨rfl, fun r' now' h => by cases h⟩

theorem retryAll_follows : ∀ {now : ℕ}, (retryAll hmac held now).Follows (rules fun ph _ => ph.flying = none)
    (.holding held now) := by
  induction held with
  | nil => exact rfl
  | cons r held ih =>
    intro now
    unfold retryAll
    refine rules_bind retry_follows ?_
    rintro ph res ⟨hfly, hok⟩
    cases res with
    | error e => exact hfly
    | ok res =>
      obtain ⟨r', now'⟩ := res
      rw [hok r' now' rfl]
      exact ih

/-- **Every call keeps to the protocol.** -/
theorem prog_follows (x : Call) : (prog hmac x).Follows protocol x.start := by
  cases x with
  | send webhook event isTest id now => exact rules_bind send_follows fun ph r h => h
  | sendBatch webhooks event isTest now => exact rules_bind sendAll_follows fun ph r h => h
  | retry outbox now => exact rules_bind retry_follows fun ph r h => h.1
  | job =>
    have hjob : (runJob hmac).Follows (rules fun ph _ => ph.flying = none) .listing :=
      ⟨trivial, fun r => retryAll_follows⟩
    exact rules_bind hjob fun ph r h => h

end Follows

end NodeToolkit.Outbox
