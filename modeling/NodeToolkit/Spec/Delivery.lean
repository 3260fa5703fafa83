import NodeToolkit.Async.Pool
import NodeToolkit.Spec.Outbox

/-!
# Sending outbox events

The async functions of `send-webhook-event.ts` and the job that retries, over
`InMemoryOutboxEventRepository` and the web. A POST is two steps, the sending and
the answer; the answer is whatever the other side chooses.

The commands also carry what the program does not send: a POST carries the record it is
made for, so that POSTs can be counted. The state keeps the latest clock reading.
-/

namespace NodeToolkit

open Async

/-- The body and the headers of a POST. -/
structure Post where
  url : String
  body : Event
  headers : List (String × String)

/-- The outbox events stored, the POSTs made with the id of the record each was made for, and the
latest clock reading. -/
structure Outbox where
  map : OMap String OutboxEvent
  posts : List (String × Post)
  clock : ℕ

namespace Outbox

def empty : Outbox := ⟨.empty, [], 0⟩

/-- The number of POSTs made for a record. -/
def postsOf (s : Outbox) (id : String) : ℕ := s.posts.countP fun e => e.1 = id

inductive Cmd where
  | create (outbox : OutboxEvent)
  | createBatch (outboxEvents : List OutboxEvent)
  | update (outbox : OutboxEvent)
  | allToRetry
  | post (outbox : OutboxEvent) (post : Post)
  | answer

/-- An answer to a POST, with the clock reading when the caller goes on. -/
structure Answer where
  status : ℕ
  response : Json
  now : ℕ

/-- The answers; a number is the clock reading when the caller goes on. -/
@[reducible] def Resp : Cmd → Type
  | .create _ => ℕ
  | .createBatch _ => ℕ
  | .update _ => ℕ
  | .allToRetry => List OutboxEvent × ℕ
  | .post _ _ => Unit
  | .answer => Answer

/-- What the world chooses at a step: the clock readings at the command and after it, and the answer
to a POST. -/
structure Choice where
  now : ℕ
  resumed : ℕ
  status : ℕ
  response : Json

/-- `InMemoryOutboxEventRepository` and the web. -/
def exec (i : Choice) (s : Outbox) : (c : Cmd) → Outbox × Resp c
  | .create outbox => (⟨s.map.set outbox.id outbox, s.posts, max s.clock i.resumed⟩, i.resumed)
  | .createBatch outboxEvents =>
    (⟨outboxEvents.foldl (fun m event => m.set event.id event) s.map, s.posts, max s.clock i.resumed⟩, i.resumed)
  | .update outbox => (⟨s.map.set outbox.id outbox, s.posts, max s.clock i.resumed⟩, i.resumed)
  | .allToRetry =>
    (⟨s.map, s.posts, max s.clock i.resumed⟩,
      (s.map.values.filter fun event => CanRetryOutboxEvent event i.now), i.resumed)
  | .post outbox post => (⟨s.map, s.posts ++ [(outbox.id, post)], max s.clock i.now⟩, ())
  | .answer => (⟨s.map, s.posts, max s.clock i.resumed⟩, ⟨i.status, i.response, i.resumed⟩)

abbrev Client (α : Type) : Type := Prog Resp α

namespace Client

def create (outbox : OutboxEvent) : Client ℕ := .await (.create outbox) .ret

def createBatch (outboxEvents : List OutboxEvent) : Client ℕ := .await (.createBatch outboxEvents) .ret

def update (outbox : OutboxEvent) : Client ℕ := .await (.update outbox) .ret

def allToRetry : Client (List OutboxEvent × ℕ) := .await .allToRetry .ret

/-- `restClient.post(...)`, made for a record. -/
def post (outbox : OutboxEvent) (p : Post) : Client Answer := .await (.post outbox p) fun _ => .await .answer .ret

end Client

variable (hmac : String → String → String)

/-- The headers of a delivery. -/
def deliveryHeaders (webhookId secret : String) (event : Event) : List (String × String) :=
  [("X-Webhook-Id", webhookId), ("X-Webhook-Signature", GenerateSignature hmac secret event),
    ("X-Webhook-Trigger", event.name), ("Content-Type", "application/json")]

/-- The POST that is made for a stored record. -/
def delivery (outbox : OutboxEvent) : Post :=
  ⟨outbox.deliveryUrl, outbox.event, deliveryHeaders hmac outbox.webhookId outbox.webhookSecret outbox.event⟩

def SendEventToWebhook (webhook : Webhook) (event : Event) (isTest : Bool) (id : String) (now : ℕ) :
    Client (Except ValidationException OutboxEvent) :=
  match CreateOutboxEvent webhook event isTest id now with
  | .error e => return .error e
  | .ok outbox => do
    let _ ← Client.create outbox
    let answer ← Client.post outbox
      ⟨webhook.deliveryUrl, event, deliveryHeaders hmac webhook.id webhook.secret event⟩
    if answer.status = 200 ∨ answer.status = 201 then do
      let delivered := OutboxEventDelivered outbox answer.status answer.response answer.now
      let _ ← Client.update delivered
      return .ok delivered
    else do
      let failed := OutboxEventDeliveryFailed outbox answer.status answer.response answer.now
      let _ ← Client.update failed
      return .ok failed

/-- The loop of `CreateBatchOutboxEvents`: each webhook comes with the id generated for it. -/
def createAll (event : Event) (isTest : Bool) (now : ℕ) :
    List (Webhook × String) → Except ValidationException (List OutboxEvent)
  | [] => .ok []
  | (webhook, id) :: webhooks => do
    let outbox ← CreateOutboxEvent webhook event isTest id now
    let outboxEvents ← createAll event isTest now webhooks
    return outbox :: outboxEvents

/-- `SendBatchOutboxEvents`. -/
def SendBatchOutboxEvents : List OutboxEvent → Client (List OutboxEvent)
  | [] => return []
  | outbox :: outboxEvents => do
    let answer ← Client.post outbox (delivery hmac outbox)
    let result := if answer.status = 200 ∨ answer.status = 201 then
        OutboxEventDelivered outbox answer.status answer.response answer.now
      else OutboxEventDeliveryFailed outbox answer.status answer.response answer.now
    let _ ← Client.update result
    let results ← SendBatchOutboxEvents outboxEvents
    return result :: results

/-- `SendEventToWebhooks`, with `CreateBatchOutboxEvents`. -/
def SendEventToWebhooks (webhooks : List (Webhook × String)) (event : Event) (isTest : Bool) (now : ℕ) :
    Client (Except ValidationException (List OutboxEvent)) :=
  match createAll event isTest now webhooks with
  | .error e => return .error e
  | .ok outboxEvents => do
    let _ ← Client.createBatch outboxEvents
    let results ← SendBatchOutboxEvents hmac outboxEvents
    return .ok results

/-- `RetryOutboxEvent`, with the clock reading at its end. -/
def RetryOutboxEvent (outbox : OutboxEvent) (now : ℕ) : Client (Except ValidationException (OutboxEvent × ℕ)) :=
  if CanRetryOutboxEvent outbox now then do
    let answer ← Client.post outbox (delivery hmac outbox)
    if answer.status = 200 ∨ answer.status = 201 then do
      let delivered := OutboxEventDelivered outbox answer.status answer.response answer.now
      let now ← Client.update delivered
      return .ok (delivered, now)
    else do
      let failed := OutboxEventDeliveryFailed outbox answer.status answer.response answer.now
      let now ← Client.update failed
      return .ok (failed, now)
  else
    return .error (.make "CANNOT_RETRY_OUTBOX_EVENT" ("outbox event with id " ++ outbox.id ++ " cannot be retried")
      [("outboxEventId", outbox.id)])

/-- The loop of the job. -/
def retryAll : List OutboxEvent → ℕ → Client (Except ValidationException Unit)
  | [], _ => return .ok ()
  | event :: events, now => do
    let result ← RetryOutboxEvent hmac event now
    match result with
    | .error e => return .error e
    | .ok (_, now) => retryAll events now

/-- `RetryOutboxEventsScheduledJob.run`. -/
def runJob : Client (Except ValidationException Unit) := do
  let (events, now) ← Client.allToRetry
  retryAll hmac events now

/-- The calls, with the clock reading at the call and the generated ids. -/
inductive Call where
  | send (webhook : Webhook) (event : Event) (isTest : Bool) (id : String) (now : ℕ)
  | sendBatch (webhooks : List (Webhook × String)) (event : Event) (isTest : Bool) (now : ℕ)
  | retry (outbox : OutboxEvent) (now : ℕ)
  | job

inductive Reply where
  | sent (r : Except ValidationException OutboxEvent)
  | sentBatch (r : Except ValidationException (List OutboxEvent))
  | retried (r : Except ValidationException (OutboxEvent × ℕ))
  | done (r : Except ValidationException Unit)

def prog : Call → Client Reply
  | .send webhook event isTest id now => do
    let r ← SendEventToWebhook hmac webhook event isTest id now
    return .sent r
  | .sendBatch webhooks event isTest now => do
    let r ← SendEventToWebhooks hmac webhooks event isTest now
    return .sentBatch r
  | .retry outbox now => do
    let r ← RetryOutboxEvent hmac outbox now
    return .retried r
  | .job => do
    let r ← runJob hmac
    return .done r

/-- The clock reading at a call. -/
def Call.now : Call → ℕ
  | .send _ _ _ _ now => now
  | .sendBatch _ _ _ now => now
  | .retry _ now => now
  | .job => 0

/-- Any number of calls over one repository. -/
def machine : Machine Resp Outbox Choice Empty Call Reply where
  exec := exec
  env := fun e _ => e.elim
  enter := fun x s => ⟨s.map, s.posts, max s.clock x.now⟩
  prog := prog hmac

end Outbox

end NodeToolkit
