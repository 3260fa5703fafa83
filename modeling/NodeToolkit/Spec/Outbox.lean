import NodeToolkit.Base.Json

/-!
# Outbox events

The records of `outbox-event.ts`, `webhook.ts` and `event.ts` and the functions that
make and change an outbox event. Instants are milliseconds since the epoch; a
function gets the clock reading and the generated id it uses as arguments.
-/

namespace NodeToolkit

structure Event where
  eventId : String
  occurredAt : ℕ
  name : String
  payload : List (String × Json)

/-- An event as `JSON.stringify` sees it. -/
def Event.toJson (event : Event) : Json :=
  .object [("eventId", .string event.eventId), ("occurredAt", .string (toISOString event.occurredAt)),
    ("name", .string event.name), ("payload", .object event.payload)]

structure Webhook where
  id : String
  assigneeId : String
  secret : String
  deliveryUrl : String
  events : List String
  isActive : Bool
  createdBy : String
  createdAt : ℕ
  updatedAt : ℕ

inductive OutboxStatus where
  | pending
  | delivered
  | failed
  | cancelled
deriving DecidableEq

structure OutboxEvent where
  id : String
  webhookId : String
  assigneeId : String
  webhookSecret : String
  deliveryUrl : String
  event : Event
  status : OutboxStatus
  nextTryAt : Option ℕ
  tries : ℕ
  firstTryAt : Option ℕ
  lastTryAt : Option ℕ
  lastStatusCode : Option ℕ
  lastResponse : Option String
  isTest : Bool
  createdAt : ℕ
  updatedAt : ℕ

/-- A validation exception of the webhooks component. -/
structure ValidationException where
  code : String
  message : String
  payload : List (String × String)
deriving DecidableEq

/-- `BuildExceptionCode`. -/
def BuildExceptionCode (suffix : String) : String := "WEBHOOKS." ++ suffix

def ValidationException.make (suffix message : String) (payload : List (String × String)) :
    ValidationException := ⟨BuildExceptionCode suffix, message, payload⟩

/-- `GenerateSignature`; `hmac secret text` is the hexadecimal HMAC-SHA256 of the crypto module. -/
def GenerateSignature (hmac : String → String → String) (secret : String) (payload : Event) : String :=
  hmac secret payload.toJson.stringify

def CreateOutboxEvent (webhook : Webhook) (event : Event) (isTest : Bool) (id : String) (now : ℕ) :
    Except ValidationException OutboxEvent :=
  -- `find` gives the name itself, and an empty name is falsy
  if (webhook.events.find? fun e => e = event.name).any fun e => e ≠ "" then
    .ok
      { id
        webhookId := webhook.id
        assigneeId := webhook.assigneeId
        deliveryUrl := webhook.deliveryUrl
        webhookSecret := webhook.secret
        event
        status := .pending
        nextTryAt := some now
        tries := 0
        firstTryAt := none
        lastTryAt := none
        lastStatusCode := none
        lastResponse := none
        isTest
        createdAt := now
        updatedAt := now }
  else
    .error (.make "WEBHOOK_EVENT_NOT_SUPPORTED"
      ("Webhook with id " ++ webhook.id ++ " does not support event " ++ event.name)
      [("webhookId", webhook.id), ("eventName", event.name)])

def OutboxEventDelivered (outbox : OutboxEvent) (status : ℕ) (response : Json) (now : ℕ) : OutboxEvent :=
  { outbox with
    tries := outbox.tries + 1
    status := .delivered
    firstTryAt := some (outbox.firstTryAt.getD now)
    lastTryAt := some now
    nextTryAt := none
    lastStatusCode := some status
    lastResponse := some response.stringify
    updatedAt := now }

def getNextTryAt (tries now : ℕ) : Option ℕ :=
  match tries with
  | 0 => some now
  | 1 => some (now + 1000 * 60 * 5)
  | 2 => some (now + 1000 * 60 * 30)
  | 3 => some (now + 1000 * 60 * 60 * 2)
  | 4 => some (now + 1000 * 60 * 60 * 6)
  | 5 => some (now + 1000 * 60 * 60 * 12)
  | 6 => some (now + 1000 * 60 * 60 * 24)
  | _ => none

def OutboxEventDeliveryFailed (outbox : OutboxEvent) (status : ℕ) (response : Json) (now : ℕ) : OutboxEvent :=
  let tries := outbox.tries + 1
  let nextTryAt := getNextTryAt tries now
  { outbox with
    tries
    status := if nextTryAt.isSome then .failed else .cancelled
    firstTryAt := some (outbox.firstTryAt.getD now)
    lastTryAt := some now
    nextTryAt
    lastStatusCode := some status
    lastResponse := some response.stringify
    updatedAt := now }

def MAX_RETRIES : ℕ := 7

def CanRetryOutboxEvent (outbox : OutboxEvent) (now : ℕ) : Bool :=
  match outbox.status with
  | .cancelled => false
  | .delivered => false
  | .pending => true
  | .failed =>
    let reachedMaxTries := MAX_RETRIES < outbox.tries
    let nextTryTimeHasPassed := ∃ nextTryAt ∈ outbox.nextTryAt, nextTryAt ≤ now
    ¬ reachedMaxTries ∧ nextTryTimeHasPassed

end NodeToolkit
