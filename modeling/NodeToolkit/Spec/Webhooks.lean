import NodeToolkit.Async.Alone
import NodeToolkit.Spec.Authorize
import NodeToolkit.Spec.Delivery

/-!
# The webhooks manager

The records and functions of `webhook.ts`, the in-memory repositories of webhooks and outbox
events, the use cases behind `WebhooksManagerFacade`, and the handler that fans events out.
A use case is an async function over both repositories; generated ids and the clock readings
made before the first await come with the call.
-/

namespace NodeToolkit

open Async

structure NotFoundException where
  code : String
  message : String
  payload : List (String × String)
deriving DecidableEq

inductive Entity where
  | WEBHOOK
  | OUTBOX_EVENT

/-- `new NotFoundException(entity, message, payload)`. -/
def NotFoundException.make (entity : Entity) (message : String) (payload : List (String × String)) :
    NotFoundException :=
  match entity with
  | .WEBHOOK => ⟨BuildExceptionCode "NOT_FOUND", message, payload⟩
  | .OUTBOX_EVENT => ⟨BuildExceptionCode "OUTBOX_EVENT.NOT_FOUND", message, payload⟩

/-- What a use case throws. -/
inductive Exception where
  | validation (e : ValidationException)
  | notFound (e : NotFoundException)
  | authorization (e : AuthorizationException)
  | developer (e : DeveloperException)
  | typeError
deriving DecidableEq

def EventNames : List String := ["test"]

namespace Webhooks

/-- `new URL(url).protocol`, or `none` when the constructor throws. -/
abbrev Protocols : Type := String → Option String

def IsValidHttpUrl (protocol : Protocols) (url : String) (secure : Bool) : Bool :=
  match protocol url with
  | none => false
  | some p =>
    if p ≠ "http:" ∧ p ≠ "https:" then false
    else if secure ∧ p ≠ "https:" then false
    else true

/-- The loop that checks the events. -/
def checkEvents : List String → Except ValidationException Unit
  | [] => .ok ()
  | event :: events =>
    if event ∈ EventNames then checkEvents events
    else .error (.make "INVALID_EVENT" ("Event " ++ event ++ " is invalid") [("event", event)])

/-- The checks that creating and editing a webhook have in common. -/
def checkArguments (protocol : Protocols) (events : List String) (deliveryUrl : String) :
    Except ValidationException Unit :=
  if events.length = 0 then .error (.make "EMPTY_EVENTS" "Events cannot be empty" [])
  else
    match checkEvents events with
    | .error e => .error e
    | .ok () =>
      if IsValidHttpUrl protocol deliveryUrl true then .ok ()
      else .error (.make "INVALID_DELIVERY_URL" "The delivery url should be a valid https url" [])

def EditWebhook (protocol : Protocols) (webhook : Webhook) (events : List String) (deliveryUrl : String)
    (now : ℕ) : Except ValidationException Webhook :=
  match checkArguments protocol events deliveryUrl with
  | .error e => .error e
  | .ok () => .ok { webhook with events, deliveryUrl, updatedAt := now }

def DisableWebhook (webhook : Webhook) (now : ℕ) : Except ValidationException Webhook :=
  if ¬ webhook.isActive then
    .error (.make "WEBHOOK_NOT_ACTIVE" ("webhook " ++ webhook.id ++ " is already disabled") [("id", webhook.id)])
  else .ok { webhook with isActive := false, updatedAt := now }

def EnableWebhook (webhook : Webhook) (now : ℕ) : Except ValidationException Webhook :=
  if webhook.isActive then
    .error (.make "WEBHOOK_ACTIVE" ("webhook " ++ webhook.id ++ " is already enabled") [("id", webhook.id)])
  else .ok { webhook with isActive := true, updatedAt := now }

/-! ## The repositories -/

/-- `InMemoryWebhookRepository` and the outbox. -/
structure Repositories where
  webhooks : OMap String Webhook
  outbox : Outbox

def Repositories.empty : Repositories := ⟨.empty, .empty⟩

inductive Cmd where
  | generateUnique
  | create (webhook : Webhook)
  | update (webhook : Webhook)
  | delete (webhook : Webhook)
  | ofId (id : String)
  | ofEvent (event : String)
  | outbox (c : Outbox.Cmd)
  | outboxOfId (id : String)

/-- The answers; a number is the clock reading when the caller goes on. -/
@[reducible] def Resp : Cmd → Type
  | .generateUnique => String
  | .create _ => Unit
  | .update _ => Unit
  | .delete _ => Unit
  | .ofId _ => Option Webhook × ℕ
  | .ofEvent _ => List Webhook × ℕ
  | .outbox c => Outbox.Resp c
  | .outboxOfId _ => Option OutboxEvent

/-- What the world chooses at a step: a random text, and what it chooses for the outbox. -/
structure Choice extends Outbox.Choice where
  unique : String

def exec (i : Choice) (s : Repositories) : (c : Cmd) → Repositories × Resp c
  | .generateUnique => (s, i.unique)
  | .create webhook => ({ s with webhooks := s.webhooks.set webhook.id webhook }, ())
  | .update webhook => ({ s with webhooks := s.webhooks.set webhook.id webhook }, ())
  | .delete webhook => ({ s with webhooks := s.webhooks.erase webhook.id }, ())
  | .ofId id => (s, s.webhooks.get id, i.resumed)
  | .ofEvent event => (s, s.webhooks.values.filter (fun webhook => event ∈ webhook.events), i.resumed)
  | .outbox c =>
    ({ s with outbox := (Outbox.exec i.toChoice s.outbox c).1 }, (Outbox.exec i.toChoice s.outbox c).2)
  | .outboxOfId id => (s, s.outbox.map.get id)

abbrev Client (α : Type) : Type := Prog Resp α

namespace Client

def generateUnique : Client String := .await .generateUnique .ret

def create (webhook : Webhook) : Client Unit := .await (.create webhook) .ret

def update (webhook : Webhook) : Client Unit := .await (.update webhook) .ret

def delete (webhook : Webhook) : Client Unit := .await (.delete webhook) .ret

def ofId (id : String) : Client (Option Webhook × ℕ) := .await (.ofId id) .ret

def ofEvent (event : String) : Client (List Webhook × ℕ) := .await (.ofEvent event) .ret

def outboxOfId (id : String) : Client (Option OutboxEvent) := .await (.outboxOfId id) .ret

/-- A function over the outbox. -/
def outbox {α : Type} (p : Outbox.Client α) : Client α := p.embed .outbox fun _ r => r

end Client

/-! ## The use cases -/

/-- A command on a stored webhook. -/
structure IdCommand where
  session : Session
  id : String

structure EditWebhookCommand extends IdCommand where
  deliveryUrl : String
  events : List String

structure CreateWebhookCommand where
  session : Session
  assigneeId : String
  deliveryUrl : String
  events : List String

/-- What a creation generates and reads before it awaits. -/
structure Draft where
  id : String
  createdAt : ℕ
  updatedAt : ℕ

variable (protocol : Protocols) (hmac : String → String → String)

def CreateWebhook (assigneeId deliveryUrl : String) (events : List String) (createdBy : String) (draft : Draft) :
    Client (Except ValidationException Webhook) :=
  match checkArguments protocol events deliveryUrl with
  | .error e => return .error e
  | .ok () => do
    let secret ← Client.generateUnique
    return .ok
      { id := draft.id
        assigneeId
        deliveryUrl
        events
        createdBy
        createdAt := draft.createdAt
        updatedAt := draft.updatedAt
        isActive := true
        secret }

def createWebhook (command : CreateWebhookCommand) (draft : Draft) : Client (Except Exception String) := do
  let result ← CreateWebhook protocol command.assigneeId command.deliveryUrl command.events
    command.session.user.id draft
  match result with
  | .error e => return .error (.validation e)
  | .ok webhook => do
    Client.create webhook
    return .ok webhook.id

def webhookNotFound (id : String) : Exception :=
  .notFound (.make .WEBHOOK ("Webhook with id " ++ id ++ " not found") [("id", id)])

def editWebhook (command : EditWebhookCommand) : Client (Except Exception String) := do
  let (webhook, now) ← Client.ofId command.id
  match webhook with
  | none => return .error (webhookNotFound command.id)
  | some webhook =>
    match EditWebhook protocol webhook command.events command.deliveryUrl now with
    | .error e => return .error (.validation e)
    | .ok edited => do
      Client.update edited
      return .ok webhook.id

def deleteWebhook (command : IdCommand) : Client (Except Exception String) := do
  let (webhook, _) ← Client.ofId command.id
  match webhook with
  | none => return .error (webhookNotFound command.id)
  | some webhook => do
    Client.delete webhook
    return .ok command.id

def enableWebhook (command : IdCommand) : Client (Except Exception String) := do
  let (webhook, now) ← Client.ofId command.id
  match webhook with
  | none => return .error (webhookNotFound command.id)
  | some webhook =>
    match EnableWebhook webhook now with
    | .error e => return .error (.validation e)
    | .ok enabled => do
      Client.update enabled
      return .ok command.id

def disableWebhook (command : IdCommand) : Client (Except Exception String) := do
  let (webhook, now) ← Client.ofId command.id
  match webhook with
  | none => return .error (webhookNotFound command.id)
  | some webhook =>
    match DisableWebhook webhook now with
    | .error e => return .error (.validation e)
    | .ok disabled => do
      Client.update disabled
      return .ok command.id

/-- What sending a test event generates: the event, the id of its record, and the clock reading. -/
structure TestDraft where
  event : Event
  id : String
  now : ℕ

/-- The loop over the events of a webhook. -/
def testAll (webhook : Webhook) : List String → (ℕ → TestDraft) → Client (Except Exception (List String))
  | [], _ => return .ok []
  | eventName :: eventNames, drafts => do
    let testEvent := { (drafts 0).event with name := eventName }
    let result ← Client.outbox
      (Outbox.SendEventToWebhook hmac webhook testEvent true (drafts 0).id (drafts 0).now)
    match result with
    | .error e => return .error (.validation e)
    | .ok outboxEvent => do
      let result ← testAll webhook eventNames fun n => drafts (n + 1)
      match result with
      | .error e => return .error e
      | .ok outboxEvents => return .ok (outboxEvent.id :: outboxEvents)

def testWebhook (command : IdCommand) (drafts : ℕ → TestDraft) : Client (Except Exception (List String)) := do
  let (webhook, _) ← Client.ofId command.id
  match webhook with
  | none => return .error (webhookNotFound command.id)
  | some webhook => testAll hmac webhook webhook.events drafts

def getWebhook (query : IdCommand) : Client (Except Exception Webhook) := do
  let (webhook, _) ← Client.ofId query.id
  match webhook with
  | none => return .error (webhookNotFound query.id)
  | some webhook => return .ok webhook

def getOutboxEvent (query : IdCommand) : Client (Except Exception OutboxEvent) := do
  let outbox ← Client.outboxOfId query.id
  match outbox with
  | none =>
    return .error (.notFound (.make .OUTBOX_EVENT ("Outbox event with id " ++ query.id ++ " not found")
      [("id", query.id)]))
  | some outbox => return .ok outbox

/-- `GetWebhooksQueryHandler.execute` and `GetOutboxEventsQueryHandler.execute`, each with its own text. -/
def notImplemented (message : String) : Exception := .developer (.make "NOT_IMPLEMENTED" message)

/-- The handler of every published event; `ids` are generated for the webhooks in turn. -/
def handle (event : Event) (ids : ℕ → String) : Client (Except Exception Unit) := do
  let (webhooks, now) ← Client.ofEvent event.name
  let result ← Client.outbox
    (Outbox.SendEventToWebhooks hmac (webhooks.mapIdx fun n webhook => (webhook, ids n)) event false now)
  match result with
  | .error e => return .error (.validation e)
  | .ok _ => return .ok ()

/-! ## The commands through the facade -/

inductive Command where
  | create (command : CreateWebhookCommand) (draft : Draft)
  | edit (command : EditWebhookCommand)
  | enable (command : IdCommand)
  | disable (command : IdCommand)
  | delete (command : IdCommand)

def prog : Command → Client (Except Exception String)
  | .create command draft => createWebhook protocol command draft
  | .edit command => editWebhook protocol command
  | .enable command => enableWebhook command
  | .disable command => disableWebhook command
  | .delete command => deleteWebhook command

/-- Any number of commands over the repositories. -/
def machine : Machine Resp Repositories Choice Empty Command (Except Exception String) where
  exec := exec
  env := fun e _ => e.elim
  enter := fun _ s => s
  prog := prog protocol

end Webhooks

end NodeToolkit
