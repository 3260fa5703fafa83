import Mathlib.Data.List.Infix
import NodeToolkit.Spec.Webhooks

/-!
# The webhooks manager with authorization

`WebhooksManagerAuthorizationAndLoggerDecorator`: every operation first passes `Authorize`,
and those on one webhook or outbox event then compare its assignee with the user of the
session. The logs are left out.
-/

namespace NodeToolkit

open Async

namespace WebhooksPermissions

def CreateWebhook : String := "webhooks/write/create"
def EditWebhook : String := "webhooks/write/edit"
def DeleteWebhook : String := "webhooks/write/delete"
def EnableWebhook : String := "webhooks/write/enable"
def DisableWebhook : String := "webhooks/write/disable"
def TestWebhook : String := "webhooks/write/test"
def GetWebhook : String := "webhooks/read/one"
def GetEvents : String := "webhooks/read/events"
def GetOutboxEvent : String := "webhooks/read/outbox-event"
def GetOutboxEvents : String := "webhooks/read/outbox-events"

end WebhooksPermissions

namespace Webhooks

/-- The documentation of the events, by name. -/
def SupportedEvents : List (String × Json) :=
  [("test", .object
    [("eventId", .string "[STRING] represent the event id"),
      ("occurredAt", .string "[ISO_STRING_DATE] represent the event occurred at"),
      ("name", .string "[STRING] represent the event name"),
      ("payload", .object [("testAttribute", .string "[STRING] represent the some arbitrary data")])])]

structure GetEventsQuery where
  session : Session
  search : Option String

structure GetEventsQueryResponse where
  names : List String
  docs : List (String × Json)

/-- `GetEventsQueryHandler.handle`. -/
def getEvents (query : GetEventsQuery) : GetEventsQueryResponse :=
  let found := SupportedEvents.filter fun e =>
    match query.search with
    | none => true
    | some search => search = "" ∨ search.toLower.toList <:+: e.1.toLower.toList
  ⟨found.map Prod.fst, found⟩

/-- A query for a list, which the facade does not implement. -/
structure ListQuery where
  session : Session

def Thrown.exception : Thrown → Exception
  | .typeError => .typeError
  | .developer e => .developer e
  | .authorization e => .authorization e

/-- A method with one argument, under `@Authorize(permission)`. -/
def authorized {A α : Type} (permission : String) (session : A → Session)
    (method : A → Client (Except Exception α)) (command : A) : Client (Except Exception α) :=
  match Authorize permission (fun a => some (.session (session a))) (fun _ => method command) [command] with
  | .threw e => return .error (Thrown.exception e)
  | .ran result => result

def notAllowed (record : String) : Exception :=
  .authorization (.make ("You are not allowed to access this " ++ record))

def assertWebhookAccessPossiblity (payload : IdCommand) : Client (Except Exception Unit) := do
  let result ← getWebhook payload
  match result with
  | .error e => return .error e
  | .ok webhook =>
    if webhook.assigneeId ≠ payload.session.user.id then return .error (notAllowed "webhook")
    else return .ok ()

/-- A method that is called once the access has been checked. -/
def accessed {α : Type} (payload : IdCommand) (method : Client (Except Exception α)) :
    Client (Except Exception α) := do
  let access ← assertWebhookAccessPossiblity payload
  match access with
  | .error e => return .error e
  | .ok () => method

namespace Decorator

variable (protocol : Protocols) (hmac : String → String → String)

def createWebhook (command : CreateWebhookCommand) (draft : Draft) : Client (Except Exception String) :=
  authorized WebhooksPermissions.CreateWebhook CreateWebhookCommand.session
    (fun command => Webhooks.createWebhook protocol { command with assigneeId := command.session.user.id } draft)
    command

def deleteWebhook (command : IdCommand) : Client (Except Exception String) :=
  authorized WebhooksPermissions.DeleteWebhook IdCommand.session
    (fun command => accessed command (Webhooks.deleteWebhook command)) command

def editWebhook (command : EditWebhookCommand) : Client (Except Exception String) :=
  authorized WebhooksPermissions.EditWebhook (fun command => command.session)
    (fun command => accessed command.toIdCommand (Webhooks.editWebhook protocol command)) command

def enableWebhook (command : IdCommand) : Client (Except Exception String) :=
  authorized WebhooksPermissions.EnableWebhook IdCommand.session
    (fun command => accessed command (Webhooks.enableWebhook command)) command

def disableWebhook (command : IdCommand) : Client (Except Exception String) :=
  authorized WebhooksPermissions.DisableWebhook IdCommand.session
    (fun command => accessed command (Webhooks.disableWebhook command)) command

def testWebhook (command : IdCommand) (drafts : ℕ → TestDraft) : Client (Except Exception (List String)) :=
  authorized WebhooksPermissions.TestWebhook IdCommand.session
    (fun command => accessed command (Webhooks.testWebhook hmac command drafts)) command

def getWebhook (query : IdCommand) : Client (Except Exception Webhook) :=
  authorized WebhooksPermissions.GetWebhook IdCommand.session
    (fun query => do
      let result ← Webhooks.getWebhook query
      match result with
      | .error e => return .error e
      | .ok webhook =>
        if webhook.assigneeId ≠ query.session.user.id then return .error (notAllowed "webhook")
        else return .ok webhook)
    query

def getWebhooks (query : ListQuery) : Client (Except Exception Unit) :=
  authorized WebhooksPermissions.GetWebhook ListQuery.session
    (fun _ => return .error (notImplemented "this use case is not implemented yet")) query

def getEvents (query : GetEventsQuery) : Client (Except Exception GetEventsQueryResponse) :=
  authorized WebhooksPermissions.GetEvents GetEventsQuery.session
    (fun query => return .ok (Webhooks.getEvents query)) query

def getOutboxEvent (query : IdCommand) : Client (Except Exception OutboxEvent) :=
  authorized WebhooksPermissions.GetOutboxEvent IdCommand.session
    (fun query => do
      let result ← Webhooks.getOutboxEvent query
      match result with
      | .error e => return .error e
      | .ok event =>
        if event.assigneeId ≠ query.session.user.id then return .error (notAllowed "outbox event")
        else return .ok event)
    query

def getOutboxEvents (query : ListQuery) : Client (Except Exception Unit) :=
  authorized WebhooksPermissions.GetOutboxEvents ListQuery.session
    (fun _ => return .error (notImplemented "this use case is not implemneted yet")) query

end Decorator

/-! ## The operations -/

inductive Operation where
  | createWebhook (command : CreateWebhookCommand) (draft : Draft)
  | deleteWebhook (command : IdCommand)
  | editWebhook (command : EditWebhookCommand)
  | enableWebhook (command : IdCommand)
  | disableWebhook (command : IdCommand)
  | testWebhook (command : IdCommand) (drafts : ℕ → TestDraft)
  | getWebhook (query : IdCommand)
  | getWebhooks (query : ListQuery)
  | getEvents (query : GetEventsQuery)
  | getOutboxEvent (query : IdCommand)
  | getOutboxEvents (query : ListQuery)

inductive Reply where
  | id (r : Except Exception String)
  | tested (r : Except Exception (List String))
  | webhook (r : Except Exception Webhook)
  | events (r : Except Exception GetEventsQueryResponse)
  | outboxEvent (r : Except Exception OutboxEvent)
  | list (r : Except Exception Unit)

variable (protocol : Protocols) (hmac : String → String → String)

def operate : Operation → Client Reply
  | .createWebhook command draft => return .id (← Decorator.createWebhook protocol command draft)
  | .deleteWebhook command => return .id (← Decorator.deleteWebhook command)
  | .editWebhook command => return .id (← Decorator.editWebhook protocol command)
  | .enableWebhook command => return .id (← Decorator.enableWebhook command)
  | .disableWebhook command => return .id (← Decorator.disableWebhook command)
  | .testWebhook command drafts => return .tested (← Decorator.testWebhook hmac command drafts)
  | .getWebhook query => return .webhook (← Decorator.getWebhook query)
  | .getWebhooks query => return .list (← Decorator.getWebhooks query)
  | .getEvents query => return .events (← Decorator.getEvents query)
  | .getOutboxEvent query => return .outboxEvent (← Decorator.getOutboxEvent query)
  | .getOutboxEvents query => return .list (← Decorator.getOutboxEvents query)

/-- Any number of operations over the repositories. -/
def manager : Machine Resp Repositories Choice Empty Operation Reply where
  exec := exec
  env := fun e _ => e.elim
  enter := fun _ s => s
  prog := operate protocol hmac

end Webhooks

end NodeToolkit
