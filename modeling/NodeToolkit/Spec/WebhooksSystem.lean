import NodeToolkit.Async.Layers
import NodeToolkit.Spec.EventsBroker
import NodeToolkit.Spec.WebhooksManager

/-!
# The webhooks component in its system

`WebhooksManagerInitializer.Init` registers `AllEventsHandler` with the events broker and the retry job with
the scheduler. Here the broker in memory, the manager with authorization and the job run together over
one state: wherever the broker awaits this handler, the code of the handler runs over the repositories.

All handlers are registered at the start, so the calls are publications, passes that retry failed
events, operations of the manager and runs of the job.
-/

namespace NodeToolkit

open Async

/-- The text of an exception. -/
def Exception.text : Exception → String
  | .validation e => e.message
  | .notFound e => e.message
  | .authorization e => e.message
  | .developer e => e.message
  | .typeError => "Cannot use 'in' operator"

namespace WebhooksSystem

abbrev Payload : Type := List (String × Json)

/-- The event as the webhooks component sees it. -/
def toEvent (event : EventsBroker.Event Payload) : Event :=
  ⟨event.eventId, event.occurredAt, event.name, event.payload⟩

/-- `AllEventsHandler`, as the broker sees it. -/
def AllEventsHandler : EventsBroker.Handler := ⟨"[webhooks manager] AllEventsHandler", some 0, false⟩

structure State where
  broker : EventsBroker.Broker Payload
  repositories : Webhooks.Repositories

/-- Registrations one after another, of handlers for the events of a name and for all. A registration
that is refused changes nothing. -/
def registerAll (broker : EventsBroker.Broker Payload) :
    List (EventsBroker.EventHandler ⊕ EventsBroker.Handler) → EventsBroker.Broker Payload
  | [] => broker
  | .inl handler :: handlers => registerAll (broker.registerEventHandler handler).1 handlers
  | .inr handler :: handlers => registerAll (broker.registerUniversalEventHandler handler).1 handlers

/-- `WebhooksManagerInitializer.Init`. -/
def init (broker : EventsBroker.Broker Payload) : EventsBroker.Broker Payload × Except DeveloperException Unit :=
  broker.registerUniversalEventHandler AllEventsHandler

/-- The system after its start: registrations, `Init`, and more registrations. -/
def start (before after : List (EventsBroker.EventHandler ⊕ EventsBroker.Handler)) : State :=
  ⟨registerAll (init (registerAll .empty before)).1 after, .empty⟩

inductive Cmd where
  | broker (c : EventsBroker.Cmd Payload)
  | settled (v : EventsBroker.Invocation Payload) (error : Option String)
  | randomUUIDs
  | repositories (c : Webhooks.Cmd)

@[reducible] def Resp : Cmd → Type
  | .broker c => EventsBroker.Resp c
  | .settled _ _ => Option String
  | .randomUUIDs => ℕ → String
  | .repositories c => Webhooks.Resp c

/-- What the world chooses at a step. -/
structure Choice where
  broker : EventsBroker.Choice
  repositories : Webhooks.Choice
  ids : ℕ → String

variable (protocol : Webhooks.Protocols) (hmac : String → String → String) (uuid : ℕ → String)

def exec (i : Choice) (s : State) : (c : Cmd) → State × Resp c
  | .broker c =>
    ({ s with broker := (EventsBroker.exec uuid i.broker s.broker c).1 }, (EventsBroker.exec uuid i.broker s.broker c).2)
  | .settled v error => ({ s with broker := s.broker.log (.settled v error) }, error)
  | .randomUUIDs => (s, i.ids)
  | .repositories c =>
    ({ s with repositories := (Webhooks.exec i.repositories s.repositories c).1 },
      (Webhooks.exec i.repositories s.repositories c).2)

abbrev Client (α : Type) : Type := Prog Resp α

/-- A function over the repositories. -/
def Client.repositories {α : Type} (p : Webhooks.Client α) : Client α := p.embed .repositories fun _ r => r

/-- What the broker catches of a handling. -/
def caught : Except Exception Unit → Option String
  | .error e => some e.text
  | .ok () => none

/-- The broker awaits `AllEventsHandler.handle`. -/
def awaitHandle (v : EventsBroker.Invocation Payload) : Client (Option String) := do
  let ids ← .await .randomUUIDs .ret
  let result ← Client.repositories (Webhooks.handle hmac (toEvent v.event) ids)
  .await (.settled v (caught result)) .ret

/-- What the broker does, with this handler's own code. -/
def carryOut : (c : EventsBroker.Cmd Payload) → Client (EventsBroker.Resp c)
  | .settled v =>
    if v.handlerId = AllEventsHandler.id then awaitHandle hmac v else .await (.broker (.settled v)) .ret
  | c => .await (.broker c) .ret

inductive Call where
  | publish (event : EventsBroker.Event Payload) (session : String)
  | retryFailedEvents
  | operate (x : Webhooks.Operation)
  | retryOutboxEvents

inductive Reply where
  | broker (r : EventsBroker.Reply)
  | operated (r : Webhooks.Reply)
  | retried (r : Except ValidationException Unit)

def prog : Call → Client Reply
  | .publish event session => do
    let r ← (EventsBroker.prog (.publish event session)).interp (carryOut hmac)
    return .broker r
  | .retryFailedEvents => do
    let r ← (EventsBroker.prog .retryFailedEvents).interp (carryOut hmac)
    return .broker r
  | .operate x => do
    let r ← Client.repositories (Webhooks.operate protocol hmac x)
    return .operated r
  | .retryOutboxEvents => do
    let r ← Client.repositories (Webhooks.Client.outbox (Outbox.runJob hmac))
    return .retried r

/-- Any number of calls. -/
def machine : Machine Resp State Choice Empty Call Reply where
  exec := exec uuid
  env := fun e _ => e.elim
  enter := fun _ s => s
  prog := prog protocol hmac

end WebhooksSystem

end NodeToolkit
