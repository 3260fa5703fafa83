import NodeToolkit.Async.Alone
import NodeToolkit.Spec.Exceptions

/-!
# The events broker in memory

`InMemoryEventsBroker` over `InMemoryFailedEventsRepository`. A handler is code of the application:
the broker knows its id and its config, and the world chooses when an invocation of it ends and
whether it throws. No handler is registered while a `publish` is in flight, so its loops go over
the handlers that are there when they start.

The broker also keeps what its code does not have: a number for each `publish`, and the `ledger` of all
invocations in the order in which they started and ended. Without them the runs of one handler for one
`publish` could not be told from those for another.
-/

namespace NodeToolkit

open Async

namespace EventsBroker

structure Event (P : Type) where
  eventId : String
  occurredAt : ℕ
  name : String
  payload : P
deriving DecidableEq

/-- A `UniversalEventHandler` with the values of its `config`. -/
structure Handler where
  id : String
  retries : Option ℕ
  disabled : Bool
deriving DecidableEq

structure EventHandler extends Handler where
  eventName : String
deriving DecidableEq

/-- `config().retries ?? 0`. -/
def Handler.maxRetries (handler : Handler) : ℕ := handler.retries.getD 0

structure FailedEvent (P : Type) where
  id : String
  event : Event P
  eventOccuredAt : ℕ
  handlerId : String
  handlerMaxRetries : ℕ
  sessionCorrelationId : String
  retries : ℕ
  lastError : String
  lastProcessingTryDate : ℕ
  processedSuccessfully : Bool

/-- A record with the number of the `publish` that made it. -/
structure Filed (P : Type) extends FailedEvent P where
  publication : ℕ

/-- An invocation of a handler for an event, on behalf of a `publish`. -/
structure Invocation (P : Type) where
  publication : ℕ
  handlerId : String
  event : Event P
  correlationId : String
deriving DecidableEq

inductive Entry (P : Type) where
  | started (v : Invocation P)
  | settled (v : Invocation P) (error : Option String)
deriving DecidableEq

structure Broker (P : Type) where
  universalEventHandlers : List Handler
  eventHandlers : OMap String (List EventHandler)
  failedEvents : OMap String (Filed P)
  /-- How many ids `crypto.randomUUID` has given out. -/
  generated : ℕ
  publications : ℕ
  ledger : List (Entry P)

def Broker.empty {P : Type} : Broker P := ⟨[], .empty, .empty, 0, 0, []⟩

variable {P : Type}

/-! ## Registering -/

def alreadyRegistered (id : String) : DeveloperException :=
  .make "EVENT_HANDLER_ALREADY_REGISTERED" ("There is already a handler registered with the id: " ++ id)

def Broker.registered (s : Broker P) (id : String) : Bool :=
  let foundInUniversal := (s.universalEventHandlers.find? fun h => h.id = id).isSome
  let foundInEventHandlers :=
    (s.eventHandlers.values.find? fun hs => (hs.find? fun h => h.id = id).isSome).isSome
  foundInUniversal || foundInEventHandlers

def Broker.registerEventHandler (s : Broker P) (handler : EventHandler) :
    Broker P × Except DeveloperException Unit :=
  if handler.disabled then (s, .ok ())
  else if s.registered handler.id then (s, .error (alreadyRegistered handler.id))
  else
    let eventHandlers :=
      if (s.eventHandlers.get handler.eventName).isNone then s.eventHandlers.set handler.eventName []
      else s.eventHandlers
    let handlers := (eventHandlers.get handler.eventName).getD []
    ({ s with eventHandlers := eventHandlers.set handler.eventName (handlers ++ [handler]) }, .ok ())

def Broker.registerUniversalEventHandler (s : Broker P) (handler : Handler) :
    Broker P × Except DeveloperException Unit :=
  if handler.disabled then (s, .ok ())
  else if s.registered handler.id then (s, .error (alreadyRegistered handler.id))
  else ({ s with universalEventHandlers := s.universalEventHandlers ++ [handler] }, .ok ())

/-! ## Publishing and retrying -/

def Broker.log (s : Broker P) (entry : Entry P) : Broker P := { s with ledger := s.ledger ++ [entry] }

/-- The record of an invocation that threw. -/
def failedEvent (id : String) (v : Invocation P) (maxRetries : ℕ) (error : String) (now : ℕ) : FailedEvent P where
  id
  event := v.event
  eventOccuredAt := v.event.occurredAt
  handlerId := v.handlerId
  handlerMaxRetries := maxRetries
  sessionCorrelationId := v.correlationId
  retries := 0
  lastError := error
  lastProcessingTryDate := now
  processedSuccessfully := false

/-- The ids of `findAllUnsuccessfullWithRetriesLessThanMax`; the records themselves are shared. -/
def Broker.unsuccessfull (s : Broker P) : List String :=
  let found := s.failedEvents.entries.filter fun e =>
    !e.2.processedSuccessfully && e.2.retries < e.2.handlerMaxRetries
  found.map Prod.fst

/-- The handler that a retry of the record finds. -/
def Broker.handlerOf (s : Broker P) (failed : FailedEvent P) : Option Handler :=
  let specific := (s.eventHandlers.get failed.event.name).bind fun hs => hs.find? fun h => h.id = failed.handlerId
  (specific.map EventHandler.toHandler).or (s.universalEventHandlers.find? fun h => h.id = failed.handlerId)

/-- A retry of a record up to the await of the handler. -/
def Broker.startRetry (s : Broker P) (id : String) (now : ℕ) : Broker P × Option (Invocation P) :=
  match s.failedEvents.get id with
  -- a pass holds the records of its list themselves, and none is ever removed
  | none => (s, none)
  | some failed =>
    match s.handlerOf failed.toFailedEvent with
    -- `continue`: the handler is not registered
    | none => (s, none)
    | some handler =>
      let v := ⟨failed.publication, handler.id, failed.event, failed.sessionCorrelationId⟩
      let failed := { failed with lastProcessingTryDate := now, retries := failed.retries + 1 }
      ({ s with failedEvents := s.failedEvents.set id failed }.log (.started v), some v)

/-- A retry of a record from the await of the handler on. -/
def Broker.endRetry (s : Broker P) (id : String) (error : Option String) : Broker P :=
  match s.failedEvents.get id with
  | none => s
  | some failed =>
    let failed :=
      match error with
      | none => { failed with processedSuccessfully := true }
      | some e => { failed with lastError := e }
    { s with failedEvents := s.failedEvents.set id failed }

/-- What is chosen outside: the clock reading, and what a handler throws. -/
structure Choice where
  now : ℕ
  error : Option String

inductive Cmd (P : Type) where
  | registerEventHandler (handler : EventHandler)
  | registerUniversalEventHandler (handler : Handler)
  | publication
  | universalEventHandlers
  | eventHandlers (name : String)
  | handle (v : Invocation P)
  | settled (v : Invocation P)
  | save (v : Invocation P) (maxRetries : ℕ) (error : String)
  | unsuccessfull
  | startRetry (id : String)
  | endRetry (id : String) (error : Option String)

@[reducible] def Resp : Cmd P → Type
  | .registerEventHandler _ => Except DeveloperException Unit
  | .registerUniversalEventHandler _ => Except DeveloperException Unit
  | .publication => ℕ
  | .universalEventHandlers => List Handler
  | .eventHandlers _ => Option (List EventHandler)
  | .handle _ => Unit
  | .settled _ => Option String
  | .save _ _ _ => Unit
  | .unsuccessfull => List String
  | .startRetry _ => Option (Invocation P)
  | .endRetry _ _ => Unit

/-- What runs without interruption; `uuid` are the ids in the order in which they are generated. -/
def exec (uuid : ℕ → String) (i : Choice) (s : Broker P) : (c : Cmd P) → Broker P × Resp c
  | .registerEventHandler handler => s.registerEventHandler handler
  | .registerUniversalEventHandler handler => s.registerUniversalEventHandler handler
  | .publication => ({ s with publications := s.publications + 1 }, s.publications)
  | .universalEventHandlers => (s, s.universalEventHandlers)
  | .eventHandlers name => (s, s.eventHandlers.get name)
  | .handle v => (s.log (.started v), ())
  | .settled v => (s.log (.settled v i.error), i.error)
  | .save v maxRetries error =>
    -- the repository keeps the object itself, so later retries change it in place
    let failed := failedEvent (uuid s.generated) v maxRetries error i.now
    ({ s with
        failedEvents := s.failedEvents.set failed.id ⟨failed, v.publication⟩
        generated := s.generated + 1 }, ())
  | .unsuccessfull => (s, s.unsuccessfull)
  | .startRetry id => s.startRetry id i.now
  | .endRetry id error => (s.endRetry id error, ())

abbrev Client (P α : Type) : Type := Prog (@Resp P) α

/-- One round of the loops of `publish`. -/
def deliver (publication : ℕ) (event : Event P) (session : String) (handler : Handler) : Client P Unit :=
  let v : Invocation P := ⟨publication, handler.id, event, session⟩
  .await (.handle v) fun _ => .await (.settled v) fun error =>
    match error with
    | none => .ret ()
    | some e => .await (.save v handler.maxRetries e) .ret

def publish (event : Event P) (session : String) : Client P Unit := do
  let publication ← .await .publication .ret
  let universalEventHandlers ← .await .universalEventHandlers .ret
  Prog.forEach (deliver publication event session) universalEventHandlers
  let handlers ← .await (.eventHandlers event.name) .ret
  -- nothing is stored under a name until the first handler for it is registered
  match handlers with
  | none => return ()
  | some handlers => Prog.forEach (fun handler => deliver publication event session handler.toHandler) handlers

/-- One round of the loop of `retryFailedEvents`. -/
def retry (id : String) : Client P Unit :=
  .await (.startRetry id) fun v =>
    match v with
    | none => .ret ()
    | some v => .await (.settled v) fun error => .await (.endRetry id error) .ret

def retryFailedEvents : Client P Unit := do
  let list ← .await .unsuccessfull .ret
  Prog.forEach retry list

inductive Call (P : Type) where
  | registerEventHandler (handler : EventHandler)
  | registerUniversalEventHandler (handler : Handler)
  | publish (event : Event P) (session : String)
  | retryFailedEvents

abbrev Reply : Type := Except DeveloperException Unit

def prog : Call P → Client P Reply
  | .registerEventHandler handler => .await (.registerEventHandler handler) .ret
  | .registerUniversalEventHandler handler => .await (.registerUniversalEventHandler handler) .ret
  | .publish event session => do
    publish event session
    return .ok ()
  | .retryFailedEvents => do
    retryFailedEvents
    return .ok ()

/-- Any number of calls on one broker. -/
def machine (uuid : ℕ → String) : Machine (@Resp P) (Broker P) Choice Empty (Call P) Reply where
  exec := exec uuid
  env := fun e _ => e.elim
  enter := fun _ s => s
  prog := prog

end EventsBroker

end NodeToolkit
