import Mathlib.Data.List.Sort
import NodeToolkit.Base.EventEmitter
import NodeToolkit.Spec.EventsBroker

/-!
# The events broker over an emitter

`NodeNativeEventsBroker` over `InMemoryFailedEventsRepository`, in a run in which every operation
starts after the handlers of the previous one have settled. An emission starts all its handlers at
once; they settle in an order that the world chooses, and each failure is saved as it comes in.

A handler that is registered for the events named `'newListener'` is a listener of the emitter's
own event as well: it is called with a name in the place of an event, and with a function in the
place of a session. What it reads of these is `undefined`, so the records keep optional values.

`memory` and `native` run the same calls on the two brokers, in the same worlds.
-/

namespace NodeToolkit

namespace NodeNative

open EventsBroker (Event EventHandler Handler Call Reply)

variable {P : Type}

/-- What a listener gets as its event. -/
inductive Subject (P : Type) where
  | event (event : Event P)
  | listener (eventName : String)
deriving DecidableEq

/-- `event.name`. -/
def Subject.name : Subject P → Option String
  | .event e => some e.name
  | .listener _ => none

/-- `event.occurredAt`. -/
def Subject.occurredAt : Subject P → Option ℕ
  | .event e => some e.occurredAt
  | .listener _ => none

/-- An invocation of a handler, with the number of the latest `publish`. -/
structure Delivery (P : Type) where
  publication : ℕ
  handlerId : String
  subject : Subject P
  correlationId : Option String
deriving DecidableEq

structure FailedEvent (P : Type) where
  id : String
  event : Subject P
  eventOccuredAt : Option ℕ
  handlerId : String
  handlerMaxRetries : ℕ
  sessionCorrelationId : Option String
  retries : ℕ
  lastError : String
  lastProcessingTryDate : ℕ
  processedSuccessfully : Bool

/-- A record with the number of the `publish` that made it. -/
structure Filed (P : Type) extends FailedEvent P where
  publication : ℕ

/-- What happens outside during an operation. -/
structure World (P : Type) where
  /-- What an invocation throws. -/
  error : Delivery P → Option String
  /-- The invocations of an emission settle by rank. -/
  rank : Delivery P → ℕ
  now : Delivery P → ℕ
  /-- The clock of the other broker. -/
  clock : EventsBroker.Cmd P → ℕ

structure Broker (P : Type) where
  eventsEmitter : EventEmitter Handler
  eventHandlers : OMap String (List Handler)
  failedEvents : OMap String (Filed P)
  /-- How many ids `crypto.randomUUID` has given out. -/
  generated : ℕ
  publications : ℕ
  /-- The invocations so far. -/
  deliveries : List (Delivery P)

def Broker.empty : Broker P := ⟨.empty, .empty, .empty, 0, 0, []⟩

def UNIVERSAL_EVENT_NAME : String := "___UNIVERSAL___"

/-! ## Emissions -/

/-- A handler that is called with a subject. -/
def called (s : Broker P) (subject : Subject P) (correlationId : Option String) (handler : Handler) :
    Handler × Delivery P := (handler, ⟨s.publications, handler.id, subject, correlationId⟩)

def Broker.start (s : Broker P) (calls : List (Handler × Delivery P)) : Broker P :=
  { s with deliveries := s.deliveries ++ calls.map Prod.snd }

/-- The record of an invocation that threw. -/
def failedEvent (id : String) (handler : Handler) (v : Delivery P) (error : String) (now : ℕ) : FailedEvent P where
  id
  event := v.subject
  eventOccuredAt := v.subject.occurredAt
  handlerId := handler.id
  handlerMaxRetries := handler.maxRetries
  sessionCorrelationId := v.correlationId
  retries := 0
  lastError := error
  lastProcessingTryDate := now
  processedSuccessfully := false

variable (uuid : ℕ → String) (w : World P)

/-- The `catch` of a listener. -/
def Broker.settle (s : Broker P) (call : Handler × Delivery P) : Broker P :=
  match w.error call.2 with
  | none => s
  | some e =>
    let failed := failedEvent (uuid s.generated) call.1 call.2 e (w.now call.2)
    { s with
      failedEvents := s.failedEvents.set failed.id ⟨failed, call.2.publication⟩
      generated := s.generated + 1 }

/-- The started handlers settle, in the order of their rank. -/
def Broker.settleAll (s : Broker P) (calls : List (Handler × Delivery P)) : Broker P :=
  (calls.insertionSort fun a b => w.rank a.2 ≤ w.rank b.2).foldl (Broker.settle uuid w) s

/-! ## The operations -/

/-- The listeners that a `publish` calls, and how it ends. -/
def Broker.emissions (s : Broker P) (event : Event P) : List Handler × Except String Unit :=
  match s.eventsEmitter.emit UNIVERSAL_EVENT_NAME with
  | .error e => ([], .error e)
  | .ok universal =>
    match s.eventsEmitter.emit event.name with
    | .error e => (universal, .error e)
    | .ok handlers => (universal ++ handlers, .ok ())

def Broker.publish (s : Broker P) (event : Event P) (session : String) : Broker P × Except String Unit :=
  let (listeners, reply) := s.emissions event
  let calls := listeners.map (called s (.event event) (some session))
  ((({ s with publications := s.publications + 1 }).start calls).settleAll uuid w calls, reply)

/-- Adding an enabled handler to the emitter and to the map. -/
def Broker.register (s : Broker P) (eventName : String) (handler : Handler) : Broker P :=
  let (eventsEmitter, listeners) := s.eventsEmitter.on eventName handler
  -- the listeners of 'newListener' get the name, and a function that has no `correlationId`
  let calls := listeners.map (called s (.listener eventName) none)
  let eventHandlers :=
    if (s.eventHandlers.get eventName).isNone then s.eventHandlers.set eventName [] else s.eventHandlers
  let handlers := (eventHandlers.get eventName).getD []
  (({ s with
      eventsEmitter
      eventHandlers := eventHandlers.set eventName (handlers ++ [handler]) }).start calls).settleAll uuid w calls

def Broker.registerEventHandler (s : Broker P) (handler : EventHandler) : Broker P × Except String Unit :=
  if handler.disabled then (s, .ok ())
  else (s.register uuid w handler.eventName handler.toHandler, .ok ())

def Broker.registerUniversalEventHandler (s : Broker P) (handler : Handler) : Broker P × Except String Unit :=
  if handler.disabled then (s, .ok ())
  else (s.register uuid w UNIVERSAL_EVENT_NAME handler, .ok ())

/-- `findAllUnsuccessfullWithRetriesLessThanMax`, with the ids of the records. -/
def Broker.unsuccessfull (s : Broker P) : List (String × Filed P) :=
  s.failedEvents.entries.filter fun e => !e.2.processedSuccessfully && e.2.retries < e.2.handlerMaxRetries

/-- The handler that a retry of the record finds. -/
def Broker.handlerOf (s : Broker P) (failed : FailedEvent P) : Option Handler :=
  let specific := (failed.event.name.bind s.eventHandlers.get).bind fun hs => hs.find? fun h => h.id = failed.handlerId
  specific.or ((s.eventHandlers.get UNIVERSAL_EVENT_NAME).bind fun hs => hs.find? fun h => h.id = failed.handlerId)

/-- One round of the loop of `retryFailedEvents`. -/
def Broker.retry (s : Broker P) (entry : String × Filed P) : Broker P :=
  let failed := entry.2
  match s.handlerOf failed.toFailedEvent with
  -- `continue`: the handler is not registered
  | none => s
  | some handler =>
    let v : Delivery P := ⟨failed.publication, handler.id, failed.event, failed.sessionCorrelationId⟩
    let failed := { failed with lastProcessingTryDate := w.now v, retries := failed.retries + 1 }
    let failed :=
      match w.error v with
      | none => { failed with processedSuccessfully := true }
      | some e => { failed with lastError := e }
    { s with failedEvents := s.failedEvents.set entry.1 failed, deliveries := s.deliveries ++ [v] }

def Broker.retryFailedEvents (s : Broker P) : Broker P := s.unsuccessfull.foldl (Broker.retry w) s

def Broker.call (s : Broker P) : Call P → Broker P × Except String Unit
  | .registerEventHandler handler => s.registerEventHandler uuid w handler
  | .registerUniversalEventHandler handler => s.registerUniversalEventHandler uuid w handler
  | .publish event session => s.publish uuid w event session
  | .retryFailedEvents => (s.retryFailedEvents w, .ok ())

/-! ## The two brokers in the same worlds -/

/-- An invocation by the broker that walks its own lists. -/
def delivery (v : EventsBroker.Invocation P) : Delivery P :=
  ⟨v.publication, v.handlerId, .event v.event, some v.correlationId⟩

/-- What the world chooses for the commands of that broker. -/
def World.choice (w : World P) (c : EventsBroker.Cmd P) : EventsBroker.Choice where
  now := w.clock c
  error :=
    match c with
    | .settled v => w.error (delivery v)
    -- no other command reads an error
    | _ => none

def memoryCall (s : EventsBroker.Broker P) (x : Call P × World P) : EventsBroker.Broker P × Reply :=
  (EventsBroker.prog x.1).run (fun s c => EventsBroker.exec uuid (x.2.choice c) s c) s

/-- A run on `InMemoryEventsBroker`: the broker it leaves, and the replies. -/
def memory (xs : List (Call P × World P)) : EventsBroker.Broker P × List Reply :=
  xs.foldl (fun r x => ((memoryCall uuid r.1 x).1, r.2 ++ [(memoryCall uuid r.1 x).2])) (.empty, [])

/-- A run on `NodeNativeEventsBroker`. -/
def native (xs : List (Call P × World P)) : Broker P × List (Except String Unit) :=
  xs.foldl (fun r x => ((r.1.call uuid x.2 x.1).1, r.2 ++ [(r.1.call uuid x.2 x.1).2])) (.empty, [])

end NodeNative

end NodeToolkit
