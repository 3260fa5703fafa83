import Mathlib.Logic.Function.Basic
import NodeToolkit.Async.Pool

/-!
# The events broker over RabbitMQ

Instances of `RabbitmqEventsBroker`, one for each process, on one server. The flags of an instance are its
own, exchanges, queues and bindings are the server's. A message is sent without an answer, stays in flight,
and reaches its queues when it arrives. An operation that the server refuses closes the channel of the
instance; the world may make it refuse any.
-/

namespace NodeToolkit.Rabbitmq

open Async

structure Event where
  name : String
  state : String
deriving DecidableEq

structure Handler where
  id : String
  disabled : Bool
deriving DecidableEq

structure EventHandler extends Handler where
  eventName : String
deriving DecidableEq

/-- `durable` is the configuration of the instance, which stands for `true` if it is left out. -/
structure Configs where
  durable : Option Bool

inductive ExchangeType where
  | fanout
  | direct
deriving DecidableEq

structure Exchange where
  type : ExchangeType
  durable : Bool
deriving DecidableEq

structure Binding where
  queue : String
  exchange : String
  key : String
deriving DecidableEq

/-- A message, with the number under which it was sent. `content` is the JSON of the event's state. -/
structure Message where
  number : ℕ
  exchange : String
  key : String
  content : Event
  correlationId : String
  persistent : Option Bool
deriving DecidableEq

/-- What an instance knows. -/
structure Instance where
  closed : Bool
  haveAtLeastOneUniversalConsumer : Bool
  consumers : List String
  eventsThatHaveConsumers : List String

/-- The instances, the server, and the messages on their way. `placed` is what has been put into queues. -/
structure System where
  instances : ℕ → Instance
  exchanges : OMap String Exchange
  queues : OMap String Bool
  bindings : List Binding
  sent : ℕ
  flight : List Message
  placed : List (String × Message)

def UNIVERSAL_EXCHANGE : String := "Universal"

def System.typeOf (s : System) (exchange : String) : Option ExchangeType := (s.exchanges.get exchange).map Exchange.type

/-- **The routing rules**: a fanout exchange ignores the key, a direct exchange compares it. -/
def System.Routes (s : System) (exchange key queue : String) : Prop :=
  ∃ b ∈ s.bindings, b.queue = queue ∧ b.exchange = exchange ∧
    (s.typeOf exchange = some .fanout ∨ s.typeOf exchange = some .direct ∧ b.key = key)

instance (s : System) (exchange key queue : String) : Decidable (s.Routes exchange key queue) :=
  inferInstanceAs (Decidable (∃ b ∈ s.bindings, _))

/-- The queues that a message is put into. -/
def System.targets (s : System) (m : Message) : List String :=
  s.queues.keys.filter fun queue => s.Routes m.exchange m.key queue

/-- The message at a place of the flight arrives: it is put once into each of its queues. -/
def System.arrive (place : ℕ) (s : System) : System :=
  match s.flight[place]? with
  | none => s
  | some m =>
    { s with flight := s.flight.eraseIdx place, placed := s.placed ++ (s.targets m).map fun queue => (queue, m) }

/-- What the world chooses: whether it refuses the operation, and a consumer tag. -/
structure Choice where
  refused : Bool
  consumerTag : String

/-- Commands of an instance. The reads of its flags are steps of their own. -/
inductive Cmd where
  | assertConnected (inst : ℕ)
  | assertExchange (inst : ℕ) (exchange : String) (type : ExchangeType)
  | assertQueue (inst : ℕ) (queue : String)
  | bindQueue (inst : ℕ) (queue exchange key : String)
  | consume (inst : ℕ) (queue : String)
  /-- The last lines of a registration: `none` is the universal one. -/
  | record (inst : ℕ) (consumerTag : String) (eventName : Option String)
  | haveUniversalConsumer (inst : ℕ)
  | haveConsumer (inst : ℕ) (eventName : String)
  | publish (inst : ℕ) (exchange key : String) (event : Event) (correlationId : String)

@[reducible] def Resp : Cmd → Type
  | .assertConnected _ => Except String Unit
  | .assertExchange _ _ _ => Except String Unit
  | .assertQueue _ _ => Except String String
  | .bindQueue _ _ _ _ => Except String Unit
  | .consume _ _ => Except String String
  | .record _ _ _ => Unit
  | .haveUniversalConsumer _ => Bool
  | .haveConsumer _ _ => Bool
  | .publish _ _ _ _ _ => Except String ℕ

def channelClosed : String := "Channel closed"

def refusal : String := "operation failed"

namespace System

def setInstance (s : System) (inst : ℕ) (x : Instance) : System :=
  { s with instances := Function.update s.instances inst x }

/-- The server refuses an operation: the channel is closed. -/
def refuse (s : System) (inst : ℕ) : System := s.setInstance inst { s.instances inst with closed := true }

def declareExchange (s : System) (exchange : String) (x : Exchange) : Option System :=
  match s.exchanges.get exchange with
  | none => some { s with exchanges := s.exchanges.set exchange x }
  | some y => if y = x then some s else none

def declareQueue (s : System) (queue : String) (durable : Bool) : Option System :=
  match s.queues.get queue with
  | none => some { s with queues := s.queues.set queue durable }
  | some d => if d = durable then some s else none

def bind (s : System) (b : Binding) : Option System :=
  if b.queue ∈ s.queues.keys ∧ b.exchange ∈ s.exchanges.keys then
    some (if b ∈ s.bindings then s else { s with bindings := s.bindings ++ [b] })
  else none

/-- An operation on the channel of an instance, `none` if the server has to refuse it. -/
def operate {α : Type} (s : System) (i : Choice) (inst : ℕ) (value : α) (result : Option System) :
    System × Except String α :=
  if (s.instances inst).closed then (s, .error channelClosed)
  else if i.refused then (s.refuse inst, .error refusal)
  else
    match result with
    | none => (s.refuse inst, .error refusal)
    | some s' => (s', .ok value)

end System

def exec (configs : ℕ → Configs) (i : Choice) (s : System) : (c : Cmd) → System × Resp c
  | .assertConnected _ => if i.refused then (s, .error refusal) else (s, .ok ())
  | .assertExchange inst exchange type =>
    s.operate i inst () (s.declareExchange exchange ⟨type, (configs inst).durable.getD true⟩)
  | .assertQueue inst queue =>
    s.operate i inst queue (s.declareQueue queue ((configs inst).durable.getD true))
  | .bindQueue inst queue exchange key => s.operate i inst () (s.bind ⟨queue, exchange, key⟩)
  | .consume inst queue => s.operate i inst i.consumerTag (if queue ∈ s.queues.keys then some s else none)
  | .record inst consumerTag eventName =>
    let x := s.instances inst
    let x := { x with consumers := x.consumers ++ [consumerTag] }
    (s.setInstance inst (match eventName with
      | none => { x with haveAtLeastOneUniversalConsumer := true }
      | some name => { x with eventsThatHaveConsumers := x.eventsThatHaveConsumers ++ [name] }), ())
  | .haveUniversalConsumer inst => (s, (s.instances inst).haveAtLeastOneUniversalConsumer)
  | .haveConsumer inst eventName => (s, eventName ∈ (s.instances inst).eventsThatHaveConsumers)
  | .publish inst exchange key event correlationId =>
    if (s.instances inst).closed then (s, .error channelClosed)
    else
      let m : Message := ⟨s.sent, exchange, key, event, correlationId, (configs inst).durable⟩
      ({ s with sent := s.sent + 1, flight := s.flight ++ [m] }, .ok s.sent)

abbrev Client (α : Type) : Type := Prog Resp α

/-- Await a command that can fail; what it throws ends the call. -/
def andThen {α β : Type} (p : Client (Except String α)) (f : α → Client (Except String β)) :
    Client (Except String β) := do
  match ← p with
  | .error e => return .error e
  | .ok a => f a

/-- Assert an exchange and publish to it. -/
def send (inst : ℕ) (exchange key : String) (type : ExchangeType) (event : Event) (session : String) :
    Client (Except String Unit) :=
  andThen (.await (.assertExchange inst exchange type) .ret) fun _ =>
    andThen (.await (.publish inst exchange key event session) .ret) fun _ => .ret (.ok ())

def publish (inst : ℕ) (event : Event) (session : String) : Client (Except String Unit) :=
  andThen (.await (.assertConnected inst) .ret) fun _ =>
    .await (.haveUniversalConsumer inst) fun universal =>
      andThen (if universal then send inst UNIVERSAL_EXCHANGE "" .fanout event session else .ret (.ok ())) fun _ =>
        .await (.haveConsumer inst event.name) fun consumer =>
          if consumer then send inst event.name event.name .direct event session else .ret (.ok ())

/-- The lines that the two registrations have in common. -/
def register (inst : ℕ) (handler : Handler) (exchange key : String) (type : ExchangeType)
    (eventName : Option String) : Client (Except String Unit) :=
  if handler.disabled then .ret (.ok ())
  else
    andThen (.await (.assertConnected inst) .ret) fun _ =>
      andThen (.await (.assertExchange inst exchange type) .ret) fun _ =>
        andThen (.await (.assertQueue inst handler.id) .ret) fun queue =>
          andThen (.await (.bindQueue inst queue exchange key) .ret) fun _ =>
            andThen (.await (.consume inst queue) .ret) fun consumerTag =>
              .await (.record inst consumerTag eventName) fun _ => .ret (.ok ())

def registerEventHandler (inst : ℕ) (handler : EventHandler) : Client (Except String Unit) :=
  register inst handler.toHandler handler.eventName handler.eventName .direct (some handler.eventName)

def registerUniversalEventHandler (inst : ℕ) (handler : Handler) : Client (Except String Unit) :=
  register inst handler UNIVERSAL_EXCHANGE "" .fanout none

inductive Call where
  | publish (inst : ℕ) (event : Event) (session : String)
  | registerEventHandler (inst : ℕ) (handler : EventHandler)
  | registerUniversalEventHandler (inst : ℕ) (handler : Handler)

def prog : Call → Client (Except String Unit)
  | .publish inst event session => publish inst event session
  | .registerEventHandler inst handler => registerEventHandler inst handler
  | .registerUniversalEventHandler inst handler => registerUniversalEventHandler inst handler

/-- The environment lets the message at a place of the flight arrive. -/
def machine (configs : ℕ → Configs) : Machine Resp System Choice ℕ Call (Except String Unit) where
  exec := exec configs
  env := System.arrive
  enter := fun _ s => s
  prog := prog

end NodeToolkit.Rabbitmq
