import NodeToolkit.Async.Pool

/-!
# The `Log` decorator

One decorated method with all its calls. They share the variable `correlationId` of the decorator: a
call sets it from its arguments when it begins, and reads it at each of its log requests, which come
after awaits. The world chooses what the method does and whether the logger fails.
-/

namespace NodeToolkit.LogDecorator

open Async

/-- An argument of the method: its `correlationId`, the `correlationId` of its `session`, and the rest. -/
structure Argument where
  correlationId : Option String
  sessionCorrelationId : Option String
  data : String
deriving DecidableEq

/-- What is thrown: an `ApplicationException` with its `error`, or any other error. -/
inductive Thrown where
  | application (error : String)
  | other (message : String)
deriving DecidableEq

/-- What the method returns: a `Result`, or any other value. -/
inductive Returned where
  | ok (data : String)
  | fail (e : Thrown)
  | value (data : String)
deriving DecidableEq

structure Options where
  saveParams : Bool
  saveResult : Bool
  recordTime : Bool

/-- The options when none are given. -/
def Options.default : Options := ⟨true, true, true⟩

inductive Payload where
  | params (entries : List (String × Argument))
  | result (result : Option Returned) (time : Option String)
  | error (error : String)
  | empty
deriving DecidableEq

/-- A log request without its correlation id. `error` is what `error` requests have beside it. -/
structure Message where
  context : String
  error : Option Thrown
  payload : Payload
deriving DecidableEq

structure LogRequest extends Message where
  correlationId : String
deriving DecidableEq

/-- JavaScript's truthiness of an optional string. -/
def truthy : Option String → Option String
  | some "" => none
  | id => id

/-- The body of the loop over the arguments, as far as `correlationId` is concerned. -/
def readCorrelationId (correlationId : String) (value : Argument) : String :=
  let correlationId := (truthy value.correlationId).getD correlationId
  (truthy value.sessionCorrelationId).getD correlationId

def paramsPayload (args : List Argument) : List (String × Argument) :=
  args.zipIdx.map fun ⟨value, index⟩ => ("param-" ++ toString (index + 1), value)

/-- The variable of the decorator. `carried` is for the statements only: the ids found in the arguments
of the calls that have begun, oldest first. -/
structure Shared where
  correlationId : String
  carried : List String

/-- The id found in the arguments of a call: the last one. -/
def found (args : List Argument) : Option String :=
  (args.flatMap fun value =>
    (truthy value.correlationId).toList ++ (truthy value.sessionCorrelationId).toList).getLast?

/-- `let correlationId = crypto.randomUUID()`, and no call yet. -/
def Shared.init (uuid : String) : Shared := ⟨uuid, []⟩

/-- The loop over the arguments, which is there only if parameters are saved. -/
def Shared.read (options : Options) (args : List Argument) (s : Shared) : Shared :=
  if options.saveParams then
    ⟨args.foldl readCorrelationId s.correlationId, s.carried ++ (found args).toList⟩
  else s

/-- What is chosen outside: whether the logger fails, what the method does, and the time. -/
structure Choice where
  logged : Except Thrown Unit
  outcome : Except Thrown Returned
  now : ℤ

inductive Cmd where
  /-- From the call to the first await. -/
  | start (args : List Argument)
  | method (args : List Argument)
  | log (message : Message)

/-- A log request as it reached the logger, and what came of it. -/
structure Emitted where
  request : LogRequest
  logged : Except Thrown Unit
  now : ℤ

structure Answer where
  outcome : Except Thrown Returned
  now : ℤ

@[reducible] def Resp : Cmd → Type
  | .start _ => Emitted
  | .method _ => Answer
  | .log _ => Emitted

def starting (context : String) (options : Options) (args : List Argument) : Message where
  context := "Starting: " ++ context
  error := none
  payload := .params (if options.saveParams then paramsPayload args else [])

def exec (context : String) (options : Options) (i : Choice) (s : Shared) : (c : Cmd) → Shared × Resp c
  | .start args =>
    let s := s.read options args
    (s, ⟨⟨starting context options args, s.correlationId⟩, i.logged, i.now⟩)
  | .method _ => (s, ⟨i.outcome, i.now⟩)
  | .log message => (s, ⟨⟨message, s.correlationId⟩, i.logged, i.now⟩)

abbrev Client (α : Type) : Type := Prog Resp α

/-- The request to `error`, the same for a failed result and for what is caught. -/
def failed (context : String) (e : Thrown) : Message where
  context := "Failed: " ++ context
  error := some e
  payload := match e with
    | .application error => .error error
    | .other _ => .empty

/-- The last request of the `try` block. -/
def finished (context : String) (options : Options) (result : Returned) (resTime : ℤ) : Message :=
  match result with
  | .fail e => failed context e
  | result =>
    { context := "Success: " ++ context
      error := none
      payload := .result (if options.saveResult then some result else none)
        (if options.recordTime then some (toString resTime ++ "ms") else none) }

/-- The `catch` block. -/
def caught (context : String) (e : Thrown) : Client (Except Thrown Returned) := do
  let logging ← .await (.log (failed context e)) .ret
  match logging.logged with
  | .error e' => return .error e'
  | .ok _ => return .error e

/-- `descriptor.value` of the decorated method. -/
def decorated (context : String) (options : Options) (args : List Argument) :
    Client (Except Thrown Returned) := do
  let begun ← .await (.start args) .ret
  match begun.logged with
  | .error e => caught context e
  | .ok _ => do
    let answer ← .await (.method args) .ret
    match answer.outcome with
    | .error e => caught context e
    | .ok result => do
      let resTime := answer.now - begun.now
      let logging ← .await (.log (finished context options result resTime)) .ret
      match logging.logged with
      | .error e => caught context e
      | .ok _ => return .ok result

def machine (context : String) (options : Options) :
    Machine Resp Shared Choice Empty (List Argument) (Except Thrown Returned) where
  exec := exec context options
  env := fun e _ => e.elim
  enter := fun _ s => s
  prog := decorated context options

end NodeToolkit.LogDecorator
