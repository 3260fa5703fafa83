import Mathlib.Logic.Function.Basic
import NodeToolkit.Async.Pool
import NodeToolkit.Spec.Exceptions

/-!
# The `Transactional` decorator

The decorated methods over `MongodbPersistence`, cut at their awaits. Client sessions follow the state
machine of the driver: a transaction is in progress until it is committed or aborted, and ending a
session aborts what is in progress. The world chooses what the methods do.
-/

namespace NodeToolkit.Transactional

open Async

/-- An argument of the method: its `correlationId`, and the `correlationId` of its `session`. -/
structure Argument where
  correlationId : Option String
  session : Option String
deriving DecidableEq

/-- What is thrown: by the persistence, by the driver, or by the method. -/
inductive Thrown where
  | developer (e : DeveloperException)
  | driver (message : String)
  | method (message : String)
deriving DecidableEq

abbrev Outcome : Type := Except Thrown String

/-- The state of a transaction that has been started. -/
inductive TxnState where
  | inProgress
  | committed
  | aborted
deriving DecidableEq

/-- A client session of the driver: its transactions, oldest first, and how often it has been ended. -/
structure ClientSession where
  transactions : List TxnState
  ended : ℕ
deriving DecidableEq

namespace ClientSession

def new : ClientSession := ⟨[], 0⟩

def inTransaction (c : ClientSession) : Bool := c.transactions.getLast? = some .inProgress

/-- The transitions the driver allows. -/
def allows : TxnState → TxnState → Bool
  | .inProgress, .committed => true
  | .inProgress, .aborted => true
  | .committed, .committed => true
  | _, _ => false

/-- The last transaction gets another state, if the driver allows it. -/
def transition (c : ClientSession) (target : TxnState) : ClientSession × Except Thrown Unit :=
  match c.transactions.getLast? with
  | some state =>
    if allows state target then ({ c with transactions := c.transactions.dropLast ++ [target] }, .ok ())
    else (c, .error (.driver "Attempted illegal state transition"))
  | none => (c, .error (.driver "Attempted illegal state transition"))

def startTransaction (c : ClientSession) : ClientSession × Except Thrown Unit :=
  if c.inTransaction then (c, .error (.driver "Transaction already in progress"))
  else ({ c with transactions := c.transactions ++ [.inProgress] }, .ok ())

end ClientSession

/-- The persistence and the client sessions of the driver, numbered as they are created. -/
structure Shared where
  connected : Bool
  sessionRequestMap : OMap String ℕ
  sessions : ℕ → ClientSession
  created : ℕ

def Shared.setSession (s : Shared) (clientSession : ℕ) (c : ClientSession) : Shared :=
  { s with sessions := Function.update s.sessions clientSession c }

/-- A transaction: the session it is of, and its number there. -/
structure Transaction where
  clientSession : ℕ
  number : ℕ
deriving DecidableEq

def notConnected : Thrown :=
  .developer (DeveloperException.make "DB_NOT_CONNECTED" "the database is not connected")

def sessionNotStarted : Thrown :=
  .developer (DeveloperException.make "SESSION_NOT_STARTED" "the session is not started, should start it first")

def sessionNotFound : Thrown :=
  .developer (DeveloperException.make "SESSION_NOT_FOUND" "the session is not found, should start it first")

def transactionNotStarted : Thrown :=
  .developer (DeveloperException.make "TRANSACTION_NOT_STARTED" "the transaction is not started")

def missingSession : Thrown :=
  .developer (DeveloperException.make "MISSING_SESSION" "session is required for transactional methods")

def Shared.getSession (s : Shared) (id : String) : Except Thrown ℕ :=
  if s.connected then
    match s.sessionRequestMap.get id with
    | none => .error sessionNotStarted
    | some clientSession => .ok clientSession
  else .error notConnected

def Shared.startTransaction (s : Shared) (id : String) : Shared × Except Thrown Transaction :=
  match s.getSession id with
  | .error e => (s, .error e)
  | .ok clientSession =>
    match (s.sessions clientSession).startTransaction with
    | (_, .error e) => (s, .error e)
    | (c, .ok _) => (s.setSession clientSession c, .ok ⟨clientSession, (s.sessions clientSession).transactions.length⟩)

/-- What is chosen outside: what the method does, and whether its transaction has run an operation: if
not, the driver makes the transition at once. -/
structure Choice where
  outcome : Outcome
  operated : Bool

/-- A command lasts from one await to the next; `id` is the `correlationId` of the session. -/
inductive Cmd where
  /-- `sessionStarted`, and `startTransaction` if it is. -/
  | enter (id : String)
  | createSession
  | setSession (id : String) (clientSession : ℕ)
  | startTransaction (id : String)
  | method (args : List Argument)
  /-- `commitTransaction` and `abortTransaction` up to the answer of the server. -/
  | finish (id : String) (target : TxnState)
  | answer (clientSession : ℕ) (target : TxnState)
  /-- `endSession` up to the end of the session, or the abort before it. -/
  | endSession (id : String)
  | abortAndEnd (clientSession : ℕ)
  | deleteSession (id : String)

/-- A session, and whether the driver is done with it. -/
structure Handled where
  clientSession : ℕ
  done : Bool

@[reducible] def Resp : Cmd → Type
  | .enter _ => Option (Except Thrown Transaction)
  | .createSession => Except Thrown ℕ
  | .setSession _ _ => Unit
  | .startTransaction _ => Except Thrown Transaction
  | .method _ => Outcome
  | .finish _ _ => Except Thrown Handled
  | .answer _ _ => Except Thrown Unit
  | .endSession _ => Except Thrown Handled
  | .abortAndEnd _ => Unit
  | .deleteSession _ => Unit

def endNow (c : ClientSession) : ClientSession := { c with ended := c.ended + 1 }

def exec (i : Choice) (s : Shared) : (c : Cmd) → Shared × Resp c
  | .enter id =>
    if id ∈ s.sessionRequestMap.keys then
      ((s.startTransaction id).1, some (s.startTransaction id).2)
    else (s, none)
  | .createSession =>
    if s.connected then
      ({ s.setSession s.created .new with created := s.created + 1 }, .ok s.created)
    else (s, .error notConnected)
  | .setSession id clientSession =>
    ({ s with sessionRequestMap := s.sessionRequestMap.set id clientSession }, ())
  | .startTransaction id => s.startTransaction id
  | .method _ => (s, i.outcome)
  | .finish id target =>
    match s.getSession id with
    | .error e => (s, .error e)
    | .ok clientSession =>
      if (s.sessions clientSession).inTransaction then
        if i.operated then (s, .ok ⟨clientSession, false⟩)
        else (s.setSession clientSession ((s.sessions clientSession).transition target).1, .ok ⟨clientSession, true⟩)
      else (s, .error transactionNotStarted)
  | .answer clientSession target =>
    (s.setSession clientSession ((s.sessions clientSession).transition target).1,
      ((s.sessions clientSession).transition target).2)
  | .endSession id =>
    if s.connected then
      match s.sessionRequestMap.get id with
      | none => (s, .error sessionNotFound)
      | some clientSession =>
        if (s.sessions clientSession).inTransaction then (s, .ok ⟨clientSession, false⟩)
        else (s.setSession clientSession (endNow (s.sessions clientSession)), .ok ⟨clientSession, true⟩)
    else (s, .error notConnected)
  | .abortAndEnd clientSession =>
    (s.setSession clientSession (endNow ((s.sessions clientSession).transition .aborted).1), ())
  | .deleteSession id => ({ s with sessionRequestMap := s.sessionRequestMap.erase id }, ())

abbrev Client (α : Type) : Type := Prog Resp α

def startSession (id : String) : Client (Except Thrown Unit) := do
  let clientSession ← .await .createSession .ret
  match clientSession with
  | .error e => return .error e
  | .ok clientSession => do
    .await (.setSession id clientSession) .ret
    return .ok ()

/-- `commitTransaction` and `abortTransaction`, which differ in the transition only. -/
def finish (target : TxnState) (id : String) : Client (Except Thrown Unit) := do
  let handled ← .await (.finish id target) .ret
  match handled with
  | .error e => return .error e
  | .ok ⟨_, true⟩ => return .ok ()
  | .ok ⟨clientSession, false⟩ => .await (.answer clientSession target) .ret

def commitTransaction : String → Client (Except Thrown Unit) := finish .committed

def abortTransaction : String → Client (Except Thrown Unit) := finish .aborted

def endSession (id : String) : Client (Except Thrown Unit) := do
  let handled ← .await (.endSession id) .ret
  match handled with
  | .error e => return .error e
  | .ok ⟨_, true⟩ => do
    .await (.deleteSession id) .ret
    return .ok ()
  | .ok ⟨clientSession, false⟩ => do
    .await (.abortAndEnd clientSession) .ret
    .await (.deleteSession id) .ret
    return .ok ()

/-- The loop over the arguments. -/
def sessionOf (args : List Argument) : Option String :=
  args.findSome? fun argument => (argument.correlationId.filter (· ≠ "")).or argument.session

/-- The `catch` block. -/
def rollback (id : String) (e : Thrown) : Client Outcome := do
  match ← abortTransaction id with
  | .error e' => return .error e'
  | .ok _ => return .error e

/-- The `try` block, and the `catch` block if it throws. -/
def attempt (id : String) (args : List Argument) : Client Outcome := do
  match ← Prog.await (.method args) .ret with
  | .error e => rollback id e
  | .ok result => do
    match ← commitTransaction id with
    | .error e => rollback id e
    | .ok _ => return .ok result

/-- From the start of the transaction on, for a session that this call has started. -/
def owned (id : String) (args : List Argument) : Client Outcome := do
  match ← Prog.await (.startTransaction id) .ret with
  | .error e => return .error e
  | .ok _ => do
    let result ← attempt id args
    -- what `finally` throws replaces the result
    match ← endSession id with
    | .error e => return .error e
    | .ok _ => return result

/-- `descriptor.value` of a decorated method. -/
def transactional (args : List Argument) : Client Outcome :=
  match sessionOf args with
  | none => return .error missingSession
  | some id => do
    match ← Prog.await (.enter id) .ret with
    | some (.error e) => return .error e
    | some (.ok _) => attempt id args
    | none => do
      match ← startSession id with
      | .error e => return .error e
      | .ok _ => owned id args

def machine : Machine Resp Shared Choice Empty (List Argument) Outcome where
  exec := exec
  env := fun e _ => e.elim
  enter := fun _ s => s
  prog := transactional

end NodeToolkit.Transactional
