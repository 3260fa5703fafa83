import NodeToolkit.Spec.Authorize
import NodeToolkit.Spec.MediaManager

/-!
# The media manager in the system

`MediaManagerAuthorizationAndLoggerDecorator` over the facade, the answers to `'Media.Upload'` and
`'Media.Delete'`, and `InMemorySyncMessagesBroker`, where `MediaManagerInitializer` registers them. The factory
gives the answers the facade itself, not the decorator. The logs are left out.
-/

namespace NodeToolkit

open Async

namespace MediaPermissions

def UploadFile : String := "media/write/upload"
def DeleteFile : String := "media/write/delete"

end MediaPermissions

namespace MediaSystem

open Media

/-- An answer that is registered: that of the media manager for the question, or one of somebody else. -/
inductive Answer where
  | media
  | foreign
deriving DecidableEq

/-- The questions and their parameters. -/
inductive Question where
  | upload (command : UploadFileCommand)
  | delete (id : String)
  | other (text : String)

def Question.text : Question → String
  | .upload _ => "Media.Upload"
  | .delete _ => "Media.Delete"
  | .other text => text

/-- The stores, the broker, and the flag of the initializer. -/
structure State where
  stores : Stores
  answers : OMap String Answer
  isInitialized : Bool

def State.start : State := ⟨.empty, .empty, false⟩

/-! ## The broker -/

def answerNotRegistered (question : String) : DeveloperException :=
  .make "ANSWER_NOT_REGISTERED" ("There is no answer registered for the question: " ++ question)

def answerAlreadyRegistered (question : String) : DeveloperException :=
  .make "ANSWER_ALREADY_REGISTERED" ("There is already an answer registered for the question: " ++ question)

def registerAnswer (s : State) (question : String) (answer : Answer) : State × Except DeveloperException Unit :=
  if (s.answers.get question).isSome then (s, .error (answerAlreadyRegistered question))
  else ({ s with answers := s.answers.set question answer }, .ok ())

/-- `MediaManagerInitializer.Init`: an answer that is refused ends it. -/
def Init (s : State) : State × Except DeveloperException Unit :=
  if s.isInitialized then (s, .ok ())
  else
    match registerAnswer s "Media.Upload" .media with
    | (s, .error e) => (s, .error e)
    | (s, .ok _) =>
      match registerAnswer s "Media.Delete" .media with
      | (s, .error e) => (s, .error e)
      | (s, .ok _) => ({ s with isInitialized := true }, .ok ())

inductive Cmd where
  | stores (c : Media.Cmd)
  | registered (question : String)
  | registerAnswer (question : String)
  | init
  | clear

@[reducible] def Resp : Cmd → Type
  | .stores c => Media.Resp c
  | .registered _ => Option Answer
  | .registerAnswer _ => Except DeveloperException Unit
  | .init => Except DeveloperException Unit
  | .clear => Unit

def exec (location : String → String) (i : Choice) (s : State) : (c : Cmd) → State × Resp c
  | .stores c => ({ s with stores := (Media.exec location i s.stores c).1 }, (Media.exec location i s.stores c).2)
  | .registered question => (s, s.answers.get question)
  | .registerAnswer question => registerAnswer s question .foreign
  | .init => Init s
  | .clear => ({ s with answers := .empty }, ())

abbrev Client (α : Type) : Type := Prog Resp α

/-! ## The manager -/

/-- What a call throws. -/
inductive Failure where
  | media (e : Media.Exception)
  | authorization (e : Thrown)
  | developer (e : DeveloperException)
deriving DecidableEq

/-- A method of the facade. -/
def facade {α : Type} (method : Media.Client (Except Media.Exception α)) : Client (Except Failure α) := do
  let result ← method.embed .stores fun _ r => r
  return result.mapError .media

/-- A method under `@Authorize(permission)`. -/
def authorized {α : Type} (permission : String) (session : Session) (method : Client (Except Failure α)) :
    Client (Except Failure α) :=
  match Authorize permission (fun s => some (.session s)) (fun _ => method) [session] with
  | .threw e => return .error (.authorization e)
  | .ran result => result

variable (supports : LocalFile → Bool)

/-- What `ask` resolves to: the id of a file, or what somebody else has answered. -/
inductive Returned where
  | file (id : String)
  | foreign
deriving DecidableEq

/-- `answer.answer(params, session)`. -/
def Answer.answer : Answer → Question → Client (Except Failure Returned)
  | .media, .upload command => do
    let res ← facade (upload supports command)
    return res.map fun res => .file res.id
  | .media, .delete id => do
    let res ← facade (delete id)
    return res.map fun _ => .file id
  | _, _ => return .ok .foreign

def ask (question : Question) : Client (Except Failure Returned) := do
  match ← Prog.await (.registered question.text) .ret with
  | none => return .error (.developer (answerNotRegistered question.text))
  | some answer => answer.answer supports question

inductive Call where
  | upload (session : Session) (command : UploadFileCommand)
  | delete (session : Session) (id : String)
  | getById (id : String)
  | ask (question : Question)
  | registerAnswer (question : String)
  | init
  | clear

inductive Reply where
  | uploaded (r : Except Failure UploadFileCommandResponse)
  | deleted (r : Except Failure String)
  | url (r : Except Failure String)
  | answered (r : Except Failure Returned)
  | registered (r : Except DeveloperException Unit)
  | initialized (r : Except DeveloperException Unit)
  | cleared
deriving DecidableEq

def prog : Call → Client Reply
  | .upload session command => do
    let r ← authorized MediaPermissions.UploadFile session (facade (upload supports command))
    return .uploaded r
  | .delete session id => do
    let r ← authorized MediaPermissions.DeleteFile session (facade (delete id))
    return .deleted r
  | .getById id => do
    let r ← facade (getById id)
    return .url r
  | .ask question => do
    let r ← ask supports question
    return .answered r
  | .registerAnswer question => .await (.registerAnswer question) fun r => .ret (.registered r)
  | .init => .await .init fun r => .ret (.initialized r)
  | .clear => .await .clear fun _ => .ret .cleared

def machine (location : String → String) : Machine Resp State Choice Empty Call Reply where
  exec := exec location
  env := fun e _ => e.elim
  enter := fun _ s => s
  prog := prog supports

end MediaSystem

end NodeToolkit
