import NodeToolkit.Base.Text
import NodeToolkit.Spec.Exceptions

/-!
# The Authorize decorator

`authorize-decorator.ts`: which permission strings grant a target, which session of the
arguments is asked, and what the wrapped method does. A permission is a text, since its
type admits any lowercase text between and after the slashes.
-/

namespace NodeToolkit

structure User where
  id : String
  permissions : List String

/-- An api key or a client. -/
structure Credential where
  id : String
  permissions : List String

structure Session where
  user : User
  apiKey : Option Credential
  client : Option Credential

/-- The test of one permission in `IsPermissionsMatches`; a piece that is not there is `none`. -/
def permissionMatches (target permission : String) : Bool :=
  if permission = "*" then true
  else if permission = target then true
  else
    let topic := (split permission '/')[0]?
    let operation := (split permission '/')[1]?
    let action := (split permission '/')[2]?
    let targetTopic := (split target '/')[0]?
    let targetOperation := (split target '/')[1]?
    let targetAction := (split target '/')[2]?
    if topic = some "*" ∧ operation = targetOperation ∧ action = some "*" then true
    else if topic ≠ targetTopic then false
    else if operation = some "*" then true
    else if operation ≠ targetOperation then false
    else if action = some "*" then true
    else if action = targetAction then true
    else false

def IsPermissionsMatches (target : String) (permissions : List String) : Bool :=
  -- `find` gives the permission itself, and an empty text is falsy
  (permissions.find? (permissionMatches target)).any fun permission => permission ≠ ""

/-- What an argument has under `session`, when it is an object that has it. -/
inductive SessionProperty where
  | notObject
  | withoutUser
  | session (s : Session)

inductive Thrown where
  | typeError
  | developer (e : DeveloperException)
  | authorization (e : AuthorizationException)
deriving DecidableEq

/-- What a wrapped call does. -/
inductive Wrapped (β : Type) where
  | threw (e : Thrown)
  | ran (result : β)

variable {A β : Type}

/-- The loop over the arguments. `'user' in arg.session` throws when the session is no object. -/
def findSession (session : A → Option SessionProperty) : List A → Except Thrown (Option Session)
  | [] => .ok none
  | arg :: args =>
    match session arg with
    | none => findSession session args
    | some .notObject => .error .typeError
    | some .withoutUser => findSession session args
    | some (.session s) => .ok (some s)

def notAuthorized : Thrown := .authorization (.make "you do not have permissions to do this action")

/-- `Authorize(permission)` around a method. -/
def Authorize (permission : String) (session : A → Option SessionProperty) (originalMethod : List A → β)
    (args : List A) : Wrapped β :=
  match findSession session args with
  | .error e => .threw e
  | .ok none =>
    .threw (.developer (.make "WRONG_USAGE_OF_AUTHORIZE_DECORATOR"
      ("To use the Authorize decorator, one of the arguments of the decorated function have include a " ++
        "session object")))
  | .ok (some { user, apiKey, client }) =>
    match apiKey with
    | some apiKey =>
      if IsPermissionsMatches permission apiKey.permissions then .ran (originalMethod args)
      else .threw notAuthorized
    | none =>
      match client with
      | some client =>
        if IsPermissionsMatches permission client.permissions then .ran (originalMethod args)
        else .threw notAuthorized
      | none =>
        if IsPermissionsMatches permission user.permissions then .ran (originalMethod args)
        else .threw notAuthorized

end NodeToolkit
