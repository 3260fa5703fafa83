import NodeToolkit.Async.Prog
import NodeToolkit.Base.Date
import NodeToolkit.Base.OMap
import NodeToolkit.Base.Text
import Mathlib.Data.List.FinRange
import Mathlib.Data.List.Infix

/-!
# Test events

`GenerateTestEvent` of `supported-events.ts`. A random choice is a command, and so is an exception, which
has no answer.
-/

namespace NodeToolkit.TestEvent

open Async Date

/-! ## Documentations -/

inductive BaseFieldType where
  | string
  | number
  | isoStringDate
  | boolean
deriving DecidableEq

inductive Modifier where
  | nullable
  | optional
deriving DecidableEq

structure FieldType where
  base : BaseFieldType
  isArray : Bool
  modifier : Option Modifier

def BaseFieldType.text : BaseFieldType → String
  | string => "STRING"
  | number => "NUMBER"
  | isoStringDate => "ISO_STRING_DATE"
  | boolean => "BOOLEAN"

def FieldType.text (type : FieldType) : String :=
  type.base.text ++ (if type.isArray then " (ARRAY)" else "") ++
    match type.modifier with
    | none => ""
    | some .nullable => " (NULLABLE)"
    | some .optional => " (OPTIONAL)"

mutual

/-- `FieldDescription`: `[TYPE] text`, a record or an array of records. -/
inductive FieldDescription where
  | base (type : FieldType) (text : String)
  | record (documentation : Documentation)
  | array (length : ℕ) (records : Fin length → Documentation)

/-- A record of descriptions. -/
inductive Documentation where
  | mk (keys : List String) (distinct : keys.Nodup) (get : {k // k ∈ keys} → FieldDescription)

end

/-- `BaseFieldDescription`. -/
def baseFieldDescription (type : FieldType) (text : String) : String := "[" ++ type.text ++ "] " ++ text

/-! ## Random values -/

/-- The values of an event. -/
inductive Value where
  | null
  | undefined
  | string (s : String)
  | number (x : ℤ)
  | date (time : Time)
  | boolean (b : Bool)
  | array (values : List Value)
  | record (entries : List (String × Value))

structure DeveloperException where
  code : String
  message : String

inductive Draw where
  /-- `faker.lorem.words()` -/
  | words
  /-- `faker.number.int({ min, max })` -/
  | int (min max : ℤ)
  /-- `faker.date.anytime()` -/
  | anytime
  /-- `faker.datatype.boolean()` -/
  | boolean
  /-- `RandomBool()` -/
  | randomBool
  | throw (e : DeveloperException)

def Draw.Answer : Draw → Type
  | words => String
  | int min max => {n : ℤ // min ≤ n ∧ n ≤ max}
  | anytime => Time
  | boolean => Bool
  | randomBool => Bool
  | throw _ => Empty

abbrev Random : Type → Type := Prog Draw.Answer

def draw (c : Draw) : Random c.Answer := .await c .ret

/-! ## Descriptions of fields -/

structure ParsedType where
  type : String
  isArray : Bool
  isNullable : Bool
  isOptional : Bool

/-- What `.` does not match. -/
def lineTerminators : List Char := ['\n', '\r', '\u2028', '\u2029']

/-- `text.match(/\[(.*?)\]/)[1]`. -/
def bracketed : List Char → Option (List Char)
  | [] => none
  | c :: cs =>
    let inner := cs.takeWhile fun c => c ≠ ']' ∧ c ∉ lineTerminators
    if c = '[' ∧ (cs.drop inner.length).head? = some ']' then some inner else bracketed cs

/-- `text.includes(pattern)`. -/
def includes (text pattern : String) : Bool := pattern.toList <:+: text.toList

/-- `parseFieldType(desc)`. -/
def parseFieldType (desc : String) : Random ParsedType :=
  match bracketed desc.toList with
  | none => do
    let e ← draw (.throw ⟨"INVALID_METHOD_CALL", "Field description doesn't match the expected format"⟩)
    nomatch e
  | some inner =>
    return {
      type := trim ((split (String.ofList inner) ' ').headD "")
      isArray := includes desc "(ARRAY)"
      isNullable := includes desc "(NULLABLE)"
      isOptional := includes desc "(OPTIONAL)" }

/-- `getRandomValue(type)`. -/
def getRandomValue (type : String) : Random Value :=
  if type = "STRING" then return .string (← draw .words)
  else if type = "NUMBER" then return .number (← draw (.int 0 3000)).val
  else if type = "ISO_STRING_DATE" then return .date (← draw .anytime)
  else if type = "BOOLEAN" then return .boolean (← draw .boolean)
  else return .undefined

/-! ## The event -/

/-- `result[key] = value`. The assignment to `__proto__` does not make a property. -/
def setKey (result : List (String × Value)) (key : String) (value : Value) : List (String × Value) :=
  if key = "__proto__" then result else OMap.assign result key value

/-- The value of a field. -/
def generateValue (parsed : ParsedType) : Random Value :=
  if parsed.isArray then do
    let length ← draw (.int 1 10)
    return .array (← (List.range length.val.toNat).mapM fun _ => getRandomValue parsed.type)
  else getRandomValue parsed.type

def RandomBool : Random Bool := draw .randomBool

/-- `condition && RandomBool()`. -/
def andRandomBool (condition : Bool) : Random Bool := if condition then RandomBool else pure false

/-- A round of the loop for a field. -/
def generateBase (result : List (String × Value)) (key desc : String) : Random (List (String × Value)) := do
  let parsed ← parseFieldType desc
  let result := setKey result key (← generateValue parsed)
  if ← andRandomBool parsed.isNullable then
    return setKey result key .null
  else if ← andRandomBool parsed.isOptional then
    return setKey result key .undefined
  else
    return result

mutual

/-- A round of the loop. -/
def generateField (result : List (String × Value)) (key : String) : FieldDescription → Random (List (String × Value))
  | .array length records => do
    let values ← (List.finRange length).mapM fun i => GenerateTestEvent (records i)
    return setKey result key (.array values)
  | .record documentation => do
    return setKey result key (← GenerateTestEvent documentation)
  | .base type text => generateBase result key (baseFieldDescription type text)

/-- `GenerateTestEvent(documentation)`. -/
def GenerateTestEvent : Documentation → Random Value
  | .mk keys _ get => do
    return .record (← keys.attach.foldlM (fun result key => generateField result key.1 (get key)) [])

end

/-! ## Documented events -/

/-- `EventDocumentation`, with a record of descriptions as the payload. -/
def eventDocumentation (eventId occurredAt name : FieldDescription) (payload : Documentation) : Documentation :=
  .mk ["eventId", "occurredAt", "name", "payload"] (by decide) fun key =>
    if key.1 = "eventId" then eventId else if key.1 = "occurredAt" then occurredAt
    else if key.1 = "name" then name else .record payload

/-- A payload with one field. -/
def onePayload (key : String) (description : FieldDescription) : Documentation :=
  .mk [key] (List.nodup_singleton key) fun _ => description

/-- The documentation of an event with this payload, on top of `baseBody`. -/
def withBaseBody (payload : Documentation) : Documentation :=
  eventDocumentation (.base ⟨.string, false, none⟩ "represent the event id")
    (.base ⟨.isoStringDate, false, none⟩ "represent the event occurred at")
    (.base ⟨.string, false, none⟩ "represent the event name") payload

/-- `SupportedEvents.test`. -/
def SupportedEvents.test : Documentation :=
  withBaseBody (onePayload "testAttribute" (.base ⟨.string, false, none⟩ "represent the some arbitrary data"))

end NodeToolkit.TestEvent
