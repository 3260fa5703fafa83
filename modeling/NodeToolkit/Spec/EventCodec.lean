import NodeToolkit.Base.Date
import NodeToolkit.Base.JsonParse

/-!
# Events as messages

`Event.state` and `Event.From`, and the way of an event through RabbitMQ: `JSON.stringify` when it
is published, `JSON.parse` when it is consumed. A number is kept as the text JavaScript prints it as,
which is the same for `0` and `-0`, as for `===`.
-/

namespace NodeToolkit.EventCodec

open Date

/-- What a payload is made of. A date is `none` when it is invalid. -/
inductive Value where
  | null
  | bool (b : Bool)
  | number (text : String)
  | string (s : String)
  | date (d : Option Time)
  | array (items : List Value)
  | record (fields : List (String × Value))

abbrev PrimitivesRecord : Type := List (String × Value)

mutual

/-- What `JSON.stringify` makes of a value: `toJSON` of a date is its text, or `null` if it is invalid. -/
def Value.toJson : Value → Json
  | .null => .null
  | .bool b => .bool b
  | .number text => .number text
  | .string s => .string s
  | .date none => .null
  | .date (some t) => .string (Date.toISOString t)
  | .array items => .array (toJsonItems items)
  | .record fields => .object (toJsonFields fields)

def toJsonItems : List Value → List Json
  | [] => []
  | x :: items => x.toJson :: toJsonItems items

def toJsonFields : List (String × Value) → List (String × Json)
  | [] => []
  | (key, x) :: fields => (key, x.toJson) :: toJsonFields fields

end

mutual

/-- What `JSON.parse` returns. -/
def Value.ofJson : Json → Value
  | .null => .null
  | .bool b => .bool b
  | .number text => .number text
  | .string s => .string s
  | .array items => .array (ofJsonItems items)
  | .object fields => .record (ofJsonFields fields)

def ofJsonItems : List Json → List Value
  | [] => []
  | x :: items => .ofJson x :: ofJsonItems items

def ofJsonFields : List (String × Json) → List (String × Value)
  | [] => []
  | (key, x) :: fields => (key, .ofJson x) :: ofJsonFields fields

end

structure Event where
  eventId : String
  occurredAt : Option Time
  name : String
  payload : PrimitivesRecord

def Event.state (event : Event) : PrimitivesRecord :=
  [("eventId", .string event.eventId),
    ("occurredAt", .date event.occurredAt),
    ("name", .string event.name),
    ("payload", .record event.payload)]

/-- `new Date(occurredAt)` of the `occurredAt` of a state, before or after its way through a text. -/
def newDate : Value → Option Time
  | .date d => d
  | .string text => ofISOString text
  | .null => some ⟨0, by decide, by decide⟩
  | .bool _ => none
  | .number _ => none
  | .array _ => none
  | .record _ => none

/-- `Event.From`; `none` when the argument is not a state. -/
def Event.From (state : Value) : Option Event :=
  match state with
  | .record fields =>
    match fields.lookup "eventId", fields.lookup "occurredAt", fields.lookup "name", fields.lookup "payload" with
    | some (.string eventId), some occurredAt, some (.string name), some (.record payload) =>
      some ⟨eventId, newDate occurredAt, name, payload⟩
    | _, _, _, _ => none
  | _ => none

/-- The content of the message that `publish` sends. -/
def Event.content (event : Event) : String := (Value.record event.state).toJson.stringify

/-- The event that a consumer makes of a message. -/
def consume (content : String) : Option Event := (Json.parse content).bind fun x => Event.From (.ofJson x)

end NodeToolkit.EventCodec
