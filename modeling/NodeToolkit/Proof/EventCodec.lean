import NodeToolkit.Spec.EventCodec

/-!
# The way of an event through RabbitMQ

* `Value.Valid`: the values a payload may have; their text is read back (`toJson_valid`).
* `ofJson_toJson`: what is read back is the value itself if and only if no date is in it.
* `lossless_iff`: a consumer gets the event that was published if and only if its payload has no date
  (and its own date is valid): of all dates only `occurredAt` is revived (`date_becomes_text`).
-/

namespace NodeToolkit.EventCodec

open Date

mutual

/-- A value that a payload may have: finite numbers, valid dates, and records with distinct keys. -/
def Value.Valid : Value → Prop
  | .null => True
  | .bool _ => True
  | .number text => Json.isNumber text.toList
  | .string _ => True
  | .date d => d.isSome = true
  | .array items => ValidItems items
  | .record fields => (fields.map Prod.fst).Nodup ∧ ValidFields fields

def ValidItems : List Value → Prop
  | [] => True
  | x :: items => x.Valid ∧ ValidItems items

def ValidFields : List (String × Value) → Prop
  | [] => True
  | (_, x) :: fields => x.Valid ∧ ValidFields fields

end

mutual

/-- No date is in the value. -/
def Value.Dateless : Value → Prop
  | .null => True
  | .bool _ => True
  | .number _ => True
  | .string _ => True
  | .date _ => False
  | .array items => DatelessItems items
  | .record fields => DatelessFields fields

def DatelessItems : List Value → Prop
  | [] => True
  | x :: items => x.Dateless ∧ DatelessItems items

def DatelessFields : List (String × Value) → Prop
  | [] => True
  | (_, x) :: fields => x.Dateless ∧ DatelessFields fields

end

theorem keys_toJsonFields (fields : List (String × Value)) :
    (toJsonFields fields).map Prod.fst = fields.map Prod.fst := by
  induction fields with
  | nil => rfl
  | cons e fields ih =>
    obtain ⟨key, x⟩ := e
    rw [toJsonFields, List.map_cons, List.map_cons, ih]

mutual

/-- The text of a valid value stands for a value. -/
theorem toJson_valid : ∀ x : Value, x.Valid → x.toJson.Valid
  | .null, _ => trivial
  | .bool _, _ => trivial
  | .number _, h => h
  | .string _, _ => trivial
  | .date none, _ => trivial
  | .date (some _), _ => trivial
  | .array items, h => toJsonItems_valid items h
  | .record fields, h => ⟨by rw [keys_toJsonFields]; exact h.1, toJsonFields_valid fields h.2⟩

theorem toJsonItems_valid : ∀ items : List Value, ValidItems items → Json.ValidItems (toJsonItems items)
  | [], _ => trivial
  | x :: items, h => ⟨toJson_valid x h.1, toJsonItems_valid items h.2⟩

theorem toJsonFields_valid : ∀ fields : List (String × Value), ValidFields fields →
    Json.ValidFields (toJsonFields fields)
  | [], _ => trivial
  | (_, x) :: fields, h => ⟨toJson_valid x h.1, toJsonFields_valid fields h.2⟩

end

mutual

/-- **What is read back** is the value itself just if it has no date. -/
theorem ofJson_toJson : ∀ x : Value, Value.ofJson x.toJson = x ↔ x.Dateless
  | .null => iff_of_true rfl trivial
  | .bool _ => iff_of_true rfl trivial
  | .number _ => iff_of_true rfl trivial
  | .string _ => iff_of_true rfl trivial
  | .date none => iff_of_false (by simp [Value.toJson, Value.ofJson]) not_false
  | .date (some _) => iff_of_false (by simp [Value.toJson, Value.ofJson]) not_false
  | .array items => by
    rw [Value.toJson, Value.ofJson, Value.array.injEq, Value.Dateless]
    exact ofJson_toJsonItems items
  | .record fields => by
    rw [Value.toJson, Value.ofJson, Value.record.injEq, Value.Dateless]
    exact ofJson_toJsonFields fields

theorem ofJson_toJsonItems : ∀ items : List Value, ofJsonItems (toJsonItems items) = items ↔ DatelessItems items
  | [] => iff_of_true rfl trivial
  | x :: items => by
    rw [toJsonItems, ofJsonItems, List.cons.injEq, DatelessItems, ofJson_toJson x, ofJson_toJsonItems items]

theorem ofJson_toJsonFields : ∀ fields : List (String × Value),
    ofJsonFields (toJsonFields fields) = fields ↔ DatelessFields fields
  | [] => iff_of_true rfl trivial
  | (key, x) :: fields => by
    rw [toJsonFields, ofJsonFields, List.cons.injEq, Prod.mk.injEq, DatelessFields, ofJson_toJson x,
      ofJson_toJsonFields fields]
    simp

end

/-- What the consumer makes of the date of an event. -/
theorem newDate_toJson (d : Option Time) : newDate (.ofJson (Value.date d).toJson) = d ↔ d.isSome = true := by
  cases d with
  | none => simp [Value.toJson, Value.ofJson, newDate]
  | some t => simp [Value.toJson, Value.ofJson, newDate, ofISOString_toISOString]

/-- What is read back of a state. -/
theorem ofJson_state (event : Event) : Value.ofJson (Value.record event.state).toJson = .record
    [("eventId", .string event.eventId), ("occurredAt", .ofJson (Value.date event.occurredAt).toJson),
      ("name", .string event.name), ("payload", .record (ofJsonFields (toJsonFields event.payload)))] := by
  unfold Event.state
  rw [Value.toJson, Value.ofJson, toJsonFields, toJsonFields, toJsonFields, toJsonFields, toJsonFields,
    ofJsonFields, ofJsonFields, ofJsonFields, ofJsonFields, ofJsonFields]
  rfl

/-- The event that a consumer gets. -/
theorem consume_content {event : Event} (h : (Value.record event.payload).Valid) : consume event.content =
    some ⟨event.eventId, newDate (.ofJson (Value.date event.occurredAt).toJson), event.name,
      ofJsonFields (toJsonFields event.payload)⟩ := by
  have hvalid : (Value.record event.state).toJson.Valid := by
    have hdate : ∀ d, (Value.date d).toJson.Valid := by
      intro d
      cases d with
      | none => trivial
      | some t => trivial
    have hpayload : (Value.record event.payload).toJson.Valid := toJson_valid _ h
    exact ⟨by rw [keys_toJsonFields]; simp [Event.state], trivial, hdate _, trivial, hpayload, trivial⟩
  unfold consume Event.content
  rw [Json.parse_stringify hvalid, Option.bind_some, ofJson_state]
  rfl

/-- **The codec is lossless** for an event if and only if its payload has no date, at any depth, and
its own date is valid. -/
theorem lossless_iff (event : Event) (h : (Value.record event.payload).Valid) :
    consume event.content = some event ↔ DatelessFields event.payload ∧ event.occurredAt.isSome = true := by
  obtain ⟨eventId, occurredAt, name, payload⟩ := event
  rw [consume_content h, Option.some.injEq, Event.mk.injEq, newDate_toJson, ofJson_toJsonFields]
  simp [and_comm]

/-- An event with all kinds of values but a date. -/
def noted : Event where
  eventId := "e"
  occurredAt := some ⟨1709210096789, by decide, by decide⟩
  name := "noted"
  payload := [("a", .array [.number "1.5", .record [("b", .null)], .string "x"]), ("c", .bool true)]

theorem lossless_noted : consume noted.content = some noted := by
  have hvalid : (Value.record noted.payload).Valid := by
    simp [noted, Value.Valid, ValidFields, ValidItems]
    decide
  exact (lossless_iff noted hvalid).2 ⟨by simp [noted, DatelessFields, Value.Dateless, DatelessItems], rfl⟩

/-- An event with a date in its payload. -/
def dated : Event := { noted with payload := [("at", .date (timeClip 0))] }

/-- **A date in a payload** arrives as its text. -/
theorem date_becomes_text : (consume dated.content).map Event.payload =
    some [("at", .string "1970-01-01T00:00:00.000Z")] ∧ consume dated.content ≠ some dated := by
  have hclip : timeClip 0 = some ⟨0, by decide, by decide⟩ := rfl
  have hvalid : (Value.record dated.payload).Valid := by simp [dated, hclip, Value.Valid, ValidFields]
  have htext : Date.toISOString ⟨0, by decide, by decide⟩ = "1970-01-01T00:00:00.000Z" := by decide +kernel
  rw [consume_content hvalid]
  simp [dated, hclip, toJsonFields, ofJsonFields, Value.toJson, Value.ofJson, htext]

end NodeToolkit.EventCodec
