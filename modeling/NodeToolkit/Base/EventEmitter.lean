import NodeToolkit.Base.OMap

/-!
# Event emitters

`EventEmitter` of Node, as its documentation describes it: an emission calls the listeners of a
name one after another, in the order in which they were added. Two names are special. An emission
of `'error'` that no listener is there for throws, and before a listener is added the emitter
itself emits `'newListener'`.

What a listener does is left open: `emit` and `on` give the listeners that are to be called.
-/

namespace NodeToolkit

/-- An emitter whose listeners are values of `L`. -/
structure EventEmitter (L : Type) where
  events : OMap String (List L)

namespace EventEmitter

variable {L : Type}

def empty : EventEmitter L := ⟨.empty⟩

def listeners (m : EventEmitter L) (eventName : String) : List L := (m.events.get eventName).getD []

/-- `emit(eventName, …)`: the listeners that it calls, or the code of what it throws. -/
def emit (m : EventEmitter L) (eventName : String) : Except String (List L) :=
  if eventName = "error" ∧ m.listeners eventName = [] then .error "ERR_UNHANDLED_ERROR"
  else .ok (m.listeners eventName)

/-- `on(eventName, listener)`, and the listeners of `'newListener'` that it calls before. -/
def on (m : EventEmitter L) (eventName : String) (listener : L) : EventEmitter L × List L :=
  (⟨m.events.set eventName (m.listeners eventName ++ [listener])⟩, m.listeners "newListener")

variable {m : EventEmitter L} {name eventName : String} {listener : L}

@[simp] theorem listeners_empty : (empty : EventEmitter L).listeners name = [] := rfl

@[simp] theorem listeners_on : (m.on eventName listener).1.listeners name =
    m.listeners name ++ if eventName = name then [listener] else [] := by
  unfold on
  rw [listeners, OMap.get_set]
  by_cases h : eventName = name
  · rw [if_pos h, if_pos h, Option.getD_some, h]
  · rw [if_neg h, if_neg h, List.append_nil]
    rfl

theorem emit_ok (h : ¬ (name = "error" ∧ m.listeners name = [])) : m.emit name = .ok (m.listeners name) := if_neg h

theorem emit_error (h : m.listeners "error" = []) : m.emit "error" = .error "ERR_UNHANDLED_ERROR" := if_pos ⟨rfl, h⟩

end EventEmitter

end NodeToolkit
