import NodeToolkit.Async.Triple
import NodeToolkit.Spec.EventsBroker

/-!
# The registries and the ledger of the events broker

* `registered`: the handlers that a run of calls registers; `Registry` says where the broker
  keeps them, and `Registry.register` that every registration keeps it so.
* `handlerOf_isSome`: a registered handler that is interested in an event is found by a retry.
* `starts`, `succeeded`: what the ledger says about one handler and one `publish`.
* `get_save`: the records after one more has been saved.
-/

namespace NodeToolkit.EventsBroker

open Async

variable {P : Type}

/-! ## Handlers -/

/-- A handler, and the events it is for: those of a name, or all. -/
structure Registration where
  handler : Handler
  eventName : Option String
deriving DecidableEq

def Call.registration : Call P → Option Registration
  | .registerEventHandler handler => some ⟨handler.toHandler, some handler.eventName⟩
  | .registerUniversalEventHandler handler => some ⟨handler, none⟩
  | .publish _ _ => none
  | .retryFailedEvents => none

/-- A registration counts if the handler is enabled and its id is new. -/
def register (rs : List Registration) (r : Registration) : List Registration :=
  if r.handler.disabled = true ∨ r.handler.id ∈ rs.map (·.handler.id) then rs else rs ++ [r]

/-- **The registered handlers** after some calls: the enabled ones, the first of each id. -/
def registered (cs : List (Call P)) : List Registration := (cs.filterMap Call.registration).foldl register []

/-- The handlers for the events of a name: the universal ones first, each group in the order of registration. -/
def interested (rs : List Registration) (name : String) : List Handler :=
  ((rs.filter fun r => r.eventName = none) ++ rs.filter fun r => r.eventName = some name).map (·.handler)

/-- The broker keeps the registered handlers, and their ids are distinct. -/
structure Registry (rs : List Registration) (s : Broker P) : Prop where
  universal : s.universalEventHandlers = (rs.filter fun r => r.eventName = none).map (·.handler)
  specific : ∀ name, ((s.eventHandlers.get name).getD []).map EventHandler.toHandler =
    (rs.filter fun r => r.eventName = some name).map (·.handler)
  ids : (rs.map (·.handler.id)).Nodup

section Registry

variable {rs : List Registration} {s s' : Broker P} {r : Registration} {id name : String}

theorem registry_empty : Registry [] (Broker.empty : Broker P) where
  universal := rfl
  specific := fun _ => rfl
  ids := List.nodup_nil

/-- The registry depends on the two collections of handlers only. -/
theorem Registry.congr (h : Registry rs s) (hu : s'.universalEventHandlers = s.universalEventHandlers)
    (he : s'.eventHandlers = s.eventHandlers) : Registry rs s' :=
  ⟨hu.trans h.universal, fun name => by rw [he]; exact h.specific name, h.ids⟩

/-- **The check of a registration** finds the registered handlers. -/
theorem Registry.registered_iff (h : Registry rs s) :
    s.registered id = true ↔ id ∈ rs.map (·.handler.id) := by
  have huniversal : (s.universalEventHandlers.find? fun h => h.id = id).isSome = true ↔
      ∃ r ∈ rs, r.eventName = none ∧ r.handler.id = id := by
    rw [h.universal, List.find?_isSome]
    simp [and_assoc]
  have hspecific : (s.eventHandlers.values.find? fun hs => (hs.find? fun h => h.id = id).isSome).isSome = true ↔
      ∃ r ∈ rs, (∃ name, r.eventName = some name) ∧ r.handler.id = id := by
    rw [List.find?_isSome]
    constructor
    · rintro ⟨hs, hmem, hfind⟩
      obtain ⟨name, hname⟩ := OMap.mem_values.1 hmem
      obtain ⟨handler, hin, hid⟩ := List.find?_isSome.1 hfind
      have hlist := h.specific name
      rw [hname, Option.getD_some] at hlist
      have hhandler := List.mem_map_of_mem (f := EventHandler.toHandler) hin
      rw [hlist] at hhandler
      obtain ⟨r, hr, hreg⟩ := List.mem_map.1 hhandler
      rw [List.mem_filter] at hr
      refine ⟨r, hr.1, ⟨name, by simpa using hr.2⟩, ?_⟩
      rw [hreg]
      simpa using hid
    · rintro ⟨r, hr, ⟨name, hname⟩, hid⟩
      have hmem : r.handler ∈ ((s.eventHandlers.get name).getD []).map EventHandler.toHandler := by
        rw [h.specific name]
        exact List.mem_map_of_mem (List.mem_filter.2 ⟨hr, by simpa using hname⟩)
      obtain ⟨handler, hin, hreg⟩ := List.mem_map.1 hmem
      cases hget : s.eventHandlers.get name with
      | none => simp [hget] at hin
      | some hs =>
        rw [hget, Option.getD_some] at hin
        refine ⟨hs, OMap.mem_values.2 ⟨name, hget⟩, List.find?_isSome.2 ⟨handler, hin, ?_⟩⟩
        rw [← hreg] at hid
        simpa using hid
  -- a registration is either for all events or for those of a name
  unfold Broker.registered
  rw [Bool.or_eq_true, huniversal, hspecific, List.mem_map]
  constructor
  · rintro (⟨r, hr, -, hid⟩ | ⟨r, hr, -, hid⟩)
    · exact ⟨r, hr, hid⟩
    · exact ⟨r, hr, hid⟩
  · rintro ⟨r, hr, hid⟩
    cases hname : r.eventName with
    | none => exact Or.inl ⟨r, hr, hname, hid⟩
    | some name => exact Or.inr ⟨r, hr, ⟨name, hname⟩, hid⟩

/-- Ids stay distinct. -/
theorem nodup_register (h : (rs.map (·.handler.id)).Nodup) : ((register rs r).map (·.handler.id)).Nodup := by
  unfold register
  split
  · exact h
  · rename_i hnew
    rw [List.map_append, List.nodup_append]
    refine ⟨h, List.nodup_singleton _, fun a ha b hb hab => hnew (Or.inr ?_)⟩
    rw [List.map_singleton, List.mem_singleton] at hb
    rw [← hb, ← hab]
    exact ha

/-- A handler that is enabled and has a new id is added. -/
theorem register_new (hen : r.handler.disabled = false) (hnew : r.handler.id ∉ rs.map (·.handler.id)) :
    register rs r = rs ++ [r] := by
  unfold register
  rw [if_neg]
  rintro (hdis | hmem)
  · rw [hen] at hdis
    exact Bool.noConfusion hdis
  · exact hnew hmem

/-- Any other is not. -/
theorem register_old (h : r.handler.disabled = true ∨ r.handler.id ∈ rs.map (·.handler.id)) :
    register rs r = rs := if_pos h

/-- The list of a name after `push`. -/
theorem get_push {α : Type} (m : OMap String (List α)) (eventName : String) (handler : α) (name : String) :
    (((if (m.get eventName).isNone then m.set eventName [] else m).set eventName
      (((if (m.get eventName).isNone then m.set eventName [] else m).get eventName).getD [] ++ [handler])).get
        name).getD [] = (m.get name).getD [] ++ if eventName = name then [handler] else [] := by
  have hold : ∀ name, ((if (m.get eventName).isNone then m.set eventName [] else m).get name).getD [] =
      (m.get name).getD [] := by
    intro name
    split
    · rename_i hnone
      rw [OMap.get_set]
      split
      · rename_i heq
        rw [← heq, Option.isNone_iff_eq_none.1 hnone, Option.getD_some, Option.getD_none]
      · rfl
    · rfl
  rw [OMap.get_set]
  by_cases hname : eventName = name
  · rw [if_pos hname, if_pos hname, Option.getD_some, hold, hname]
  · rw [if_neg hname, if_neg hname, hold, List.append_nil]

/-- **Registering a handler for the events of a name.** -/
theorem Registry.registerEventHandler (h : Registry rs s) (handler : EventHandler) :
    Registry (register rs ⟨handler.toHandler, some handler.eventName⟩) (s.registerEventHandler handler).1 := by
  unfold Broker.registerEventHandler
  by_cases hdis : handler.disabled = true
  · rw [if_pos hdis, register_old (Or.inl hdis)]
    exact h
  · rw [if_neg hdis]
    by_cases htaken : s.registered handler.id = true
    · rw [if_pos htaken, register_old (Or.inr (h.registered_iff.1 htaken))]
      exact h
    · rw [if_neg htaken]
      have hids := nodup_register (r := ⟨handler.toHandler, some handler.eventName⟩) h.ids
      have hnew : handler.id ∉ rs.map (·.handler.id) := fun hmem => htaken (h.registered_iff.2 hmem)
      rw [register_new (by simpa using hdis) hnew] at hids ⊢
      refine ⟨?_, fun name => ?_, hids⟩
      · rw [List.filter_append, List.filter_singleton]
        simpa using h.universal
      · dsimp only
        rw [get_push, List.map_append, h.specific, List.filter_append, List.map_append, List.filter_singleton]
        by_cases hname : handler.eventName = name
        · simp [hname]
        · simp [hname]

/-- **Registering a handler for all events.** -/
theorem Registry.registerUniversalEventHandler (h : Registry rs s) (handler : Handler) :
    Registry (register rs ⟨handler, none⟩) (s.registerUniversalEventHandler handler).1 := by
  unfold Broker.registerUniversalEventHandler
  by_cases hdis : handler.disabled = true
  · rw [if_pos hdis, register_old (Or.inl hdis)]
    exact h
  · rw [if_neg hdis]
    by_cases htaken : s.registered handler.id = true
    · rw [if_pos htaken, register_old (Or.inr (h.registered_iff.1 htaken))]
      exact h
    · rw [if_neg htaken]
      have hids := nodup_register (r := ⟨handler, none⟩) h.ids
      have hnew : handler.id ∉ rs.map (·.handler.id) := fun hmem => htaken (h.registered_iff.2 hmem)
      rw [register_new (by simpa using hdis) hnew] at hids ⊢
      refine ⟨?_, fun name => ?_, hids⟩
      · rw [List.filter_append, List.filter_singleton, List.map_append, ← h.universal]
        simp
      · rw [List.filter_append, List.filter_singleton]
        simpa using h.specific name

/-- The handlers of a `publish` are the interested ones. -/
theorem Registry.interested_eq (h : Registry rs s) (name : String) : s.universalEventHandlers ++
    ((s.eventHandlers.get name).getD []).map EventHandler.toHandler = interested rs name := by
  rw [h.universal, h.specific, interested, List.map_append]

/-- The handlers of an event are the universal ones and those of its name. -/
theorem mem_interested {handler : Handler} : handler ∈ interested rs name ↔
    ∃ r ∈ rs, (r.eventName = none ∨ r.eventName = some name) ∧ r.handler = handler := by
  simp only [interested, List.mem_map, List.mem_append, List.mem_filter, decide_eq_true_eq]
  constructor
  · rintro ⟨r, ⟨hr, hname⟩ | ⟨hr, hname⟩, rfl⟩
    · exact ⟨r, hr, Or.inl hname, rfl⟩
    · exact ⟨r, hr, Or.inr hname, rfl⟩
  · rintro ⟨r, hr, hname | hname, rfl⟩
    · exact ⟨r, Or.inl ⟨hr, hname⟩, rfl⟩
    · exact ⟨r, Or.inr ⟨hr, hname⟩, rfl⟩

/-- Handlers with the same id are the same. -/
theorem Registry.eq_of_id (h : Registry rs s) {a b : Handler} (ha : a ∈ interested rs name)
    (hb : b ∈ interested rs name) (hid : a.id = b.id) : a = b := by
  obtain ⟨ra, hra, -, rfl⟩ := mem_interested.1 ha
  obtain ⟨rb, hrb, -, rfl⟩ := mem_interested.1 hb
  rw [List.inj_on_of_nodup_map h.ids hra hrb hid]

theorem Registry.interested_ids (h : Registry rs s) (name : String) : ((interested rs name).map (·.id)).Nodup := by
  have hdisjoint : (rs.filter fun r => r.eventName = none).Disjoint (rs.filter fun r => r.eventName = some name) := by
    intro r hnone hsome
    have h1 := (List.mem_filter.1 hnone).2
    have h2 := (List.mem_filter.1 hsome).2
    simp_all
  have hnodup : ((rs.filter fun r => r.eventName = none) ++ rs.filter fun r => r.eventName = some name).Nodup := by
    have hrs : rs.Nodup := List.Nodup.of_map _ h.ids
    exact List.Nodup.append (hrs.filter _) (hrs.filter _) hdisjoint
  -- the list itself has no duplicates, and its handlers come from `rs`, where ids are distinct
  unfold interested
  rw [List.map_map]
  refine hnodup.map_on fun a ha b hb hab => List.inj_on_of_nodup_map h.ids ?_ ?_ hab
  · rcases List.mem_append.1 ha with ha | ha
    · exact List.mem_of_mem_filter ha
    · exact List.mem_of_mem_filter ha
  · rcases List.mem_append.1 hb with hb | hb
    · exact List.mem_of_mem_filter hb
    · exact List.mem_of_mem_filter hb

/-- What a retry finds has the id of the record. -/
theorem handlerOf_id {failed : FailedEvent P} {handler : Handler} (h : s.handlerOf failed = some handler) :
    handler.id = failed.handlerId := by
  unfold Broker.handlerOf at h
  rcases Option.or_eq_some_iff.1 h with hs | ⟨-, hu⟩
  · obtain ⟨eventHandler, hfind, rfl⟩ := Option.map_eq_some_iff.1 hs
    obtain ⟨hs', -, hfind'⟩ := Option.bind_eq_some_iff.1 hfind
    simpa using List.find?_some hfind'
  · simpa using List.find?_some hu

/-- **A retry finds** an interested handler. -/
theorem Registry.handlerOf_isSome (h : Registry rs s) {failed : FailedEvent P}
    (hid : ∃ handler ∈ interested rs failed.event.name, handler.id = failed.handlerId) :
    ∃ handler, s.handlerOf failed = some handler := by
  obtain ⟨handler, hmem, hid⟩ := hid
  rw [← h.interested_eq failed.event.name, List.mem_append] at hmem
  refine Option.isSome_iff_exists.1 ?_
  unfold Broker.handlerOf
  rw [Option.isSome_or, Bool.or_eq_true, Option.isSome_map]
  rcases hmem with hmem | hmem
  · exact Or.inr (List.find?_isSome.2 ⟨handler, hmem, by simpa using hid⟩)
  · left
    obtain ⟨eventHandler, hin, rfl⟩ := List.mem_map.1 hmem
    cases hget : s.eventHandlers.get failed.event.name with
    | none => simp [hget] at hin
    | some hs =>
      rw [hget, Option.getD_some] at hin
      exact List.find?_isSome.2 ⟨eventHandler, hin, by simpa using hid⟩

end Registry

/-! ## The ledger -/

/-- The invocation of a handler by a `publish`. -/
def invoke (n : ℕ) (event : Event P) (session : String) (handler : Handler) : Invocation P :=
  ⟨n, handler.id, event, session⟩

def Entry.start : Entry P → Option (Invocation P)
  | .started v => some v
  | .settled _ _ => none

/-- The invocations that a part of the ledger starts. -/
def starts (l : List (Entry P)) : List (Invocation P) := l.filterMap Entry.start

/-- The invocation is one of a handler for a `publish`. -/
def Invocation.isOf (n : ℕ) (id : String) (v : Invocation P) : Bool := v.publication = n ∧ v.handlerId = id

/-- An invocation of a handler for a `publish` ends without an error. -/
def Entry.succeeds (n : ℕ) (id : String) : Entry P → Bool
  | .settled v none => v.isOf n id
  | .settled _ (some _) => false
  | .started _ => false

def succeeded (n : ℕ) (id : String) (l : List (Entry P)) : Bool := l.any (Entry.succeeds n id)

section Ledger

variable {l l' : List (Entry P)} {v : Invocation P} {n : ℕ} {id : String} {error : Option String}

@[simp] theorem starts_nil : starts ([] : List (Entry P)) = [] := rfl

@[simp] theorem starts_append : starts (l ++ l') = starts l ++ starts l' := List.filterMap_append

@[simp] theorem starts_started : starts (.started v :: l) = v :: starts l := rfl

@[simp] theorem starts_settled : starts (.settled v error :: l) = starts l := rfl

@[simp] theorem succeeded_nil : succeeded n id ([] : List (Entry P)) = false := rfl

@[simp] theorem succeeded_append : succeeded n id (l ++ l') = (succeeded n id l || succeeded n id l') :=
  List.any_append

@[simp] theorem succeeded_started : succeeded n id (.started v :: l) = succeeded n id l := rfl

@[simp] theorem succeeded_settled :
    succeeded n id (.settled v error :: l) = ((error.isNone && v.isOf n id) || succeeded n id l) := by
  cases error with
  | none => simp [succeeded, Entry.succeeds]
  | some e => simp [succeeded, Entry.succeeds]

theorem isOf_iff : v.isOf n id = true ↔ v.publication = n ∧ v.handlerId = id := by simp [Invocation.isOf]

theorem isOf_eq_false : v.isOf n id = false ↔ ¬ (v.publication = n ∧ v.handlerId = id) := by
  rw [← isOf_iff, Bool.not_eq_true]

@[simp] theorem log_ledger (s : Broker P) (entry : Entry P) : (s.log entry).ledger = s.ledger ++ [entry] := rfl

end Ledger

/-! ## Retries -/

/-- The invocation that a record is about. -/
def Filed.invocation (filed : Filed P) : Invocation P :=
  ⟨filed.publication, filed.handlerId, filed.event, filed.sessionCorrelationId⟩

section Retries

variable {s : Broker P} {id : String} {filed : Filed P} {handler : Handler}

/-- A retry of a record whose handler is found starts it. -/
theorem startRetry_some (hget : s.failedEvents.get id = some filed)
    (hfound : s.handlerOf filed.toFailedEvent = some handler) (now : ℕ) :
    s.startRetry id now = (({ s with failedEvents := s.failedEvents.set id { filed with
      lastProcessingTryDate := now, retries := filed.retries + 1 } }).log (.started filed.invocation),
      some filed.invocation) := by
  have hid := handlerOf_id hfound
  unfold Broker.startRetry
  simp only [hget, hfound, hid]
  rfl

/-- What comes of a retry is written into the record. -/
theorem endRetry_some (hget : s.failedEvents.get id = some filed) (error : Option String) :
    s.endRetry id error = { s with failedEvents := s.failedEvents.set id { filed with
      lastError := error.getD filed.lastError
      processedSuccessfully := filed.processedSuccessfully || error.isNone } } := by
  unfold Broker.endRetry
  simp only [hget]
  cases error with
  | none => simp
  | some e => simp

/-- The ids of a pass are those of the records with retries left, each once. -/
theorem mem_unsuccessfull : id ∈ s.unsuccessfull ↔ ∃ filed, s.failedEvents.get id = some filed ∧
    filed.processedSuccessfully = false ∧ filed.retries < filed.handlerMaxRetries := by
  simp only [Broker.unsuccessfull, List.mem_map, List.mem_filter, Bool.and_eq_true, Bool.not_eq_true',
    decide_eq_true_eq]
  constructor
  · rintro ⟨⟨id', filed⟩, ⟨hmem, hopen⟩, rfl⟩
    exact ⟨filed, OMap.get_eq_some.2 hmem, hopen⟩
  · rintro ⟨filed, hget, hopen⟩
    exact ⟨(id, filed), ⟨OMap.get_eq_some.1 hget, hopen⟩, rfl⟩

/-- No record is listed twice. -/
theorem unsuccessfull_nodup : s.unsuccessfull.Nodup :=
  s.failedEvents.nodup.sublist (List.filter_sublist.map _)

end Retries

/-! ## Saving a record -/

section Save

variable {uuid : ℕ → String} {s : Broker P} {record filed : Filed P} {id : String}

/-- **A record under a new id** leaves the others as they are. -/
theorem get_save (hu : Function.Injective uuid)
    (hgenerated : ∀ id filed, s.failedEvents.get id = some filed → ∃ i < s.generated, id = uuid i) :
    (s.failedEvents.set (uuid s.generated) record).get id = some filed ↔
      uuid s.generated = id ∧ record = filed ∨ s.failedEvents.get id = some filed := by
  rw [OMap.get_set]
  by_cases hid : uuid s.generated = id
  · have hfresh : s.failedEvents.get id ≠ some filed := by
      intro hget
      obtain ⟨j, hj, heq⟩ := hgenerated id filed hget
      have hsame := hu (hid.trans heq)
      omega
    rw [if_pos hid]
    simp [hid, hfresh]
  · rw [if_neg hid]
    simp [hid]

/-- Its id is one of the generated ones from then on. -/
theorem generated_save (hu : Function.Injective uuid)
    (hgenerated : ∀ id filed, s.failedEvents.get id = some filed → ∃ i < s.generated, id = uuid i)
    (hget : (s.failedEvents.set (uuid s.generated) record).get id = some filed) :
    ∃ i < s.generated + 1, id = uuid i := by
  rcases (get_save hu hgenerated).1 hget with ⟨rfl, -⟩ | hold
  · exact ⟨s.generated, Nat.lt_succ_self _, rfl⟩
  · obtain ⟨j, hj, heq⟩ := hgenerated id filed hold
    exact ⟨j, Nat.lt_succ_of_lt hj, heq⟩

end Save

end NodeToolkit.EventsBroker
