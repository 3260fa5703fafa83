import Mathlib.Data.List.Induction
import Mathlib.Data.Multiset.Filter
import Mathlib.Data.Multiset.MapFold
import NodeToolkit.Proof.DeliveryLedger
import NodeToolkit.Spec.NodeNativeEventsBroker

/-!
# Two events brokers, one account

An `Account` says what a broker is for: the registered handlers, the invocations and the failure
records as multisets, without generated ids and dates.

* `Kept.call`: `InMemoryEventsBroker` keeps the account in every call.
* `Held.call`: `NodeNativeEventsBroker` keeps it in every `Plain` call. A call is not plain if it
  registers an id again, or any handler while one listens for `'newListener'`; if it publishes
  while a handler is registered under the reserved name, or under that name itself; or if it
  publishes an `'error'` that no handler is for.
* `interchangeable_iff`: the brokers agree at every point of a run if and only if its calls are plain.
-/

namespace NodeToolkit.NodeNative

open Async
open EventsBroker (Event Handler Call Reply Registration Registry register registered registeredBy interested starts)

variable {P : Type}

/-! ## The account -/

/-- A record of the other broker. -/
def ofMemory (filed : EventsBroker.Filed P) : Filed P where
  id := filed.id
  event := .event filed.event
  eventOccuredAt := some filed.eventOccuredAt
  handlerId := filed.handlerId
  handlerMaxRetries := filed.handlerMaxRetries
  sessionCorrelationId := some filed.sessionCorrelationId
  retries := filed.retries
  lastError := filed.lastError
  lastProcessingTryDate := filed.lastProcessingTryDate
  processedSuccessfully := filed.processedSuccessfully
  publication := filed.publication

/-- A record without its generated id and its date. -/
def Filed.content (filed : Filed P) : Filed P := { filed with id := "", lastProcessingTryDate := 0 }

/-- The handlers that a `publish` is for, with their invocations. -/
def callsOf (rs : List Registration) (n : ℕ) (event : Event P) (session : String) : List (Handler × Delivery P) :=
  (interested rs event.name).map fun handler => (handler, ⟨n, handler.id, .event event, some session⟩)

/-- The record that an invocation leaves. -/
def failureOf (w : World P) (call : Handler × Delivery P) : Option (Filed P) :=
  (w.error call.2).map fun e => ⟨failedEvent "" call.1 call.2 e 0, call.2.publication⟩

def Filed.isDue (filed : Filed P) : Bool := !filed.processedSuccessfully && filed.retries < filed.handlerMaxRetries

/-- The invocation that a retry of the record makes. -/
def Filed.delivery (filed : Filed P) : Delivery P :=
  ⟨filed.publication, filed.handlerId, filed.event, filed.sessionCorrelationId⟩

theorem coe_filter_isDue (l : List (Filed P)) :
    ((l.filter Filed.isDue : List (Filed P)) : Multiset (Filed P)) = (l : Multiset (Filed P)).filter fun f => f.isDue := by
  rw [Multiset.filter_coe]
  simp

/-- The record after a retry. -/
def retried (w : World P) (now : ℕ) (filed : Filed P) : Filed P :=
  { filed with
    lastProcessingTryDate := now
    retries := filed.retries + 1
    lastError := (w.error filed.delivery).getD filed.lastError
    processedSuccessfully := filed.processedSuccessfully || (w.error filed.delivery).isNone }

/-- **What a broker is for.** -/
structure Account (P : Type) where
  registrations : List Registration
  publications : ℕ
  deliveries : Multiset (Delivery P)
  failures : Multiset (Filed P)

def Account.empty : Account P := ⟨[], 0, 0, 0⟩

def Account.next (a : Account P) (w : World P) : Call P → Account P
  | .registerEventHandler handler =>
    { a with registrations := register a.registrations ⟨handler.toHandler, some handler.eventName⟩ }
  | .registerUniversalEventHandler handler => { a with registrations := register a.registrations ⟨handler, none⟩ }
  | .publish event session =>
    let calls := callsOf a.registrations a.publications event session
    { a with
      publications := a.publications + 1
      deliveries := a.deliveries + ↑(calls.map Prod.snd)
      failures := a.failures + ↑(calls.filterMap (failureOf w)) }
  | .retryFailedEvents =>
    { a with
      deliveries := a.deliveries + (a.failures.filter fun f => f.isDue).map Filed.delivery
      failures := a.failures.map fun f => if f.isDue then retried w 0 f else f }

/-- Which calls are accepted. -/
def Account.accepts (a : Account P) (c : Call P) : Bool :=
  match c.registration with
  | none => true
  | some r => r.handler.disabled || decide (r.handler.id ∉ a.registrations.map (·.handler.id))

/-- Ids are distinct, and every record is one of a registered handler for its event. -/
structure Account.Known (a : Account P) : Prop where
  ids : (a.registrations.map (·.handler.id)).Nodup
  found : ∀ f ∈ a.failures, ∃ event, f.event = .event event ∧
    ∃ handler ∈ interested a.registrations event.name, handler.id = f.handlerId

section Account

variable {a : Account P} {w : World P} {c : Call P}

theorem known_empty : (Account.empty : Account P).Known :=
  ⟨List.nodup_nil, fun f hf => absurd hf (Multiset.notMem_zero f)⟩

theorem registrations_next : (a.next w c).registrations = registeredBy a.registrations c := by
  cases c with
  | registerEventHandler handler => rfl
  | registerUniversalEventHandler handler => rfl
  | publish event session => rfl
  | retryFailedEvents => rfl

/-- A handler that has been interested stays so. -/
theorem interested_register {rs : List Registration} {r : Registration} {name : String} {handler : Handler}
    (h : handler ∈ interested rs name) : handler ∈ interested (register rs r) name := by
  obtain ⟨r', hr', hname, hhandler⟩ := EventsBroker.mem_interested.1 h
  exact EventsBroker.mem_interested.2 ⟨r', EventsBroker.mem_register hr', hname, hhandler⟩

/-- **Every call** keeps records findable. -/
theorem Account.Known.next (h : a.Known) : (a.next w c).Known := by
  have hregister : ∀ r, Known { a with registrations := register a.registrations r } := by
    intro r
    refine ⟨EventsBroker.nodup_register h.ids, fun f hf => ?_⟩
    obtain ⟨event, hevent, handler, hmem, hid⟩ := h.found f hf
    exact ⟨event, hevent, handler, interested_register hmem, hid⟩
  cases c with
  | registerEventHandler handler => exact hregister _
  | registerUniversalEventHandler handler => exact hregister _
  | publish event session =>
    refine ⟨h.ids, fun f hf => ?_⟩
    rcases Multiset.mem_add.1 hf with hold | hnew
    · exact h.found f hold
    · obtain ⟨call, hcall, hfailure⟩ := List.mem_filterMap.1 (Multiset.mem_coe.1 hnew)
      obtain ⟨handler, hmem, rfl⟩ := List.mem_map.1 hcall
      obtain ⟨e, -, rfl⟩ := Option.map_eq_some_iff.1 hfailure
      exact ⟨event, rfl, handler, hmem, rfl⟩
  | retryFailedEvents =>
    refine ⟨h.ids, fun f hf => ?_⟩
    obtain ⟨f₀, hf₀, rfl⟩ := Multiset.mem_map.1 hf
    have hsame : ∀ f : Filed P, (if f.isDue then retried w 0 f else f).event = f.event ∧
        (if f.isDue then retried w 0 f else f).handlerId = f.handlerId := by
      intro f
      split
      · exact ⟨rfl, rfl⟩
      · exact ⟨rfl, rfl⟩
    rw [(hsame f₀).1, (hsame f₀).2]
    exact h.found f₀ hf₀

end Account

/-! ## Generated ids -/

/-- The ids still to come are new. -/
def Fresh {α : Type} (uuid : ℕ → String) (m : OMap String α) (n : ℕ) : Prop := ∀ i, n ≤ i → uuid i ∉ m.keys

section Fresh

variable {α : Type} {uuid : ℕ → String} {m : OMap String α} {n : ℕ} {v : α}

theorem fresh_empty : Fresh uuid (OMap.empty : OMap String α) n := fun _ _ => List.not_mem_nil

/-- The next id is free. -/
theorem Fresh.get (h : Fresh uuid m n) : m.get (uuid n) = none := OMap.get_eq_none.2 (h n le_rfl)

/-- And so is the one after it is used. -/
theorem Fresh.save (hu : Function.Injective uuid) (h : Fresh uuid m n) : Fresh uuid (m.set (uuid n) v) (n + 1) := by
  intro i hi hmem
  rw [OMap.keys_set_of_not_mem (h n le_rfl), List.mem_append, List.mem_singleton] at hmem
  rcases hmem with hold | hnew
  · exact h i (by omega) hold
  · have heq := hu hnew
    omega

/-- A saved record comes last. -/
theorem Fresh.values (h : Fresh uuid m n) : (m.set (uuid n) v).values = m.values ++ [v] := by
  rw [OMap.values, OMap.entries_set_new h.get, List.map_append]
  rfl

end Fresh

/-! ## The broker that walks its own lists -/

/-- The invocations of a broker, and its records. -/
def ledgerOf (s : EventsBroker.Broker P) : List (Delivery P) := (starts s.ledger).map delivery

def recordsOf (s : EventsBroker.Broker P) : List (Filed P) := s.failedEvents.values.map fun f => (ofMemory f).content

/-- The broker keeps the account. -/
structure Kept (uuid : ℕ → String) (a : Account P) (s : EventsBroker.Broker P) : Prop where
  registry : Registry a.registrations s
  publications : s.publications = a.publications
  deliveries : (ledgerOf s : Multiset (Delivery P)) = a.deliveries
  failures : (recordsOf s : Multiset (Filed P)) = a.failures
  fresh : Fresh uuid s.failedEvents s.generated

/-- Some handlers have been invoked for a `publish`. -/
structure Served (uuid : ℕ → String) (w : World P) (calls : List (Handler × Delivery P))
    (s s' : EventsBroker.Broker P) : Prop where
  universal : s'.universalEventHandlers = s.universalEventHandlers
  specific : s'.eventHandlers = s.eventHandlers
  publications : s'.publications = s.publications
  deliveries : ledgerOf s' = ledgerOf s ++ calls.map Prod.snd
  failures : recordsOf s' = recordsOf s ++ calls.filterMap (failureOf w)
  fresh : Fresh uuid s.failedEvents s.generated → Fresh uuid s'.failedEvents s'.generated

section Memory

variable {uuid : ℕ → String} {w : World P} {a : Account P} {s s' s'' : EventsBroker.Broker P}
  {calls calls' : List (Handler × Delivery P)} {n : ℕ} {event : Event P} {session : String} {handler : Handler}

/-- The broker's commands in the world. -/
abbrev answer (uuid : ℕ → String) (w : World P) (s : EventsBroker.Broker P) (c : EventsBroker.Cmd P) :
    EventsBroker.Broker P × EventsBroker.Resp c := EventsBroker.exec uuid (w.choice c) s c

theorem Served.refl : Served uuid w [] s s := ⟨rfl, rfl, rfl, by simp, by simp, fun h => h⟩

/-- Deliveries one after another. -/
theorem Served.trans (h : Served uuid w calls s s') (h' : Served uuid w calls' s' s'') :
    Served uuid w (calls ++ calls') s s'' where
  universal := h'.universal.trans h.universal
  specific := h'.specific.trans h.specific
  publications := h'.publications.trans h.publications
  deliveries := by rw [h'.deliveries, h.deliveries, List.map_append, List.append_assoc]
  failures := by rw [h'.failures, h.failures, List.filterMap_append, List.append_assoc]
  fresh := fun hf => h'.fresh (h.fresh hf)

/-- **One round** of the loops of `publish`. -/
theorem served_deliver (hu : Function.Injective uuid) (hf : Fresh uuid s.failedEvents s.generated) :
    Served uuid w [(handler, ⟨n, handler.id, .event event, some session⟩)] s
      ((EventsBroker.deliver n event session handler).run (answer uuid w) s).1 := by
  have herror : (w.choice (.settled ⟨n, handler.id, event, session⟩)).error =
      w.error ⟨n, handler.id, .event event, some session⟩ := rfl
  unfold EventsBroker.deliver
  simp only [Prog.run_await, EventsBroker.exec, herror]
  cases he : w.error ⟨n, handler.id, .event event, some session⟩ with
  | none =>
    refine ⟨rfl, rfl, rfl, ?_, ?_, fun h => h⟩
    · simp [ledgerOf, delivery]
    · simp [recordsOf, failureOf, he, EventsBroker.Broker.log]
  | some e =>
    refine ⟨rfl, rfl, rfl, ?_, ?_, fun _ => hf.save hu⟩
    · simp [ledgerOf, delivery, EventsBroker.exec]
    · simp only [Prog.run_await, Prog.run_ret, EventsBroker.exec, recordsOf, EventsBroker.Broker.log,
        EventsBroker.failedEvent, hf.values, List.map_append, List.filterMap_cons, failureOf, he]
      rfl

/-- The loop of the broker in memory over its handlers. -/
theorem served_deliver_all (hu : Function.Injective uuid) (n : ℕ) (event : Event P) (session : String)
    (handlers : List Handler) :
    ∀ {s : EventsBroker.Broker P}, Fresh uuid s.failedEvents s.generated →
    Served uuid w (handlers.map fun handler => (handler, ⟨n, handler.id, .event event, some session⟩)) s
      ((Prog.forEach (EventsBroker.deliver n event session) handlers).run (answer uuid w) s).1 := by
  induction handlers with
  | nil => exact fun _ => .refl
  | cons handler handlers ih =>
    intro s hf
    rw [Prog.forEach_cons, Prog.run_bind, List.map_cons]
    have hone : Served uuid w [(handler, ⟨n, handler.id, .event event, some session⟩)] s
        ((EventsBroker.deliver n event session handler).run (answer uuid w) s).1 := served_deliver hu hf
    exact hone.trans (ih (hone.fresh hf))

theorem forEach_toHandler (f : Handler → EventsBroker.Client P Unit) (handlers : List EventsBroker.EventHandler) :
    Prog.forEach (fun handler => f handler.toHandler) handlers =
      Prog.forEach f (handlers.map EventsBroker.EventHandler.toHandler) := by
  induction handlers with
  | nil => rfl
  | cons handler handlers ih => rw [Prog.forEach_cons, ih, List.map_cons, Prog.forEach_cons]

/-- **What a `publish` does.** -/
theorem served_publish (hu : Function.Injective uuid) {rs : List Registration} (hr : Registry rs s)
    (hf : Fresh uuid s.failedEvents s.generated) :
    Served uuid w (callsOf rs s.publications event session) { s with publications := s.publications + 1 }
      ((EventsBroker.publish event session).run (answer uuid w) s).1 := by
  unfold EventsBroker.publish
  simp only [Prog.await_bind, Prog.ret_bind, Prog.run_await, EventsBroker.exec, Prog.run_bind]
  have huniversal := served_deliver_all (w := w) hu s.publications event session s.universalEventHandlers
    (s := { s with publications := s.publications + 1 }) hf
  -- the handlers of the name are those that are there before the universal ones run
  rw [callsOf, ← hr.interested_eq, List.map_append]
  refine huniversal.trans ?_
  rw [huniversal.specific]
  cases hget : s.eventHandlers.get event.name with
  | none => exact .refl
  | some handlers =>
    simp only [Option.getD_some, forEach_toHandler (EventsBroker.deliver s.publications event session)]
    exact served_deliver_all hu s.publications event session _ (huniversal.fresh hf)

/-- A record of this broker after a retry. -/
def retriedFiled (w : World P) (entry : String × EventsBroker.Filed P) : EventsBroker.Filed P :=
  { entry.2 with
    lastProcessingTryDate := w.clock (.startRetry entry.1)
    retries := entry.2.retries + 1
    lastError := (w.error (delivery entry.2.invocation)).getD entry.2.lastError
    processedSuccessfully := entry.2.processedSuccessfully || (w.error (delivery entry.2.invocation)).isNone }

/-- Some records have been retried. -/
structure Passed (w : World P) (entries : List (String × EventsBroker.Filed P))
    (s s' : EventsBroker.Broker P) : Prop where
  universal : s'.universalEventHandlers = s.universalEventHandlers
  specific : s'.eventHandlers = s.eventHandlers
  publications : s'.publications = s.publications
  generated : s'.generated = s.generated
  deliveries : ledgerOf s' = ledgerOf s ++ entries.map fun entry => delivery entry.2.invocation
  failures : s'.failedEvents = entries.foldl (fun m entry => m.set entry.1 (retriedFiled w entry)) s.failedEvents

/-- **One round** of the loop of `retryFailedEvents`. -/
theorem passed_retry {entry : String × EventsBroker.Filed P} (hget : s.failedEvents.get entry.1 = some entry.2)
    (hfound : ∃ handler, s.handlerOf entry.2.toFailedEvent = some handler) :
    Passed w [entry] s ((EventsBroker.retry entry.1).run (answer uuid w) s).1 := by
  obtain ⟨handler, hfound⟩ := hfound
  have hstart := EventsBroker.startRetry_some hget hfound (w.clock (.startRetry entry.1))
  have herror : (w.choice (.settled entry.2.invocation)).error = w.error (delivery entry.2.invocation) := rfl
  have hnow : (w.choice (.startRetry entry.1 : EventsBroker.Cmd P)).now = w.clock (.startRetry entry.1) := rfl
  unfold EventsBroker.retry
  simp only [Prog.run_await, Prog.run_ret, EventsBroker.exec, hnow, hstart, herror]
  rw [EventsBroker.endRetry_some (OMap.get_set_self ..)]
  refine ⟨rfl, rfl, rfl, rfl, ?_, ?_⟩
  · simp [ledgerOf]
  · exact OMap.set_set

theorem passed_retry_all (entries : List (String × EventsBroker.Filed P)) :
    ∀ {s : EventsBroker.Broker P}, (entries.map Prod.fst).Nodup →
    (∀ entry ∈ entries, s.failedEvents.get entry.1 = some entry.2 ∧
      ∃ handler, s.handlerOf entry.2.toFailedEvent = some handler) →
    Passed w entries s ((Prog.forEach EventsBroker.retry (entries.map Prod.fst)).run (answer uuid w) s).1 := by
  induction entries with
  | nil => exact fun _ _ => ⟨rfl, rfl, rfl, rfl, by simp, rfl⟩
  | cons entry entries ih =>
    intro s hnodup hall
    rw [List.map_cons, List.nodup_cons] at hnodup
    obtain ⟨hget, hfound⟩ := hall entry List.mem_cons_self
    have hone : Passed w [entry] s ((EventsBroker.retry entry.1).run (answer uuid w) s).1 := passed_retry hget hfound
    rw [List.map_cons, Prog.forEach_cons, Prog.run_bind]
    -- the round leaves the other records and the handlers as they are
    have hrest := ih hnodup.2 (s := ((EventsBroker.retry entry.1).run (answer uuid w) s).1) (by
      intro entry' hentry'
      obtain ⟨hget', hfound'⟩ := hall entry' (List.mem_cons_of_mem entry hentry')
      have hne : entry.1 ≠ entry'.1 := fun heq => hnodup.1 (heq ▸ List.mem_map_of_mem hentry')
      refine ⟨?_, ?_⟩
      · rw [hone.failures, List.foldl_cons, List.foldl_nil, OMap.get_set_ne _ _ hne, hget']
      · unfold EventsBroker.Broker.handlerOf at hfound' ⊢
        rw [hone.specific, hone.universal]
        exact hfound')
    refine ⟨?_, ?_, ?_, ?_, ?_, ?_⟩
    · exact hrest.universal.trans hone.universal
    · exact hrest.specific.trans hone.specific
    · exact hrest.publications.trans hone.publications
    · exact hrest.generated.trans hone.generated
    · rw [hrest.deliveries, hone.deliveries, List.append_assoc]
      rfl
    · rw [hrest.failures, hone.failures]
      rfl

/-- The records of a pass. -/
def dueOf (s : EventsBroker.Broker P) : List (String × EventsBroker.Filed P) :=
  s.failedEvents.entries.filter fun entry => (ofMemory entry.2).content.isDue

theorem Kept.found (h : Kept uuid a s) (hk : a.Known) {entry : String × EventsBroker.Filed P}
    (hmem : entry ∈ s.failedEvents.entries) : ∃ handler, s.handlerOf entry.2.toFailedEvent = some handler := by
  have hrecord : (ofMemory entry.2).content ∈ a.failures := by
    rw [← h.failures, Multiset.mem_coe]
    exact List.mem_map_of_mem (List.mem_map_of_mem hmem)
  obtain ⟨event, hevent, hfound⟩ := hk.found _ hrecord
  obtain rfl : entry.2.event = event := Subject.event.inj hevent
  exact h.registry.handlerOf_isSome hfound

/-- **What a pass does.** -/
theorem Kept.passed (h : Kept uuid a s) (hk : a.Known) :
    Passed w (dueOf s) s (EventsBroker.retryFailedEvents.run (answer uuid w) s).1 := by
  refine passed_retry_all (dueOf s) ?_ fun entry hentry => ?_
  · exact s.failedEvents.nodup.sublist (List.filter_sublist.map _)
  · have hmem := List.mem_of_mem_filter hentry
    exact ⟨OMap.get_eq_some.2 hmem, h.found hk hmem⟩

/-- **A registration** keeps the account, and is accepted as the account says. -/
theorem Kept.registration (h : Kept uuid a s) {c : Call P} {r : Registration} (hc : c.registration = some r) :
    Kept uuid (a.next w c) (memoryCall uuid s (c, w)).1 ∧ (memoryCall uuid s (c, w)).2.isOk = a.accepts c := by
  let is : ℕ → EventsBroker.Choice := fun _ => ⟨0, none⟩
  have hsame : memoryCall uuid s (c, w) = (EventsBroker.machine uuid).alone s c is := by
    cases c with
    | registerEventHandler handler => rfl
    | registerUniversalEventHandler handler => rfl
    | publish event session => simp [Call.registration] at hc
    | retryFailedEvents => simp [Call.registration] at hc
  have hnext : a.next w c = { a with registrations := register a.registrations r } := by
    cases c with
    | registerEventHandler handler => obtain rfl := Option.some.inj hc; rfl
    | registerUniversalEventHandler handler => obtain rfl := Option.some.inj hc; rfl
    | publish event session => simp [Call.registration] at hc
    | retryFailedEvents => simp [Call.registration] at hc
  obtain ⟨hfailed, hledger, hgenerated, hpublications⟩ := EventsBroker.registration_frame uuid s is hc
  rw [hsame, hnext]
  refine ⟨⟨h.registry.registration hc, hpublications.trans h.publications, ?_, ?_, ?_⟩, ?_⟩
  · rw [ledgerOf, hledger]
    exact h.deliveries
  · rw [recordsOf, hfailed]
    exact h.failures
  · rw [hfailed, hgenerated]
    exact h.fresh
  · have htaken : s.registered r.handler.id = true ↔ r.handler.id ∈ a.registrations.map (·.handler.id) :=
      h.registry.registered_iff
    simp only [Account.accepts, hc]
    rcases EventsBroker.alone_registration uuid s is hc with ⟨heq, hdis⟩ | ⟨heq, hen, hid⟩ | ⟨heq, hen, hid⟩
    · rw [heq, hdis]
      rfl
    · rw [heq, hen, decide_eq_false (not_not_intro (htaken.1 hid))]
      rfl
    · have hnew : r.handler.id ∉ a.registrations.map (·.handler.id) := fun hmem => by
        rw [htaken.2 hmem] at hid
        exact Bool.noConfusion hid
      rw [heq, hen, decide_eq_true hnew]
      rfl

/-- **Every call** keeps the account, and is accepted as the account says. -/
theorem Kept.call (hu : Function.Injective uuid) (h : Kept uuid a s) (hk : a.Known) (c : Call P) :
    Kept uuid (a.next w c) (memoryCall uuid s (c, w)).1 ∧ (memoryCall uuid s (c, w)).2.isOk = a.accepts c := by
  cases c with
  | registerEventHandler handler => exact h.registration rfl
  | registerUniversalEventHandler handler => exact h.registration rfl
  | publish event session =>
    have hserved : Served uuid w (callsOf a.registrations s.publications event session)
        { s with publications := s.publications + 1 } ((EventsBroker.publish event session).run (answer uuid w) s).1 :=
      served_publish hu h.registry h.fresh
    have hrun : memoryCall uuid s (.publish event session, w) =
        (((EventsBroker.publish event session).run (answer uuid w) s).1, .ok ()) := by
      unfold memoryCall
      simp only [EventsBroker.prog, Prog.run_bind]
      rfl
    rw [hrun]
    refine ⟨⟨h.registry.congr hserved.universal hserved.specific, ?_, ?_, ?_, hserved.fresh h.fresh⟩, rfl⟩
    · rw [hserved.publications, h.publications]
      rfl
    · rw [hserved.deliveries, h.publications, ← Multiset.coe_add]
      exact congrArg (· + _) h.deliveries
    · rw [hserved.failures, h.publications, ← Multiset.coe_add]
      exact congrArg (· + _) h.failures
  | retryFailedEvents =>
    have hpassed := h.passed (w := w) hk
    have hrun : memoryCall uuid s (.retryFailedEvents, w) =
        ((EventsBroker.retryFailedEvents.run (answer uuid w) s).1, .ok ()) := by
      unfold memoryCall
      simp only [EventsBroker.prog, Prog.run_bind]
      rfl
    rw [hrun]
    have hentries : (EventsBroker.retryFailedEvents.run (answer uuid w) s).1.failedEvents.entries =
        s.failedEvents.entries.map fun entry =>
          if (ofMemory entry.2).content.isDue then (entry.1, retriedFiled w entry) else entry := by
      rw [hpassed.failures]
      exact OMap.entries_foldl_set ..
    refine ⟨⟨h.registry.congr hpassed.universal hpassed.specific, ?_, ?_, ?_, ?_⟩, rfl⟩
    · exact hpassed.publications.trans h.publications
    · have hdue : ((dueOf s).map fun entry => delivery entry.2.invocation) =
          ((recordsOf s).filter Filed.isDue).map Filed.delivery := by
        rw [dueOf, recordsOf, OMap.values, List.map_map, List.filter_map, List.map_map]
        rfl
      rw [hpassed.deliveries, hdue, ← Multiset.coe_add, h.deliveries, ← Multiset.map_coe, coe_filter_isDue, h.failures]
      rfl
    · have hrecords : recordsOf (EventsBroker.retryFailedEvents.run (answer uuid w) s).1 =
          (recordsOf s).map fun f => if f.isDue then retried w 0 f else f := by
        rw [recordsOf, OMap.values, hentries, recordsOf, OMap.values]
        simp only [List.map_map]
        refine List.map_congr_left fun entry _ => ?_
        simp only [Function.comp_apply]
        split
        · rfl
        · rfl
      rw [hrecords, ← Multiset.map_coe, h.failures]
      rfl
    · have hkeys : (EventsBroker.retryFailedEvents.run (answer uuid w) s).1.failedEvents.keys = s.failedEvents.keys := by
        rw [OMap.keys, hentries, List.map_map]
        refine List.map_congr_left fun entry _ => ?_
        rw [Function.comp_apply]
        split
        · rfl
        · rfl
      intro n hn
      rw [hkeys]
      exact h.fresh n (hpassed.generated ▸ hn)

end Memory

/-! ## The broker over an emitter -/

/-- The name that a handler listens to. -/
def listensTo (r : Registration) : String := r.eventName.getD UNIVERSAL_EVENT_NAME

def Broker.records (s : Broker P) : List (Filed P) := s.failedEvents.values.map Filed.content

/-- The broker keeps the account. -/
structure Held (uuid : ℕ → String) (a : Account P) (s : Broker P) : Prop where
  listeners : ∀ name, s.eventsEmitter.listeners name =
    (a.registrations.filter fun r => listensTo r = name).map (·.handler)
  handlers : ∀ name, (s.eventHandlers.get name).getD [] = s.eventsEmitter.listeners name
  publications : s.publications = a.publications
  deliveries : (s.deliveries : Multiset (Delivery P)) = a.deliveries
  failures : (s.records : Multiset (Filed P)) = a.failures
  fresh : Fresh uuid s.failedEvents s.generated

/-- Some invocations have settled. -/
structure Settled (uuid : ℕ → String) (w : World P) (calls : List (Handler × Delivery P)) (s s' : Broker P) : Prop where
  emitter : s'.eventsEmitter = s.eventsEmitter
  handlers : s'.eventHandlers = s.eventHandlers
  publications : s'.publications = s.publications
  deliveries : s'.deliveries = s.deliveries
  failures : s'.records = s.records ++ calls.filterMap (failureOf w)
  fresh : Fresh uuid s'.failedEvents s'.generated

section Native

variable {uuid : ℕ → String} {w : World P} {a : Account P} {s : Broker P} {call : Handler × Delivery P}
  {calls : List (Handler × Delivery P)}

/-- One delivery settles. -/
theorem settled_settle (hu : Function.Injective uuid) (hf : Fresh uuid s.failedEvents s.generated) :
    Settled uuid w [call] s (s.settle uuid w call) := by
  unfold Broker.settle
  cases he : w.error call.2 with
  | none => exact ⟨rfl, rfl, rfl, rfl, by simp [failureOf, he], hf⟩
  | some e =>
    refine ⟨rfl, rfl, rfl, rfl, ?_, hf.save hu⟩
    simp only [Broker.records, failedEvent, hf.values, List.map_append, List.filterMap_cons, failureOf, he]
    rfl

/-- They settle one after another. -/
theorem settled_foldl (hu : Function.Injective uuid) (calls : List (Handler × Delivery P)) :
    ∀ {s : Broker P}, Fresh uuid s.failedEvents s.generated →
    Settled uuid w calls s (calls.foldl (Broker.settle uuid w) s) := by
  induction calls with
  | nil => exact fun hf => ⟨rfl, rfl, rfl, rfl, by simp, hf⟩
  | cons call calls ih =>
    intro s hf
    have hone : Settled uuid w [call] s (s.settle uuid w call) := settled_settle hu hf
    have hrest := ih hone.fresh
    refine ⟨?_, ?_, ?_, ?_, ?_, hrest.fresh⟩
    · exact hrest.emitter.trans hone.emitter
    · exact hrest.handlers.trans hone.handlers
    · exact hrest.publications.trans hone.publications
    · exact hrest.deliveries.trans hone.deliveries
    · rw [List.foldl_cons, hrest.failures, hone.failures, List.append_assoc, ← List.filterMap_append]
      rfl

/-- **An emission** in which the handlers settle in any order. -/
theorem settleAll_failures (hu : Function.Injective uuid) (calls : List (Handler × Delivery P))
    (hf : Fresh uuid s.failedEvents s.generated) :
    ((s.settleAll uuid w calls).records : Multiset (Filed P)) = s.records + calls.filterMap (failureOf w) := by
  have hsettled := settled_foldl (w := w) hu (calls.insertionSort fun a b => w.rank a.2 ≤ w.rank b.2) hf
  have hperm := List.perm_insertionSort (fun a b : Handler × Delivery P => w.rank a.2 ≤ w.rank b.2) calls
  rw [Broker.settleAll, hsettled.failures, ← Multiset.coe_add]
  exact congrArg (_ + ·) (Multiset.coe_eq_coe.2 (hperm.filterMap _))

/-! ### Registrations -/

theorem listensTo_eq {r : Registration} {name : String} (hname : name ≠ UNIVERSAL_EVENT_NAME) :
    listensTo r = name ↔ r.eventName = some name := by
  unfold listensTo
  cases r.eventName with
  | none => simp [Ne.symm hname]
  | some name' => simp

/-- The state in which a handler has been added. -/
def Broker.added (s : Broker P) (name : String) (handler : Handler) : Broker P :=
  let handlers := if (s.eventHandlers.get name).isNone then s.eventHandlers.set name [] else s.eventHandlers
  { s with
    eventsEmitter := (s.eventsEmitter.on name handler).1
    eventHandlers := handlers.set name ((handlers.get name).getD [] ++ [handler]) }

/-- The calls of the listeners of `'newListener'`. -/
def Broker.noticed (s : Broker P) (name : String) : List (Handler × Delivery P) :=
  (s.eventsEmitter.listeners "newListener").map (called s (.listener name) none)

theorem register_eq (name : String) (handler : Handler) : s.register uuid w name handler =
    ((s.added name handler).start (s.noticed name)).settleAll uuid w (s.noticed name) := rfl

/-- The invocations of a registration. -/
theorem register_deliveries (hu : Function.Injective uuid) (hf : Fresh uuid s.failedEvents s.generated) (name : String)
    (handler : Handler) : (s.register uuid w name handler).deliveries = s.deliveries ++ (s.noticed name).map Prod.snd := by
  have hsettled := settled_foldl (w := w) hu ((s.noticed name).insertionSort fun x y => w.rank x.2 ≤ w.rank y.2)
    (s := (s.added name handler).start (s.noticed name)) hf
  exact hsettled.deliveries

theorem registerEventHandler_eq (handler : EventsBroker.EventHandler) : s.registerEventHandler uuid w handler =
    (if handler.disabled then s else s.register uuid w handler.eventName handler.toHandler, .ok ()) := by
  unfold Broker.registerEventHandler
  split
  · rfl
  · rfl

theorem registerUniversalEventHandler_eq (handler : Handler) : s.registerUniversalEventHandler uuid w handler =
    (if handler.disabled then s else s.register uuid w UNIVERSAL_EVENT_NAME handler, .ok ()) := by
  unfold Broker.registerUniversalEventHandler
  split
  · rfl
  · rfl

/-- **Adding a handler** that no listener of `'newListener'` is called for. -/
theorem Held.register (h : Held uuid a s) {r : Registration}
    (hquiet : ∀ r ∈ a.registrations, r.eventName ≠ some "newListener") :
    Held uuid { a with registrations := a.registrations ++ [r] } (s.register uuid w (listensTo r) r.handler) := by
  have hnoticed : s.noticed (listensTo r) = [] := by
    rw [Broker.noticed, h.listeners, List.map_eq_nil_iff, List.map_eq_nil_iff, List.filter_eq_nil_iff]
    intro r' hr' heq
    exact hquiet r' hr' ((listensTo_eq (by decide)).1 (by simpa using heq))
  have hstate : s.register uuid w (listensTo r) r.handler = s.added (listensTo r) r.handler := by
    rw [register_eq, hnoticed]
    simp [Broker.settleAll, Broker.start]
  rw [hstate]
  refine ⟨fun name => ?_, fun name => ?_, h.publications, h.deliveries, h.failures, h.fresh⟩
  · rw [Broker.added, EventEmitter.listeners_on, h.listeners, List.filter_append, List.map_append, List.filter_singleton]
    by_cases hname : listensTo r = name
    · simp [hname]
    · simp [hname]
  · simp only [Broker.added]
    rw [EventsBroker.get_push, EventEmitter.listeners_on, h.handlers]

/-! ### Publishing -/

/-- An error without a handler of its own is thrown, after the universal handlers have been called. -/
theorem emissions_error (h : s.eventsEmitter.listeners "error" = []) {event : Event P} (hname : event.name = "error") :
    s.emissions event = (s.eventsEmitter.listeners UNIVERSAL_EVENT_NAME, .error "ERR_UNHANDLED_ERROR") := by
  have huniversal : s.eventsEmitter.emit UNIVERSAL_EVENT_NAME = .ok (s.eventsEmitter.listeners UNIVERSAL_EVENT_NAME) :=
    EventEmitter.emit_ok fun herror => absurd herror.1 (by decide)
  unfold Broker.emissions
  rw [huniversal, hname, EventEmitter.emit_error h]

/-- Any other event goes to the universal handlers, then to those of its name. -/
theorem emissions_ok {event : Event P} (h : ¬ (event.name = "error" ∧ s.eventsEmitter.listeners event.name = [])) :
    s.emissions event =
      (s.eventsEmitter.listeners UNIVERSAL_EVENT_NAME ++ s.eventsEmitter.listeners event.name, .ok ()) := by
  have huniversal : s.eventsEmitter.emit UNIVERSAL_EVENT_NAME = .ok (s.eventsEmitter.listeners UNIVERSAL_EVENT_NAME) :=
    EventEmitter.emit_ok fun herror => absurd herror.1 (by decide)
  unfold Broker.emissions
  rw [huniversal, EventEmitter.emit_ok h]

/-- The state in which the handlers of a `publish` have started. -/
def Broker.published (s : Broker P) (calls : List (Handler × Delivery P)) : Broker P :=
  ({ s with publications := s.publications + 1 } : Broker P).start calls

theorem publish_eq (event : Event P) (session : String) : s.publish uuid w event session =
    ((s.published ((s.emissions event).1.map (called s (.event event) (some session)))).settleAll uuid w
      ((s.emissions event).1.map (called s (.event event) (some session))), (s.emissions event).2) := rfl

/-- The invocations of a `publish`. -/
theorem publish_deliveries (hu : Function.Injective uuid) (hf : Fresh uuid s.failedEvents s.generated) (event : Event P)
    (session : String) : (s.publish uuid w event session).1.deliveries =
      s.deliveries ++ ((s.emissions event).1.map (called s (.event event) (some session))).map Prod.snd := by
  rw [publish_eq]
  have hsettled := settled_foldl (w := w) hu (((s.emissions event).1.map (called s (.event event) (some session))).insertionSort
    fun x y => w.rank x.2 ≤ w.rank y.2) (s := s.published ((s.emissions event).1.map
      (called s (.event event) (some session)))) hf
  exact hsettled.deliveries

/-- **A `publish`** whose listeners are the interested handlers. -/
theorem Held.publish (hu : Function.Injective uuid) (h : Held uuid a s) {event : Event P} (session : String)
    (hemissions : s.emissions event = (interested a.registrations event.name, .ok ())) :
    Held uuid (a.next w (.publish event session)) (s.publish uuid w event session).1 ∧
    (s.publish uuid w event session).2 = .ok () := by
  have hcalls : ((s.emissions event).1.map (called s (.event event) (some session))) =
      callsOf a.registrations a.publications event session := by
    rw [hemissions, ← h.publications]
    rfl
  rw [publish_eq, hcalls, hemissions]
  have hsettled := settled_foldl (w := w) hu
    ((callsOf a.registrations a.publications event session).insertionSort fun x y => w.rank x.2 ≤ w.rank y.2)
    (s := s.published (callsOf a.registrations a.publications event session)) h.fresh
  have hfailures := settleAll_failures (w := w) hu (callsOf a.registrations a.publications event session)
    (s := s.published (callsOf a.registrations a.publications event session)) h.fresh
  refine ⟨⟨fun name => ?_, fun name => ?_, ?_, ?_, ?_, hsettled.fresh⟩, rfl⟩
  · rw [Broker.settleAll, hsettled.emitter]
    exact h.listeners name
  · rw [Broker.settleAll, hsettled.emitter, hsettled.handlers]
    exact h.handlers name
  · rw [Broker.settleAll, hsettled.publications]
    exact congrArg (· + 1) h.publications
  · rw [Broker.settleAll, hsettled.deliveries, Broker.published, Broker.start, ← Multiset.coe_add]
    exact congrArg (· + _) h.deliveries
  · rw [hfailures]
    exact congrArg (· + _) h.failures

/-! ### Retries -/

theorem Held.handlerOf (h : Held uuid a s) {failed : FailedEvent P} {event : Event P}
    (hevent : failed.event = .event event) :
    s.handlerOf failed =
      ((s.eventsEmitter.listeners event.name).find? fun h => h.id = failed.handlerId).or
        ((s.eventsEmitter.listeners UNIVERSAL_EVENT_NAME).find? fun h => h.id = failed.handlerId) := by
  have hfind : ∀ name, ((s.eventHandlers.get name).bind fun hs => hs.find? fun h => h.id = failed.handlerId) =
      (s.eventsEmitter.listeners name).find? fun h => h.id = failed.handlerId := by
    intro name
    rw [← h.handlers name]
    cases s.eventHandlers.get name with
    | none => rfl
    | some hs => rfl
  unfold Broker.handlerOf
  rw [hevent, Subject.name, Option.bind_some, hfind, hfind]

/-- **A retry finds** the handler. -/
theorem Held.found (h : Held uuid a s) {failed : FailedEvent P} {event : Event P} (hevent : failed.event = .event event)
    (hknown : ∃ handler ∈ interested a.registrations event.name, handler.id = failed.handlerId) :
    ∃ handler, s.handlerOf failed = some handler ∧ handler.id = failed.handlerId := by
  obtain ⟨handler, hmem, hid⟩ := hknown
  obtain ⟨r, hr, hname, rfl⟩ := EventsBroker.mem_interested.1 hmem
  -- the handler listens to the name of the event or to the reserved one
  have hlistens : ∀ name, listensTo r = name →
      ((s.eventsEmitter.listeners name).find? fun h => h.id = failed.handlerId).isSome = true := by
    intro name hlistens
    rw [List.find?_isSome, h.listeners]
    exact ⟨r.handler, List.mem_map_of_mem (List.mem_filter.2 ⟨hr, by simpa using hlistens⟩), by simpa using hid⟩
  have hsome : (s.handlerOf failed).isSome = true := by
    rw [h.handlerOf hevent, Option.isSome_or, Bool.or_eq_true]
    rcases hname with hname | hname
    · exact Or.inr (hlistens _ (by rw [listensTo, hname, Option.getD_none]))
    · exact Or.inl (hlistens _ (by rw [listensTo, hname, Option.getD_some]))
  obtain ⟨found, hfound⟩ := Option.isSome_iff_exists.1 hsome
  refine ⟨found, hfound, ?_⟩
  rw [h.handlerOf hevent] at hfound
  rcases Option.or_eq_some_iff.1 hfound with hspecific | ⟨-, huniversal⟩
  · simpa using List.find?_some hspecific
  · simpa using List.find?_some huniversal

theorem retry_some {entry : String × Filed P} {handler : Handler}
    (hfound : s.handlerOf entry.2.toFailedEvent = some handler) (hid : handler.id = entry.2.handlerId) :
    s.retry w entry = { s with
      failedEvents := s.failedEvents.set entry.1 (retried w (w.now entry.2.delivery) entry.2)
      deliveries := s.deliveries ++ [entry.2.delivery] } := by
  have hdelivery : (⟨entry.2.publication, handler.id, entry.2.event, entry.2.sessionCorrelationId⟩ : Delivery P) =
      entry.2.delivery := by rw [hid]; rfl
  unfold Broker.retry
  simp only [hfound, hdelivery]
  cases he : w.error entry.2.delivery with
  | none => simp [retried, he]
  | some e => simp [retried, he]

/-- **A pass** retries the records that are due. -/
theorem retry_all (entries : List (String × Filed P)) :
    ∀ {s : Broker P}, (∀ entry ∈ entries, ∃ handler, s.handlerOf entry.2.toFailedEvent = some handler ∧
      handler.id = entry.2.handlerId) →
    entries.foldl (Broker.retry w) s = { s with
      failedEvents := entries.foldl
        (fun m entry => m.set entry.1 (retried w (w.now entry.2.delivery) entry.2)) s.failedEvents
      deliveries := s.deliveries ++ entries.map fun entry => entry.2.delivery } := by
  induction entries with
  | nil => intro s _; simp
  | cons entry entries ih =>
    intro s hall
    obtain ⟨handler, hfound, hid⟩ := hall entry List.mem_cons_self
    have hstep := retry_some (w := w) hfound hid
    -- the handlers are the same in the state after the first record
    have hrest := ih (s := s.retry w entry) (by
      intro entry' hentry'
      rw [hstep]
      exact hall entry' (List.mem_cons_of_mem entry hentry'))
    rw [List.foldl_cons, hrest, hstep]
    simp

theorem Held.retryFailedEvents (h : Held uuid a s) (hk : a.Known) :
    Held uuid (a.next w .retryFailedEvents) (s.retryFailedEvents w) := by
  have hfound : ∀ entry ∈ s.unsuccessfull, ∃ handler, s.handlerOf entry.2.toFailedEvent = some handler ∧
      handler.id = entry.2.handlerId := by
    intro entry hentry
    have hrecord : entry.2.content ∈ a.failures := by
      rw [← h.failures, Multiset.mem_coe]
      exact List.mem_map_of_mem (List.mem_map_of_mem (List.mem_of_mem_filter hentry))
    obtain ⟨event, hevent, hknown⟩ := hk.found _ hrecord
    exact h.found hevent hknown
  have hentries := OMap.entries_foldl_set s.failedEvents (fun entry => entry.2.isDue)
    (fun entry => retried w (w.now entry.2.delivery) entry.2)
  unfold Broker.retryFailedEvents
  rw [retry_all _ hfound]
  refine ⟨h.listeners, h.handlers, h.publications, ?_, ?_, ?_⟩
  · have hdue : (s.unsuccessfull.map fun entry => entry.2.delivery) =
        (s.records.filter Filed.isDue).map Filed.delivery := by
      rw [Broker.unsuccessfull, Broker.records, OMap.values, List.map_map, List.filter_map, List.map_map]
      rfl
    rw [hdue, ← Multiset.coe_add, h.deliveries, ← Multiset.map_coe, coe_filter_isDue, h.failures]
    rfl
  · rw [Broker.records, OMap.values]
    dsimp only
    have hunfold : s.unsuccessfull = s.failedEvents.entries.filter fun entry => entry.2.isDue := rfl
    rw [hunfold, hentries]
    have hrecords : ((s.failedEvents.entries.map fun entry => if entry.2.isDue then
        (entry.1, retried w (w.now entry.2.delivery) entry.2) else entry).map Prod.snd).map Filed.content =
          s.records.map fun f => if f.isDue then retried w 0 f else f := by
      rw [Broker.records, OMap.values]
      simp only [List.map_map]
      refine List.map_congr_left fun entry _ => ?_
      have hcontent : entry.2.content.isDue = entry.2.isDue := rfl
      simp only [Function.comp_apply, hcontent]
      split
      · rfl
      · rfl
    rw [hrecords, ← Multiset.map_coe, h.failures]
    rfl
  · have hkeys : (s.unsuccessfull.foldl (fun m entry => m.set entry.1 (retried w (w.now entry.2.delivery) entry.2))
        s.failedEvents).keys = s.failedEvents.keys := by
      have hunfold : s.unsuccessfull = s.failedEvents.entries.filter fun entry => entry.2.isDue := rfl
      rw [hunfold, OMap.keys, hentries, List.map_map]
      refine List.map_congr_left fun entry _ => ?_
      rw [Function.comp_apply]
      split
      · rfl
      · rfl
    intro n hn
    rw [hkeys]
    exact h.fresh n hn

end Native

/-! ## Plain calls -/

/-- A registration that both brokers make in the same way. -/
def Addable (rs : List Registration) (handler : Handler) : Prop :=
  handler.disabled = true ∨
    handler.id ∉ rs.map (·.handler.id) ∧ ∀ r ∈ rs, r.eventName ≠ some "newListener"

/-- **A plain call**, given the handlers that are registered before it. -/
def Plain (rs : List Registration) : Call P → Prop
  | .registerEventHandler handler => Addable rs handler.toHandler
  | .registerUniversalEventHandler handler => Addable rs handler
  | .publish event _ =>
    (∀ r ∈ rs, r.eventName ≠ some UNIVERSAL_EVENT_NAME) ∧
    (event.name = UNIVERSAL_EVENT_NAME → ∀ r ∈ rs, r.eventName ≠ none) ∧
    (event.name = "error" → ∃ r ∈ rs, r.eventName = some "error")
  | .retryFailedEvents => True

instance (rs : List Registration) (handler : Handler) : Decidable (Addable rs handler) :=
  inferInstanceAs (Decidable (_ ∨ _))

instance (rs : List Registration) (c : Call P) : Decidable (Plain rs c) :=
  match c with
  | .registerEventHandler handler => inferInstanceAs (Decidable (Addable rs handler.toHandler))
  | .registerUniversalEventHandler handler => inferInstanceAs (Decidable (Addable rs handler))
  | .publish _ _ => inferInstanceAs (Decidable (_ ∧ _ ∧ _))
  | .retryFailedEvents => inferInstanceAs (Decidable True)

section Plain

variable {uuid : ℕ → String} {w : World P} {a : Account P} {s : Broker P} {event : Event P} {session : String}
  {c : Call P} {r : Registration}

/-- A handler registered for the universal name by hand counts as universal. -/
theorem listensTo_universal : listensTo r = UNIVERSAL_EVENT_NAME ↔
    r.eventName = none ∨ r.eventName = some UNIVERSAL_EVENT_NAME := by
  unfold listensTo
  cases r.eventName with
  | none => simp
  | some name => simp

theorem Held.listeners_universal (h : Held uuid a s)
    (hreserved : ∀ r ∈ a.registrations, r.eventName ≠ some UNIVERSAL_EVENT_NAME) :
    s.eventsEmitter.listeners UNIVERSAL_EVENT_NAME =
      (a.registrations.filter fun r => r.eventName = none).map (·.handler) := by
  rw [h.listeners]
  refine congrArg _ (List.filter_congr fun r hr => ?_)
  have hiff : listensTo r = UNIVERSAL_EVENT_NAME ↔ r.eventName = none := by
    rw [listensTo_universal, or_iff_left (hreserved r hr)]
  simp [hiff]

theorem Held.listeners_name (h : Held uuid a s) {name : String} (hname : name ≠ UNIVERSAL_EVENT_NAME) :
    s.eventsEmitter.listeners name = (a.registrations.filter fun r => r.eventName = some name).map (·.handler) := by
  rw [h.listeners]
  refine congrArg _ (List.filter_congr fun r _ => ?_)
  simp [listensTo_eq hname]

/-- **A plain `publish`** calls the interested handlers. -/
theorem Held.emissions (h : Held uuid a s) (hp : Plain a.registrations (.publish event session)) :
    s.emissions event = (interested a.registrations event.name, .ok ()) := by
  obtain ⟨hreserved, hsame, herror⟩ := hp
  have hok : ¬ (event.name = "error" ∧ s.eventsEmitter.listeners event.name = []) := by
    rintro ⟨hname, hnone⟩
    obtain ⟨r, hr, hlistens⟩ := herror hname
    rw [hname, h.listeners_name (by decide), List.map_eq_nil_iff, List.filter_eq_nil_iff] at hnone
    exact hnone r hr (by simpa using hlistens)
  rw [emissions_ok hok, h.listeners_universal hreserved, interested, List.map_append]
  by_cases hname : event.name = UNIVERSAL_EVENT_NAME
  · have hempty : ∀ r ∈ a.registrations, listensTo r ≠ UNIVERSAL_EVENT_NAME := by
      intro r hr hlistens
      rcases listensTo_universal.1 hlistens with hnone | hsome
      · exact hsame hname r hr hnone
      · exact hreserved r hr hsome
    have hlisteners : a.registrations.filter (fun r => listensTo r = UNIVERSAL_EVENT_NAME) = [] := by
      rw [List.filter_eq_nil_iff]
      intro r hr
      simpa using hempty r hr
    have hspecific : a.registrations.filter (fun r => r.eventName = some UNIVERSAL_EVENT_NAME) = [] := by
      rw [List.filter_eq_nil_iff]
      intro r hr
      simpa using hreserved r hr
    rw [hname, h.listeners, hlisteners, hspecific]
  · rw [h.listeners_name hname]

theorem Held.addable (h : Held uuid a s) {name : String} (hname : listensTo r = name)
    (hp : Addable a.registrations r.handler) :
    Held uuid { a with registrations := EventsBroker.register a.registrations r }
      (if r.handler.disabled then s else s.register uuid w name r.handler) := by
  rcases hp with hdis | ⟨hnew, hquiet⟩
  · rw [if_pos hdis, EventsBroker.register_old (Or.inl hdis)]
    exact h
  · by_cases hdis : r.handler.disabled = true
    · rw [if_pos hdis, EventsBroker.register_old (Or.inl hdis)]
      exact h
    · rw [if_neg hdis, EventsBroker.register_new (by simpa using hdis) hnew, ← hname]
      exact h.register hquiet

/-- **Every plain call** keeps the account, and is accepted as the account says. -/
theorem Held.call (hu : Function.Injective uuid) (h : Held uuid a s) (hk : a.Known) (hp : Plain a.registrations c) :
    Held uuid (a.next w c) (s.call uuid w c).1 ∧ (s.call uuid w c).2.isOk = a.accepts c := by
  have haccepts : ∀ handler : Handler, Addable a.registrations handler →
      (handler.disabled || decide (handler.id ∉ a.registrations.map (·.handler.id))) = true := by
    rintro handler (hdis | ⟨hnew, -⟩)
    · rw [hdis, Bool.true_or]
    · rw [decide_eq_true hnew, Bool.or_true]
  cases c with
  | registerEventHandler handler =>
    have hadd := h.addable (w := w) (r := ⟨handler.toHandler, some handler.eventName⟩) rfl hp
    rw [Broker.call, registerEventHandler_eq]
    exact ⟨hadd, (haccepts handler.toHandler hp).symm⟩
  | registerUniversalEventHandler handler =>
    have hadd := h.addable (w := w) (r := ⟨handler, none⟩) rfl hp
    rw [Broker.call, registerUniversalEventHandler_eq]
    exact ⟨hadd, (haccepts handler hp).symm⟩
  | publish event session =>
    obtain ⟨hheld, hreply⟩ := h.publish (w := w) hu session (h.emissions hp)
    refine ⟨hheld, ?_⟩
    rw [Broker.call, hreply]
    rfl
  | retryFailedEvents => exact ⟨h.retryFailedEvents hk, rfl⟩

theorem countP_universal (rs : List Registration) : rs.countP (fun r => listensTo r = UNIVERSAL_EVENT_NAME) =
    rs.countP (fun r => r.eventName = none) + rs.countP (fun r => r.eventName = some UNIVERSAL_EVENT_NAME) := by
  induction rs with
  | nil => rfl
  | cons r rs ih =>
    rw [List.countP_cons, List.countP_cons, List.countP_cons, ih]
    simp only [decide_eq_true_eq, listensTo_universal]
    cases hname : r.eventName with
    | none => simp; omega
    | some name =>
      by_cases hreserved : name = UNIVERSAL_EVENT_NAME
      · simp [hreserved]; omega
      · simp [hreserved]

/-- **A `publish` that calls other listeners** than the interested handlers calls more of them. -/
theorem Held.more_listeners (h : Held uuid a s)
    (hp : (∃ r ∈ a.registrations, r.eventName = some UNIVERSAL_EVENT_NAME) ∨
      event.name = UNIVERSAL_EVENT_NAME ∧ ∃ r ∈ a.registrations, r.eventName = none) :
    (interested a.registrations event.name).length <
      (s.eventsEmitter.listeners UNIVERSAL_EVENT_NAME ++ s.eventsEmitter.listeners event.name).length := by
  have hlength : ∀ name, (s.eventsEmitter.listeners name).length =
      a.registrations.countP fun r => listensTo r = name := by
    intro name
    rw [h.listeners, List.length_map, List.countP_eq_length_filter]
  have hinterested : (interested a.registrations event.name).length =
      a.registrations.countP (fun r => r.eventName = none) +
        a.registrations.countP fun r => r.eventName = some event.name := by
    rw [interested, List.length_map, List.length_append, List.countP_eq_length_filter, List.countP_eq_length_filter]
  have huniversal := countP_universal a.registrations
  have hpos : ∀ name, (∃ r ∈ a.registrations, r.eventName = name) →
      0 < a.registrations.countP fun r => r.eventName = name := by
    rintro name ⟨r, hr, hname⟩
    exact List.countP_pos_iff.2 ⟨r, hr, by simpa using hname⟩
  rw [List.length_append, hlength, hlength, hinterested, huniversal]
  by_cases hname : event.name = UNIVERSAL_EVENT_NAME
  · rw [hname, huniversal]
    rcases hp with hreserved | ⟨-, hnone⟩
    · have := hpos _ hreserved
      omega
    · have := hpos _ hnone
      omega
  · have hspecific : (a.registrations.countP fun r => listensTo r = event.name) =
        a.registrations.countP fun r => r.eventName = some event.name :=
      List.countP_congr fun r _ => by simp [listensTo_eq hname]
    rcases hp with hreserved | ⟨heq, -⟩
    · have := hpos _ hreserved
      omega
    · exact absurd heq hname

theorem Held.differs_register (hu : Function.Injective uuid) (h : Held uuid a s)
    (hp : ¬ Addable a.registrations r.handler) (name : String) :
    (r.handler.disabled || decide (r.handler.id ∉ a.registrations.map (·.handler.id))) = false ∨
    (if r.handler.disabled then s else s.register uuid w name r.handler).deliveries.length ≠ a.deliveries.card := by
  obtain ⟨hen, hrest⟩ := not_or.1 hp
  by_cases hid : r.handler.id ∈ a.registrations.map (·.handler.id)
  · left
    rw [Bool.or_eq_false_iff]
    exact ⟨by simpa using hen, decide_eq_false (not_not_intro hid)⟩
  · right
    obtain ⟨r', hr', hlistens⟩ : ∃ r ∈ a.registrations, r.eventName = some "newListener" := by
      by_contra hnone
      exact hrest ⟨hid, fun r hr hname => hnone ⟨r, hr, hname⟩⟩
    have hcalled : r'.handler ∈ s.eventsEmitter.listeners "newListener" := by
      rw [h.listeners_name (by decide)]
      exact List.mem_map_of_mem (List.mem_filter.2 ⟨hr', by simpa using hlistens⟩)
    have hpos := List.length_pos_of_mem hcalled
    rw [if_neg hen, register_deliveries hu h.fresh, Broker.noticed, ← h.deliveries, Multiset.coe_card, List.length_append,
      List.length_map, List.length_map]
    omega

/-- **A call that is not plain** is answered in another way, or invokes another number of handlers. -/
theorem Held.differs (hu : Function.Injective uuid) (h : Held uuid a s) (hp : ¬ Plain a.registrations c) :
    (s.call uuid w c).2.isOk ≠ a.accepts c ∨
    (s.call uuid w c).1.deliveries.length ≠ (a.next w c).deliveries.card := by
  cases c with
  | registerEventHandler handler =>
    rw [Broker.call, registerEventHandler_eq]
    rcases h.differs_register (w := w) (r := ⟨handler.toHandler, some handler.eventName⟩) hu hp handler.eventName with
      hreply | hlength
    · exact Or.inl fun heq => Bool.noConfusion (heq.trans hreply)
    · exact Or.inr hlength
  | registerUniversalEventHandler handler =>
    rw [Broker.call, registerUniversalEventHandler_eq]
    rcases h.differs_register (w := w) (r := ⟨handler, none⟩) hu hp UNIVERSAL_EVENT_NAME with hreply | hlength
    · exact Or.inl fun heq => Bool.noConfusion (heq.trans hreply)
    · exact Or.inr hlength
  | publish event session =>
    by_cases herror : event.name = "error" ∧ s.eventsEmitter.listeners event.name = []
    · left
      rw [Broker.call, publish_eq, emissions_error (herror.1 ▸ herror.2) herror.1]
      exact Bool.false_ne_true
    · right
      have hmore : (interested a.registrations event.name).length <
          (s.eventsEmitter.listeners UNIVERSAL_EVENT_NAME ++ s.eventsEmitter.listeners event.name).length := by
        refine h.more_listeners ?_
        by_contra hnone
        obtain ⟨hreserved, hsame⟩ := not_or.1 hnone
        refine hp ⟨?_, ?_, ?_⟩
        · exact fun r hr hname => hreserved ⟨r, hr, hname⟩
        · exact fun hname r hr heq => hsame ⟨hname, r, hr, heq⟩
        · intro hname
          by_contra hno
          refine herror ⟨hname, ?_⟩
          rw [hname, h.listeners_name (by decide), List.map_eq_nil_iff, List.filter_eq_nil_iff]
          exact fun r hr heq => hno ⟨r, hr, by simpa using heq⟩
      have hcard : (a.next w (.publish event session)).deliveries.card =
          s.deliveries.length + (interested a.registrations event.name).length := by
        simp only [Account.next, callsOf, Multiset.card_add, ← h.deliveries, Multiset.coe_card, List.length_map]
      have hlisteners : (s.emissions event).1 =
          s.eventsEmitter.listeners UNIVERSAL_EVENT_NAME ++ s.eventsEmitter.listeners event.name :=
        congrArg Prod.fst (emissions_ok herror)
      rw [Broker.call, publish_deliveries hu h.fresh, hlisteners, hcard, List.length_append, List.length_map,
        List.length_map]
      omega
  | retryFailedEvents => exact absurd trivial hp

end Plain

/-! ## Runs -/

/-- What is compared of an invocation: the handler, and what it is called with. -/
def Delivery.seen (v : Delivery P) : String × Subject P × Option String := (v.handlerId, v.subject, v.correlationId)

/-- **The brokers agree**: on the replies, on how often each handler was invoked for what, and on the
records without ids and dates. -/
structure Agree (m : EventsBroker.Broker P × List Reply) (n : Broker P × List (Except String Unit)) : Prop where
  replies : m.2.map Except.isOk = n.2.map Except.isOk
  invocations : ((ledgerOf m.1).map Delivery.seen).Perm (n.1.deliveries.map Delivery.seen)
  failures : ((recordsOf m.1).map Filed.toFailedEvent).Perm (n.1.records.map Filed.toFailedEvent)

/-- The brokers agree at every point of a run. -/
def Interchangeable (uuid uuid' : ℕ → String) (xs : List (Call P × World P)) : Prop :=
  ∀ ys, ys <+: xs → Agree (memory uuid ys) (native uuid' ys)

/-- Every call of the run is plain. -/
def PlainRun (xs : List (Call P × World P)) : Prop :=
  ∀ ys x, ys ++ [x] <+: xs → Plain (registered (ys.map Prod.fst)) x.1

/-- The account of a run. -/
def account (xs : List (Call P × World P)) : Account P := xs.foldl (fun a x => a.next x.2 x.1) .empty

section Runs

variable {uuid uuid' : ℕ → String} {xs : List (Call P × World P)} {x : Call P × World P}

theorem account_snoc : account (xs ++ [x]) = (account xs).next x.2 x.1 := by
  rw [account, List.foldl_append]
  rfl

theorem memory_snoc : memory uuid (xs ++ [x]) =
    ((memoryCall uuid (memory uuid xs).1 x).1, (memory uuid xs).2 ++ [(memoryCall uuid (memory uuid xs).1 x).2]) := by
  rw [memory, List.foldl_append]
  rfl

theorem native_snoc : native uuid (xs ++ [x]) =
    (((native uuid xs).1.call uuid x.2 x.1).1, (native uuid xs).2 ++ [((native uuid xs).1.call uuid x.2 x.1).2]) := by
  rw [native, List.foldl_append]
  rfl

/-- The account knows the handlers of the run. -/
theorem registrations_account : (account xs).registrations = registered (xs.map Prod.fst) := by
  have hfold : ∀ a : Account P, (xs.foldl (fun a x => a.next x.2 x.1) a).registrations =
      (xs.map Prod.fst).foldl registeredBy a.registrations := by
    induction xs with
    | nil => exact fun a => rfl
    | cons x xs ih =>
      intro a
      rw [List.foldl_cons, ih, registrations_next, List.map_cons, List.foldl_cons]
  rw [account, hfold, registered, ← EventsBroker.foldl_registeredBy]
  rfl

theorem plainRun_nil : PlainRun ([] : List (Call P × World P)) := by
  intro ys x h
  have hempty := List.prefix_nil.1 h
  simp at hempty

/-- One call more. -/
theorem plainRun_snoc : PlainRun (xs ++ [x]) ↔ PlainRun xs ∧ Plain (registered (xs.map Prod.fst)) x.1 := by
  constructor
  · intro h
    exact ⟨fun ys y hy => h ys y (hy.trans (List.prefix_append xs [x])), h xs x (List.prefix_refl _)⟩
  · rintro ⟨hrun, hlast⟩ ys y hy
    rcases List.prefix_concat_iff.1 hy with heq | hold
    · obtain ⟨rfl, hxy⟩ := List.append_inj' heq rfl
      obtain rfl := List.singleton_inj.1 hxy
      exact hlast
    · exact hrun ys y hold

theorem known_account (xs : List (Call P × World P)) : (account xs).Known := by
  induction xs using List.reverseRecOn with
  | nil => exact known_empty
  | append_singleton xs x ih =>
    rw [account_snoc]
    exact ih.next

/-- `InMemoryEventsBroker` keeps the account of every run. -/
theorem kept_run (hu : Function.Injective uuid) (xs : List (Call P × World P)) :
    Kept uuid (account xs) (memory uuid xs).1 := by
  induction xs using List.reverseRecOn with
  | nil => exact ⟨EventsBroker.registry_empty, rfl, rfl, rfl, fresh_empty⟩
  | append_singleton xs x ih =>
    rw [account_snoc, memory_snoc]
    exact (ih.call hu (known_account xs) x.1).1

/-- `NodeNativeEventsBroker` keeps the account of every plain run. -/
theorem held_run (hu : Function.Injective uuid) (xs : List (Call P × World P)) (h : PlainRun xs) :
    Held uuid (account xs) (native uuid xs).1 := by
  induction xs using List.reverseRecOn with
  | nil => exact ⟨fun _ => rfl, fun _ => rfl, rfl, rfl, rfl, fresh_empty⟩
  | append_singleton xs x ih =>
    obtain ⟨hrun, hlast⟩ := plainRun_snoc.1 h
    rw [account_snoc, native_snoc]
    rw [← registrations_account] at hlast
    exact ((ih hrun).call hu (known_account xs) hlast).1

/-- **A plain run** ends in agreement. -/
theorem agree_of_plain (hu : Function.Injective uuid) (hu' : Function.Injective uuid') (xs : List (Call P × World P))
    (h : PlainRun xs) : Agree (memory uuid xs) (native uuid' xs) := by
  have hkept := kept_run hu xs
  have hheld := held_run hu' xs h
  refine ⟨?_, ?_, ?_⟩
  · induction xs using List.reverseRecOn with
    | nil => rfl
    | append_singleton xs x ih =>
      obtain ⟨hrun, hlast⟩ := plainRun_snoc.1 h
      rw [← registrations_account] at hlast
      have hmemory := ((kept_run hu xs).call (w := x.2) hu (known_account xs) x.1).2
      have hnative := ((held_run hu' xs hrun).call (w := x.2) hu' (known_account xs) hlast).2
      have hold := ih hrun (kept_run hu xs) (held_run hu' xs hrun)
      rw [memory_snoc, native_snoc, List.map_append, List.map_append, hold, List.map_singleton, List.map_singleton,
        hmemory, hnative]
  · exact (Multiset.coe_eq_coe.1 (hkept.deliveries.trans hheld.deliveries.symm)).map _
  · exact (Multiset.coe_eq_coe.1 (hkept.failures.trans hheld.failures.symm)).map _

/-- **The brokers are interchangeable** in a run if and only if all its calls are plain. -/
theorem interchangeable_iff (hu : Function.Injective uuid) (hu' : Function.Injective uuid')
    (xs : List (Call P × World P)) : Interchangeable uuid uuid' xs ↔ PlainRun xs := by
  constructor
  · intro h
    -- up to the first call that is not plain both brokers keep the account
    have hprefix : ∀ ys, ys <+: xs → PlainRun ys := by
      intro ys
      induction ys using List.reverseRecOn with
      | nil => exact fun _ => plainRun_nil
      | append_singleton ys x ih =>
        intro hys
        have hrun := ih ((List.prefix_append ys [x]).trans hys)
        refine plainRun_snoc.2 ⟨hrun, ?_⟩
        by_contra hp
        rw [← registrations_account] at hp
        have hkept := (kept_run hu ys).call (w := x.2) hu (known_account ys) x.1
        have hagree := h _ hys
        rw [memory_snoc, native_snoc] at hagree
        rcases (held_run hu' ys hrun).differs (w := x.2) hu' hp with hreply | hlength
        · have hreplies := hagree.replies
          rw [List.map_append, List.map_append] at hreplies
          have hlast := List.singleton_inj.1 (List.append_inj_right' hreplies rfl)
          exact hreply (hlast.symm.trans hkept.2)
        · have hcount := hagree.invocations.length_eq
          rw [List.length_map, List.length_map] at hcount
          rw [← hkept.1.deliveries, Multiset.coe_card] at hlength
          exact hlength hcount.symm
    exact hprefix xs (List.prefix_refl _)
  · intro h ys hys
    exact agree_of_plain hu hu' ys fun zs x hzs => h zs x (hzs.trans hys)

/-- A world in which the handlers of the id `"mail"` fail. -/
def refusing : World Unit where
  error := fun v => if v.handlerId = "mail" then some "down" else none
  rank := fun v => v.handlerId.length
  now := fun _ => 5
  clock := fun _ => 6

def mail : EventsBroker.EventHandler := ⟨⟨"mail", some 1, false⟩, "created"⟩

/-- Two handlers, an event that one of them refuses, and a pass. -/
def fourOperations : List (Call Unit × World Unit) :=
  [(.registerUniversalEventHandler ⟨"log", none, false⟩, refusing), (.registerEventHandler mail, refusing),
    (.publish ⟨"e", 3, "created", ()⟩ "session", refusing), (.retryFailedEvents, refusing)]

theorem interchangeable_fourOperations : Interchangeable EventsBroker.unary EventsBroker.unary fourOperations := by
  refine (interchangeable_iff EventsBroker.unary_injective EventsBroker.unary_injective fourOperations).2 ?_
  show PlainRun ([] ++ [_] ++ [_] ++ [_] ++ [_])
  exact plainRun_snoc.2 ⟨plainRun_snoc.2 ⟨plainRun_snoc.2 ⟨plainRun_snoc.2 ⟨plainRun_nil, by decide⟩, by decide⟩,
    by decide⟩, by decide⟩

/-- **The same id twice**: one broker throws, the other registers the handler again. -/
theorem registered_twice : ¬ Interchangeable EventsBroker.unary EventsBroker.unary
    [(.registerEventHandler mail, refusing), (.registerEventHandler mail, refusing)] := by
  intro h
  have hreplies := (h _ (List.prefix_refl _)).replies
  exact absurd hreplies (by decide)

end Runs

end NodeToolkit.NodeNative
