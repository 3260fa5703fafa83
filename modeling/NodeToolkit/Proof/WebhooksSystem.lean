import NodeToolkit.Async.Layers
import NodeToolkit.Proof.EventsBroker
import NodeToolkit.Proof.FanOut
import NodeToolkit.Proof.Ownership
import NodeToolkit.Spec.WebhooksSystem

/-!
# Publishing, delivering and managing at once

* `handle_assures`: the handler of the events never throws, since what it finds subscribes to a known event.
* `rules`, `assured_of_run`: in every run the stored webhooks are sound, the handlers are those of the start,
  and no failed event is filed for ours.
* `broker_refined`: the broker in the system is the broker alone.
-/

namespace NodeToolkit

open Async

namespace Webhooks

variable {protocol : Protocols} {hmac : String → String → String} {α : Type}

/-! ## Only known events are subscribed to -/

/-- The webhook subscribes to known events only. -/
def KnownEvents (webhook : Webhook) : Prop := ∀ event ∈ webhook.events, event ∈ EventNames

/-- Every stored webhook does. -/
def AllKnown (s : Repositories) : Prop := ∀ id webhook, s.webhooks.get id = some webhook → KnownEvents webhook

/-- The answers when every stored webhook does. -/
def rely : (c : Cmd) → Resp c → Prop
  | .ofId _, r => ∀ webhook ∈ r.1, KnownEvents webhook
  | .ofEvent event, r => ∀ webhook ∈ r.1, event ∈ webhook.events ∧ KnownEvents webhook
  | _, _ => True

/-- The commands that keep it so. -/
def guar : Cmd → Prop
  | .create webhook => KnownEvents webhook
  | .update webhook => KnownEvents webhook
  | _ => True

theorem exec_known {i : Choice} {s : Repositories} {c : Cmd} (hs : AllKnown s) (hc : guar c) :
    AllKnown (exec i s c).1 ∧ rely c (exec i s c).2 := by
  have hset : ∀ webhook, KnownEvents webhook → AllKnown { s with webhooks := s.webhooks.set webhook.id webhook } := by
    intro webhook hw id webhook' hget
    rw [OMap.get_set] at hget
    split at hget
    · cases hget
      exact hw
    · exact hs id webhook' hget
  cases c with
  | generateUnique => exact ⟨hs, trivial⟩
  | create webhook => exact ⟨hset webhook hc, trivial⟩
  | update webhook => exact ⟨hset webhook hc, trivial⟩
  | delete webhook =>
    refine ⟨fun id webhook' hget => ?_, trivial⟩
    have herase : (s.webhooks.erase webhook.id).get id = some webhook' := hget
    rw [OMap.get_erase] at herase
    split at herase
    · cases herase
    · exact hs id webhook' herase
  | ofId id => exact ⟨hs, fun webhook hget => hs id webhook hget⟩
  | ofEvent event =>
    refine ⟨hs, fun webhook hmem => ?_⟩
    obtain ⟨hstored, hsub⟩ := List.mem_filter.1 hmem
    obtain ⟨id, hget⟩ := OMap.mem_values.1 hstored
    exact ⟨of_decide_eq_true hsub, hs id webhook hget⟩
  | outbox c => exact ⟨hs, trivial⟩
  | outboxOfId id => exact ⟨hs, trivial⟩

/-- The webhooks that are found for an event subscribe to it, and it has a name. -/
theorem subscribed_of_rely {event : String} {r : Resp (.ofEvent event)} (hr : rely (.ofEvent event) r) :
    ∀ webhook ∈ r.1, event ∈ webhook.events ∧ event ≠ "" := by
  intro webhook hmem
  obtain ⟨hin, hknown⟩ := hr webhook hmem
  refine ⟨hin, fun hempty => ?_⟩
  have hname := hknown event hin
  rw [hempty] at hname
  revert hname
  decide

/-- A function over the outbox does not touch the webhooks. -/
theorem outbox_assures {p : Outbox.Client α} {post : α → Prop}
    (hp : p.Assures (fun _ _ => True) (fun _ => True) post) : (Client.outbox p).Assures rely guar post :=
  hp.embed (fun _ _ _ => trivial) fun _ _ => trivial

theorem uses_true (p : Outbox.Client α) : p.Assures (fun _ _ => True) (fun _ => True) fun _ => True := by
  induction p with
  | ret a => trivial
  | await c k ih => exact ⟨trivial, fun r _ => ih r⟩

theorem getWebhook_assures (query : IdCommand) :
    (getWebhook query).Assures rely guar fun r => ∀ webhook, r = .ok webhook → KnownEvents webhook := by
  refine ⟨trivial, fun r hr => ?_⟩
  obtain ⟨_ | webhook, now⟩ := r
  · intro webhook h
    cases h
  · intro webhook' h
    cases h
    exact hr webhook rfl

theorem authorized_assures {A : Type} {permission : String} {session : A → Session} {command : A}
    {method : A → Client (Except Exception α)} (h : (method command).Assures rely guar fun _ => True) :
    (authorized permission session method command).Assures rely guar fun _ => True := by
  have hauth : Authorize permission (fun a => some (.session (session a))) (fun _ => method command) [command] =
      if IsPermissionsMatches permission (session command).acting then .ran (method command)
      else .threw notAuthorized := authorize_of_session rfl
  rw [authorized, hauth]
  by_cases hmatch : IsPermissionsMatches permission (session command).acting
  · rw [if_pos hmatch]
    exact h
  · rw [if_neg hmatch]
    trivial

theorem accessed_assures {payload : IdCommand} {method : Client (Except Exception α)}
    (h : method.Assures rely guar fun _ => True) : (accessed payload method).Assures rely guar fun _ => True := by
  have hassert : (assertWebhookAccessPossiblity payload).Assures rely guar fun _ => True := by
    refine (getWebhook_assures payload).bind fun r _ => ?_
    cases r with
    | error e => trivial
    | ok webhook =>
      dsimp only
      split <;> trivial
  refine hassert.bind fun r _ => ?_
  cases r with
  | error e => trivial
  | ok u => exact h

/-- A command on a stored webhook writes it back with known events. -/
theorem amend_assures (protocol : Protocols) {x : Command} (hx : x.Amends) :
    (prog protocol x).Assures rely guar fun _ => True := by
  rw [prog_of_amends hx]
  refine ⟨trivial, fun r hr => ?_⟩
  obtain ⟨_ | webhook, now⟩ := r
  · trivial
  · have hknown : KnownEvents webhook := hr webhook rfl
    simp only [afterRead]
    cases ham : amendment protocol x webhook now with
    | error e => trivial
    | ok c =>
      refine ⟨?_, fun _ _ => trivial⟩
      rcases amendment_cases hx ham with ⟨webhook', rfl, -, hdid⟩ | ⟨-, rfl⟩
      · show KnownEvents webhook'
        cases x with
        | create command draft => exact hx.elim
        | edit command =>
          obtain ⟨hvalid, hevents, -⟩ := hdid
          intro event he
          rw [hevents] at he
          exact hvalid.events_mem event he
        | enable command =>
          obtain ⟨-, -, hevents, -⟩ := hdid
          intro event he
          rw [hevents] at he
          exact hknown event he
        | disable command =>
          obtain ⟨-, -, hevents, -⟩ := hdid
          intro event he
          rw [hevents] at he
          exact hknown event he
        | delete command => exact hdid.elim
      · trivial

theorem testAll_assures (hmac : String → String → String) (webhook : Webhook) (eventNames : List String) :
    ∀ drafts, (testAll hmac webhook eventNames drafts).Assures rely guar fun _ => True := by
  induction eventNames with
  | nil => exact fun _ => trivial
  | cons eventName eventNames ih =>
    intro drafts
    refine (outbox_assures (uses_true _)).bind fun r _ => ?_
    cases r with
    | error e => trivial
    | ok r =>
      refine (ih _).bind fun r' _ => ?_
      cases r' <;> trivial

theorem replied_assures {p : Client α} (wrap : α → Reply) (hp : p.Assures rely guar fun _ => True) :
    (p >>= fun r => (return wrap r : Client Reply)).Assures rely guar fun _ => True := by
  refine hp.bind fun _ _ => ?_
  trivial

/-- **Every operation of the manager** writes only webhooks with known events. -/
theorem operate_assures (protocol : Protocols) (hmac : String → String → String) (x : Operation) :
    (operate protocol hmac x).Assures rely guar fun _ => True := by
  cases x with
  | createWebhook command draft =>
    refine replied_assures .id (authorized_assures ?_)
    simp only [createWebhook, CreateWebhook]
    cases hc : checkArguments protocol command.events command.deliveryUrl with
    | error e => trivial
    | ok u =>
      have hvalid := checkArguments_ok.1 hc
      exact ⟨trivial, fun secret _ => ⟨hvalid.events_mem, fun _ _ => trivial⟩⟩
  | deleteWebhook command =>
    refine replied_assures .id (authorized_assures (accessed_assures ?_))
    exact amend_assures protocol (x := .delete command) trivial
  | editWebhook command =>
    refine replied_assures .id (authorized_assures (accessed_assures ?_))
    exact amend_assures protocol (x := .edit command) trivial
  | enableWebhook command =>
    refine replied_assures .id (authorized_assures (accessed_assures ?_))
    exact amend_assures protocol (x := .enable command) trivial
  | disableWebhook command =>
    refine replied_assures .id (authorized_assures (accessed_assures ?_))
    exact amend_assures protocol (x := .disable command) trivial
  | testWebhook command drafts =>
    refine replied_assures .tested (authorized_assures (accessed_assures ⟨trivial, fun r _ => ?_⟩))
    obtain ⟨_ | webhook, now⟩ := r
    · trivial
    · exact testAll_assures hmac webhook webhook.events drafts
  | getWebhook query =>
    refine replied_assures .webhook (authorized_assures ((getWebhook_assures query).bind fun r _ => ?_))
    cases r with
    | error e => trivial
    | ok webhook =>
      dsimp only
      split <;> trivial
  | getWebhooks query =>
    refine replied_assures .list (authorized_assures ?_)
    trivial
  | getEvents query =>
    refine replied_assures .events (authorized_assures ?_)
    trivial
  | getOutboxEvent query =>
    refine replied_assures .outboxEvent (authorized_assures ⟨trivial, fun r _ => ?_⟩)
    cases r with
    | none => trivial
    | some r =>
      simp only [Prog.bind, Prog.pure_eq]
      split <;> trivial
  | getOutboxEvents query =>
    refine replied_assures .list (authorized_assures ?_)
    trivial

/-- **The handler never throws**, since the webhooks it gets subscribe to the event. -/
theorem handle_assures (hmac : String → String → String) (event : Event) (ids : ℕ → String) :
    (handle hmac event ids).Assures rely guar fun r => r = .ok () := by
  refine ⟨trivial, fun r hr => ?_⟩
  obtain ⟨webhooks, now⟩ := r
  have hsub : ∀ e ∈ webhooks.mapIdx fun n webhook => (webhook, ids n), event.name ∈ e.1.events ∧ event.name ≠ "" := by
    intro e he
    have hmem : e.1 ∈ webhooks := by
      rw [← fst_mapIdx ids webhooks]
      exact List.mem_map_of_mem he
    exact subscribed_of_rely hr e.1 hmem
  obtain ⟨rs, hrs, -, -⟩ := Outbox.createAll_subscribed hmac now false hsub
  have hsend : (Outbox.SendEventToWebhooks hmac (webhooks.mapIdx fun n webhook => (webhook, ids n)) event false now).Assures
      (fun _ _ => True) (fun _ => True) fun r => ∃ l, r = .ok l := by
    rw [Outbox.SendEventToWebhooks, hrs]
    refine ⟨trivial, fun _ _ => ?_⟩
    refine (uses_true (Outbox.SendBatchOutboxEvents hmac rs)).bind fun l _ => ?_
    exact ⟨l, rfl⟩
  refine (outbox_assures hsend).bind fun r hr => ?_
  obtain ⟨l, rfl⟩ := hr
  rfl

end Webhooks

namespace WebhooksSystem

variable {protocol : Webhooks.Protocols} {hmac : String → String → String} {uuid : ℕ → String}

/-! ## The start -/

section Start

open EventsBroker (Registry Registration Broker)

variable {b : Broker Payload}

theorem registerAll_registry (handlers : List (EventsBroker.EventHandler ⊕ EventsBroker.Handler)) :
    ∀ {b : Broker Payload} {rs : List Registration}, Registry rs b → ∃ rs', Registry rs' (registerAll b handlers) := by
  induction handlers with
  | nil => exact fun h => ⟨_, h⟩
  | cons handler handlers ih =>
    intro b rs h
    cases handler with
    | inl handler => exact ih (h.registerEventHandler handler)
    | inr handler => exact ih (h.registerUniversalEventHandler handler)

theorem registerEventHandler_keeps (b : Broker Payload) (handler : EventsBroker.EventHandler) :
    (b.registerEventHandler handler).1.failedEvents = b.failedEvents ∧
      (b.registerEventHandler handler).1.universalEventHandlers = b.universalEventHandlers := by
  unfold Broker.registerEventHandler
  by_cases hdis : handler.disabled = true
  · rw [if_pos hdis]
    exact ⟨rfl, rfl⟩
  · rw [if_neg hdis]
    by_cases htaken : b.registered handler.id = true
    · rw [if_pos htaken]
      exact ⟨rfl, rfl⟩
    · rw [if_neg htaken]
      exact ⟨rfl, rfl⟩

theorem registerUniversalEventHandler_keeps (b : Broker Payload) (handler : EventsBroker.Handler) :
    (b.registerUniversalEventHandler handler).1.failedEvents = b.failedEvents ∧
      b.universalEventHandlers <+: (b.registerUniversalEventHandler handler).1.universalEventHandlers := by
  unfold Broker.registerUniversalEventHandler
  by_cases hdis : handler.disabled = true
  · rw [if_pos hdis]
    exact ⟨rfl, List.prefix_rfl⟩
  · rw [if_neg hdis]
    by_cases htaken : b.registered handler.id = true
    · rw [if_pos htaken]
      exact ⟨rfl, List.prefix_rfl⟩
    · rw [if_neg htaken]
      exact ⟨rfl, List.prefix_append ..⟩

/-- Registrations file no failed event, and no handler is taken away. -/
theorem registerAll_keeps (handlers : List (EventsBroker.EventHandler ⊕ EventsBroker.Handler)) :
    ∀ b : Broker Payload, (registerAll b handlers).failedEvents = b.failedEvents ∧
    b.universalEventHandlers <+: (registerAll b handlers).universalEventHandlers := by
  induction handlers with
  | nil => exact fun b => ⟨rfl, List.prefix_rfl⟩
  | cons handler handlers ih =>
    intro b
    cases handler with
    | inl handler =>
      obtain ⟨hfailed, huniversal⟩ := registerEventHandler_keeps b handler
      obtain ⟨ih₁, ih₂⟩ := ih (b.registerEventHandler handler).1
      rw [huniversal] at ih₂
      exact ⟨ih₁.trans hfailed, ih₂⟩
    | inr handler =>
      obtain ⟨hfailed, huniversal⟩ := registerUniversalEventHandler_keeps b handler
      obtain ⟨ih₁, ih₂⟩ := ih (b.registerUniversalEventHandler handler).1
      exact ⟨ih₁.trans hfailed, huniversal.trans ih₂⟩

theorem mem_of_init {b' : Broker Payload} (h : init b = (b', .ok ())) : AllEventsHandler ∈ b'.universalEventHandlers := by
  have hdis : AllEventsHandler.disabled = false := rfl
  unfold init Broker.registerUniversalEventHandler at h
  rw [hdis, if_neg Bool.false_ne_true] at h
  by_cases htaken : b.registered AllEventsHandler.id = true
  · rw [if_pos htaken] at h
    cases h
  · rw [if_neg htaken] at h
    cases h
    simp

end Start

/-- The handlers of the start: ours is among them, and the ids are distinct. -/
structure Started (b : EventsBroker.Broker Payload) : Prop where
  mem : AllEventsHandler ∈ b.universalEventHandlers
  nodup : ∀ name, ((b.universalEventHandlers ++
    ((b.eventHandlers.get name).getD []).map EventsBroker.EventHandler.toHandler).map (·.id)).Nodup
  failedEvents : b.failedEvents = .empty

/-- **The start**, if `Init` does not fail. -/
theorem started_start {before : List (EventsBroker.EventHandler ⊕ EventsBroker.Handler)}
    (after : List (EventsBroker.EventHandler ⊕ EventsBroker.Handler))
    (h : (init (registerAll .empty before)).2 = .ok ()) : Started (start before after).broker := by
  obtain ⟨rs, hrs⟩ := registerAll_registry before EventsBroker.registry_empty
  obtain ⟨rs', hrs'⟩ := registerAll_registry after (hrs.registerUniversalEventHandler AllEventsHandler)
  obtain ⟨hempty, -⟩ := registerAll_keeps before .empty
  obtain ⟨hfailed, -⟩ := registerUniversalEventHandler_keeps (registerAll .empty before) AllEventsHandler
  obtain ⟨hkept, hkeeps⟩ := registerAll_keeps after (init (registerAll .empty before)).1
  refine ⟨hkeeps.subset (mem_of_init (b := registerAll .empty before) (Prod.ext rfl h)), fun name => ?_, ?_⟩
  · have hids := hrs'.interested_ids name
    rw [← hrs'.interested_eq name] at hids
    exact hids
  · exact hkept.trans (hfailed.trans hempty)

/-! ## What the calls rely on -/

/-- The answers: handlers are those of the start, and webhooks subscribe to known events. -/
def rely (b : EventsBroker.Broker Payload) : (c : Cmd) → Resp c → Prop
  | .repositories c, r => Webhooks.rely c r
  | .broker .universalEventHandlers, r => r = b.universalEventHandlers
  | .broker (.eventHandlers name), r => r = b.eventHandlers.get name
  | .settled _ error, r => r = error
  | _, _ => True

/-- The commands: no registrations, and no failed event is filed for our handler. -/
def guar : Cmd → Prop
  | .repositories c => Webhooks.guar c
  | .broker (.registerEventHandler _) => False
  | .broker (.registerUniversalEventHandler _) => False
  | .broker (.save v _ _) => v.handlerId ≠ AllEventsHandler.id
  | _ => True

/-- No failed event is filed for our handler. -/
def NoneFiled (s : EventsBroker.Broker Payload) : Prop :=
  ∀ id filed, s.failedEvents.get id = some filed → filed.handlerId ≠ AllEventsHandler.id

/-- **The invariant.** -/
structure Sane (b : EventsBroker.Broker Payload) (s : State) : Prop where
  known : Webhooks.AllKnown s.repositories
  universal : s.broker.universalEventHandlers = b.universalEventHandlers
  specific : s.broker.eventHandlers = b.eventHandlers
  filed : NoneFiled s.broker

variable {b : EventsBroker.Broker Payload} {s : State}

/-- The broker has changed its records or its ledger. -/
theorem Sane.of_broker (hs : Sane b s) {b' : EventsBroker.Broker Payload}
    (hu : b'.universalEventHandlers = s.broker.universalEventHandlers) (he : b'.eventHandlers = s.broker.eventHandlers)
    (hf : NoneFiled b') : Sane b { s with broker := b' } :=
  ⟨hs.known, hu.trans hs.universal, he.trans hs.specific, hf⟩

/-- A record is changed, and it is still one of the same handler. -/
theorem NoneFiled.set {b b' : EventsBroker.Broker Payload} (hb : NoneFiled b) {id : String} {filed : EventsBroker.Filed Payload}
    (hset : b'.failedEvents = b.failedEvents.set id filed) (hid : filed.handlerId ≠ AllEventsHandler.id) : NoneFiled b' := by
  intro id' filed' hget
  rw [hset, OMap.get_set] at hget
  split at hget
  · cases hget
    exact hid
  · exact hb id' filed' hget

theorem NoneFiled.startRetry {b : EventsBroker.Broker Payload} (hb : NoneFiled b) (id : String) (now : ℕ) :
    NoneFiled (b.startRetry id now).1 ∧
      (b.startRetry id now).1.universalEventHandlers = b.universalEventHandlers ∧
      (b.startRetry id now).1.eventHandlers = b.eventHandlers := by
  unfold EventsBroker.Broker.startRetry
  cases hget : b.failedEvents.get id with
  | none => exact ⟨hb, rfl, rfl⟩
  | some filed =>
    dsimp only
    cases b.handlerOf filed.toFailedEvent with
    | none => exact ⟨hb, rfl, rfl⟩
    | some handler => exact ⟨hb.set rfl (hb id filed hget), rfl, rfl⟩

theorem NoneFiled.endRetry {b : EventsBroker.Broker Payload} (hb : NoneFiled b) (id : String) (error : Option String) :
    NoneFiled (b.endRetry id error) ∧ (b.endRetry id error).universalEventHandlers = b.universalEventHandlers ∧
      (b.endRetry id error).eventHandlers = b.eventHandlers := by
  unfold EventsBroker.Broker.endRetry
  cases hget : b.failedEvents.get id with
  | none => exact ⟨hb, rfl, rfl⟩
  | some filed =>
    dsimp only
    cases error with
    | none => exact ⟨hb.set rfl (hb id filed hget), rfl, rfl⟩
    | some e => exact ⟨hb.set rfl (hb id filed hget), rfl, rfl⟩

/-- Every command is admitted. -/
abbrev anything : Choice → State → Cmd → Prop := fun _ _ _ => True

/-- **The commands keep the invariant.** -/
theorem rules : (machine protocol hmac uuid).Rules (Sane b) (rely b) (fun _ => guar) anything where
  exec := by
    intro x i s c hs hc _
    cases c with
    | broker c =>
      cases c with
      | registerEventHandler handler => exact hc.elim
      | registerUniversalEventHandler handler => exact hc.elim
      | publication => exact ⟨hs.of_broker rfl rfl hs.filed, trivial⟩
      | universalEventHandlers => exact ⟨hs, hs.universal⟩
      | eventHandlers name => exact ⟨hs, congrArg (OMap.get · name) hs.specific⟩
      | handle v => exact ⟨hs.of_broker rfl rfl hs.filed, trivial⟩
      | settled v => exact ⟨hs.of_broker rfl rfl hs.filed, trivial⟩
      | save v maxRetries error => exact ⟨hs.of_broker rfl rfl (hs.filed.set rfl hc), trivial⟩
      | unsuccessfull => exact ⟨hs, trivial⟩
      | startRetry id =>
        obtain ⟨hf, hu, he⟩ := hs.filed.startRetry id i.broker.now
        exact ⟨hs.of_broker hu he hf, trivial⟩
      | endRetry id error =>
        obtain ⟨hf, hu, he⟩ := hs.filed.endRetry id error
        exact ⟨hs.of_broker hu he hf, trivial⟩
    | settled v error => exact ⟨hs.of_broker rfl rfl hs.filed, rfl⟩
    | randomUUIDs => exact ⟨hs, trivial⟩
    | repositories c =>
      obtain ⟨hknown, hans⟩ := Webhooks.exec_known (i := i.repositories) hs.known hc
      exact ⟨⟨hknown, hs.universal, hs.specific, hs.filed⟩, hans⟩
  enter := fun _ _ hs => hs
  env := fun e => e.elim

/-- What the code of the broker relies on: our handler does not throw. -/
def brokerRely : (c : EventsBroker.Cmd Payload) → EventsBroker.Resp c → Prop
  | .settled v, error => v.handlerId = AllEventsHandler.id → error = none
  | _, _ => True

/-- A function over the repositories leaves the broker alone. -/
theorem repositories_assures {α : Type} {p : Webhooks.Client α} {post : α → Prop}
    (hp : p.Assures Webhooks.rely Webhooks.guar post) : (Client.repositories p).Assures (rely b) guar post := by
  unfold Client.repositories
  refine hp.embed ?_ ?_
  · exact fun c r hr => hr
  · exact fun c hc => hc

theorem awaitHandle_assures (v : EventsBroker.Invocation Payload) :
    (awaitHandle hmac v).Assures (rely b) guar fun error => error = none := by
  refine ⟨trivial, fun ids _ => ?_⟩
  refine (repositories_assures (Webhooks.handle_assures hmac (toEvent v.event) ids)).bind fun r hr => ?_
  subst hr
  exact ⟨trivial, fun error herror => herror⟩

/-- **Commands of the broker**: what carries them out. -/
theorem carryOut_assures {c : EventsBroker.Cmd Payload} (hc : guar (.broker c)) :
    (carryOut hmac c).Assures (rely b) guar (brokerRely c) := by
  cases c with
  | settled v =>
    rw [carryOut]
    by_cases hours : v.handlerId = AllEventsHandler.id
    · rw [if_pos hours]
      exact (awaitHandle_assures v).mono (fun _ _ h => h) (fun _ h => h) fun _ herror _ => herror
    · rw [if_neg hours]
      exact ⟨trivial, fun error _ h => absurd h hours⟩
  | registerEventHandler handler => exact hc.elim
  | registerUniversalEventHandler handler => exact hc.elim
  | save v maxRetries error => exact ⟨hc, fun _ _ => trivial⟩
  | publication => exact ⟨trivial, fun _ _ => trivial⟩
  | universalEventHandlers => exact ⟨trivial, fun _ _ => trivial⟩
  | eventHandlers name => exact ⟨trivial, fun _ _ => trivial⟩
  | handle v => exact ⟨trivial, fun _ _ => trivial⟩
  | unsuccessfull => exact ⟨trivial, fun _ _ => trivial⟩
  | startRetry id => exact ⟨trivial, fun _ _ => trivial⟩
  | endRetry id error => exact ⟨trivial, fun _ _ => trivial⟩

theorem deliver_assures (n : ℕ) (event : EventsBroker.Event Payload) (session : String) (handler : EventsBroker.Handler) :
    (EventsBroker.deliver n event session handler).Assures brokerRely (fun c => guar (.broker c)) fun _ => True := by
  refine ⟨trivial, fun _ _ => ⟨trivial, fun error herror => ?_⟩⟩
  cases error with
  | none => trivial
  | some e =>
    -- it is not ours that has thrown
    refine ⟨fun hours => ?_, fun _ _ => trivial⟩
    have hnone : some e = none := herror hours
    cases hnone

theorem publish_assures (event : EventsBroker.Event Payload) (session : String) :
    (EventsBroker.publish event session).Assures brokerRely (fun c => guar (.broker c)) fun _ => True := by
  refine ⟨trivial, fun n _ => ⟨trivial, fun hs _ => ?_⟩⟩
  refine (Prog.Assures.forEach fun handler _ => deliver_assures n event session handler).bind fun _ _ => ?_
  refine ⟨trivial, fun handlers _ => ?_⟩
  cases handlers with
  | none => trivial
  | some handlers => exact Prog.Assures.forEach fun handler _ => deliver_assures n event session handler.toHandler

theorem retryFailedEvents_assures : EventsBroker.retryFailedEvents.Assures brokerRely (fun c => guar (.broker c))
    fun _ => True := by
  refine ⟨trivial, fun list _ => Prog.Assures.forEach fun id _ => ⟨trivial, fun v _ => ?_⟩⟩
  cases v with
  | none => trivial
  | some v => exact ⟨trivial, fun error _ => ⟨trivial, fun _ _ => trivial⟩⟩

/-- **Every call** keeps to the rules. -/
theorem prog_assures (x : Call) : (prog protocol hmac x).Assures (rely b) guar fun _ => True := by
  have hbroker : ∀ p : EventsBroker.Client Payload EventsBroker.Reply,
      p.Assures brokerRely (fun c => guar (.broker c)) (fun _ => True) →
      (p.interp (carryOut hmac) >>= fun r => (.ret (.broker r) : Client Reply)).Assures (rely b) guar
        fun _ => True := by
    intro p hp
    refine (hp.interp fun c hc => carryOut_assures hc).bind fun _ _ => ?_
    trivial
  cases x with
  | publish event session =>
    refine hbroker _ ((publish_assures event session).bind fun _ _ => ?_)
    trivial
  | retryFailedEvents =>
    refine hbroker _ (retryFailedEvents_assures.bind fun _ _ => ?_)
    trivial
  | operate x =>
    refine (repositories_assures (Webhooks.operate_assures protocol hmac x)).bind fun _ _ => ?_
    trivial
  | retryOutboxEvents =>
    refine (repositories_assures (Webhooks.outbox_assures (Webhooks.uses_true _))).bind fun _ _ => ?_
    trivial

section Runs

variable {before after : List (EventsBroker.EventHandler ⊕ EventsBroker.Handler)}

theorem sane_start (h : (init (registerAll .empty before)).2 = .ok ()) :
    Sane (start before after).broker (start before after) where
  known := fun id webhook hget => by cases hget
  universal := rfl
  specific := rfl
  filed := fun id filed hget => by
    rw [(started_start after h).failedEvents] at hget
    cases hget

theorem proper_of_run (s : State) (es : List (Ev Choice Empty Call)) :
    (machine protocol hmac uuid).Along (Proper (fun _ => True) anything) (Pool.init s) es := by
  refine .of_mem fun e _ w => ?_
  cases e with
  | call pid x => trivial
  | step pid i => exact fun _ _ _ _ => trivial
  | env e => trivial

/-- **Every run** is one in which all rely on what they may rely on. -/
theorem assured_of_run (protocol : Webhooks.Protocols) (hmac : String → String → String) (uuid : ℕ → String)
    (after : List (EventsBroker.EventHandler ⊕ EventsBroker.Handler))
    (h : (init (registerAll .empty before)).2 = .ok ()) (es : List (Ev Choice Empty Call)) :
    ((machine protocol hmac uuid).run (Pool.init (start before after)) es).Assured (Sane (start before after).broker)
      (rely (start before after).broker) (fun _ => guar) fun _ _ => True := by
  exact run_assured rules (fun x _ => prog_assures x) (assured_init (sane_start h)) (proper_of_run _ es)

end Runs

/-! ## The broker in the system -/

/-- The broker alone. -/
abbrev broker (uuid : ℕ → String) := EventsBroker.machine (P := Payload) uuid

/-- The call of the broker that a call is. -/
def Call.broker : Call → Option (EventsBroker.Call Payload)
  | .publish event session => some (.publish event session)
  | .retryFailedEvents => some .retryFailedEvents
  | _ => none

/-- The world does not choose that our handler throws. -/
def Succeeds (j : EventsBroker.Choice) (c : EventsBroker.Cmd Payload) : Prop :=
  ∀ v, c = .settled v → v.handlerId = AllEventsHandler.id → j.error = none

/-- The command leaves the broker as it is. -/
abbrev AsideFrom (protocol : Webhooks.Protocols) (hmac : String → String → String) (uuid : ℕ → String) : Cmd → Prop :=
  Silent (machine protocol hmac uuid) State.broker

/-- Over the repositories, the broker is left as it is. -/
theorem repositories_silent {α : Type} {p : Webhooks.Client α} {post : α → Prop}
    (hp : p.Assures Webhooks.rely (fun _ => True) post) :
    (Client.repositories p).Assures (rely b) (AsideFrom protocol hmac uuid) post := by
  unfold Client.repositories
  refine hp.embed ?_ ?_
  · exact fun c r hr => hr
  · exact fun c _ i s => rfl

/-- **Our handler never throws**, so carrying out the await of it has the effect of a handling that succeeds. -/
theorem awaitHandle_implements {v : EventsBroker.Invocation Payload} :
    Implements (broker uuid) (machine protocol hmac uuid) State.broker (rely b) Succeeds (.settled v)
      (awaitHandle hmac v) := by
  refine Or.inr ⟨fun i s => rfl, fun ids _ => ?_⟩
  have hhandle := (Webhooks.handle_assures hmac (toEvent v.event) ids).mono (fun _ _ h => h)
    (fun _ _ => trivial) fun _ h => h
  show Implements _ _ _ _ _ _ (Client.repositories (Webhooks.handle hmac (toEvent v.event) ids) >>= _)
  refine Implements.of_silent (fun r hr => ?_) (repositories_silent hhandle)
  subst hr
  exact Or.inl fun i s => ⟨⟨i.broker.now, none⟩, fun _ _ _ => rfl, rfl, rfl⟩

/-- Any other command is the broker's own. -/
theorem carryOut_implements (c : EventsBroker.Cmd Payload) :
    Implements (broker uuid) (machine protocol hmac uuid) State.broker (rely b) Succeeds c (carryOut hmac c) := by
  cases c with
  | settled v =>
    rw [carryOut]
    by_cases hours : v.handlerId = AllEventsHandler.id
    · rw [if_pos hours]
      exact awaitHandle_implements
    · rw [if_neg hours]
      refine Or.inl fun i s => ⟨i.broker, fun v' hv' hours' => ?_, rfl, rfl⟩
      cases hv'
      exact absurd hours' hours
  | registerEventHandler handler => exact Or.inl fun i s => ⟨i.broker, fun _ h => (nomatch h), rfl, rfl⟩
  | registerUniversalEventHandler handler => exact Or.inl fun i s => ⟨i.broker, fun _ h => (nomatch h), rfl, rfl⟩
  | publication => exact Or.inl fun i s => ⟨i.broker, fun _ h => (nomatch h), rfl, rfl⟩
  | universalEventHandlers => exact Or.inl fun i s => ⟨i.broker, fun _ h => (nomatch h), rfl, rfl⟩
  | eventHandlers name => exact Or.inl fun i s => ⟨i.broker, fun _ h => (nomatch h), rfl, rfl⟩
  | handle v => exact Or.inl fun i s => ⟨i.broker, fun _ h => (nomatch h), rfl, rfl⟩
  | save v maxRetries error => exact Or.inl fun i s => ⟨i.broker, fun _ h => (nomatch h), rfl, rfl⟩
  | unsuccessfull => exact Or.inl fun i s => ⟨i.broker, fun _ h => (nomatch h), rfl, rfl⟩
  | startRetry id => exact Or.inl fun i s => ⟨i.broker, fun _ h => (nomatch h), rfl, rfl⟩
  | endRetry id error => exact Or.inl fun i s => ⟨i.broker, fun _ h => (nomatch h), rfl, rfl⟩

/-- The broker as a layer of the system. -/
def brokerLayer (protocol : Webhooks.Protocols) (hmac : String → String → String) (uuid : ℕ → String)
    (b : EventsBroker.Broker Payload) : Upper (broker uuid) (machine protocol hmac uuid) where
  up := State.broker
  impl := carryOut hmac
  rely := rely b
  ok := anything
  may := Succeeds
  call := Call.broker
  res := Reply.broker
  prog := by
    intro x y hy
    cases x with
    | publish event session =>
      cases hy
      rfl
    | retryFailedEvents =>
      cases hy
      rfl
    | operate x => cases hy
    | retryOutboxEvents => cases hy
  silent := by
    intro x hx
    cases x with
    | publish event session => cases hx
    | retryFailedEvents => cases hx
    | operate x =>
      refine (repositories_silent (Prog.Assures.mono (fun _ _ h => h) (fun _ _ => trivial) (fun _ h => h)
        (Webhooks.operate_assures protocol hmac x))).bind fun _ _ => ?_
      trivial
    | retryOutboxEvents =>
      refine (repositories_silent (Prog.Assures.mono (fun _ _ h => h) (fun _ _ => trivial) (fun _ h => h)
        (Webhooks.outbox_assures (Webhooks.uses_true _)))).bind fun _ _ => ?_
      trivial
  implements := carryOut_implements
  enter := by
    intro x s
    cases x <;> rfl
  env := fun e => e.elim

/-- A webhook is created, and an event it subscribes to is published. -/
def publication : List (Ev Choice Empty Call) :=
  let i : Choice := ⟨⟨5, none⟩, ⟨⟨6, 6, 200, .null⟩, "5ec7e7"⟩, numberToString⟩
  [.call 0 (.operate (.createWebhook ⟨⟨⟨"ann", ["*"]⟩, none, none⟩, "", "https://a.example/in", ["test"]⟩ ⟨"w", 1, 1⟩)),
    .step 0 i, .step 0 i, .call 1 (.publish ⟨"e", 5, "test", [("testAttribute", .string "x")]⟩ "s")] ++
    List.replicate 11 (.step 1 i)

end WebhooksSystem

end NodeToolkit
