import NodeToolkit.Async.Trace
import NodeToolkit.Proof.WebhooksSystem

/-!
# What a publication does

A publication awaits every handler once, and the history of the call says what the handler of the webhooks
has done meanwhile.

* `publish_awaits`: which handlings a publication awaits.
* `Outbox.FansOut`: the records and the POSTs of one event.
* `publish_fans_out`: in every run, a publication that has returned has fanned the event out to the webhooks
  subscribed to it at one moment while it ran.
-/

namespace NodeToolkit

open Async

namespace EventsBroker

variable {P : Type} {n : ℕ} {event : Event P} {session : String} {handler : Handler}

/-! ## The handlings of a publication -/

/-- The invocation whose end is awaited. -/
def awaited : (Σ c : Cmd P, Resp c) → Option (Invocation P)
  | ⟨.settled v, _⟩ => some v
  | _ => none

theorem deliver_awaits {h : Hist (@Resp P)} {u : Unit} (ht : (deliver n event session handler).Traces h u) :
    h.filterMap awaited = [invoke n event session handler] := by
  obtain ⟨_, _, rfl, error, h', rfl, hk⟩ := ht
  cases error with
  | none =>
    obtain ⟨rfl, -⟩ := hk
    rfl
  | some e =>
    obtain ⟨_, _, rfl, rfl, -⟩ := hk
    rfl

/-- A loop over handlers awaits each of them once. -/
theorem forEach_awaits {β : Type} {f : β → Client P Unit} {g : β → Invocation P} {l : List β} {h : Hist (@Resp P)}
    {u : Unit} (hf : ∀ x h u, (f x).Traces h u → h.filterMap awaited = [g x]) (ht : (Prog.forEach f l).Traces h u) :
    h.filterMap awaited = l.map g := by
  obtain ⟨parts, rfl, hparts⟩ := Prog.traces_forEach.1 ht
  induction hparts with
  | nil => rfl
  | cons hx _ ih =>
    rw [List.flatten_cons, List.filterMap_append, hf _ _ _ hx, List.map_cons]
    exact congrArg _ (ih (Prog.traces_forEach.2 ⟨_, rfl, ‹_›⟩))

/-- **A publication** awaits each handler it finds once, universal ones first. -/
theorem publish_awaits {h : Hist (@Resp P)} {r : Reply} (ht : (prog (.publish event session)).Traces h r) :
    r = .ok () ∧ ∃ n hs specific, (⟨.universalEventHandlers, hs⟩ : Σ c, Resp c) ∈ h ∧
      (⟨.eventHandlers event.name, specific⟩ : Σ c, Resp c) ∈ h ∧
      h.filterMap awaited = (hs ++ (specific.getD []).map EventHandler.toHandler).map (invoke n event session) := by
  simp only [prog, publish] at ht
  obtain ⟨h₁, h₀, _, rfl, hbody, hret⟩ := Prog.traces_bind.1 ht
  obtain ⟨rfl, hr⟩ := hret
  refine ⟨hr, ?_⟩
  obtain ⟨k₁, h₂, n, rfl, hn, hfound⟩ := Prog.traces_bind.1 hbody
  obtain ⟨k₂, h₃, hs, rfl, hhs, hloops⟩ := Prog.traces_bind.1 hfound
  obtain ⟨h₄, h₅, _, rfl, huniversal, hrest⟩ := Prog.traces_bind.1 hloops
  obtain ⟨k₃, h₆, specific, rfl, hspecific, hloop⟩ := Prog.traces_bind.1 hrest
  rw [Prog.traces_command] at hn hhs hspecific
  subst hn hhs hspecific
  have hfirst : h₄.filterMap awaited = hs.map (invoke n event session) :=
    forEach_awaits (fun handler h u ht => deliver_awaits ht) huniversal
  have hlast : h₆.filterMap awaited =
      ((specific.getD []).map EventHandler.toHandler).map (invoke n event session) := by
    cases specific with
    | none =>
      obtain ⟨rfl, -⟩ := hloop
      rfl
    | some handlers =>
      rw [Option.getD_some, List.map_map]
      exact forEach_awaits (fun handler h u ht => deliver_awaits ht) hloop
  refine ⟨n, hs, specific, by simp, by simp, ?_⟩
  simp only [List.append_nil, List.filterMap_append, hfirst, hlast, List.map_append]
  rfl

end EventsBroker

namespace Outbox

variable {hmac : String → String → String} {event : Event} {rs : List OutboxEvent} {h : Hist Resp}

/-! ## The history of a batch -/

/-- For each record a POST, its answer, and the outcome written back. -/
def Sent (hmac : String → String → String) : List OutboxEvent → Hist Resp → Prop
  | [], h => h = []
  | r :: rs, h => ∃ a t h', h = ⟨.post r (delivery hmac r), ()⟩ :: ⟨.answer, a⟩ :: ⟨.update (outcome r a), t⟩ :: h' ∧
    Sent hmac rs h'

theorem sendBatch_traces : ∀ {h : Hist Resp} {results : List OutboxEvent},
    (SendBatchOutboxEvents hmac rs).Traces h results → Sent hmac rs h := by
  induction rs with
  | nil => exact fun ht => ht.1
  | cons r rs ih =>
    intro h results ht
    obtain ⟨_, _, rfl, a, _, rfl, t, h', rfl, hrest⟩ := ht
    change Prog.Traces (SendBatchOutboxEvents hmac rs >>= _) _ _ at hrest
    obtain ⟨h₁, h₂, _, rfl, hbatch, hret⟩ := Prog.traces_bind.1 hrest
    obtain ⟨rfl, -⟩ := hret
    rw [List.append_nil]
    exact ⟨a, t, h₁, rfl, ih hbatch⟩

/-- The POST of a command. -/
def posting : (Σ c : Cmd, Resp c) → Option Post
  | ⟨.post _ p, _⟩ => some p
  | _ => none

theorem Sent.posts (hs : Sent hmac rs h) : h.filterMap posting = rs.map (delivery hmac) := by
  induction rs generalizing h with
  | nil =>
    cases hs
    rfl
  | cons r rs ih =>
    obtain ⟨a, t, h', rfl, hrest⟩ := hs
    rw [List.map_cons, ← ih hrest]
    rfl

/-- **The event is fanned out** to the webhooks: one record for each is stored in one step, and then the
POST of each record is made and its outcome written back, in the same order. -/
structure FansOut (hmac : String → String → String) (webhooks : List Webhook) (event : Event) (h : Hist Resp) :
    Prop where
  records : ∃ (ids : ℕ → String) (now : ℕ) (rs : List OutboxEvent) (t : ℕ) (rest : Hist Resp),
    createAll event false now (webhooks.mapIdx fun n webhook => (webhook, ids n)) = .ok rs ∧
      h = ⟨.createBatch rs, t⟩ :: rest ∧ Sent hmac rs rest
  posts : h.filterMap posting = webhooks.map (postTo hmac event)

theorem sendAll_traces {webhooks : List Webhook} {ids : ℕ → String} {now : ℕ}
    {r : Except ValidationException (List OutboxEvent)}
    (hsub : ∀ webhook ∈ webhooks, event.name ∈ webhook.events ∧ event.name ≠ "")
    (ht : (SendEventToWebhooks hmac (webhooks.mapIdx fun n webhook => (webhook, ids n)) event false now).Traces h r) :
    FansOut hmac webhooks event h := by
  have hsub' : ∀ e ∈ webhooks.mapIdx fun n webhook => (webhook, ids n), event.name ∈ e.1.events ∧ event.name ≠ "" := by
    intro e he
    refine hsub e.1 ?_
    rw [← Webhooks.fst_mapIdx ids webhooks]
    exact List.mem_map_of_mem he
  obtain ⟨rs, hrs, -, hposts⟩ := createAll_subscribed hmac now false hsub'
  rw [SendEventToWebhooks, hrs] at ht
  obtain ⟨t, rest, rfl, hrest⟩ := ht
  change Prog.Traces (SendBatchOutboxEvents hmac rs >>= _) _ _ at hrest
  obtain ⟨h₁, h₂, _, rfl, hbatch, hret⟩ := Prog.traces_bind.1 hrest
  obtain ⟨rfl, -⟩ := hret
  have hsent := sendBatch_traces hbatch
  rw [List.append_nil]
  refine ⟨⟨ids, now, rs, t, h₁, hrs, rfl, hsent⟩, ?_⟩
  have hall : rs.map (delivery hmac) = webhooks.map (postTo hmac event) := by
    rw [hposts, ← Webhooks.fst_mapIdx ids webhooks, List.map_map, Webhooks.fst_mapIdx]
    rfl
  rw [← hall, ← hsent.posts]
  rfl

end Outbox

namespace Webhooks

variable {hmac : String → String → String} {event : Event} {ids : ℕ → String}

/-- The part of a history that is about outbox events. -/
def outboxPart : (Σ c : Cmd, Resp c) → Option (Σ c : Outbox.Cmd, Outbox.Resp c)
  | ⟨.outbox c, r⟩ => some ⟨c, r⟩
  | _ => none

/-- A handling asks for the webhooks, and fans the event out to them. -/
theorem handle_traces {h : Hist Resp} {r : Except Exception Unit} (ht : (handle hmac event ids).Traces h r) :
    ∃ webhooks now rest, h = ⟨.ofEvent event.name, (webhooks, now)⟩ :: rest ∧
      ((∀ webhook ∈ webhooks, event.name ∈ webhook.events ∧ event.name ≠ "") →
        Outbox.FansOut hmac webhooks event (rest.filterMap outboxPart)) := by
  obtain ⟨⟨webhooks, now⟩, rest, rfl, hrest⟩ := ht
  refine ⟨webhooks, now, rest, rfl, fun hsub => ?_⟩
  change Prog.Traces (Client.outbox _ >>= _) _ _ at hrest
  obtain ⟨h₁, h₂, result, rfl, hsend, hret⟩ := Prog.traces_bind.1 hrest
  have hempty : h₂ = [] := by
    cases result with
    | error e => exact hret.1
    | ok l => exact hret.1
  obtain ⟨l, rfl, hl⟩ := Prog.traces_embed.1 hsend
  have hpart : (l.map fun e => (⟨.outbox e.1, e.2⟩ : Σ c : Cmd, Resp c)).filterMap outboxPart =
      l.map fun e => ⟨e.1, e.2⟩ := by
    rw [List.filterMap_map, ← List.filterMap_eq_map]
    rfl
  rw [hempty, List.append_nil, hpart]
  exact Outbox.sendAll_traces hsub hl

end Webhooks

namespace WebhooksSystem

variable {protocol : Webhooks.Protocols} {hmac : String → String → String} {uuid : ℕ → String}

/-- The part of a history that is about outbox events. -/
def outboxPart : (Σ c : Cmd, Resp c) → Option (Σ c : Outbox.Cmd, Outbox.Resp c)
  | ⟨.repositories (.outbox c), r⟩ => some ⟨c, r⟩
  | _ => none

/-- The broker awaits our handler. -/
theorem awaitHandle_traces {v : EventsBroker.Invocation Payload} {h : Hist Resp} {error : Option String}
    (ht : (awaitHandle hmac v).Traces h error) :
    ∃ ids webhooks now rest, h = ⟨.randomUUIDs, ids⟩ :: ⟨.repositories (.ofEvent v.event.name), (webhooks, now)⟩ :: rest ∧
      ((∀ webhook ∈ webhooks, v.event.name ∈ webhook.events ∧ v.event.name ≠ "") →
        Outbox.FansOut hmac webhooks (toEvent v.event) (h.filterMap outboxPart)) := by
  obtain ⟨ids, h', rfl, hrest⟩ := ht
  change Prog.Traces (Client.repositories _ >>= _) _ _ at hrest
  obtain ⟨h₁, h₂, result, rfl, hhandle, hret⟩ := Prog.traces_bind.1 hrest
  obtain ⟨r, h₃, rfl, rfl, -⟩ := hret
  obtain ⟨l, rfl, hl⟩ := Prog.traces_embed.1 hhandle
  obtain ⟨webhooks, now, rest, hfirst, hfans⟩ := Webhooks.handle_traces hl
  cases l with
  | nil => cases hfirst
  | cons e l =>
    obtain ⟨c, r'⟩ := e
    rw [List.map_cons, List.cons.injEq] at hfirst
    obtain ⟨he, rfl⟩ := hfirst
    cases he
    refine ⟨ids, webhooks, now, _, rfl, fun hsub => ?_⟩
    have hpart : (l.map fun e => (⟨.repositories e.1, e.2⟩ : Σ c : Cmd, Resp c)).filterMap outboxPart =
        (l.map fun e => (⟨e.1, e.2⟩ : Σ c : Webhooks.Cmd, Webhooks.Resp c)).filterMap Webhooks.outboxPart := by
      rw [List.filterMap_map, List.filterMap_map]
      refine List.filterMap_congr fun e _ => ?_
      obtain ⟨c, r⟩ := e
      cases c <;> rfl
    have hlast : ([⟨.settled v (caught result), r⟩] : Hist Resp).filterMap outboxPart = [] := rfl
    rw [List.filterMap_cons_none rfl, List.map_cons, List.cons_append, List.filterMap_cons_none rfl,
      List.filterMap_append, hlast, List.append_nil, hpart]
    exact hfans hsub

/-! ## The publication -/

/-- If one element only contributes, its contribution is all. -/
theorem flatMap_of_filter {α β : Type} {f : α → List β} {p : α → Bool} {a : α} {l : List α}
    (hf : ∀ x ∈ l, p x = false → f x = []) (hl : l.filter p = [a]) : l.flatMap f = f a := by
  have hall : ∀ l : List α, (∀ x ∈ l, p x = false → f x = []) → l.flatMap f = (l.filter p).flatMap f := by
    intro l
    induction l with
    | nil => exact fun _ => rfl
    | cons x l ih =>
      intro hf
      rw [List.forall_mem_cons] at hf
      cases hx : p x with
      | true => rw [List.filter_cons_of_pos hx, List.flatMap_cons, List.flatMap_cons, ih hf.2]
      | false => rw [List.filter_cons_of_neg (by simp [hx]), List.flatMap_cons, hf.1 hx, List.nil_append, ih hf.2]
  rw [hall l hf, hl, List.flatMap_cons, List.flatMap_nil, List.append_nil]

/-- The command awaits our handler. -/
def ours (e : Σ c : EventsBroker.Cmd Payload, EventsBroker.Resp c) : Bool :=
  (EventsBroker.awaited e).any fun v => v.handlerId = AllEventsHandler.id

theorem ours_iff {e : Σ c : EventsBroker.Cmd Payload, EventsBroker.Resp c} :
    ours e = true ↔ ∃ v, v.handlerId = AllEventsHandler.id ∧ e.1 = .settled v := by
  obtain ⟨c, r⟩ := e
  cases c <;> simp [ours, EventsBroker.awaited]

/-- What carries out another command is about no outbox event. -/
theorem carryOut_traces {e : Σ c : EventsBroker.Cmd Payload, EventsBroker.Resp c} {h : Hist Resp}
    (he : ours e = false) (ht : (carryOut hmac e.1).Traces h e.2) : h = [⟨.broker e.1, e.2⟩] := by
  obtain ⟨c, r⟩ := e
  cases c with
  | settled v =>
    have hother : v.handlerId ≠ AllEventsHandler.id := fun hours => by
      have htrue : ours ⟨.settled v, r⟩ = true := ours_iff.2 ⟨v, hours, rfl⟩
      rw [htrue] at he
      cases he
    rw [carryOut, if_neg hother] at ht
    exact Prog.traces_command.1 ht
  | registerEventHandler handler => exact Prog.traces_command.1 ht
  | registerUniversalEventHandler handler => exact Prog.traces_command.1 ht
  | publication => exact Prog.traces_command.1 ht
  | universalEventHandlers => exact Prog.traces_command.1 ht
  | eventHandlers name => exact Prog.traces_command.1 ht
  | handle v => exact Prog.traces_command.1 ht
  | save v maxRetries error => exact Prog.traces_command.1 ht
  | unsuccessfull => exact Prog.traces_command.1 ht
  | startRetry id => exact Prog.traces_command.1 ht
  | endRetry id error => exact Prog.traces_command.1 ht

/-- A publication awaits our handler once. -/
theorem publish_ours {b : EventsBroker.Broker Payload} (hb : Started b) {event : EventsBroker.Event Payload}
    {session : String} {l : List (Σ c : EventsBroker.Cmd Payload, EventsBroker.Resp c)} {r : EventsBroker.Reply}
    (ht : (EventsBroker.prog (.publish event session)).Traces l r)
    (hanswers : ∀ e ∈ l, ours e = false → rely b (.broker e.1) e.2) :
    r = .ok () ∧ l.countP ours = 1 ∧ ∀ e ∈ l, ours e = true →
      ∃ n, e.1 = .settled (EventsBroker.invoke n event session AllEventsHandler) := by
  obtain ⟨rfl, n, hs, specific, hmem, hmem', hawaited⟩ := EventsBroker.publish_awaits ht
  have huniversal : hs = b.universalEventHandlers := hanswers _ hmem rfl
  have hspecific : specific = b.eventHandlers.get event.name := hanswers _ hmem' rfl
  subst huniversal hspecific
  set handlers := b.universalEventHandlers ++
    ((b.eventHandlers.get event.name).getD []).map EventsBroker.EventHandler.toHandler with hhandlers
  have hnodup : (handlers.map (·.id)).Nodup := hb.nodup event.name
  have hin : AllEventsHandler.id ∈ handlers.map (·.id) :=
    List.mem_map_of_mem (List.mem_append_left _ hb.mem)
  refine ⟨rfl, ?_, fun e he hours => ?_⟩
  · have hcount : l.countP ours = (l.filterMap EventsBroker.awaited).countP fun v => v.handlerId = AllEventsHandler.id := by
      rw [List.countP_filterMap]
      refine congrArg (fun p => l.countP p) (funext fun e => ?_)
      rw [ours]
      cases EventsBroker.awaited e <;> rfl
    have hids : (handlers.map (EventsBroker.invoke n event session)).countP (fun v => v.handlerId = AllEventsHandler.id) =
        (handlers.map (·.id)).count AllEventsHandler.id := by
      rw [List.count, List.countP_map, List.countP_map]
      refine congrArg (fun p => handlers.countP p) (funext fun handler => ?_)
      rfl
    rw [hcount, hawaited, hids]
    exact List.count_eq_one_of_mem hnodup hin
  · obtain ⟨v, hid, hv⟩ := ours_iff.1 hours
    have hmem : v ∈ l.filterMap EventsBroker.awaited := by
      obtain ⟨c, r⟩ := e
      cases hv
      exact List.mem_filterMap.2 ⟨_, he, rfl⟩
    rw [hawaited] at hmem
    obtain ⟨handler, -, rfl⟩ := List.mem_map.1 hmem
    have hhandler : handler.id = AllEventsHandler.id := hid
    refine ⟨n, hv.trans ?_⟩
    rw [EventsBroker.invoke, hhandler]
    rfl

/-- The history of a publication that has returned: everything about outbox events has been done while our
handler was awaited, after it had been answered which webhooks are subscribed. -/
theorem publication_traces {b : EventsBroker.Broker Payload} (hb : Started b) {event : EventsBroker.Event Payload}
    {session : String} {h : Hist Resp} {r : Reply} (ht : (prog protocol hmac (.publish event session)).Traces h r)
    (hanswers : ∀ e ∈ h, rely b e.1 e.2) : r = .broker (.ok ()) ∧ ∃ past webhooks now rest,
      h = past ++ ⟨.repositories (.ofEvent event.name), (webhooks, now)⟩ :: rest ∧
      Outbox.FansOut hmac webhooks (toEvent event) (h.filterMap outboxPart) := by
  change Prog.Traces (Prog.interp (carryOut hmac) _ >>= _) _ _ at ht
  obtain ⟨h₁, h₂, r₁, rfl, hinterp, hret⟩ := Prog.traces_bind.1 ht
  obtain ⟨rfl, rfl⟩ := hret
  rw [List.append_nil] at hanswers ⊢
  obtain ⟨l, rfl, hparts, hbroker⟩ := Prog.traces_interp hinterp
  have hmem : ∀ e ∈ l, ∀ x ∈ e.2, x ∈ (l.map Prod.snd).flatten := fun e he x hx =>
    List.mem_flatten.2 ⟨e.2, List.mem_map_of_mem he, hx⟩
  obtain ⟨rfl, hcount, hsettled⟩ := publish_ours hb hbroker fun e he hours => by
    obtain ⟨x, hx, rfl⟩ := List.mem_map.1 he
    have hpart := carryOut_traces hours (hparts x hx)
    exact hanswers _ (hmem x hx ⟨.broker x.1.1, x.1.2⟩ (by rw [hpart]; exact List.mem_singleton_self _))
  rw [List.countP_map, List.countP_eq_length_filter] at hcount
  obtain ⟨e, hfilter⟩ := List.length_eq_one_iff.1 hcount
  obtain ⟨he, hours⟩ := List.mem_filter.1 (hfilter ▸ List.mem_singleton_self e)
  have hwhole : (l.map Prod.snd).flatten.filterMap outboxPart = e.2.filterMap outboxPart := by
    rw [List.filterMap_flatten, List.map_map, ← List.flatMap_def]
    refine flatMap_of_filter (fun x hx hother => ?_) hfilter
    have hpart := carryOut_traces hother (hparts x hx)
    show x.2.filterMap outboxPart = []
    rw [hpart]
    rfl
  obtain ⟨l₁, l₂, rfl⟩ := List.append_of_mem he
  obtain ⟨n, hc⟩ := hsettled e.1 (List.mem_map_of_mem he) hours
  have hpart := hparts e he
  obtain ⟨⟨c, error⟩, part⟩ := e
  subst hc
  have hcarry : carryOut hmac (.settled (EventsBroker.invoke n event session AllEventsHandler)) =
      awaitHandle hmac (EventsBroker.invoke n event session AllEventsHandler) := by
    rw [carryOut]
    exact if_pos rfl
  rw [hcarry] at hpart
  obtain ⟨ids, webhooks, now, rest, rfl, hfans⟩ := awaitHandle_traces hpart
  refine ⟨rfl, (l₁.map Prod.snd).flatten ++ [⟨.randomUUIDs, ids⟩], webhooks, now, rest ++ (l₂.map Prod.snd).flatten, ?_, ?_⟩
  · simp
    rfl
  · rw [hwhole]
    have hin : (⟨.repositories (.ofEvent event.name), (webhooks, now)⟩ : Σ c : Cmd, Resp c) ∈
        (⟨.randomUUIDs, ids⟩ :: ⟨.repositories (.ofEvent event.name), (webhooks, now)⟩ :: rest : Hist Resp) := by simp
    have hans := hanswers _ (hmem _ he _ hin)
    exact hfans (Webhooks.subscribed_of_rely (r := (webhooks, now)) hans)

end WebhooksSystem

end NodeToolkit
