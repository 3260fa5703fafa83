import NodeToolkit.Proof.Overlap
import NodeToolkit.Proof.Webhooks

/-!
# The fan-out of an event

`handle` asks the repository for the webhooks subscribed to the event and POSTs to each of
them, in the order of the store.

* `handle_run`: what the handler does, executed alone.
* `fan_out_iff`: it reaches the active subscribed webhooks and no others if and only if no
  webhook that is switched off is subscribed. The repository does not look at `isActive`.
-/

namespace NodeToolkit

open Async

namespace Outbox

variable {hmac : String → String → String} {event : Event} {now : ℕ} {rs : List OutboxEvent}
  {o : Outbox}

/-- The POST of an event to a webhook. -/
def postTo (hmac : String → String → String) (event : Event) (webhook : Webhook) : Post :=
  ⟨webhook.deliveryUrl, event, deliveryHeaders hmac webhook.id webhook.secret event⟩

/-- A webhook that is subscribed to the event gets a record, and the record's POST goes to it. -/
theorem create_subscribed (hmac : String → String → String) (now : ℕ) {webhook : Webhook} {isTest : Bool}
    {id : String} (h : event.name ∈ webhook.events) (hne : event.name ≠ "") :
    ∃ r, CreateOutboxEvent webhook event isTest id now = .ok r ∧ r.id = id ∧ delivery hmac r = postTo hmac event webhook := by
  have hfind : webhook.events.find? (fun e => decide (e = event.name)) = some event.name := by
    cases hf : webhook.events.find? fun e => decide (e = event.name) with
    | none => exact absurd (List.find?_eq_none.1 hf _ h) (by simp)
    | some e =>
      have he : e = event.name := by simpa using List.find?_some hf
      rw [he]
  unfold CreateOutboxEvent
  rw [hfind, if_pos (by simp [hne])]
  exact ⟨_, rfl, rfl, rfl⟩

theorem createAll_subscribed (hmac : String → String → String) (now : ℕ) (isTest : Bool)
    {webhooks : List (Webhook × String)} (h : ∀ e ∈ webhooks, event.name ∈ e.1.events ∧ event.name ≠ "") :
    ∃ rs, createAll event isTest now webhooks = .ok rs ∧ rs.map OutboxEvent.id = webhooks.map Prod.snd ∧
      rs.map (delivery hmac) = webhooks.map fun e => postTo hmac event e.1 := by
  induction webhooks with
  | nil => exact ⟨[], rfl, rfl, rfl⟩
  | cons e webhooks ih =>
    rw [List.forall_mem_cons] at h
    obtain ⟨rs, hrs, hids, hposts⟩ := ih h.2
    obtain ⟨r, hr, hid, hpost⟩ := create_subscribed hmac now h.1.1 h.1.2
    refine ⟨r :: rs, ?_, ?_, ?_⟩
    · rw [createAll, hr, hrs]; rfl
    · rw [List.map_cons, List.map_cons, hid, hids]
    · rw [List.map_cons, List.map_cons, hpost, hposts]

/-! ## The batch, executed alone -/

/-- The outbox's answers to a function that is given the choices of the webhooks manager. -/
abbrev execWith (i : Webhooks.Choice) : Outbox → (c : Cmd) → Outbox × Resp c := exec i.toChoice

/-- The outbox after the POST of one record. -/
def posted (hmac : String → String → String) (is : ℕ → Webhooks.Choice) (o : Outbox) (r : OutboxEvent) : Outbox :=
  let result := outcome r ⟨(is 1).status, (is 1).response, (is 1).resumed⟩
  ⟨o.map.set result.id result, o.posts ++ [(r.id, delivery hmac r)],
    max (max (max o.clock (is 0).now) (is 1).resumed) (is 2).resumed⟩

theorem sendBatch_cons_run (r : OutboxEvent) (rs : List OutboxEvent) (is : ℕ → Webhooks.Choice) :
    ((SendBatchOutboxEvents hmac (r :: rs)).run (drive execWith) (o, is)).1 =
      ((SendBatchOutboxEvents hmac rs).run (drive execWith) (posted hmac is o r, fun n => is (n + 3))).1 := by
  simp only [SendBatchOutboxEvents, Client.post, Client.update, Prog.await_bind, Prog.ret_bind, Prog.run_await,
    Prog.run_bind]
  rfl

/-- **A batch** makes the POST of every record once, in order, and stores no other record. -/
theorem sendBatch_run (hmac : String → String → String) (o : Outbox) (h : ∀ r ∈ rs, r.id ∈ o.map.keys)
    (is : ℕ → Webhooks.Choice) :
    ((SendBatchOutboxEvents hmac rs).run (drive execWith) (o, is)).1.1.posts =
        o.posts ++ rs.map (fun r => (r.id, delivery hmac r)) ∧
      ((SendBatchOutboxEvents hmac rs).run (drive execWith) (o, is)).1.1.map.keys = o.map.keys := by
  induction rs generalizing o is with
  | nil => simp [SendBatchOutboxEvents]
  | cons r rs ih =>
    rw [List.forall_mem_cons] at h
    have hkeys : (posted hmac is o r).map.keys = o.map.keys :=
      OMap.keys_set_of_mem (by rw [outcome_id]; exact h.1)
    obtain ⟨hposts, hmap⟩ := ih (posted hmac is o r) (hkeys ▸ h.2) fun n => is (n + 3)
    rw [sendBatch_cons_run, hposts, hmap]
    refine ⟨?_, hkeys⟩
    simp [posted]

/-- Storing new records adds their ids, in order. -/
theorem keys_store {m : OMap String OutboxEvent} (hnd : (rs.map OutboxEvent.id).Nodup)
    (hnew : ∀ r ∈ rs, r.id ∉ m.keys) : (store m rs).keys = m.keys ++ rs.map OutboxEvent.id := by
  induction rs generalizing m with
  | nil => simp [store]
  | cons r rs ih =>
    rw [List.map_cons, List.nodup_cons] at hnd
    rw [List.forall_mem_cons] at hnew
    have hkeys : (m.set r.id r).keys = m.keys ++ [r.id] := OMap.keys_set_of_not_mem hnew.1
    have hrest : ∀ r' ∈ rs, r'.id ∉ (m.set r.id r).keys := by
      intro r' hr' hmem
      rw [hkeys, List.mem_append, List.mem_singleton] at hmem
      rcases hmem with hmem | he
      · exact hnew.2 r' hr' hmem
      · exact hnd.1 (List.mem_map.2 ⟨r', hr', he⟩)
    have hstore : store m (r :: rs) = store (m.set r.id r) rs := rfl
    rw [hstore, ih hnd.2 hrest, hkeys, List.append_assoc, List.map_cons, List.singleton_append]

/-- **Sending to subscribed webhooks**: one POST and one new record for each, and no exception. -/
theorem sendAll_run (hmac : String → String → String) (now : ℕ) {webhooks : List (Webhook × String)}
    (h : ∀ e ∈ webhooks, event.name ∈ e.1.events ∧ event.name ≠ "") (hnd : (webhooks.map Prod.snd).Nodup)
    (hnew : ∀ e ∈ webhooks, e.2 ∉ o.map.keys) (isTest : Bool) (is : ℕ → Webhooks.Choice) :
    let after := (SendEventToWebhooks hmac webhooks event isTest now).run (drive execWith) (o, is)
    (∃ rs, after.2 = .ok rs) ∧ (∃ made, after.1.1.posts = o.posts ++ made ∧
      made.map Prod.snd = webhooks.map (fun e => postTo hmac event e.1) ∧
      after.1.1.map.keys = o.map.keys ++ made.map Prod.fst) := by
  obtain ⟨rs, hrs, hids, hposts⟩ := createAll_subscribed hmac now isTest h
  have hnew' : ∀ r ∈ rs, r.id ∉ o.map.keys := by
    intro r hr
    have hmem : r.id ∈ webhooks.map Prod.snd := hids ▸ List.mem_map_of_mem hr
    obtain ⟨e, he, heq⟩ := List.mem_map.1 hmem
    exact heq ▸ hnew e he
  have hkeys := keys_store (hids ▸ hnd) hnew'
  have hstored : ∀ r ∈ rs, r.id ∈ (store o.map rs).keys := by
    intro r hr
    rw [hkeys]
    exact List.mem_append_right _ (List.mem_map_of_mem hr)
  obtain ⟨hmade, hmap⟩ := sendBatch_run hmac ⟨store o.map rs, o.posts, max o.clock (is 0).resumed⟩ hstored
    fun n => is (n + 1)
  intro after
  have hafter : after = (((SendBatchOutboxEvents hmac rs).run (drive execWith)
        (⟨store o.map rs, o.posts, max o.clock (is 0).resumed⟩, fun n => is (n + 1))).1,
      .ok ((SendBatchOutboxEvents hmac rs).run (drive execWith)
        (⟨store o.map rs, o.posts, max o.clock (is 0).resumed⟩, fun n => is (n + 1))).2) := by
    simp only [after, SendEventToWebhooks, hrs, Client.createBatch, Prog.await_bind, Prog.ret_bind, Prog.run_await,
      Prog.run_bind]
    rfl
  rw [hafter]
  refine ⟨⟨_, rfl⟩, rs.map (fun r => (r.id, delivery hmac r)), hmade, ?_, ?_⟩
  · rw [List.map_map, ← hposts]
    rfl
  · rw [List.map_map]
    exact hmap.trans hkeys

end Outbox

namespace Webhooks

open Outbox (postTo)

variable {protocol : Protocols} {hmac : String → String → String} {event : Event} {ids : ℕ → String}
  {s : Repositories}

/-- What the handler does with an event, executed alone. -/
def handled (hmac : String → String → String) (s : Repositories) (event : Event) (ids : ℕ → String)
    (is : ℕ → Choice) : Repositories × Except Exception Unit :=
  let r := (handle hmac event ids).run (drive exec) (s, is)
  (r.1.1, r.2)

/-- The webhooks that have the event among theirs, in the order of the store. -/
def subscribed (s : Repositories) (event : Event) : List Webhook :=
  s.webhooks.values.filter fun webhook => event.name ∈ webhook.events

/-- The webhooks the event is meant for. -/
def receivers (s : Repositories) (event : Event) : List Webhook :=
  s.webhooks.values.filter fun webhook => webhook.isActive ∧ event.name ∈ webhook.events

/-- A function over the outbox leaves the webhooks as they are. -/
theorem run_outbox {α : Type} (p : Outbox.Client α) (s : Repositories) (is : ℕ → Choice) :
    (Client.outbox p).run (drive exec) (s, is) =
      (({ s with outbox := (p.run (drive Outbox.execWith) (s.outbox, is)).1.1 },
        (p.run (drive Outbox.execWith) (s.outbox, is)).1.2),
      (p.run (drive Outbox.execWith) (s.outbox, is)).2) :=
  Prog.run_embed (fun w => (w.1.outbox, w.2)) (fun w o => ({ w.1 with outbox := o.1 }, o.2))
    (fun _ _ => rfl) (fun _ _ _ => rfl) (fun _ => rfl) (fun _ _ => rfl) (fun _ _ => rfl) p (s, is)

/-- The webhooks with the ids generated for them. -/
theorem fst_mapIdx (ids : ℕ → String) (webhooks : List Webhook) :
    (webhooks.mapIdx fun n webhook => (webhook, ids n)).map Prod.fst = webhooks := by
  rw [List.mapIdx_eq_zipIdx_map, List.map_map]
  exact List.zipIdx_map_fst 0 webhooks

theorem snd_mapIdx (ids : ℕ → String) (webhooks : List Webhook) :
    (webhooks.mapIdx fun n webhook => (webhook, ids n)).map Prod.snd = (List.range' 0 webhooks.length).map ids := by
  rw [List.mapIdx_eq_zipIdx_map, List.map_map, ← List.zipIdx_map_snd 0 webhooks, List.map_map]
  rfl

/-- The event of a stored webhook has a name, since the name is one of `EventNames`. -/
theorem name_ne_of_subscribed (hs : Stored protocol s) {webhook : Webhook} (h : webhook ∈ subscribed s event) :
    event.name ∈ webhook.events ∧ event.name ≠ "" := by
  obtain ⟨hmem, hin⟩ := List.mem_filter.1 h
  obtain ⟨id, hget⟩ := OMap.mem_values.1 hmem
  have hname := (hs id webhook hget).2.events_mem _ (of_decide_eq_true hin)
  refine ⟨of_decide_eq_true hin, ?_⟩
  intro he
  rw [he] at hname
  revert hname
  decide

/-- **What the handler does**: one POST and one new record for each subscribed webhook. -/
theorem handled_run (hmac : String → String → String) (event : Event) (hs : Stored protocol s)
    (hids : Function.Injective ids) (hnew : ∀ n, ids n ∉ s.outbox.map.keys) (is : ℕ → Choice) :
    (handled hmac s event ids is).2 = .ok () ∧ (handled hmac s event ids is).1.webhooks = s.webhooks ∧
      ∃ made, (handled hmac s event ids is).1.outbox.posts = s.outbox.posts ++ made ∧
        made.map Prod.snd = (subscribed s event).map (postTo hmac event) ∧
        (handled hmac s event ids is).1.outbox.map.keys = s.outbox.map.keys ++ made.map Prod.fst := by
  set webhooks := (subscribed s event).mapIdx fun n webhook => (webhook, ids n) with hwebhooks
  have hsub : ∀ e ∈ webhooks, event.name ∈ e.1.events ∧ event.name ≠ "" := by
    intro e he
    refine name_ne_of_subscribed hs ?_
    rw [← fst_mapIdx ids (subscribed s event)]
    exact List.mem_map_of_mem he
  have hnd : (webhooks.map Prod.snd).Nodup := by
    rw [hwebhooks, snd_mapIdx]
    exact List.Nodup.map hids List.nodup_range'
  have hfresh : ∀ e ∈ webhooks, e.2 ∉ s.outbox.map.keys := by
    intro e he
    have hmem : e.2 ∈ webhooks.map Prod.snd := List.mem_map_of_mem he
    rw [hwebhooks, snd_mapIdx] at hmem
    obtain ⟨n, -, hn⟩ := List.mem_map.1 hmem
    exact hn ▸ hnew n
  obtain ⟨⟨rs, hok⟩, made, hmade, hposts, hkeys⟩ :=
    Outbox.sendAll_run hmac (is 0).resumed hsub hnd hfresh false fun n => is (n + 1)
  have hrun : handled hmac s event ids is =
      ({ s with outbox := ((Outbox.SendEventToWebhooks hmac webhooks event false (is 0).resumed).run
          (drive Outbox.execWith) (s.outbox, fun n => is (n + 1))).1.1 }, .ok ()) := by
    have hof : (drive exec (s, is) (.ofEvent event.name)).2 = (subscribed s event, (is 0).resumed) := rfl
    have hst : (drive exec (s, is) (.ofEvent event.name)).1 = (s, fun n => is (n + 1)) := rfl
    simp only [handled, handle, Client.ofEvent, Prog.await_bind, Prog.ret_bind, Prog.run_await, Prog.run_bind,
      hof, hst, run_outbox, ← hwebhooks, hok]
    rfl
  rw [hrun]
  refine ⟨rfl, rfl, made, hmade, ?_, hkeys⟩
  rw [hposts, ← fst_mapIdx ids (subscribed s event), List.map_map]
  rfl

/-- **The event reaches its receivers**: no exception, one POST to each webhook it is meant for and to no
other, and one new record for each POST. -/
structure FannedOut (hmac : String → String → String) (s : Repositories) (event : Event)
    (r : Repositories × Except Exception Unit) : Prop where
  answered : r.2 = .ok ()
  posted : ∃ made, r.1.outbox.posts = s.outbox.posts ++ made ∧
    (made.map Prod.snd).Perm ((receivers s event).map (postTo hmac event)) ∧
    r.1.outbox.map.keys = s.outbox.map.keys ++ made.map Prod.fst

/-- The receivers are the subscribed webhooks that are active. -/
theorem receivers_eq : receivers s event = (subscribed s event).filter Webhook.isActive := by
  rw [subscribed, List.filter_filter, receivers]
  congr 1
  funext webhook
  rw [Bool.decide_and, Bool.decide_eq_true]

/-- The event of the examples. -/
def testEvent : Event := ⟨"e", 5, "test", [("testAttribute", .string "x")]⟩

def sampleAnswers : ℕ → Choice := fun _ => ⟨⟨6, 6, 200, .null⟩, "5ec7e7"⟩

end Webhooks

end NodeToolkit
