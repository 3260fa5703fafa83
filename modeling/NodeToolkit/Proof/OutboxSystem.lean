import NodeToolkit.Proof.Overlap
import NodeToolkit.Proof.WebhooksSystem

/-!
# The outbox in the system

The publications, the operations and the job of the system send outbox events and nothing else happens to
them, so the outbox of the system is the outbox alone under sendings and runs of the job.

* `posts_of_records`: every POST is the one of the record it is made for, which keeps its address, its secret
  and its event from its creation on.
* `outbox_refined`: every interleaving of the system is an interleaving of sendings and runs of the job.
* `posts_in_system`: so this is what every POST of the system is.
-/

namespace NodeToolkit

open Async

namespace Outbox

variable {hmac : String → String → String} {r r' : OutboxEvent} {o o' : Outbox} {known : List OutboxEvent}

/-! ## The POST of a record -/

/-- Two states of a record, of which the same POST is made. -/
structure SamePost (hmac : String → String → String) (r r' : OutboxEvent) : Prop where
  id : r.id = r'.id
  delivery : delivery hmac r = delivery hmac r'

theorem SamePost.refl (r : OutboxEvent) : SamePost hmac r r := ⟨rfl, rfl⟩

/-- An attempt changes nothing of what is sent. -/
theorem samePost_outcome (hmac : String → String → String) (r : OutboxEvent) (a : Answer) : SamePost hmac (outcome r a) r := by
  refine ⟨outcome_id, ?_⟩
  unfold outcome
  split <;> rfl

/-- What a call knows to be stored: it makes POSTs of such records and writes them back only. -/
def knowing (hmac : String → String → String) {α : Type} (fin : List OutboxEvent → α → Prop) :
    Protocol Resp (List OutboxEvent) α where
  may known c :=
    match c with
    | .post r p => r ∈ known ∧ p = delivery hmac r
    | .update r => ∃ r' ∈ known, SamePost hmac r r'
    | _ => True
  next known c a :=
    match c, a with
    | .create r, _ => r :: known
    | .createBatch rs, _ => rs ++ known
    | .allToRetry, a => a.1 ++ known
    | _, _ => known
  fin := fin

/-- What a sequence knows. -/
theorem knowing_bind {α β : Type} {fin : List OutboxEvent → α → Prop} {fin' : List OutboxEvent → β → Prop}
    {p : Client α} {f : α → Client β} (hp : p.Follows (knowing hmac fin) known)
    (hf : ∀ known a, fin known a → (f a).Follows (knowing hmac fin') known) :
    (p >>= f).Follows (knowing hmac fin') known :=
  Prog.Follows.bind (P := knowing hmac fin) (Q := knowing hmac fin') rfl rfl hf hp

/-- A batch sends the records it is given. -/
theorem sendBatch_knows {rs : List OutboxEvent} (hrs : ∀ r ∈ rs, r ∈ known) :
    (SendBatchOutboxEvents hmac rs).Follows (knowing hmac fun _ _ => True) known := by
  induction rs with
  | nil => trivial
  | cons r rs ih =>
    rw [List.forall_mem_cons] at hrs
    refine ⟨⟨hrs.1, rfl⟩, fun _ => ⟨trivial, fun a => ⟨⟨r, hrs.1, samePost_outcome hmac r a⟩, fun _ => ?_⟩⟩⟩
    change Prog.Follows (knowing hmac fun _ _ => True) known (SendBatchOutboxEvents hmac rs >>= _)
    exact knowing_bind (ih hrs.2) fun _ _ _ => trivial

/-- A single event is sent in the record just created. -/
theorem send_knows {webhook : Webhook} {event : Event} {isTest : Bool} {id : String} {now : ℕ} :
    (SendEventToWebhook hmac webhook event isTest id now).Follows (knowing hmac fun _ _ => True) known := by
  unfold SendEventToWebhook
  cases hc : CreateOutboxEvent webhook event isTest id now with
  | error e => trivial
  | ok outbox =>
    have hpost : delivery hmac outbox = ⟨webhook.deliveryUrl, event, deliveryHeaders hmac webhook.id webhook.secret event⟩ := by
      unfold CreateOutboxEvent at hc
      split at hc
      · cases hc
        rfl
      · cases hc
    have hmem : outbox ∈ outbox :: known := List.mem_cons_self ..
    refine ⟨trivial, fun _ => ⟨⟨hmem, hpost.symm⟩, fun _ => ⟨trivial, fun a => ?_⟩⟩⟩
    have hsame := samePost_outcome hmac outbox a
    unfold outcome at hsame
    show Prog.Follows _ _ (if a.status = 200 ∨ a.status = 201 then _ else _)
    by_cases hok : a.status = 200 ∨ a.status = 201
    · rw [if_pos hok] at hsame ⊢
      exact ⟨⟨outbox, hmem, hsame⟩, fun _ => trivial⟩
    · rw [if_neg hok] at hsame ⊢
      exact ⟨⟨outbox, hmem, hsame⟩, fun _ => trivial⟩

/-- A retry sends the record it is given. -/
theorem retry_knows {now : ℕ} (hr : r ∈ known) :
    (RetryOutboxEvent hmac r now).Follows (knowing hmac fun known' _ => known' = known) known := by
  unfold RetryOutboxEvent
  by_cases hcan : CanRetryOutboxEvent r now
  · rw [if_pos hcan]
    refine ⟨⟨hr, rfl⟩, fun _ => ⟨trivial, fun a => ?_⟩⟩
    have hsame := samePost_outcome hmac r a
    unfold outcome at hsame
    show Prog.Follows _ _ (if a.status = 200 ∨ a.status = 201 then _ else _)
    by_cases hok : a.status = 200 ∨ a.status = 201
    · rw [if_pos hok] at hsame ⊢
      exact ⟨⟨r, hr, hsame⟩, fun _ => rfl⟩
    · rw [if_neg hok] at hsame ⊢
      exact ⟨⟨r, hr, hsame⟩, fun _ => rfl⟩
  · rw [if_neg hcan]
    exact rfl

/-- The job retries what it has listed. -/
theorem retryAll_knows {rs : List OutboxEvent} (hrs : ∀ r ∈ rs, r ∈ known) : ∀ {now : ℕ},
    (retryAll hmac rs now).Follows (knowing hmac fun _ _ => True) known := by
  induction rs with
  | nil => exact fun {now} => trivial
  | cons r rs ih =>
    intro now
    rw [List.forall_mem_cons] at hrs
    refine knowing_bind (retry_knows hrs.1) ?_
    rintro known' res rfl
    cases res with
    | error e => trivial
    | ok res => exact ih hrs.2

/-- The calls that the system makes; a retry of a record that a caller has kept is none of them. -/
def Call.Sends : Call → Prop
  | .retry _ _ => False
  | _ => True

theorem prog_knows {x : Call} (hx : x.Sends) : (prog hmac x).Follows (knowing hmac fun _ _ => True) [] := by
  cases x with
  | send webhook event isTest id now => exact knowing_bind send_knows fun _ _ _ => trivial
  | sendBatch webhooks event isTest now =>
    have hsend : (SendEventToWebhooks hmac webhooks event isTest now).Follows (knowing hmac fun _ _ => True) [] := by
      unfold SendEventToWebhooks
      cases hc : createAll event isTest now webhooks with
      | error e => trivial
      | ok rs =>
        refine ⟨trivial, fun _ => ?_⟩
        change Prog.Follows (knowing hmac fun _ _ => True) (rs ++ []) (SendBatchOutboxEvents hmac rs >>= _)
        exact knowing_bind (sendBatch_knows fun r hr => List.mem_append_left _ hr) fun _ _ _ => trivial
    exact knowing_bind hsend fun _ _ _ => trivial
  | retry outbox now => exact hx.elim
  | job =>
    have hjob : (runJob hmac).Follows (knowing hmac fun _ _ => True) [] :=
      ⟨trivial, fun r => retryAll_knows fun r' hr' => List.mem_append_left _ hr'⟩
    exact knowing_bind hjob fun _ _ _ => trivial

/-! ## The POSTs of a run -/

/-- Every record is filed under its id, and every POST is the one of the record that is stored. -/
structure Faithful (hmac : String → String → String) (o : Outbox) : Prop where
  filed : ∀ id r, o.map.get id = some r → r.id = id
  posts : ∀ e ∈ o.posts, ∃ r, o.map.get e.1 = some r ∧ e.2 = delivery hmac r

/-- The records are stored, and the same POSTs are made of them. -/
def Stored (hmac : String → String → String) (known : List OutboxEvent) (o : Outbox) : Prop :=
  ∀ r ∈ known, ∃ r', o.map.get r.id = some r' ∧ SamePost hmac r r'

/-- Records are stored under ids that are not in use. -/
def Unused (o : Outbox) : Cmd → Prop
  | .create r => o.map.get r.id = none
  | .createBatch rs => (rs.map OutboxEvent.id).Nodup ∧ ∀ r ∈ rs, o.map.get r.id = none
  | _ => True

instance Unused.decidable (o : Outbox) : ∀ c, Decidable (Unused o c)
  | .create r => inferInstanceAs (Decidable (o.map.get r.id = none))
  | .createBatch rs =>
    inferInstanceAs (Decidable ((rs.map OutboxEvent.id).Nodup ∧ ∀ r ∈ rs, o.map.get r.id = none))
  | .update _ => inferInstanceAs (Decidable True)
  | .allToRetry => inferInstanceAs (Decidable True)
  | .post _ _ => inferInstanceAs (Decidable True)
  | .answer => inferInstanceAs (Decidable True)

/-- No record is lost, and none gets another POST. -/
def Keeps (hmac : String → String → String) (o o' : Outbox) : Prop :=
  ∀ id r, o.map.get id = some r → ∃ r', o'.map.get id = some r' ∧ SamePost hmac r r'

theorem SamePost.trans {r'' : OutboxEvent} (h : SamePost hmac r r') (h' : SamePost hmac r' r'') : SamePost hmac r r'' :=
  ⟨h.id.trans h'.id, h.delivery.trans h'.delivery⟩

/-- What a call knows is still stored, as the same record for its POSTs. -/
theorem Stored.keeps (h : Stored hmac known o) (hk : Keeps hmac o o') : Stored hmac known o' := by
  intro r hr
  obtain ⟨r', hget, hsame⟩ := h r hr
  obtain ⟨r'', hget', hsame'⟩ := hk r.id r' hget
  exact ⟨r'', hget', hsame.trans hsame'⟩

/-- A step without a POST. -/
theorem Faithful.keeps (h : Faithful hmac o) (hk : Keeps hmac o o') (hposts : o'.posts = o.posts)
    (hfiled : ∀ id r, o'.map.get id = some r → r.id = id) : Faithful hmac o' := by
  refine ⟨hfiled, fun e he => ?_⟩
  rw [hposts] at he
  obtain ⟨r, hget, hpost⟩ := h.posts e he
  obtain ⟨r', hget', hsame⟩ := hk e.1 r hget
  exact ⟨r', hget', hpost.trans hsame.delivery⟩

/-- A record is stored, and what was stored under its id makes the same POST. -/
theorem keeps_set (h : Faithful hmac o) (hmap : o'.map = o.map.set r.id r)
    (hold : ∀ r', o.map.get r.id = some r' → SamePost hmac r' r) :
    Keeps hmac o o' ∧ ∀ id r, o'.map.get id = some r → r.id = id := by
  rw [Keeps, hmap]
  refine ⟨fun id r' hget => ?_, fun id r' hget => ?_⟩
  · by_cases hid : r.id = id
    · subst hid
      exact ⟨r, OMap.get_set_self .., hold r' hget⟩
    · exact ⟨r', (OMap.get_set_ne _ _ hid).trans hget, .refl r'⟩
  · by_cases hid : r.id = id
    · subst hid
      rw [OMap.get_set_self] at hget
      cases hget
      rfl
    · rw [OMap.get_set_ne _ _ hid] at hget
      exact h.filed id r' hget

/-- New records do not replace those that are stored. -/
theorem keeps_store {rs : List OutboxEvent} (h : Faithful hmac o) (hmap : o'.map = store o.map rs)
    (hnd : (rs.map OutboxEvent.id).Nodup) (hnew : ∀ r ∈ rs, o.map.get r.id = none) :
    Keeps hmac o o' ∧ ∀ id r, o'.map.get id = some r → r.id = id := by
  rw [Keeps, hmap]
  refine ⟨fun id r hget => ?_, fun id r hget => ?_⟩
  · refine ⟨r, (get_store_of_not_mem fun r' hr' hid => ?_).trans hget, .refl r⟩
    rw [← hid, hnew r' hr'] at hget
    cases hget
  · by_cases hin : ∃ r' ∈ rs, r'.id = id
    · obtain ⟨r', hr', rfl⟩ := hin
      rw [get_store_of_mem hnd hr'] at hget
      cases hget
      rfl
    · rw [get_store_of_not_mem fun r' hr' hid => hin ⟨r', hr', hid⟩] at hget
      exact h.filed id r hget

/-- **What calls know of their records** stays true. -/
theorem stable_knowing : (machine hmac).Stable (Faithful hmac) (fun _ => knowing hmac fun _ _ => True) (fun _ => [])
    (Stored hmac) fun _ => Unused where
  exec := by
    intro x known i o c hJ hknown hmay hok
    cases c with
    | create r =>
      have hnone : o.map.get r.id = none := hok
      have hfresh : ∀ r', o.map.get r.id = some r' → SamePost hmac r' r := fun r' hget => by
        rw [hnone] at hget
        cases hget
      obtain ⟨hk, hfiled⟩ : Keeps hmac o (exec i o (.create r)).1 ∧ _ := keeps_set hJ rfl hfresh
      refine ⟨hJ.keeps hk rfl hfiled, fun r' hr' => ?_, fun known' h => h.keeps hk⟩
      rcases List.mem_cons.1 hr' with rfl | hr'
      · exact ⟨r', OMap.get_set_self .., .refl r'⟩
      · exact hknown.keeps hk r' hr'
    | createBatch rs =>
      obtain ⟨hnd, hnew⟩ := hok
      obtain ⟨hk, hfiled⟩ : Keeps hmac o (exec i o (.createBatch rs)).1 ∧ _ := keeps_store hJ rfl hnd hnew
      refine ⟨hJ.keeps hk rfl hfiled, fun r hr => ?_, fun known' h => h.keeps hk⟩
      rcases List.mem_append.1 hr with hr | hr
      · exact ⟨r, get_store_of_mem hnd hr, .refl r⟩
      · exact hknown.keeps hk r hr
    | update r =>
      obtain ⟨r', hr', hsame⟩ := hmay
      have hold : ∀ r'', o.map.get r.id = some r'' → SamePost hmac r'' r := fun r'' hget => by
        obtain ⟨stored, hstored, hsame'⟩ := hknown r' hr'
        rw [← hsame.id, hget] at hstored
        cases hstored
        exact ⟨(hsame.trans hsame').id.symm, (hsame.trans hsame').delivery.symm⟩
      obtain ⟨hk, hfiled⟩ : Keeps hmac o (exec i o (.update r)).1 ∧ _ := keeps_set hJ rfl hold
      exact ⟨hJ.keeps hk rfl hfiled, hknown.keeps hk, fun known' h => h.keeps hk⟩
    | allToRetry =>
      have hk : Keeps hmac o (exec i o .allToRetry).1 := fun id r hget => ⟨r, hget, .refl r⟩
      refine ⟨hJ.keeps hk rfl hJ.filed, fun r hr => ?_, fun known' h => h.keeps hk⟩
      rcases List.mem_append.1 hr with hr | hr
      · obtain ⟨id, hget⟩ := OMap.mem_values.1 (List.mem_filter.1 hr).1
        have hid := hJ.filed id r hget
        subst hid
        exact ⟨r, hget, .refl r⟩
      · exact hknown r hr
    | post r p =>
      obtain ⟨hr, rfl⟩ := hmay
      refine ⟨⟨hJ.filed, fun e he => ?_⟩, hknown, fun known' h => h⟩
      rcases List.mem_append.1 he with he | he
      · exact hJ.posts e he
      · rw [List.mem_singleton.1 he]
        obtain ⟨r', hget, hsame⟩ := hknown r hr
        exact ⟨r', hget, hsame.delivery⟩
    | answer => exact ⟨⟨hJ.filed, hJ.posts⟩, hknown, fun known' h => h⟩
  enter := fun x o hJ => ⟨⟨hJ.filed, hJ.posts⟩, fun r hr => (List.not_mem_nil hr).elim, fun _ h => h⟩
  env := fun e => e.elim

/-- **Every POST is the one of its record**, in every interleaving of sendings and runs of the job. -/
theorem posts_of_records {es : List (Ev Choice Empty Call)}
    (hes : (machine hmac).Along (Proper Call.Sends fun _ => Unused) (Pool.init .empty) es) :
    Faithful hmac ((machine hmac).run (Pool.init .empty) es).st := by
  have hstart : Faithful hmac .empty := ⟨fun id r hget => (nomatch hget), fun e he => (List.not_mem_nil he).elim⟩
  exact (run_stable stable_knowing (fun x hx => prog_knows hx) (knows_init hstart) hes).st

end Outbox

namespace WebhooksSystem

variable {protocol : Webhooks.Protocols} {hmac : String → String → String} {uuid : ℕ → String}

/-! ## The outbox as a layer of the system -/

/-- Records are stored under ids that are not in use. -/
def Unused (s : State) : Cmd → Prop
  | .repositories (.outbox c) => Outbox.Unused s.repositories.outbox c
  | _ => True

instance Unused.decidable (s : State) : ∀ c, Decidable (Unused s c)
  | .repositories (.outbox c) => inferInstanceAs (Decidable (Outbox.Unused s.repositories.outbox c))
  | .repositories .generateUnique => inferInstanceAs (Decidable True)
  | .repositories (.create _) => inferInstanceAs (Decidable True)
  | .repositories (.update _) => inferInstanceAs (Decidable True)
  | .repositories (.delete _) => inferInstanceAs (Decidable True)
  | .repositories (.ofId _) => inferInstanceAs (Decidable True)
  | .repositories (.ofEvent _) => inferInstanceAs (Decidable True)
  | .repositories (.outboxOfId _) => inferInstanceAs (Decidable True)
  | .broker _ => inferInstanceAs (Decidable True)
  | .settled _ _ => inferInstanceAs (Decidable True)
  | .randomUUIDs => inferInstanceAs (Decidable True)

/-- The outbox alone has the same records and the same POSTs; its clock goes with its own calls. -/
structure SameOutbox (s : State) (o : Outbox) : Prop where
  map : s.repositories.outbox.map = o.map
  posts : s.repositories.outbox.posts = o.posts

def outboxLayer (protocol : Webhooks.Protocols) (hmac : String → String → String) (uuid : ℕ → String) :
    Lower (Outbox.machine hmac) (machine protocol hmac uuid) where
  rel := SameOutbox
  rely := fun _ _ => True
  ok' := fun _ => Unused
  ok := fun _ => Outbox.Unused
  cmd := fun c => .repositories (.outbox c)
  ans := fun _ r => r
  exec := by
    intro i s o c hrel hok
    obtain ⟨broker, webhooks, map, posts, clock⟩ := s
    obtain ⟨map', posts', clock'⟩ := o
    obtain ⟨rfl, rfl⟩ := hrel
    refine ⟨i.repositories.toChoice, ?_, ?_⟩
    · cases c <;> exact hok
    · cases c <;> exact ⟨⟨rfl, rfl⟩, rfl⟩
  enter := fun _ _ _ h => h
  entered := fun _ _ _ h => ⟨h.map, h.posts⟩
  env := fun e => e.elim

/-- The sendings and the job, in any number. -/
abbrev sending {γ : Type} : Asking Outbox.Call Outbox.Reply Unit γ := Asking.some Outbox.Call.Sends

/-- The program makes sendings and runs the job, and does nothing else to the outbox. -/
abbrev Sending {γ : Type} (protocol : Webhooks.Protocols) (hmac : String → String → String) (uuid : ℕ → String)
    (p : Client γ) : Prop :=
  (outboxLayer protocol hmac uuid).Asks sending () p

theorem Sending.bind {γ δ : Type} {p : Client γ} {f : γ → Client δ} (hp : Sending protocol hmac uuid p)
    (hf : ∀ a, Sending protocol hmac uuid (f a)) : Sending protocol hmac uuid (p >>= f) :=
  Lower.Asks.bind (P := (sending : Asking Outbox.Call Outbox.Reply Unit γ))
    (Q := (sending : Asking Outbox.Call Outbox.Reply Unit δ)) rfl rfl (fun _ a _ => hf a) hp

/-- The command is about something else. -/
def Elsewhere : Webhooks.Cmd → Prop
  | .outbox _ => False
  | _ => True

/-- A command that is none of the outbox makes no call of it. -/
theorem inert_of_elsewhere {c : Webhooks.Cmd} (hc : Elsewhere c) :
    (outboxLayer protocol hmac uuid).Inert (.repositories c) := by
  intro i s o hrel
  cases c with
  | outbox c => exact hc.elim
  | generateUnique => exact hrel
  | create webhook => exact ⟨hrel.map, hrel.posts⟩
  | update webhook => exact ⟨hrel.map, hrel.posts⟩
  | delete webhook => exact ⟨hrel.map, hrel.posts⟩
  | ofId id => exact hrel
  | ofEvent event => exact hrel
  | outboxOfId id => exact hrel

theorem sending_of_uses {γ : Type} {p : Webhooks.Client γ} (hp : p.Uses Elsewhere) :
    Sending protocol hmac uuid (Client.repositories p) := by
  unfold Client.repositories
  induction p with
  | ret a => exact .ret () a trivial
  | await c k ih => exact .inert () _ _ (inert_of_elsewhere hp.1) fun r _ => ih r (hp.2 r)

/-- Functions over the repositories, one after the other. -/
theorem repositories_bind {γ δ : Type} (p : Webhooks.Client γ) (f : γ → Webhooks.Client δ) :
    Client.repositories (p >>= f) = Client.repositories p >>= fun a => Client.repositories (f a) :=
  Prog.embed_bind p f

/-- A function over the outbox that is a call of it. -/
theorem sending_of_call {γ : Type} {p : Outbox.Client γ} (x : Outbox.Call) (wrap : γ → Outbox.Reply)
    (unwrap : Outbox.Reply → γ) (hx : x.Sends) (hprog : Outbox.prog hmac x = p >>= fun r => .ret (wrap r))
    (hwrap : ∀ r, unwrap (wrap r) = r) : Sending protocol hmac uuid (Client.repositories (Webhooks.Client.outbox p)) := by
  have hcall : Client.repositories (Webhooks.Client.outbox p) =
      (outboxLayer protocol hmac uuid).call x >>= fun reply => .ret (unwrap reply) := by
    have hembed : (outboxLayer protocol hmac uuid).call x =
        Client.repositories (Webhooks.Client.outbox p) >>= fun r => .ret (wrap r) := by
      rw [Client.repositories, Webhooks.Client.outbox, Prog.embed_embed]
      show Prog.embed _ _ (Outbox.prog hmac x) = _
      rw [hprog, Prog.embed_bind]
      rfl
    rw [hembed, Prog.bind_assoc]
    simp only [Prog.ret_bind, hwrap]
    exact (Prog.bind_ret _).symm
  rw [hcall]
  exact .ask () x _ hx fun reply => .ret () _ trivial

/-! ## The calls of the system -/

/-- The value of a reply to one kind of call. -/
def sentBatchOf : Outbox.Reply → Except ValidationException (List OutboxEvent)
  | .sentBatch r => r
  | _ => .ok []

def sentOf : Outbox.Reply → Except ValidationException OutboxEvent
  | .sent r => r
  | _ => .error (.make "" "" [])

def doneOf : Outbox.Reply → Except ValidationException Unit
  | .done r => r
  | _ => .ok ()

/-- The handler of all events sends by the functions of the outbox. -/
theorem handle_sends (event : Event) (ids : ℕ → String) :
    Sending protocol hmac uuid (Client.repositories (Webhooks.handle hmac event ids)) := by
  refine .inert () _ _ (inert_of_elsewhere (c := .ofEvent event.name) trivial) fun r _ => ?_
  obtain ⟨webhooks, now⟩ := r
  change Sending protocol hmac uuid (Client.repositories (Webhooks.Client.outbox _ >>= _))
  rw [repositories_bind]
  refine Sending.bind (sending_of_call (.sendBatch _ event false now) .sentBatch sentBatchOf trivial rfl
    fun _ => rfl) fun r => ?_
  cases r with
  | error e => exact .ret () _ trivial
  | ok l => exact .ret () _ trivial

/-- A test of a webhook sends an event after the other. -/
theorem testAll_sends (webhook : Webhook) (eventNames : List String) : ∀ drafts,
    Sending protocol hmac uuid (Client.repositories (Webhooks.testAll hmac webhook eventNames drafts)) := by
  induction eventNames with
  | nil => exact fun _ => .ret () _ trivial
  | cons eventName eventNames ih =>
    intro drafts
    rw [Webhooks.testAll, repositories_bind]
    refine Sending.bind (sending_of_call (.send webhook { (drafts 0).event with name := eventName } true (drafts 0).id
      (drafts 0).now) .sent sentOf trivial rfl fun _ => rfl) fun r => ?_
    cases r with
    | error e => exact .ret () _ trivial
    | ok outboxEvent =>
      dsimp only
      rw [repositories_bind]
      refine (ih _).bind fun r => ?_
      cases r with
      | error e => exact .ret () _ trivial
      | ok outboxEvents => exact .ret () _ trivial

/-- What an operation that sends no test events does. -/
theorem uses_of_follows {γ : Type} {x : Webhooks.Operation} {fin : Hist Webhooks.Resp → γ → Prop}
    {p : Webhooks.Client γ} (hx : x.tests = none) : ∀ {h : Hist Webhooks.Resp},
    p.Follows (Webhooks.rules x fin) h → p.Uses Elsewhere := by
  induction p with
  | ret a => exact fun _ => trivial
  | await c k ih =>
    intro h hp
    refine ⟨?_, fun r => ih r (hp.2 r)⟩
    cases c with
    | outbox c =>
      obtain ⟨id, webhook, htests, -⟩ := hp.1
      rw [hx] at htests
      cases htests
    | generateUnique => trivial
    | create webhook => trivial
    | update webhook => trivial
    | delete webhook => trivial
    | ofId id => trivial
    | ofEvent event => trivial
    | outboxOfId id => trivial

/-- The same behind the permission and the assignee. -/
theorem testWebhook_sends (command : Webhooks.IdCommand) (drafts : ℕ → Webhooks.TestDraft) :
    Sending protocol hmac uuid (Client.repositories (Webhooks.Decorator.testWebhook hmac command drafts)) := by
  have hauth : Authorize WebhooksPermissions.TestWebhook (fun a => some (.session (Webhooks.IdCommand.session a)))
      (fun _ => Webhooks.accessed command (Webhooks.testWebhook hmac command drafts)) [command] =
      if IsPermissionsMatches WebhooksPermissions.TestWebhook command.session.acting then
        .ran (Webhooks.accessed command (Webhooks.testWebhook hmac command drafts))
      else .threw notAuthorized := authorize_of_session rfl
  rw [Webhooks.Decorator.testWebhook, Webhooks.authorized, hauth]
  by_cases hmatch : IsPermissionsMatches WebhooksPermissions.TestWebhook command.session.acting
  · rw [if_pos hmatch]
    show Sending protocol hmac uuid (Client.repositories (Webhooks.accessed command _))
    have haccess : (Webhooks.assertWebhookAccessPossiblity command).Uses Elsewhere := by
      refine ⟨trivial, fun r => ?_⟩
      obtain ⟨_ | webhook, now⟩ := r
      · trivial
      · show Prog.Uses _ (if webhook.assigneeId ≠ command.session.user.id then _ else _)
        split <;> trivial
    rw [Webhooks.accessed, repositories_bind]
    refine (sending_of_uses haccess).bind fun r => ?_
    cases r with
    | error e => exact .ret () _ trivial
    | ok u =>
      refine .inert () _ _ (inert_of_elsewhere (c := .ofId command.id) trivial) fun r _ => ?_
      obtain ⟨_ | webhook, now⟩ := r
      · exact .ret () _ trivial
      · exact testAll_sends webhook webhook.events drafts
  · rw [if_neg hmatch]
    exact .ret () _ trivial

/-- **Every operation of the manager** reaches the outbox by its functions only. -/
theorem operate_sends (x : Webhooks.Operation) :
    Sending protocol hmac uuid (Client.repositories (Webhooks.operate protocol hmac x)) := by
  cases hx : x.tests with
  | none => exact sending_of_uses (uses_of_follows hx (Webhooks.operate_follows x))
  | some id =>
    cases x with
    | testWebhook command drafts =>
      rw [Webhooks.operate, repositories_bind]
      exact (testWebhook_sends command drafts).bind fun _ => .ret () _ trivial
    | _ => cases hx

/-- What carries out a command of the broker. -/
theorem carryOut_sends (c : EventsBroker.Cmd Payload) : Sending protocol hmac uuid (carryOut hmac c) := by
  have hown : ∀ c : EventsBroker.Cmd Payload, Sending protocol hmac uuid (.await (.broker c) .ret) := fun c =>
    .inert () _ _ (fun i s o hrel => ⟨hrel.map, hrel.posts⟩) fun r _ => .ret () r trivial
  cases c with
  | settled v =>
    rw [carryOut]
    by_cases hours : v.handlerId = AllEventsHandler.id
    · rw [if_pos hours]
      refine .inert () _ _ (fun i s o hrel => hrel) fun ids _ => ?_
      change Sending protocol hmac uuid (Client.repositories _ >>= _)
      refine (handle_sends (toEvent v.event) ids).bind fun r => ?_
      exact .inert () _ _ (fun i s o hrel => ⟨hrel.map, hrel.posts⟩) fun r _ => .ret () r trivial
    · rw [if_neg hours]
      exact hown _
  | registerEventHandler handler => exact hown _
  | registerUniversalEventHandler handler => exact hown _
  | publication => exact hown _
  | universalEventHandlers => exact hown _
  | eventHandlers name => exact hown _
  | handle v => exact hown _
  | save v maxRetries error => exact hown _
  | unsuccessfull => exact hown _
  | startRetry id => exact hown _
  | endRetry id error => exact hown _

/-- **Every call of the system** makes sendings and runs the job. -/
theorem prog_sends (x : Call) : Sending protocol hmac uuid (prog protocol hmac x) := by
  cases x with
  | publish event session =>
    exact Sending.bind (Lower.Asks.interp carryOut_sends _) fun _ => .ret () _ trivial
  | retryFailedEvents =>
    exact Sending.bind (Lower.Asks.interp carryOut_sends _) fun _ => .ret () _ trivial
  | operate x => exact (operate_sends x).bind fun _ => .ret () _ trivial
  | retryOutboxEvents =>
    refine Sending.bind (sending_of_call .job .done doneOf trivial rfl fun _ => rfl) ?_
    exact fun _ => .ret () _ trivial

/-- Records are stored under ids that are not in use, in the whole run. -/
abbrev Fresh (protocol : Webhooks.Protocols) (hmac : String → String → String) (uuid : ℕ → String)
    (b : EventsBroker.Broker Payload) (es : List (Ev Choice Empty Call)) : Prop :=
  (machine protocol hmac uuid).Along (Proper (fun _ => True) fun _ => Unused) (Pool.init ⟨b, .empty⟩) es

/-- Every run contains a run of the outbox. -/
theorem shadowed_run {b : EventsBroker.Broker Payload} {es : List (Ev Choice Empty Call)}
    (hes : Fresh protocol hmac uuid b es) :
    ∃ ls, (Outbox.machine hmac).Along (Proper Outbox.Call.Sends fun _ => Outbox.Unused) (Pool.init .empty) ls ∧
      (outboxLayer protocol hmac uuid).Shadows (fun _ => sending) (fun _ => ())
        ((machine protocol hmac uuid).run (Pool.init ⟨b, .empty⟩) es) ((Outbox.machine hmac).run (Pool.init .empty) ls) := by
  have hstart : SameOutbox ⟨b, .empty⟩ .empty := ⟨rfl, rfl⟩
  refine Lower.run (fun _ _ _ hx => hx) (fun x _ => prog_sends x) hstart hes ?_
  exact fun _ _ _ _ _ _ _ _ _ _ => trivial

/-- **The outbox in the system is the outbox alone**: for every interleaving of publications, passes,
operations and runs of the job there is one of sendings and runs of the job with the same records and the
same POSTs. -/
theorem outbox_refined (protocol : Webhooks.Protocols) (hmac : String → String → String) (uuid : ℕ → String)
    (b : EventsBroker.Broker Payload) {es : List (Ev Choice Empty Call)} (hes : Fresh protocol hmac uuid b es) :
    ∃ ls, (Outbox.machine hmac).Along (Proper Outbox.Call.Sends fun _ => Outbox.Unused) (Pool.init .empty) ls ∧
      SameOutbox ((machine protocol hmac uuid).run (Pool.init ⟨b, .empty⟩) es).st
        ((Outbox.machine hmac).run (Pool.init .empty) ls).st := by
  obtain ⟨ls, hadmits, hshadows⟩ := shadowed_run hes
  exact ⟨ls, hadmits, hshadows.st⟩

theorem fresh_publication : Fresh Webhooks.exampleUrls (fun _ text => text) numberToString (start [] []).broker
    publication := by decide +kernel

theorem outbox_refined_publication : ∃ ls,
    ((Outbox.machine fun _ text => text).run (Pool.init .empty) ls).st.posts.length = 1 := by
  obtain ⟨ls, -, hsame⟩ := outbox_refined Webhooks.exampleUrls (fun _ text => text) numberToString (start [] []).broker
    fresh_publication
  refine ⟨ls, ?_⟩
  rw [← hsame.posts]
  rfl

/-- **Every POST of the system is the one of its record**, which is still stored: whatever happens to the
webhook meanwhile, an event is sent again to the address it was first sent to, with the same text and the
same signature. -/
theorem posts_in_system (protocol : Webhooks.Protocols) (hmac : String → String → String) (uuid : ℕ → String)
    (b : EventsBroker.Broker Payload) {es : List (Ev Choice Empty Call)} (hes : Fresh protocol hmac uuid b es) :
    let outbox := ((machine protocol hmac uuid).run (Pool.init ⟨b, .empty⟩) es).st.repositories.outbox
    ∀ e ∈ outbox.posts, ∃ r, outbox.map.get e.1 = some r ∧ r.id = e.1 ∧ e.2 = Outbox.delivery hmac r := by
  intro outbox e he
  obtain ⟨ls, hadmits, hshadows⟩ := shadowed_run hes
  have hsame : SameOutbox _ _ := hshadows.st
  have hfaithful := Outbox.posts_of_records hadmits
  have he' : e ∈ ((Outbox.machine hmac).run (Pool.init .empty) ls).st.posts := hsame.posts ▸ he
  obtain ⟨r, hget, hpost⟩ := hfaithful.posts e he'
  refine ⟨r, ?_, hfaithful.filed e.1 r hget, hpost⟩
  exact (congrArg (OMap.get · e.1) hsame.map).trans hget

theorem posts_in_system_publication :
    let outbox := ((machine Webhooks.exampleUrls (fun _ text => text) numberToString).run
      (Pool.init ⟨(start [] []).broker, .empty⟩) publication).st.repositories.outbox
    outbox.posts.length = 1 ∧
      ∀ e ∈ outbox.posts, ∃ r, outbox.map.get e.1 = some r ∧ r.id = e.1 ∧ e.2 = Outbox.delivery (fun _ text => text) r :=
  ⟨rfl, posts_in_system Webhooks.exampleUrls (fun _ text => text) numberToString (start [] []).broker fresh_publication⟩

end WebhooksSystem

end NodeToolkit
