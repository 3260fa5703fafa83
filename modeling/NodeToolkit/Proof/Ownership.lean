import NodeToolkit.Proof.Authorize
import NodeToolkit.Proof.Webhooks
import NodeToolkit.Spec.WebhooksManager

/-!
# Ownership of webhooks

The check of an operation and its writes are separate commands, with other operations in
between. What makes the check good is that the assignee of an id never changes.

* `may`, `Returns`: what an operation may do after its history, and what it may return;
  `operate_follows`: every operation keeps to them.
* `Owned`: the invariant, that every webhook stored or read has the assignee it was
  created with.
* `ownership`: only the assignee's operations change a webhook or send test events for it,
  records are returned to their assignees only, and a refused operation changes nothing.
-/

namespace NodeToolkit.Webhooks

open Async

variable {protocol : Protocols} {hmac : String → String → String}

namespace Operation

def session : Operation → Session
  | createWebhook command _ => command.session
  | deleteWebhook command => command.session
  | editWebhook command => command.session
  | enableWebhook command => command.session
  | disableWebhook command => command.session
  | testWebhook command _ => command.session
  | getWebhook query => query.session
  | getWebhooks query => query.session
  | getEvents query => query.session
  | getOutboxEvent query => query.session
  | getOutboxEvents query => query.session

/-- The user that makes the operation. -/
def user (x : Operation) : String := x.session.user.id

/-- The webhook id that the operation generates. -/
def generated : Operation → Option String
  | createWebhook _ draft => some draft.id
  | _ => none

/-- The webhook that the operation edits, enables, disables or deletes. -/
def amends : Operation → Option String
  | deleteWebhook command => some command.id
  | editWebhook command => some command.id
  | enableWebhook command => some command.id
  | disableWebhook command => some command.id
  | _ => none

/-- The webhook that the operation tests. -/
def tests : Operation → Option String
  | testWebhook command _ => some command.id
  | _ => none

end Operation

/-! ## What an operation may do -/

/-- A command that only reads. -/
def Cmd.Reads : Cmd → Prop
  | .generateUnique => True
  | .ofId _ => True
  | .ofEvent _ => True
  | .outboxOfId _ => True
  | _ => False

theorem exec_reads {c : Cmd} (h : c.Reads) (i : Choice) (s : Repositories) : (exec i s c).1 = s := by
  cases c with
  | generateUnique => rfl
  | ofId id => rfl
  | ofEvent event => rfl
  | outboxOfId id => rfl
  | create webhook => exact h.elim
  | update webhook => exact h.elim
  | delete webhook => exact h.elim
  | outbox c => exact h.elim

def ReadsOnly (h : Hist Resp) : Prop := ∀ e ∈ h, e.1.Reads

/-- The webhook was read under the id. -/
def Saw (h : Hist Resp) (id : String) (webhook : Webhook) : Prop :=
  ∃ now, (⟨.ofId id, (some webhook, now)⟩ : Σ c, Resp c) ∈ h

/-- The check has found that the user is the assignee. -/
def Checked (h : Hist Resp) (id user : String) : Prop := ∃ webhook, Saw h id webhook ∧ webhook.assigneeId = user

/-- A record that belongs to a webhook. -/
def BelongsTo (webhook : Webhook) (r : OutboxEvent) : Prop :=
  r.webhookId = webhook.id ∧ r.assigneeId = webhook.assigneeId

/-- A command of sending an event to a webhook. -/
def Concerns (webhook : Webhook) : Outbox.Cmd → Prop
  | .create r => BelongsTo webhook r
  | .update r => BelongsTo webhook r
  | .post r post => BelongsTo webhook r ∧ ("X-Webhook-Id", webhook.id) ∈ post.headers
  | .answer => True
  | _ => False

/-- **The commands of an operation**, after a history. -/
def may (x : Operation) (h : Hist Resp) : Cmd → Prop
  | .create webhook => x.generated = some webhook.id ∧ webhook.assigneeId = x.user
  | .update webhook => ∃ id webhook', x.amends = some id ∧ Checked h id x.user ∧ Saw h id webhook' ∧
      SameIdentity webhook' webhook
  | .delete webhook => ∃ id, x.amends = some id ∧ Checked h id x.user ∧ Saw h id webhook
  | .outbox c => ∃ id webhook, x.tests = some id ∧ Checked h id x.user ∧ Saw h id webhook ∧ Concerns webhook c
  | _ => True

/-- The operation was refused. -/
def Refused {α : Type} (r : Except Exception α) : Prop := ∃ e, r = .error (.authorization e)

def Reply.Refused : Reply → Prop
  | id r => Webhooks.Refused r
  | tested r => Webhooks.Refused r
  | webhook r => Webhooks.Refused r
  | events r => Webhooks.Refused r
  | outboxEvent r => Webhooks.Refused r
  | list r => Webhooks.Refused r

/-- **What an operation may return**, after a history. -/
structure Returns (x : Operation) (h : Hist Resp) (reply : Reply) : Prop where
  refused : reply.Refused → ReadsOnly h
  webhook : ∀ webhook, reply = .webhook (.ok webhook) → webhook.assigneeId = x.user
  outboxEvent : ∀ r, reply = .outboxEvent (.ok r) → r.assigneeId = x.user

section Histories

variable {h h' : Hist Resp} {id user : String} {w : Webhook}

theorem ReadsOnly.snoc {c : Cmd} {r : Resp c} (hh : ReadsOnly h) (hc : c.Reads) : ReadsOnly (h ++ [⟨c, r⟩]) := by
  intro e he
  rcases List.mem_append.1 he with he | he
  · exact hh e he
  · rw [List.mem_singleton.1 he]
    exact hc

theorem Saw.mono (hs : Saw h id w) (hle : h <+: h') : Saw h' id w :=
  let ⟨now, hmem⟩ := hs
  ⟨now, hle.subset hmem⟩

theorem Checked.mono (hc : Checked h id user) (hle : h <+: h') : Checked h' id user :=
  let ⟨w, hs, hu⟩ := hc
  ⟨w, hs.mono hle, hu⟩

theorem saw_snoc {now : ℕ} : Saw (h ++ [⟨.ofId id, (some w, now)⟩]) id w := ⟨now, by simp⟩

/-- What is seen after one more command was seen before, or was just read. -/
theorem saw_cases {c : Cmd} {r : Resp c} (hs : Saw (h ++ [⟨c, r⟩]) id w) :
    Saw h id w ∨ ∃ now, (⟨c, r⟩ : Σ c, Resp c) = ⟨.ofId id, (some w, now)⟩ := by
  obtain ⟨now, hmem⟩ := hs
  rcases List.mem_append.1 hmem with hmem | hmem
  · exact Or.inl ⟨now, hmem⟩
  · exact Or.inr ⟨now, (List.mem_singleton.1 hmem).symm⟩

end Histories

/-! ## Every operation keeps to it -/

section Follows

variable {x : Operation} {h : Hist Resp} {α β : Type}

/-- The rules of an operation, for a part of it that may return what `fin` allows. -/
abbrev rules (x : Operation) (fin : Hist Resp → α → Prop) : Protocol Resp (Hist Resp) α := .ofHist (may x) fin

theorem rules_bind {fin : Hist Resp → α → Prop} {fin' : Hist Resp → β → Prop} {p : Client α} {f : α → Client β}
    (hp : p.Follows (rules x fin) h) (hf : ∀ h' a, fin h' a → (f a).Follows (rules x fin') h') :
    (p >>= f).Follows (rules x fin') h :=
  Prog.Follows.bind (P := rules x fin) (Q := rules x fin') rfl rfl hf hp

/-- What a part of an operation returns to the decorator: a refusal only if nothing was written. -/
def Quietly (h : Hist Resp) (r : Except Exception α) : Prop := Refused r → ReadsOnly h

theorem quietly_error {e : Exception} (he : ∀ e', e ≠ .authorization e') :
    Quietly h (.error e : Except Exception α) := by
  rintro ⟨e', h⟩
  exact absurd (Except.error.inj h) (he e')

theorem quietly_ok {a : α} : Quietly h (.ok a : Except Exception α) := by
  rintro ⟨e, h⟩
  cases h

/-- Reading a webhook. -/
theorem getWebhook_follows {query : IdCommand} (hh : ReadsOnly h) :
    (getWebhook query).Follows (rules x fun h' r => ReadsOnly h' ∧ ¬ Refused r ∧
      ∀ webhook, r = .ok webhook → Saw h' query.id webhook) h := by
  refine ⟨trivial, fun r => ?_⟩
  obtain ⟨_ | webhook, now⟩ := r
  · refine ⟨hh.snoc trivial, ?_, fun webhook h => by cases h⟩
    rintro ⟨e, h⟩
    cases h
  · refine ⟨hh.snoc trivial, ?_, fun webhook' h => ?_⟩
    · rintro ⟨e, h⟩
      cases h
    · cases h
      exact saw_snoc

/-- **The check**, and the method called after it. -/
theorem accessed_follows {payload : IdCommand} {method : Client (Except Exception α)}
    {fin : Hist Resp → Except Exception α → Prop} (hh : ReadsOnly h) (huser : payload.session.user.id = x.user)
    (herror : ∀ h' e, ReadsOnly h' → fin h' (.error e))
    (hm : ∀ h', ReadsOnly h' → Checked h' payload.id x.user → method.Follows (rules x fin) h') :
    (accessed payload method).Follows (rules x fin) h := by
  have hassert : (assertWebhookAccessPossiblity payload).Follows (rules x fun h' r => ReadsOnly h' ∧
      (r = .ok () → Checked h' payload.id x.user)) h := by
    refine rules_bind (getWebhook_follows hh) ?_
    rintro h' r ⟨hh', -, hsaw⟩
    cases r with
    | error e => exact ⟨hh', fun h => by cases h⟩
    | ok webhook =>
      dsimp only
      by_cases hne : webhook.assigneeId ≠ payload.session.user.id
      · rw [if_pos hne]
        exact ⟨hh', fun h => by cases h⟩
      · rw [if_neg hne]
        exact ⟨hh', fun _ => ⟨webhook, hsaw webhook rfl, (not_not.1 hne).trans huser⟩⟩
  refine rules_bind hassert ?_
  rintro h' r ⟨hh', hc⟩
  cases r with
  | error e => exact herror h' e hh'
  | ok u => exact hm h' hh' (hc rfl)

/-- A facade command that writes the webhook it has read. -/
theorem amend_follows (protocol : Protocols) (y : Command) (hy : y.Amends) (ht : x.amends = some y.target)
    (hc : Checked h y.target x.user) : (prog protocol y).Follows (rules x Quietly) h := by
  rw [prog_of_amends hy]
  refine ⟨trivial, fun r => ?_⟩
  obtain ⟨_ | webhook, now⟩ := r
  · exact quietly_error fun e' h => by cases h
  · simp only [afterRead]
    cases ham : amendment protocol y webhook now with
    | error e => exact quietly_error fun e' h => by cases h
    | ok c =>
      have hc' := hc.mono (List.prefix_append h [⟨.ofId y.target, (some webhook, now)⟩])
      rcases amendment_cases hy ham with ⟨webhook', rfl, hsame, -⟩ | ⟨-, rfl⟩
      · exact ⟨⟨y.target, webhook, ht, hc', saw_snoc, hsame⟩, fun _ => quietly_ok⟩
      · exact ⟨⟨y.target, ht, hc', saw_snoc⟩, fun _ => quietly_ok⟩

/-- Commands over the outbox, each allowed after the history. -/
theorem outbox_follows {p : Outbox.Client α} {ok : Outbox.Cmd → Prop} {fin : Hist Resp → α → Prop}
    (hok : ∀ h', h <+: h' → ∀ c, ok c → may x h' (.outbox c)) (hfin : ∀ h' a, h <+: h' → fin h' a) (hp : p.Uses ok) :
    (Client.outbox p).Follows (rules x fin) h := by
  induction p generalizing h with
  | ret a => exact hfin h a List.prefix_rfl
  | await c k ih =>
    refine ⟨hok h List.prefix_rfl c hp.1, fun r => ih r (fun h' hle => ?_) (fun h' a hle => ?_) (hp.2 r)⟩
    · exact hok h' ((List.prefix_append h _).trans hle)
    · exact hfin h' a ((List.prefix_append h _).trans hle)

/-- Sending an event to a webhook uses records of that webhook. -/
theorem send_uses {webhook : Webhook} {event : Event} {isTest : Bool} {id : String} {now : ℕ} :
    (Outbox.SendEventToWebhook hmac webhook event isTest id now).Uses (Concerns webhook) := by
  unfold Outbox.SendEventToWebhook
  cases hc : CreateOutboxEvent webhook event isTest id now with
  | error e => exact trivial
  | ok r =>
    have hr : BelongsTo webhook r := by
      unfold CreateOutboxEvent at hc
      split at hc
      · cases hc
        exact ⟨rfl, rfl⟩
      · cases hc
    simp only [Outbox.Client.create, Outbox.Client.post, Outbox.Client.update, Prog.await_bind, Prog.ret_bind]
    refine ⟨hr, fun now => ⟨⟨hr, by simp [Outbox.deliveryHeaders]⟩, fun _ => ⟨trivial, fun a => ?_⟩⟩⟩
    dsimp only
    by_cases hok : a.status = 200 ∨ a.status = 201
    · rw [if_pos hok]
      exact ⟨hr, fun _ => trivial⟩
    · rw [if_neg hok]
      exact ⟨hr, fun _ => trivial⟩

theorem testAll_follows {id : String} {webhook : Webhook} {eventNames : List String} (ht : x.tests = some id) :
    ∀ {h : Hist Resp} {drafts : ℕ → TestDraft}, Checked h id x.user → Saw h id webhook →
      (testAll hmac webhook eventNames drafts).Follows (rules x Quietly) h := by
  induction eventNames with
  | nil => exact fun _ _ => quietly_ok
  | cons eventName eventNames ih =>
    intro h drafts hc hs
    have hsend : (Client.outbox (Outbox.SendEventToWebhook hmac webhook { (drafts 0).event with name := eventName } true
        (drafts 0).id (drafts 0).now)).Follows (rules x fun h' _ => h <+: h') h :=
      outbox_follows (fun h' hle c hok => ⟨id, webhook, ht, hc.mono hle, hs.mono hle, hok⟩) (fun h' _ hle => hle)
        send_uses
    refine rules_bind hsend fun h' r hle => ?_
    cases r with
    | error e => exact quietly_error fun e' h => by cases h
    | ok r =>
      refine rules_bind (ih (hc.mono hle) (hs.mono hle)) fun h'' r' hq => ?_
      cases r' with
      | error e => exact hq
      | ok ids => exact quietly_ok

theorem testWebhook_follows {command : IdCommand} {drafts : ℕ → TestDraft} (ht : x.tests = some command.id)
    (hc : Checked h command.id x.user) : (testWebhook hmac command drafts).Follows (rules x Quietly) h := by
  refine ⟨trivial, fun r => ?_⟩
  obtain ⟨_ | webhook, now⟩ := r
  · exact quietly_error fun e' h => by cases h
  · exact testAll_follows ht (hc.mono (List.prefix_append ..)) saw_snoc

/-- An operation under `Authorize`. -/
theorem authorized_follows {A : Type} {permission : String} {session : A → Session} {command : A}
    {method : A → Client (Except Exception α)} {fin : Hist Resp → Except Exception α → Prop}
    (herror : ∀ e, fin h (.error e)) (hm : (method command).Follows (rules x fin) h) :
    (authorized permission session method command).Follows (rules x fin) h := by
  have hauth : Authorize permission (fun a => some (.session (session a))) (fun _ => method command) [command] =
      if IsPermissionsMatches permission (session command).acting then .ran (method command)
      else .threw notAuthorized := authorize_of_session rfl
  rw [authorized, hauth]
  by_cases hmatch : IsPermissionsMatches permission (session command).acting
  · rw [if_pos hmatch]
    exact hm
  · rw [if_neg hmatch]
    exact herror _

theorem readsOnly_nil : ReadsOnly [] := fun e he => by cases he

/-- The operations that do not answer with a record. -/
theorem replied_follows {p : Client (Except Exception α)} (wrap : Except Exception α → Reply)
    (hp : p.Follows (rules x Quietly) h) (href : ∀ r, (wrap r).Refused → Refused r)
    (hw : ∀ r webhook, wrap r ≠ .webhook (.ok webhook)) (ho : ∀ r event, wrap r ≠ .outboxEvent (.ok event)) :
    (p >>= fun r => (return wrap r : Client Reply)).Follows (rules x (Returns x)) h :=
  rules_bind hp fun _ r hq =>
    ⟨fun h => hq (href r h), fun w h => absurd h (hw r w), fun event h => absurd h (ho r event)⟩

theorem id_follows {p : Client (Except Exception String)} (hp : p.Follows (rules x Quietly) h) :
    (p >>= fun r => (return .id r : Client Reply)).Follows (rules x (Returns x)) h :=
  replied_follows .id hp (fun _ h => h) (by simp) (by simp)

/-- **Every operation keeps to the rules.** -/
theorem operate_follows (x : Operation) : (operate protocol hmac x).Follows (rules x (Returns x)) [] := by
  have herror : ∀ {α : Type} (e : Exception), Quietly [] (.error e : Except Exception α) := fun _ _ => readsOnly_nil
  have haccess : ∀ {α : Type} (h : Hist Resp) (e : Exception), ReadsOnly h → Quietly h (.error e : Except Exception α) :=
    fun h _ hh _ => hh
  cases x with
  | createWebhook command draft =>
    refine id_follows (authorized_follows herror ?_)
    simp only [createWebhook, CreateWebhook]
    cases checkArguments protocol command.events command.deliveryUrl with
    | error e => exact quietly_error fun e' h => by cases h
    | ok u => exact ⟨trivial, fun secret => ⟨⟨rfl, rfl⟩, fun _ => quietly_ok⟩⟩
  | deleteWebhook command =>
    exact id_follows (authorized_follows herror (accessed_follows readsOnly_nil rfl haccess fun h' _ hc =>
      amend_follows protocol (.delete command) trivial rfl hc))
  | editWebhook command =>
    exact id_follows (authorized_follows herror (accessed_follows readsOnly_nil rfl haccess fun h' _ hc =>
      amend_follows protocol (.edit command) trivial rfl hc))
  | enableWebhook command =>
    exact id_follows (authorized_follows herror (accessed_follows readsOnly_nil rfl haccess fun h' _ hc =>
      amend_follows protocol (.enable command) trivial rfl hc))
  | disableWebhook command =>
    exact id_follows (authorized_follows herror (accessed_follows readsOnly_nil rfl haccess fun h' _ hc =>
      amend_follows protocol (.disable command) trivial rfl hc))
  | testWebhook command drafts =>
    have htest : (Decorator.testWebhook hmac command drafts).Follows
        (rules (.testWebhook command drafts) Quietly) [] :=
      authorized_follows herror (accessed_follows readsOnly_nil rfl haccess fun h' _ hc => testWebhook_follows rfl hc)
    exact replied_follows .tested htest (fun _ h => h) (by simp) (by simp)
  | getWebhook query =>
    have hget : (Decorator.getWebhook query).Follows (rules (.getWebhook query) fun h' r => Quietly h' r ∧
        ∀ webhook, r = .ok webhook → webhook.assigneeId = (Operation.getWebhook query).user) [] := by
      refine authorized_follows (fun e => ⟨herror e, fun w h => by cases h⟩)
        (rules_bind (getWebhook_follows readsOnly_nil) ?_)
      rintro h' r ⟨hh', -, -⟩
      cases r with
      | error e => exact ⟨haccess h' e hh', fun w h => by cases h⟩
      | ok webhook =>
        dsimp only
        by_cases hne : webhook.assigneeId ≠ query.session.user.id
        · rw [if_pos hne]
          exact ⟨haccess h' _ hh', fun w h => by cases h⟩
        · rw [if_neg hne]
          refine ⟨quietly_ok, fun w h => ?_⟩
          cases h
          exact not_not.1 hne
    refine rules_bind hget fun h' r hq => ⟨hq.1, fun w h => ?_, fun r h => ?_⟩
    · cases h
      exact hq.2 w rfl
    · cases h
  | getWebhooks query =>
    have hlist : (Decorator.getWebhooks query).Follows (rules (.getWebhooks query) Quietly) [] :=
      authorized_follows herror (herror (notImplemented _))
    exact replied_follows .list hlist (fun _ h => h) (by simp) (by simp)
  | getEvents query =>
    have hevents : (Decorator.getEvents query).Follows (rules (.getEvents query) Quietly) [] :=
      authorized_follows herror quietly_ok
    exact replied_follows .events hevents (fun _ h => h) (by simp) (by simp)
  | getOutboxEvent query =>
    have hget : (Decorator.getOutboxEvent query).Follows (rules (.getOutboxEvent query) fun h' r => Quietly h' r ∧
        ∀ event, r = .ok event → event.assigneeId = (Operation.getOutboxEvent query).user) [] := by
      refine authorized_follows (fun e => ⟨herror e, fun w h => by cases h⟩) ⟨trivial, fun r => ?_⟩
      have hh : ReadsOnly [⟨.outboxOfId query.id, r⟩] := readsOnly_nil.snoc trivial
      cases r with
      | none => exact ⟨haccess _ _ hh, fun w h => by cases h⟩
      | some event =>
        simp only [Prog.bind, Prog.pure_eq]
        by_cases hne : event.assigneeId ≠ query.session.user.id
        · rw [if_pos hne]
          exact ⟨haccess _ _ hh, fun w h => by cases h⟩
        · rw [if_neg hne]
          refine ⟨quietly_ok, fun w h => ?_⟩
          cases h
          exact not_not.1 hne
    refine rules_bind hget fun h' r hq => ⟨hq.1, fun w h => ?_, fun r h => ?_⟩
    · cases h
    · cases h
      exact hq.2 r rfl
  | getOutboxEvents query =>
    have hlist : (Decorator.getOutboxEvents query).Follows (rules (.getOutboxEvents query) Quietly) [] :=
      authorized_follows herror (herror (notImplemented _))
    exact replied_follows .list hlist (fun _ h => h) (by simp) (by simp)

end Follows

/-! ## The invariant -/

/-- The repositories and the operations. -/
abbrev World : Type := Pool Resp Repositories Operation Reply

/-- The webhook was created by an operation of the user. -/
def Owner (w : World) (id user : String) : Prop :=
  ∃ q p, w.procs.get q = some p ∧ p.call.generated = some id ∧ p.call.user = user

/-- An operation generates an id that none before it has generated. -/
def FreshDrafts (w : World) : Ev Choice Empty Operation → Prop
  | .call _ x => ∀ id, x.generated = some id → ∀ q p, w.procs.get q = some p → p.call.generated ≠ some id
  | _ => True

/-- **What every run keeps**: webhooks have the assignee they were created with. -/
structure Owned (w : World) : Prop where
  keeps : w.Keeps may Returns
  unique : ∀ q q' p p' id, w.procs.get q = some p → w.procs.get q' = some p' → p.call.generated = some id →
    p'.call.generated = some id → q = q'
  stored : ∀ id webhook, w.st.webhooks.get id = some webhook → webhook.id = id ∧ Owner w id webhook.assigneeId
  seen : ∀ q p id webhook, w.procs.get q = some p → Saw p.hist id webhook →
    webhook.id = id ∧ Owner w id webhook.assigneeId

theorem owned_init : Owned (Pool.init .empty) where
  keeps := Pool.obeys_init _ _ _
  unique q q' p p' id h := by simp [Pool.init] at h
  stored id webhook h := by simp [Pool.init, Repositories.empty] at h
  seen q p id webhook h := by simp [Pool.init] at h

section Step

variable {w w' : World} {pid q : ℕ} {p : Proc Resp Operation Reply} {i : Choice} {c : Cmd}
  {k : Resp c → Client Reply} {x : Operation} {id user user' : String} {webhook : Webhook}

/-- A creator stays the creator. -/
theorem Owner.mono (h : Owner w id user)
    (hgrow : ∀ q p, w.procs.get q = some p → ∃ p', w'.procs.get q = some p' ∧ p'.call = p.call) : Owner w' id user := by
  obtain ⟨q, p, hp, hg, hu⟩ := h
  obtain ⟨p', hp', hcall⟩ := hgrow q p hp
  exact ⟨q, p', hp', hcall ▸ hg, hcall ▸ hu⟩

theorem Owner.run (h : Owner w id user) (es : List (Ev Choice Empty Operation)) :
    Owner ((manager protocol hmac).run w es) id user :=
  h.mono fun _ _ hp =>
    let ⟨p', hp', hcall, _⟩ := Machine.run_grows hp
    ⟨p', hp', hcall⟩

theorem Owner.begin (h : Owner w id user) (hn : w.procs.get pid = none) :
    Owner ((manager protocol hmac).begin w pid x) id user := by
  have hstep : (manager protocol hmac).step w (.call pid x) = (manager protocol hmac).begin w pid x := if_pos hn
  exact hstep ▸ h.run [.call pid x]

theorem Owner.advance (h : Owner w id user) (hp : w.procs.get pid = some p) (hr : p.rest = .await c k) :
    Owner ((manager protocol hmac).advance w pid i p c k) id user := by
  have hstep : (manager protocol hmac).step w (.step pid i) = (manager protocol hmac).advance w pid i p c k := by
    simp only [Machine.step, hp, hr]
  exact hstep ▸ h.run [.step pid i]

/-- A webhook has one creator. -/
theorem Owned.owner_inj (hO : Owned w) (h : Owner w id user) (h' : Owner w id user') : user = user' := by
  obtain ⟨q, p, hp, hg, rfl⟩ := h
  obtain ⟨q', p', hp', hg', rfl⟩ := h'
  obtain rfl := hO.unique q q' p p' id hp hp' hg hg'
  rw [hp] at hp'
  cases hp'
  rfl

/-- The check was made against the creator. -/
theorem Owned.owner_of_checked (hO : Owned w) (hp : w.procs.get pid = some p) (h : Checked p.hist id user) :
    Owner w id user := by
  obtain ⟨webhook, hs, rfl⟩ := h
  exact (hO.seen pid p id webhook hp hs).2

/-- An operation starts. -/
theorem Owned.begin (hO : Owned w) (hnew : FreshDrafts w (.call pid x)) (hn : w.procs.get pid = none) :
    Owned ((manager protocol hmac).begin w pid x) := by
  refine ⟨Machine.begin_obeys hO.keeps pid (operate_follows x), fun q q' p p' id hq hq' hg hg' => ?_,
    fun id webhook h => ?_, fun q p id webhook hq hs => ?_⟩
  · rcases Machine.begin_cases hq with ⟨rfl, rfl⟩ | ⟨-, hold⟩
    · rcases Machine.begin_cases hq' with ⟨rfl, -⟩ | ⟨-, hold'⟩
      · rfl
      · exact absurd hg' (hnew id hg q' p' hold')
    · rcases Machine.begin_cases hq' with ⟨rfl, rfl⟩ | ⟨-, hold'⟩
      · exact absurd hg (hnew id hg' q p hold)
      · exact hO.unique q q' p p' id hold hold' hg hg'
  · obtain ⟨hid, how⟩ := hO.stored id webhook h
    exact ⟨hid, how.begin hn⟩
  · rcases Machine.begin_cases hq with ⟨rfl, rfl⟩ | ⟨hne, hq⟩
    · obtain ⟨now, hmem⟩ := hs
      cases hmem
    · obtain ⟨hid, how⟩ := hO.seen q p id webhook hq hs
      exact ⟨hid, how.begin hn⟩

/-- What an operation reads is stored. -/
theorem saw_exec {h : Hist Resp} (hs : Saw (h ++ [⟨c, (exec i w.st c).2⟩]) id webhook) :
    Saw h id webhook ∨ w.st.webhooks.get id = some webhook := by
  rcases saw_cases hs with hs | ⟨now, he⟩
  · exact Or.inl hs
  · cases c with
    | ofId id' =>
      simp only [Sigma.mk.injEq, Cmd.ofId.injEq] at he
      obtain ⟨rfl, he⟩ := he
      exact Or.inr (congrArg Prod.fst (eq_of_heq he))
    | generateUnique => cases (Sigma.mk.inj he).1
    | create webhook => cases (Sigma.mk.inj he).1
    | update webhook => cases (Sigma.mk.inj he).1
    | delete webhook => cases (Sigma.mk.inj he).1
    | ofEvent event => cases (Sigma.mk.inj he).1
    | outbox c => cases (Sigma.mk.inj he).1
    | outboxOfId id' => cases (Sigma.mk.inj he).1

/-- **What a command does to the webhooks**: nothing, or it stores or removes a webhook of the operation
that belongs to its user. -/
theorem Owned.webhooks_cases (hO : Owned w) (hp : w.procs.get pid = some p) (hr : p.rest = .await c k) :
    (exec i w.st c).1.webhooks = w.st.webhooks ∨
    (∃ webhook, (exec i w.st c).1.webhooks = w.st.webhooks.set webhook.id webhook ∧
      webhook.assigneeId = p.call.user ∧ (p.call.generated = some webhook.id ∨
        p.call.amends = some webhook.id ∧ Owner w webhook.id p.call.user)) ∨
    ∃ id, (exec i w.st c).1.webhooks = w.st.webhooks.erase id ∧ p.call.amends = some id ∧ Owner w id p.call.user := by
  have hmay := hO.keeps.allowed hp hr
  cases c with
  | generateUnique => exact Or.inl rfl
  | ofId id => exact Or.inl rfl
  | ofEvent event => exact Or.inl rfl
  | outbox c => exact Or.inl rfl
  | outboxOfId id => exact Or.inl rfl
  | create webhook => exact Or.inr (Or.inl ⟨webhook, rfl, hmay.2, Or.inl hmay.1⟩)
  | update webhook =>
    obtain ⟨id, webhook', ham, hc, hs, hsame⟩ := hmay
    obtain ⟨hid, how⟩ := hO.seen pid p id webhook' hp hs
    have hown := hO.owner_of_checked hp hc
    -- the webhook written is the one read with the same assignee, who is the user
    have huser : webhook.assigneeId = p.call.user := hsame.assigneeId.trans (hO.owner_inj how hown)
    have hid' : webhook.id = id := hsame.id.trans hid
    exact Or.inr (Or.inl ⟨webhook, rfl, huser, Or.inr ⟨hid' ▸ ham, hid' ▸ hown⟩⟩)
  | delete webhook =>
    obtain ⟨id, ham, hc, hs⟩ := hmay
    obtain ⟨hid, -⟩ := hO.seen pid p id webhook hp hs
    refine Or.inr (Or.inr ⟨id, ?_, ham, hO.owner_of_checked hp hc⟩)
    rw [← hid]
    rfl

/-- **An operation goes on.** -/
theorem Owned.advance (hO : Owned w) (hp : w.procs.get pid = some p) (hr : p.rest = .await c k) :
    Owned ((manager protocol hmac).advance w pid i p c k) := by
  have hcall : ∀ q p', ((manager protocol hmac).advance w pid i p c k).procs.get q = some p' →
      ∃ p₀, w.procs.get q = some p₀ ∧ p₀.call = p'.call := by
    intro q p' hq
    rcases Machine.advance_cases hq with ⟨rfl, rfl⟩ | ⟨-, hq⟩
    · exact ⟨p, hp, rfl⟩
    · exact ⟨p', hq, rfl⟩
  refine ⟨Machine.advance_obeys hO.keeps i hp hr, fun q q' p₁ p₁' id hq hq' hg hg' => ?_, fun id webhook h => ?_,
    fun q p₁ id webhook hq hs => ?_⟩
  · obtain ⟨p₀, hp₀, hc₀⟩ := hcall q p₁ hq
    obtain ⟨p₀', hp₀', hc₀'⟩ := hcall q' p₁' hq'
    exact hO.unique q q' p₀ p₀' id hp₀ hp₀' (hc₀ ▸ hg) (hc₀' ▸ hg')
  · change (exec i w.st c).1.webhooks.get id = some webhook at h
    have hold : w.st.webhooks.get id = some webhook →
        webhook.id = id ∧ Owner ((manager protocol hmac).advance w pid i p c k) id webhook.assigneeId := by
      intro h
      obtain ⟨hid, how⟩ := hO.stored id webhook h
      exact ⟨hid, how.advance hp hr⟩
    rcases hO.webhooks_cases hp hr (i := i) with he | ⟨webhook', he, huser, hown⟩ | ⟨id', he, -⟩
    · exact hold (he ▸ h)
    · rw [he, OMap.get_set] at h
      split at h
      · rename_i hid
        cases h
        rw [huser, ← hid]
        refine ⟨rfl, ?_⟩
        rcases hown with hg | ⟨-, hown⟩
        · exact ⟨pid, _, OMap.get_set_self .., hg, rfl⟩
        · exact hown.advance hp hr
      · exact hold h
    · rw [he, OMap.get_erase] at h
      split at h
      · cases h
      · exact hold h
  · rcases Machine.advance_cases hq with ⟨rfl, rfl⟩ | ⟨-, hq⟩
    · rcases saw_exec hs with hs | hget
      · obtain ⟨hid, how⟩ := hO.seen q p id webhook hp hs
        exact ⟨hid, how.advance hp hr⟩
      · obtain ⟨hid, how⟩ := hO.stored id webhook hget
        exact ⟨hid, how.advance hp hr⟩
    · obtain ⟨hid, how⟩ := hO.seen q p₁ id webhook hq hs
      exact ⟨hid, how.advance hp hr⟩

/-- What was sent and stored between two states of the outbox is for one webhook of one user. -/
structure SentFor (id user : String) (o o' : Outbox) : Prop where
  posts : ∀ e ∈ o'.posts, e ∈ o.posts ∨ ("X-Webhook-Id", id) ∈ e.2.headers
  records : ∀ rid r, o'.map.get rid = some r → o.map.get rid = some r ∨ r.webhookId = id ∧ r.assigneeId = user

/-- Storing a record of the webhook. -/
theorem sentFor_set {o : Outbox} {r : OutboxEvent} {clock : ℕ} (hid : webhook.id = id) (hr : BelongsTo webhook r) :
    SentFor id webhook.assigneeId o ⟨o.map.set r.id r, o.posts, clock⟩ := by
  refine ⟨fun e he => Or.inl he, fun rid r' h => ?_⟩
  rw [OMap.get_set] at h
  split at h
  · cases h
    exact Or.inr ⟨hr.1.trans hid, hr.2⟩
  · exact Or.inl h

/-- **What a command does to the outbox**: nothing, or it sends to the webhook that the operation tests. -/
theorem Owned.outbox_cases (hO : Owned w) (hp : w.procs.get pid = some p) (hr : p.rest = .await c k) :
    (exec i w.st c).1.outbox = w.st.outbox ∨ ∃ id, p.call.tests = some id ∧ Owner w id p.call.user ∧
      SentFor id p.call.user w.st.outbox (exec i w.st c).1.outbox := by
  have hmay := hO.keeps.allowed hp hr
  cases c with
  | generateUnique => exact Or.inl rfl
  | create webhook => exact Or.inl rfl
  | update webhook => exact Or.inl rfl
  | delete webhook => exact Or.inl rfl
  | ofId id => exact Or.inl rfl
  | ofEvent event => exact Or.inl rfl
  | outboxOfId id => exact Or.inl rfl
  | outbox c =>
    obtain ⟨id, webhook, ht, hc, hs, hconc⟩ := hmay
    obtain ⟨hid, how⟩ := hO.seen pid p id webhook hp hs
    have hown := hO.owner_of_checked hp hc
    have huser : webhook.assigneeId = p.call.user := hO.owner_inj how hown
    refine Or.inr ⟨id, ht, hown, ?_⟩
    rw [← huser]
    cases c with
    | create r => exact sentFor_set hid hconc
    | update r => exact sentFor_set hid hconc
    | post r post =>
      refine ⟨fun e he => ?_, fun rid r' h => Or.inl h⟩
      rcases List.mem_append.1 he with he | he
      · exact Or.inl he
      · rw [List.mem_singleton.1 he, ← hid]
        exact Or.inr hconc.2
    | answer => exact ⟨fun e he => Or.inl he, fun rid r' h => Or.inl h⟩
    | createBatch rs => exact hconc.elim
    | allToRetry => exact hconc.elim

/-- **Every run keeps the invariant.** -/
theorem owned_run {es : List (Ev Choice Empty Operation)} (hO : Owned w)
    (hnew : (manager protocol hmac).Along FreshDrafts w es) : Owned ((manager protocol hmac).run w es) :=
  Machine.run_inv (fun _ _ _ hO hG hn => hO.begin hG hn) (fun _ _ _ _ _ _ hO _ hp hr => hO.advance hp hr)
    (fun _ v => v.elim) hO hnew

end Step

/-! ## The runs -/

section Runs

variable {es : List (Ev Choice Empty Operation)}

/-- The world after some events. -/
def reached (protocol : Protocols) (hmac : String → String → String) (es : List (Ev Choice Empty Operation)) : World :=
  (manager protocol hmac).run (Pool.init .empty) es

/-- Whenever the webhook is stored during the run, the user is its assignee. -/
def AssignedTo (protocol : Protocols) (hmac : String → String → String) (es : List (Ev Choice Empty Operation))
    (id user : String) : Prop :=
  ∀ v, v <+: es → ∀ webhook, (reached protocol hmac v).st.webhooks.get id = some webhook → webhook.assigneeId = user

/-- **One event of a run**, from `w` to `w'`: what it changes is changed by an operation of the assignee. -/
structure ByAssignee (assigned : String → String → Prop) (e : Ev Choice Empty Operation) (w w' : World) : Prop where
  webhooks : ∀ id, w'.st.webhooks.get id ≠ w.st.webhooks.get id → ∃ pid i p, e = .step pid i ∧
    w.procs.get pid = some p ∧ (p.call.generated = some id ∨ p.call.amends = some id) ∧ assigned id p.call.user
  outbox : w'.st.outbox ≠ w.st.outbox → ∃ pid i p id, e = .step pid i ∧ w.procs.get pid = some p ∧
    p.call.tests = some id ∧ assigned id p.call.user ∧ SentFor id p.call.user w.st.outbox w'.st.outbox

theorem reached_append (v v' : List (Ev Choice Empty Operation)) :
    reached protocol hmac (v ++ v') = (manager protocol hmac).run (reached protocol hmac v) v' :=
  Machine.run_append ..

theorem owned_reached (hnew : (manager protocol hmac).Along FreshDrafts (Pool.init .empty) es)
    {v : List (Ev Choice Empty Operation)} (hv : v <+: es) : Owned (reached protocol hmac v) := by
  obtain ⟨rest, rfl⟩ := hv
  exact owned_run owned_init (Machine.Along.append.1 hnew).1

/-- The creator of a webhook is its assignee whenever it is stored. -/
theorem assignedTo_of_owner (hnew : (manager protocol hmac).Along FreshDrafts (Pool.init .empty) es)
    {v : List (Ev Choice Empty Operation)} (hv : v <+: es) {id user : String}
    (h : Owner (reached protocol hmac v) id user) : AssignedTo protocol hmac es id user := by
  have hfinal : ∀ {v user}, v <+: es → Owner (reached protocol hmac v) id user →
      Owner (reached protocol hmac es) id user := by
    rintro v user ⟨rest, rfl⟩ h
    rw [reached_append]
    exact h.run rest
  intro v' hv' webhook hget
  have how := ((owned_reached hnew hv').stored id webhook hget).2
  exact (owned_reached hnew List.prefix_rfl).owner_inj (hfinal hv' how) (hfinal hv h)

theorem byAssignee_step (hnew : (manager protocol hmac).Along FreshDrafts (Pool.init .empty) es)
    {v : List (Ev Choice Empty Operation)} {e : Ev Choice Empty Operation} (hv : v ++ [e] <+: es) :
    ByAssignee (AssignedTo protocol hmac es) e (reached protocol hmac v) (reached protocol hmac (v ++ [e])) := by
  have hve := (List.prefix_append v [e]).trans hv
  have hO := owned_reached hnew hve
  have hO' := owned_reached hnew hv
  rw [reached_append, Machine.run_cons, Machine.run_nil] at hO' ⊢
  rcases Machine.step_cases (M := manager protocol hmac) (reached protocol hmac v) e with
    ⟨pid, x, -, hn, he⟩ | ⟨pid, i, p, c, k, rfl, hp, hr, he⟩ | ⟨a, -, -⟩ | he
  · rw [he]
    exact ⟨fun id h => absurd rfl h, fun h => absurd rfl h⟩
  · rw [he] at hO' ⊢
    have hassigned : ∀ {id}, Owner (reached protocol hmac v) id p.call.user →
        AssignedTo protocol hmac es id p.call.user := fun how => assignedTo_of_owner hnew hve how
    refine ⟨fun id hne => ⟨pid, i, p, rfl, hp, ?_⟩, fun hne => ?_⟩
    · change (exec i (reached protocol hmac v).st c).1.webhooks.get id ≠ _ at hne
      rcases hO.webhooks_cases hp hr (i := i) with he | ⟨webhook, he, huser, hown⟩ | ⟨id', he, ham, hown⟩
      · exact absurd (congrArg (OMap.get · id) he) hne
      · have hid : webhook.id = id := by
          by_contra hid
          rw [he, OMap.get_set_ne _ _ hid] at hne
          exact hne rfl
        rw [hid] at hown
        rcases hown with hg | ⟨ham, hown⟩
        · exact ⟨Or.inl hg, hassigned ⟨pid, p, hp, hg, rfl⟩⟩
        · exact ⟨Or.inr ham, hassigned hown⟩
      · have hid : id' = id := by
          by_contra hid
          rw [he, OMap.get_erase, if_neg hid] at hne
          exact hne rfl
        exact ⟨Or.inr (hid ▸ ham), hassigned (hid ▸ hown)⟩
    · rcases hO.outbox_cases hp hr (i := i) with he | ⟨id, ht, hown, hsent⟩
      · exact absurd he hne
      · exact ⟨pid, i, p, id, rfl, hp, ht, hassigned hown, hsent⟩
  · exact a.elim
  · rw [he]
    exact ⟨fun id h => absurd rfl h, fun h => absurd rfl h⟩

/-- **A refused operation changes nothing**: none of its commands does. -/
theorem refused_step (hnew : (manager protocol hmac).Along FreshDrafts (Pool.init .empty) es) {pid : ℕ}
    {p : Proc Resp Operation Reply} {reply : Reply} (hp : (reached protocol hmac es).procs.get pid = some p)
    (hres : p.result = some reply) (href : reply.Refused) {v : List (Ev Choice Empty Operation)} {i : Choice}
    (hv : v ++ [.step pid i] <+: es) : (reached protocol hmac (v ++ [.step pid i])).st = (reached protocol hmac v).st := by
  have hreads : ReadsOnly p.hist := ((owned_reached hnew List.prefix_rfl).keeps.returned hp hres).refused href
  obtain ⟨rest, hrest⟩ := hv
  have hfinal : reached protocol hmac es =
      (manager protocol hmac).run (reached protocol hmac (v ++ [.step pid i])) rest := by
    rw [← hrest, reached_append]
  have hstep : reached protocol hmac (v ++ [.step pid i]) =
      (manager protocol hmac).step (reached protocol hmac v) (.step pid i) := by
    rw [reached_append, Machine.run_cons, Machine.run_nil]
  rcases Machine.step_cases (M := manager protocol hmac) (reached protocol hmac v) (.step pid i) with
    ⟨_, _, h, -, -⟩ | ⟨pid', i', p₀, c, k, h, -, -, he⟩ | ⟨a, -, -⟩ | he
  · cases h
  · cases h
    rw [hstep, he]
    -- the command is in the history of the operation, which only read
    have hget : (reached protocol hmac (v ++ [.step pid i])).procs.get pid = some
        ⟨p₀.call, p₀.hist ++ [⟨c, (exec i (reached protocol hmac v).st c).2⟩],
          k (exec i (reached protocol hmac v).st c).2⟩ := by
      rw [hstep, he]
      exact OMap.get_set_self ..
    obtain ⟨p', hp', -, hhist⟩ := Machine.run_grows hget
    rw [← hfinal, hp] at hp'
    cases hp'
    have hmem : (⟨c, (exec i (reached protocol hmac v).st c).2⟩ : Σ c, Resp c) ∈ p.hist :=
      hhist.subset (List.mem_append_right _ List.mem_cons_self)
    exact exec_reads (hreads _ hmem) i (reached protocol hmac v).st
  · exact a.elim
  · rw [hstep, he]

/-- **Ownership of webhooks**, in every interleaving of operations with generated ids all different: the
assignee of a webhook never changes; every event that changes a webhook or sends a test event is a command
of an operation whose user is the assignee; a record is returned to its assignee only; and none of the
commands of a refused operation changes the repositories. -/
theorem ownership (protocol : Protocols) (hmac : String → String → String) {es : List (Ev Choice Empty Operation)}
    (hnew : (manager protocol hmac).Along FreshDrafts (Pool.init .empty) es) :
    (∀ v v', v <+: es → v' <+: es → ∀ id webhook webhook',
      (reached protocol hmac v).st.webhooks.get id = some webhook →
      (reached protocol hmac v').st.webhooks.get id = some webhook' → webhook'.assigneeId = webhook.assigneeId) ∧
    (∀ v e, v ++ [e] <+: es →
      ByAssignee (AssignedTo protocol hmac es) e (reached protocol hmac v) (reached protocol hmac (v ++ [e]))) ∧
    (∀ pid p, (reached protocol hmac es).procs.get pid = some p →
      (∀ webhook, p.result = some (.webhook (.ok webhook)) → webhook.assigneeId = p.call.user) ∧
      ∀ r, p.result = some (.outboxEvent (.ok r)) → r.assigneeId = p.call.user) ∧
    ∀ pid p reply, (reached protocol hmac es).procs.get pid = some p → p.result = some reply → reply.Refused →
      ∀ v i, v ++ [.step pid i] <+: es →
        (reached protocol hmac (v ++ [.step pid i])).st = (reached protocol hmac v).st := by
  have hO := owned_reached hnew List.prefix_rfl
  refine ⟨fun v v' hv hv' id webhook webhook' h h' => ?_, fun v e hv => byAssignee_step hnew hv,
    fun pid p hp => ⟨fun webhook hres => ?_, fun r hres => ?_⟩,
    fun pid p reply hp hres href v i hv => refused_step hnew hp hres href hv⟩
  · have how := ((owned_reached hnew hv).stored id webhook h).2
    exact assignedTo_of_owner hnew hv how v' hv' webhook' h'
  · exact (hO.keeps.returned hp hres).webhook webhook rfl
  · exact (hO.keeps.returned hp hres).outboxEvent r rfl

/-- One user creates a webhook, and another one asks to disable it and is refused. -/
def intrusion : List (Ev Choice Empty Operation) :=
  let i : Choice := ⟨⟨1, 1, 200, .null⟩, "5ec7e7"⟩
  [.call 0 (.createWebhook ⟨⟨⟨"ann", ["*"]⟩, none, none⟩, "", "https://a.example/in", ["test"]⟩ ⟨"w", 1, 1⟩),
    .step 0 i, .step 0 i, .call 1 (.disableWebhook ⟨⟨⟨"bob", ["*"]⟩, none, none⟩, "w"⟩), .step 1 i]

theorem freshDrafts_intrusion :
    (manager exampleUrls fun _ text => text).Along FreshDrafts (Pool.init .empty) intrusion := by
  have hother : ∀ e ∈ intrusion.tail, ∀ w, FreshDrafts w e := by
    intro e he w
    simp only [intrusion, List.tail_cons, List.mem_cons, List.not_mem_nil, or_false] at he
    rcases he with rfl | rfl | rfl | rfl
    · exact trivial
    · exact trivial
    · exact fun id h => by cases h
    · exact trivial
  refine ⟨fun id _ q p h => ?_, Machine.Along.of_mem hother⟩
  simp [Pool.init] at h

theorem ownership_intrusion :
    (reached exampleUrls (fun _ text => text) intrusion).st.webhooks.keys = ["w"] ∧
    (reached exampleUrls (fun _ text => text) intrusion).st =
      (reached exampleUrls (fun _ text => text) (intrusion.take 4)).st := by
  refine ⟨by decide +kernel, ?_⟩
  exact (ownership exampleUrls (fun _ text => text) freshDrafts_intrusion).2.2.2 1 _ _ rfl rfl ⟨_, rfl⟩
    (intrusion.take 4) ⟨⟨1, 1, 200, .null⟩, "5ec7e7"⟩ List.prefix_rfl

end Runs

end NodeToolkit.Webhooks
