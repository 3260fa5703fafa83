import NodeToolkit.Spec.Webhooks

/-!
# Webhook records

What a command does to the store, first as it reads and writes (`prog_of_amends`), then executed
alone (`alone_cases`), and what a series of commands keeps.

* `Command.Did`: what a successful edit, enable or disable changes of the webhook it read.
* `Stored`: the invariant of the store (`stored_series`).
* `webhook_records`: the invariant, the frame of every command, and the fields that never change.
-/

namespace NodeToolkit.Webhooks

open Async

variable {protocol : Protocols}

/-! ## Arguments -/

theorem checkEvents_ok {events : List String} :
    checkEvents events = .ok () ↔ ∀ event ∈ events, event ∈ EventNames := by
  induction events with
  | nil => simp [checkEvents]
  | cons event events ih =>
    rw [checkEvents]
    split
    · rename_i h
      rw [ih, List.forall_mem_cons]
      exact ⟨fun h' => ⟨h, h'⟩, fun h' => h'.2⟩
    · rename_i h
      simp [h]

/-- A webhook with arguments that pass the checks. -/
structure Valid (protocol : Protocols) (events : List String) (deliveryUrl : String) : Prop where
  events_ne : events ≠ []
  events_mem : ∀ event ∈ events, event ∈ EventNames
  url : IsValidHttpUrl protocol deliveryUrl true

theorem checkArguments_ok {events : List String} {deliveryUrl : String} :
    checkArguments protocol events deliveryUrl = .ok () ↔ Valid protocol events deliveryUrl := by
  have hvalid : Valid protocol events deliveryUrl ↔ events ≠ [] ∧ checkEvents events = .ok () ∧
      IsValidHttpUrl protocol deliveryUrl true := by
    rw [checkEvents_ok]
    exact ⟨fun h => ⟨h.1, h.2, h.3⟩, fun h => ⟨h.1, h.2.1, h.2.2⟩⟩
  rw [hvalid, checkArguments]
  by_cases hempty : events = []
  · simp [hempty]
  · rw [if_neg (mt List.length_eq_zero_iff.1 hempty)]
    cases hevents : checkEvents events with
    | error e => simp
    | ok u => by_cases hurl : IsValidHttpUrl protocol deliveryUrl true <;> simp [hempty, hurl]

/-! ## What a command reads and writes -/

/-- The webhook a command is about. -/
def Command.target : Command → String
  | .create _ draft => draft.id
  | .edit command => command.id
  | .enable command => command.id
  | .disable command => command.id
  | .delete command => command.id

/-- The command is about a stored webhook. -/
def Command.Amends : Command → Prop
  | .create _ _ => False
  | _ => True

/-- What is written after the webhook has been read. -/
def amendment (protocol : Protocols) : Command → Webhook → ℕ → Except ValidationException Cmd
  | .create _ _, webhook, _ => .ok (.create webhook)
  | .edit command, webhook, now =>
    (EditWebhook protocol webhook command.events command.deliveryUrl now).map .update
  | .enable _, webhook, now => (EnableWebhook webhook now).map .update
  | .disable _, webhook, now => (DisableWebhook webhook now).map .update
  | .delete _, webhook, _ => .ok (.delete webhook)

/-- The id a command returns. -/
def Command.reply : Command → Webhook → String
  | .edit _, webhook => webhook.id
  | x, _ => x.target

/-- The rest of a command, once the webhook has been read. -/
def afterRead (protocol : Protocols) (x : Command) : Option Webhook × ℕ → Client (Except Exception String)
  | (none, _) => .ret (.error (webhookNotFound x.target))
  | (some webhook, now) =>
    match amendment protocol x webhook now with
    | .error e => .ret (.error (.validation e))
    | .ok c => .await c fun _ => .ret (.ok (x.reply webhook))

/-- **Edit, enable, disable and delete** read the webhook and write it once. -/
theorem prog_of_amends {x : Command} (hx : x.Amends) :
    prog protocol x = .await (.ofId x.target) (afterRead protocol x) := by
  have hext : ∀ {k k' : Option Webhook × ℕ → Client (Except Exception String)} {id : String},
      (∀ now, k (none, now) = k' (none, now)) → (∀ webhook now, k (some webhook, now) = k' (some webhook, now)) →
      (Prog.await (.ofId id) k : Client _) = .await (.ofId id) k' := by
    intro k k' id hnone hsome
    refine congrArg _ (funext fun r => ?_)
    obtain ⟨_ | webhook, now⟩ := r
    · exact hnone now
    · exact hsome webhook now
  cases x with
  | create command draft => exact hx.elim
  | edit command =>
    refine hext (fun now => rfl) fun webhook now => ?_
    simp only [afterRead, amendment, Prog.bind]
    cases EditWebhook protocol webhook command.events command.deliveryUrl now <;> rfl
  | enable command =>
    refine hext (fun now => rfl) fun webhook now => ?_
    simp only [afterRead, amendment, Prog.bind]
    cases EnableWebhook webhook now <;> rfl
  | disable command =>
    refine hext (fun now => rfl) fun webhook now => ?_
    simp only [afterRead, amendment, Prog.bind]
    cases DisableWebhook webhook now <;> rfl
  | delete command => exact hext (fun now => rfl) fun webhook now => rfl

/-- The fields that no command changes. -/
structure SameIdentity (webhook webhook' : Webhook) : Prop where
  id : webhook'.id = webhook.id
  assigneeId : webhook'.assigneeId = webhook.assigneeId
  secret : webhook'.secret = webhook.secret
  createdBy : webhook'.createdBy = webhook.createdBy
  createdAt : webhook'.createdAt = webhook.createdAt

theorem SameIdentity.refl (webhook : Webhook) : SameIdentity webhook webhook := ⟨rfl, rfl, rfl, rfl, rfl⟩

theorem SameIdentity.trans {u v w : Webhook} (h : SameIdentity u v) (h' : SameIdentity v w) : SameIdentity u w :=
  ⟨h'.id.trans h.id, h'.assigneeId.trans h.assigneeId, h'.secret.trans h.secret, h'.createdBy.trans h.createdBy,
    h'.createdAt.trans h.createdAt⟩

theorem SameIdentity.symm {u v : Webhook} (h : SameIdentity u v) : SameIdentity v u :=
  ⟨h.id.symm, h.assigneeId.symm, h.secret.symm, h.createdBy.symm, h.createdAt.symm⟩

/-- **What a successful command has done** to a webhook. -/
def Command.Did (protocol : Protocols) : Command → Webhook → Webhook → Prop
  | .edit command, webhook, webhook' => Valid protocol command.events command.deliveryUrl ∧
      webhook'.events = command.events ∧ webhook'.deliveryUrl = command.deliveryUrl ∧
      webhook'.isActive = webhook.isActive
  | .enable _, webhook, webhook' => webhook.isActive = false ∧ webhook'.isActive = true ∧
      webhook'.events = webhook.events ∧ webhook'.deliveryUrl = webhook.deliveryUrl
  | .disable _, webhook, webhook' => webhook.isActive = true ∧ webhook'.isActive = false ∧
      webhook'.events = webhook.events ∧ webhook'.deliveryUrl = webhook.deliveryUrl
  | _, _, _ => False

/-- **What is written**: the webhook with some fields changed, or its deletion. -/
theorem amendment_cases {x : Command} {webhook : Webhook} {now : ℕ} {c : Cmd} (hx : x.Amends)
    (h : amendment protocol x webhook now = .ok c) :
    (∃ webhook', c = .update webhook' ∧ SameIdentity webhook webhook' ∧ x.Did protocol webhook webhook') ∨
      (∃ command, x = .delete command) ∧ c = .delete webhook := by
  cases x with
  | create command draft => exact hx.elim
  | edit command =>
    simp only [amendment, EditWebhook] at h
    cases hc : checkArguments protocol command.events command.deliveryUrl with
    | error e => rw [hc] at h; cases h
    | ok u =>
      rw [hc] at h
      cases h
      exact Or.inl ⟨_, rfl, ⟨rfl, rfl, rfl, rfl, rfl⟩, checkArguments_ok.1 hc, rfl, rfl, rfl⟩
  | enable command =>
    simp only [amendment, EnableWebhook] at h
    split at h
    · cases h
    · rename_i hactive
      cases h
      exact Or.inl ⟨_, rfl, ⟨rfl, rfl, rfl, rfl, rfl⟩, by simpa using hactive, rfl, rfl, rfl⟩
  | disable command =>
    simp only [amendment, DisableWebhook] at h
    split at h
    · cases h
    · rename_i hactive
      cases h
      exact Or.inl ⟨_, rfl, ⟨rfl, rfl, rfl, rfl, rfl⟩, by simpa using hactive, rfl, rfl, rfl⟩
  | delete command =>
    cases h
    exact Or.inr ⟨⟨command, rfl⟩, rfl⟩

/-! ## Commands executed alone -/

section Alone

variable {s : Repositories} {x : Command} {is : ℕ → Choice}

/-- A command on a stored webhook, executed alone. -/
theorem alone_of_amends (hx : x.Amends) : (machine protocol).alone s x is =
    match s.webhooks.get x.target with
    | none => (s, .error (webhookNotFound x.target))
    | some webhook =>
      match amendment protocol x webhook (is 0).resumed with
      | .error e => (s, .error (.validation e))
      | .ok c => ((exec (is 1) s c).1, .ok (x.reply webhook)) := by
  have hprog : (machine protocol).prog x = _ := prog_of_amends hx
  have hrun : (machine protocol).alone s x is =
      (((afterRead protocol x (s.webhooks.get x.target, (is 0).resumed)).run (drive exec)
        (s, fun n => is (n + 1))).1.1,
      ((afterRead protocol x (s.webhooks.get x.target, (is 0).resumed)).run (drive exec)
        (s, fun n => is (n + 1))).2) := by
    rw [Machine.alone, hprog]
    rfl
  rw [hrun]
  cases s.webhooks.get x.target with
  | none => rfl
  | some webhook =>
    simp only [afterRead]
    cases amendment protocol x webhook (is 0).resumed with
    | error e => rfl
    | ok c => rfl

/-- The webhook that a creation stores. -/
def created (command : CreateWebhookCommand) (draft : Draft) (secret : String) : Webhook where
  id := draft.id
  assigneeId := command.assigneeId
  secret := secret
  deliveryUrl := command.deliveryUrl
  events := command.events
  isActive := true
  createdBy := command.session.user.id
  createdAt := draft.createdAt
  updatedAt := draft.updatedAt

theorem alone_create {command : CreateWebhookCommand} {draft : Draft} :
    (machine protocol).alone s (.create command draft) is =
      match checkArguments protocol command.events command.deliveryUrl with
      | .error e => (s, .error (.validation e))
      | .ok () => ({ s with webhooks := s.webhooks.set draft.id (created command draft (is 0).unique) }, .ok draft.id) := by
  simp only [Machine.alone, machine, prog, createWebhook, CreateWebhook]
  cases checkArguments protocol command.events command.deliveryUrl with
  | error e => rfl
  | ok u => rfl

/-- **What one command can do**: fail and change nothing, create a webhook, change the one it is about,
or delete it. -/
theorem alone_cases (protocol : Protocols) (s : Repositories) (x : Command) (is : ℕ → Choice) :
    (∃ e, (machine protocol).alone s x is = (s, .error e)) ∨
    (∃ command draft secret, x = .create command draft ∧ Valid protocol command.events command.deliveryUrl ∧
      (machine protocol).alone s x is =
        ({ s with webhooks := s.webhooks.set draft.id (created command draft secret) }, .ok draft.id)) ∨
    (∃ webhook webhook', s.webhooks.get x.target = some webhook ∧ SameIdentity webhook webhook' ∧
      x.Did protocol webhook webhook' ∧ (machine protocol).alone s x is =
        ({ s with webhooks := s.webhooks.set webhook.id webhook' }, .ok (x.reply webhook))) ∨
    ∃ webhook, s.webhooks.get x.target = some webhook ∧ (∃ command, x = .delete command) ∧
      (machine protocol).alone s x is =
        ({ s with webhooks := s.webhooks.erase webhook.id }, .ok (x.reply webhook)) := by
  by_cases hx : x.Amends
  · rw [alone_of_amends hx]
    cases hget : s.webhooks.get x.target with
    | none => exact Or.inl ⟨_, rfl⟩
    | some webhook =>
      dsimp only
      cases ham : amendment protocol x webhook (is 0).resumed with
      | error e => exact Or.inl ⟨_, rfl⟩
      | ok c =>
        rcases amendment_cases hx ham with ⟨webhook', rfl, hsame, hdid⟩ | ⟨hdel, rfl⟩
        · refine Or.inr (Or.inr (Or.inl ⟨webhook, webhook', rfl, hsame, hdid, ?_⟩))
          rw [← hsame.id]
          rfl
        · exact Or.inr (Or.inr (Or.inr ⟨webhook, rfl, hdel, rfl⟩))
  · cases x with
    | create command draft =>
      rw [alone_create]
      cases hc : checkArguments protocol command.events command.deliveryUrl with
      | error e => exact Or.inl ⟨_, rfl⟩
      | ok u => exact Or.inr (Or.inl ⟨command, draft, (is 0).unique, rfl, checkArguments_ok.1 hc, rfl⟩)
    | edit command => exact absurd trivial hx
    | enable command => exact absurd trivial hx
    | disable command => exact absurd trivial hx
    | delete command => exact absurd trivial hx

end Alone

/-! ## The invariant of the store -/

section Run

variable {s : Repositories} {x : Command} {is : ℕ → Choice} {xs : List (Command × (ℕ → Choice))}

/-- Webhooks are kept under their ids, and their arguments are valid. -/
def Stored (protocol : Protocols) (s : Repositories) : Prop :=
  ∀ id webhook, s.webhooks.get id = some webhook →
    webhook.id = id ∧ Valid protocol webhook.events webhook.deliveryUrl

theorem stored_empty : Stored protocol .empty := by
  intro id webhook h
  cases h

theorem Command.Did.valid {webhook webhook' : Webhook} (h : x.Did protocol webhook webhook')
    (hv : Valid protocol webhook.events webhook.deliveryUrl) :
    Valid protocol webhook'.events webhook'.deliveryUrl := by
  cases x with
  | create command draft => exact h.elim
  | edit command => rw [h.2.1, h.2.2.1]; exact h.1
  | enable command => rw [h.2.2.1, h.2.2.2]; exact hv
  | disable command => rw [h.2.2.1, h.2.2.2]; exact hv
  | delete command => exact h.elim

/-- The invariant is kept by storing a valid webhook. -/
theorem Stored.set {id : String} {webhook : Webhook} (hs : Stored protocol s) (hid : webhook.id = id)
    (hv : Valid protocol webhook.events webhook.deliveryUrl) :
    Stored protocol { s with webhooks := s.webhooks.set id webhook } := by
  intro id' webhook' h
  simp only [OMap.get_set] at h
  split at h
  · rename_i he
    cases h
    exact ⟨hid.trans he, hv⟩
  · exact hs id' webhook' h

theorem Stored.erase {id : String} (hs : Stored protocol s) :
    Stored protocol { s with webhooks := s.webhooks.erase id } := by
  intro id' webhook' h
  simp only [OMap.get_erase] at h
  split at h
  · cases h
  · exact hs id' webhook' h

/-- **A command keeps the invariant.** -/
theorem Stored.alone (hs : Stored protocol s) (x : Command) (is : ℕ → Choice) :
    Stored protocol ((machine protocol).alone s x is).1 := by
  rcases alone_cases protocol s x is with ⟨e, h⟩ | ⟨command, draft, secret, -, hv, h⟩ |
    ⟨webhook, webhook', hget, hsame, hdid, h⟩ | ⟨webhook, -, -, h⟩
  · rw [h]; exact hs
  · rw [h]; exact hs.set rfl hv
  · obtain ⟨-, hv⟩ := hs _ _ hget
    rw [h]
    exact hs.set hsame.id (hdid.valid hv)
  · rw [h]; exact hs.erase

theorem stored_series : Stored protocol ((machine protocol).series .empty xs) :=
  Machine.series_inv (fun _ x is hs => hs.alone x is) stored_empty

/-! ## Generated ids -/

/-- The id that a command generates. -/
def Command.generated : Command → Option String
  | .create _ draft => some draft.id
  | _ => none

/-- The ids generated by a run, in order. -/
def generatedIds (xs : List (Command × (ℕ → Choice))) : List String := xs.filterMap fun x => x.1.generated

/-- A command stores a webhook under a new id only by generating the id. -/
theorem get_alone {id : String} {webhook' : Webhook} (hs : Stored protocol s)
    (h : ((machine protocol).alone s x is).1.webhooks.get id = some webhook') :
    x.generated = some id ∨ ∃ webhook, s.webhooks.get id = some webhook ∧ SameIdentity webhook webhook' := by
  rcases alone_cases protocol s x is with ⟨e, ha⟩ | ⟨command, draft, secret, rfl, hv, ha⟩ |
    ⟨webhook, webhook₁, hget, hsame, hdid, ha⟩ | ⟨webhook, -, -, ha⟩
  · rw [ha] at h
    exact Or.inr ⟨webhook', h, SameIdentity.refl webhook'⟩
  · rw [ha] at h
    simp only [OMap.get_set] at h
    split at h
    · rename_i he
      exact Or.inl (congrArg some he)
    · exact Or.inr ⟨webhook', h, SameIdentity.refl webhook'⟩
  · rw [ha] at h
    simp only [OMap.get_set] at h
    split at h
    · rename_i he
      cases h
      rw [(hs _ _ hget).1] at he
      exact Or.inr ⟨webhook, he ▸ hget, hsame⟩
    · exact Or.inr ⟨webhook', h, SameIdentity.refl webhook'⟩
  · rw [ha] at h
    simp only [OMap.get_erase] at h
    split at h
    · cases h
    · exact Or.inr ⟨webhook', h, SameIdentity.refl webhook'⟩

/-- **Identity**: as long as its id is not generated again, a webhook stored later has the identity of
the one stored before. -/
theorem identity_series {id : String} {webhook : Webhook} (hids : id ∉ generatedIds xs) :
    ∀ {s : Repositories}, Stored protocol s →
      (∀ webhook', s.webhooks.get id = some webhook' → SameIdentity webhook webhook') →
      ∀ webhook', ((machine protocol).series s xs).webhooks.get id = some webhook' →
        SameIdentity webhook webhook' := by
  induction xs with
  | nil => exact fun _ h => h
  | cons x xs ih =>
    intro s hs h
    rw [Machine.series_cons]
    have hx : x.1.generated ≠ some id ∧ id ∉ generatedIds xs := by
      simp only [generatedIds, List.filterMap_cons] at hids
      cases hg : x.1.generated with
      | none => rw [hg] at hids; exact ⟨(Option.some_ne_none id).symm, hids⟩
      | some id' =>
        rw [hg, List.mem_cons, not_or] at hids
        exact ⟨fun h => hids.1 (Option.some.inj h).symm, hids.2⟩
    refine ih hx.2 (hs.alone x.1 x.2) fun webhook' hget => ?_
    rcases get_alone hs hget with hgen | ⟨webhook₁, hget₁, hsame⟩
    · exact absurd hgen hx.1
    · exact (h webhook₁ hget₁).trans hsame

/-- The ids stored were generated. -/
theorem mem_generatedIds {id : String} {webhook : Webhook}
    (h : ((machine protocol).series .empty xs).webhooks.get id = some webhook) : id ∈ generatedIds xs := by
  induction xs using List.reverseRecOn generalizing webhook with
  | nil => cases h
  | append_singleton xs x ih =>
    rw [Machine.series_append] at h
    have happ : generatedIds (xs ++ [x]) = generatedIds xs ++ generatedIds [x] := List.filterMap_append
    rw [happ, List.mem_append]
    rcases get_alone stored_series h with hgen | ⟨webhook₁, hget₁, -⟩
    · exact Or.inr (by simp [generatedIds, hgen])
    · exact Or.inl (ih hget₁)

/-! ## The records -/

/-- The command succeeded. -/
def Succeeded (r : Repositories × Except Exception String) : Prop := ∃ id, r.2 = .ok id

/-- **The frame of a command** `x` that is executed in `s` with the outcome `r`. -/
structure Frame (s : Repositories) (x : Command) (r : Repositories × Except Exception String) : Prop where
  failed : ∀ e, r.2 = .error e → r.1 = s
  others : ∀ id, id ≠ x.target → r.1.webhooks.get id = s.webhooks.get id
  outbox : r.1.outbox = s.outbox
  new : ∀ id webhook', s.webhooks.get id = none → r.1.webhooks.get id = some webhook' → Succeeded r ∧
    ∃ command draft secret, x = .create command draft ∧ webhook' = created command draft secret
  identity : ∀ id webhook webhook', s.webhooks.get id = some webhook → r.1.webhooks.get id = some webhook' →
    SameIdentity webhook webhook'
  active : ∀ id webhook webhook', s.webhooks.get id = some webhook → r.1.webhooks.get id = some webhook' →
    webhook'.isActive ≠ webhook.isActive → Succeeded r ∧ x.target = id ∧
      ((∃ command, x = .enable command) ∨ ∃ command, x = .disable command)
  arguments : ∀ id webhook webhook', s.webhooks.get id = some webhook → r.1.webhooks.get id = some webhook' →
    webhook'.events ≠ webhook.events ∨ webhook'.deliveryUrl ≠ webhook.deliveryUrl → Succeeded r ∧
      x.target = id ∧ ∃ command, x = .edit command
  edited : ∀ command, x = .edit command → Succeeded r → ∃ webhook', r.1.webhooks.get command.id = some webhook' ∧
    webhook'.events = command.events ∧ webhook'.deliveryUrl = command.deliveryUrl
  toggled : ∀ command, x = .enable command ∨ x = .disable command → (Succeeded r ↔ ∃ webhook webhook',
    s.webhooks.get command.id = some webhook ∧ r.1.webhooks.get command.id = some webhook' ∧
      webhook'.isActive ≠ webhook.isActive)

/-- A command that fails keeps the frame. -/
theorem frame_of_error {e : Exception} : Frame s x (s, .error e) := by
  have hno : ¬ Succeeded (s, (.error e : Except Exception String)) := by
    rintro ⟨id, h⟩
    cases h
  have heq : ∀ {id : String} {webhook webhook' : Webhook}, s.webhooks.get id = some webhook →
      s.webhooks.get id = some webhook' → webhook' = webhook :=
    fun h h' => Option.some.inj (h'.symm.trans h)
  refine ⟨fun _ _ => rfl, fun _ _ => rfl, rfl, fun id webhook' h h' => ?_, fun id w w' h h' => ?_,
    fun id w w' h h' hne => ?_, fun id w w' h h' hne => ?_, fun _ _ h => absurd h hno, fun command _ => ?_⟩
  · rw [h] at h'; cases h'
  · rw [heq h h']; exact SameIdentity.refl w
  · exact absurd (congrArg Webhook.isActive (heq h h')) hne
  · rw [heq h h'] at hne
    exact absurd hne (by simp)
  · refine ⟨fun h => absurd h hno, ?_⟩
    rintro ⟨w, w', h, h', hne⟩
    exact absurd (congrArg Webhook.isActive (heq h h')) hne

/-- A command that creates a webhook keeps the frame. -/
theorem frame_of_create {command : CreateWebhookCommand} {draft : Draft} {secret : String}
    (hnew : s.webhooks.get draft.id = none) : Frame s (.create command draft)
      ({ s with webhooks := s.webhooks.set draft.id (created command draft secret) }, .ok draft.id) := by
  -- a webhook stored before has another id
  have hold : ∀ {id : String} {webhook webhook' : Webhook}, s.webhooks.get id = some webhook →
      (s.webhooks.set draft.id (created command draft secret)).get id = some webhook' → webhook' = webhook := by
    intro id webhook webhook' h h'
    have hne : draft.id ≠ id := by
      rintro rfl
      rw [hnew] at h
      cases h
    rw [OMap.get_set_ne _ _ hne] at h'
    exact Option.some.inj (h'.symm.trans h)
  refine ⟨fun e h => ?_, fun id hne => OMap.get_set_ne _ _ (Ne.symm hne), rfl, fun id w' h h' => ?_,
    fun id w w' h h' => ?_, fun id w w' h h' hne => ?_, fun id w w' h h' hne => ?_, fun c hc => ?_, fun c hc => ?_⟩
  · cases h
  · refine ⟨⟨_, rfl⟩, command, draft, secret, rfl, ?_⟩
    simp only [OMap.get_set] at h'
    split at h'
    · exact (Option.some.inj h').symm
    · rw [h] at h'; cases h'
  · rw [hold h h']; exact SameIdentity.refl w
  · exact absurd (congrArg Webhook.isActive (hold h h')) hne
  · rw [hold h h'] at hne
    exact absurd hne (by simp)
  · cases hc
  · rcases hc with hc | hc <;> cases hc

/-- A command that changes a webhook keeps the frame. -/
theorem frame_of_change {webhook webhook' : Webhook} (hid : webhook.id = x.target)
    (hget : s.webhooks.get x.target = some webhook) (hsame : SameIdentity webhook webhook')
    (hdid : x.Did protocol webhook webhook') :
    Frame s x ({ s with webhooks := s.webhooks.set webhook.id webhook' }, .ok (x.reply webhook)) := by
  have hself : (s.webhooks.set webhook.id webhook').get x.target = some webhook' := by
    rw [hid]; exact OMap.get_set_self ..
  -- every other webhook stays as it is
  have hcases : ∀ {id : String} {w w' : Webhook}, s.webhooks.get id = some w →
      (s.webhooks.set webhook.id webhook').get id = some w' →
      (x.target = id ∧ w = webhook ∧ w' = webhook') ∨ w' = w := by
    intro id w w' h h'
    by_cases hne : x.target = id
    · subst hne
      exact Or.inl ⟨rfl, Option.some.inj (h.symm.trans hget), Option.some.inj (h'.symm.trans hself)⟩
    · rw [hid, OMap.get_set_ne _ _ hne] at h'
      exact Or.inr (Option.some.inj (h'.symm.trans h))
  refine ⟨fun e h => ?_, fun id hne => ?_, rfl, fun id w' h h' => ?_, fun id w w' h h' => ?_,
    fun id w w' h h' hne => ⟨⟨_, rfl⟩, ?_⟩, fun id w w' h h' hne => ⟨⟨_, rfl⟩, ?_⟩, fun c hc _ => ?_, fun c hc => ?_⟩
  · cases h
  · rw [hid]; exact OMap.get_set_ne _ _ (Ne.symm hne)
  · by_cases hne : x.target = id
    · rw [← hne, hget] at h; cases h
    · rw [hid, OMap.get_set_ne _ _ hne, h] at h'; cases h'
  · rcases hcases h h' with ⟨-, rfl, rfl⟩ | rfl
    · exact hsame
    · exact SameIdentity.refl _
  · rcases hcases h h' with ⟨ht, rfl, rfl⟩ | rfl
    · refine ⟨ht, ?_⟩
      cases x with
      | create command draft => exact hdid.elim
      | edit command => exact absurd hdid.2.2.2 hne
      | enable command => exact Or.inl ⟨command, rfl⟩
      | disable command => exact Or.inr ⟨command, rfl⟩
      | delete command => exact hdid.elim
    · exact absurd rfl hne
  · rcases hcases h h' with ⟨ht, rfl, rfl⟩ | rfl
    · refine ⟨ht, ?_⟩
      cases x with
      | create command draft => exact hdid.elim
      | edit command => exact ⟨command, rfl⟩
      | enable command => exact absurd hne (by simp [hdid.2.2])
      | disable command => exact absurd hne (by simp [hdid.2.2])
      | delete command => exact hdid.elim
    · exact absurd hne (by simp)
  · subst hc
    exact ⟨webhook', hself, hdid.2.1, hdid.2.2.1⟩
  · refine ⟨fun _ => ⟨webhook, webhook', ?_⟩, fun _ => ⟨_, rfl⟩⟩
    rcases hc with rfl | rfl
    · exact ⟨hget, hself, by rw [hdid.1, hdid.2.1]; decide⟩
    · exact ⟨hget, hself, by rw [hdid.1, hdid.2.1]; decide⟩

/-- A deletion keeps the frame. -/
theorem frame_of_delete {webhook : Webhook} {command : IdCommand} (hid : webhook.id = command.id) :
    Frame s (.delete command)
      ({ s with webhooks := s.webhooks.erase webhook.id }, .ok ((Command.delete command).reply webhook)) := by
  -- what is still stored was stored before
  have hold : ∀ {id : String} {w' : Webhook}, (s.webhooks.erase webhook.id).get id = some w' →
      s.webhooks.get id = some w' := by
    intro id w' h'
    rw [OMap.get_erase] at h'
    split at h'
    · cases h'
    · exact h'
  have heq : ∀ {id : String} {w w' : Webhook}, s.webhooks.get id = some w →
      (s.webhooks.erase webhook.id).get id = some w' → w' = w :=
    fun h h' => Option.some.inj ((hold h').symm.trans h)
  refine ⟨fun e h => ?_, fun id hne => ?_, rfl, fun id w' h h' => ?_, fun id w w' h h' => ?_,
    fun id w w' h h' hne => ?_, fun id w w' h h' hne => ?_, fun c hc => ?_, fun c hc => ?_⟩
  · cases h
  · exact (OMap.get_erase ..).trans (if_neg fun he : webhook.id = id => hne (he.symm.trans hid))
  · rw [hold h'] at h; cases h
  · rw [heq h h']; exact SameIdentity.refl w
  · exact absurd (congrArg Webhook.isActive (heq h h')) hne
  · rw [heq h h'] at hne
    exact absurd hne (by simp)
  · cases hc
  · rcases hc with hc | hc <;> cases hc

/-- **Every command keeps the frame**, as long as it does not generate the id of a stored webhook. -/
theorem frame_alone (hs : Stored protocol s)
    (hnew : ∀ id, x.generated = some id → s.webhooks.get id = none) : Frame s x ((machine protocol).alone s x is) := by
  rcases alone_cases protocol s x is with ⟨e, h⟩ | ⟨command, draft, secret, rfl, -, h⟩ |
    ⟨webhook, webhook', hget, hsame, hdid, h⟩ | ⟨webhook, hget, ⟨command, rfl⟩, h⟩
  · rw [h]; exact frame_of_error
  · rw [h]; exact frame_of_create (hnew draft.id rfl)
  · rw [h]; exact frame_of_change (hs _ _ hget).1 hget hsame hdid
  · rw [h]; exact frame_of_delete (hs _ _ hget).1

theorem generatedIds_append (xs ys : List (Command × (ℕ → Choice))) :
    generatedIds (xs ++ ys) = generatedIds xs ++ generatedIds ys := List.filterMap_append

/-- **Webhook records.** In every run of commands one after another, with generated ids all different:
the invariant of the store holds, every command keeps the frame, and a webhook keeps its identity. -/
theorem webhook_records (protocol : Protocols) {xs : List (Command × (ℕ → Choice))}
    (hids : (generatedIds xs).Nodup) :
    Stored protocol ((machine protocol).series .empty xs) ∧
    (∀ before x is, before ++ [(x, is)] <+: xs → Frame ((machine protocol).series .empty before) x
      ((machine protocol).alone ((machine protocol).series .empty before) x is)) ∧
    ∀ before before', before <+: before' → before' <+: xs → ∀ id webhook webhook',
      ((machine protocol).series .empty before).webhooks.get id = some webhook →
      ((machine protocol).series .empty before').webhooks.get id = some webhook' →
      SameIdentity webhook webhook' := by
  refine ⟨stored_series, ?_, ?_⟩
  · rintro before x is ⟨rest, rfl⟩
    refine frame_alone stored_series fun id hgen => ?_
    -- an id that is generated now was not generated before, so no webhook has it
    cases hget : ((machine protocol).series .empty before).webhooks.get id with
    | none => rfl
    | some webhook =>
      have hmem := mem_generatedIds hget
      rw [generatedIds_append, generatedIds_append, List.append_assoc] at hids
      have hx : id ∈ generatedIds [(x, is)] ++ generatedIds rest := by simp [generatedIds, hgen]
      exact absurd rfl ((List.nodup_append.1 hids).2.2 id hmem id hx)
  · rintro before - ⟨between, rfl⟩ ⟨rest, rfl⟩ id webhook webhook' hget hget'
    rw [Machine.series_append] at hget'
    rw [generatedIds_append, generatedIds_append, List.append_assoc] at hids
    have hlater : id ∉ generatedIds between := fun h =>
      (List.nodup_append.1 hids).2.2 id (mem_generatedIds hget) id (List.mem_append_left _ h) rfl
    refine identity_series hlater stored_series (fun w hw => ?_) webhook' hget'
    rw [Option.some.inj (hw.symm.trans hget)]
    exact SameIdentity.refl webhook

/-- A webhook is created, disabled, disabled once more, which fails, and edited. -/
def fourCommands : List (Command × (ℕ → Choice)) :=
  let session : Session := ⟨⟨"u", ["webhooks/*"]⟩, none, none⟩
  let at' (now : ℕ) : ℕ → Choice := fun _ => ⟨⟨now, now, 200, .null⟩, "5ec7e7"⟩
  [(.create ⟨session, "u", "https://a.example/in", ["test"]⟩ ⟨"w", 1, 1⟩, at' 1), (.disable ⟨session, "w"⟩, at' 2),
    (.disable ⟨session, "w"⟩, at' 3), (.edit ⟨⟨session, "w"⟩, "https://b.example/in", ["test", "test"]⟩, at' 4)]

/-- The protocol of the urls of `fourCommands`. -/
def exampleUrls : Protocols := fun url =>
  if url = "https://a.example/in" ∨ url = "https://b.example/in" then some "https:" else none

theorem webhook_records_four : Stored exampleUrls ((machine exampleUrls).series .empty fourCommands) ∧
    (((machine exampleUrls).series .empty fourCommands).webhooks.get "w").map
      (fun webhook => (webhook.isActive, webhook.deliveryUrl, webhook.updatedAt)) =
        some (false, "https://b.example/in", 4) := by
  refine ⟨(webhook_records exampleUrls ?_).1, ?_⟩
  · decide +kernel
  · decide +kernel

end Run

end NodeToolkit.Webhooks
