import NodeToolkit.Proof.Webhooks
import Mathlib.Algebra.Order.Group.Multiset

/-!
# Concurrent webhook commands

Commands on stored webhooks in any interleaving. Each reads a webhook and writes it back whole, so
a write undoes what was written since the read.

* `Command.leaves`: a command executed alone, as a function on the one record it is about;
  `get_series`: a series of commands is, for each id, the series of the commands about it.
* `Steady`: when a command writes, the webhook is still stored, and nobody else has changed a field
  that the command writes back as it read it.
* `commands_keep`: then a deleted webhook stays deleted, and the store is the result of the commands
  that succeeded, executed one after another in some order.
-/

namespace NodeToolkit.Webhooks

open Async

variable {protocol : Protocols}

/-! ## Commands on one record -/

/-- What a command leaves of the webhook it is about. -/
def Command.leaves (protocol : Protocols) (x : Command) (now : ℕ) (webhook : Webhook) : Option Webhook :=
  match amendment protocol x webhook now with
  | .ok (.update webhook') => some webhook'
  | .ok (.delete _) => none
  | _ => some webhook

/-- The value that enabling and disabling give to `isActive`. -/
def Command.sets : Command → Option Bool
  | .enable _ => some true
  | .disable _ => some false
  | _ => none

theorem leaves_toggle {x : Command} {b : Bool} (hx : x.sets = some b) (now : ℕ) (webhook : Webhook) :
    x.leaves protocol now webhook =
      some (if webhook.isActive = b then webhook else { webhook with isActive := b, updatedAt := now }) := by
  cases x with
  | create command draft => cases hx
  | edit command => cases hx
  | enable command =>
    cases hx
    cases h : webhook.isActive <;> simp [Command.leaves, amendment, EnableWebhook, h, Except.map]
  | disable command =>
    cases hx
    cases h : webhook.isActive <;> simp [Command.leaves, amendment, DisableWebhook, h, Except.map]
  | delete command => cases hx

/-- An edit changes every webhook alike, or none. -/
theorem leaves_edit (protocol : Protocols) (command : EditWebhookCommand) :
    (∀ now webhook, (Command.edit command).leaves protocol now webhook = some webhook) ∨
    ∀ now webhook, (Command.edit command).leaves protocol now webhook = some { webhook with
      events := command.events, deliveryUrl := command.deliveryUrl, updatedAt := now } := by
  simp only [Command.leaves, amendment, EditWebhook]
  cases checkArguments protocol command.events command.deliveryUrl with
  | error e => exact Or.inl fun _ _ => rfl
  | ok u => exact Or.inr fun _ _ => rfl

/-- What is left has the identity of the webhook. -/
theorem leaves_identity {x : Command} {now : ℕ} {webhook webhook' : Webhook} (hx : x.Amends)
    (h : x.leaves protocol now webhook = some webhook') : SameIdentity webhook webhook' := by
  unfold Command.leaves at h
  cases ham : amendment protocol x webhook now with
  | error e =>
    rw [ham] at h
    cases h
    exact SameIdentity.refl webhook
  | ok c =>
    rw [ham] at h
    rcases amendment_cases hx ham with ⟨webhook₁, rfl, hsame, -⟩ | ⟨-, rfl⟩
    · cases h
      exact hsame
    · cases h

/-- What is left has the `isActive` that the command sets, if it sets one. -/
theorem leaves_isActive {x : Command} {now : ℕ} {webhook webhook' : Webhook}
    (h : x.leaves protocol now webhook = some webhook') :
    x.sets = none ∧ webhook'.isActive = webhook.isActive ∨ x.sets = some webhook'.isActive := by
  have htoggle : ∀ {b}, x.sets = some b → x.sets = some webhook'.isActive := by
    intro b hb
    rw [leaves_toggle hb] at h
    rw [hb, ← Option.some.inj h]
    split
    · rename_i hactive
      exact congrArg some hactive.symm
    · rfl
  cases x with
  | create command draft =>
    cases h
    exact Or.inl ⟨rfl, rfl⟩
  | edit command =>
    rcases leaves_edit protocol command with he | he
    · rw [he] at h
      cases h
      exact Or.inl ⟨rfl, rfl⟩
    · rw [he] at h
      cases h
      exact Or.inl ⟨rfl, rfl⟩
  | enable command => exact Or.inr (htoggle rfl)
  | disable command => exact Or.inr (htoggle rfl)
  | delete command => cases h

/-- A command in a series, on the record it is about. -/
def leave (protocol : Protocols) (o : Option Webhook) (x : Command × (ℕ → Choice)) : Option Webhook :=
  o.bind (x.1.leaves protocol (x.2 0).resumed)

theorem foldl_leave_none {xs : List (Command × (ℕ → Choice))} : xs.foldl (leave protocol) none = none := by
  induction xs with
  | nil => rfl
  | cons x xs ih => exact ih

/-! ## The store, record by record -/

/-- Every webhook is stored under its id. -/
def Keyed (s : Repositories) : Prop := ∀ id webhook, s.webhooks.get id = some webhook → webhook.id = id

/-- `s'` has what `s` has, less some of its keys. -/
structure Within (s s' : Repositories) : Prop where
  keys : s'.webhooks.keys = s.webhooks.keys.filter fun id => (s'.webhooks.get id).isSome
  outbox : s'.outbox = s.outbox

section Store

variable {s s' s'' : Repositories} {x : Command} {is : ℕ → Choice} {id : String} {webhook webhook' : Webhook}
  {xs : List (Command × (ℕ → Choice))}

theorem Within.refl (s : Repositories) : Within s s := by
  refine ⟨(List.filter_eq_self.2 fun id hid => ?_).symm, rfl⟩
  obtain ⟨webhook, h⟩ := OMap.mem_keys.1 hid
  rw [h]
  rfl

theorem Within.set (h : Within s s') (hget : s'.webhooks.get id = some webhook) (webhook' : Webhook) :
    Within s { s' with webhooks := s'.webhooks.set id webhook' } := by
  refine ⟨?_, h.outbox⟩
  rw [OMap.keys_set_of_mem (OMap.mem_keys.2 ⟨webhook, hget⟩), h.keys]
  refine List.filter_congr fun j _ => ?_
  rw [OMap.get_set]
  split
  · rename_i hj
    rw [← hj, hget]
    rfl
  · rfl

theorem Within.erase (h : Within s s') (id : String) :
    Within s { s' with webhooks := s'.webhooks.erase id } := by
  refine ⟨?_, h.outbox⟩
  rw [OMap.keys_erase, h.keys, List.filter_filter]
  refine List.filter_congr fun j _ => ?_
  rw [OMap.get_erase]
  by_cases hj : id = j
  · simp [hj]
  · simp [hj, Ne.symm hj]

/-- **Stores are equal** if they have the same records, and both come from the same store. -/
theorem Within.ext (h : Within s s') (h' : Within s s'')
    (hget : ∀ id, s'.webhooks.get id = s''.webhooks.get id) : s' = s'' := by
  have hkeys : s'.webhooks.keys = s''.webhooks.keys := by
    rw [h.keys, h'.keys]
    exact List.filter_congr fun id _ => by rw [hget id]
  have hwebhooks : s'.webhooks = s''.webhooks := OMap.ext_get hkeys hget
  have houtbox : s'.outbox = s''.outbox := h.outbox.trans h'.outbox.symm
  cases s'
  cases s''
  simp_all

/-- A command executed alone changes the record it is about, if there is one. -/
theorem get_alone_of_amends (hx : x.Amends) (hs : Keyed s) :
    ((machine protocol).alone s x is).1.webhooks.get id =
      if x.target = id then leave protocol (s.webhooks.get id) (x, is) else s.webhooks.get id := by
  rw [alone_of_amends hx]
  by_cases hid : x.target = id
  · subst hid
    rw [if_pos rfl]
    cases hget : s.webhooks.get x.target with
    | none => exact hget
    | some webhook =>
      have hkey := hs _ _ hget
      simp only [leave, Option.bind_some, Command.leaves]
      cases ham : amendment protocol x webhook (is 0).resumed with
      | error e => exact hget
      | ok c =>
        rcases amendment_cases hx ham with ⟨webhook', rfl, hsame, -⟩ | ⟨-, rfl⟩
        · simp only [exec, hsame.id, hkey]
          exact OMap.get_set_self ..
        · simp only [exec, hkey]
          rw [OMap.get_erase, if_pos rfl]
  · rw [if_neg hid]
    cases hget : s.webhooks.get x.target with
    | none => rfl
    | some webhook =>
      have hkey := hs _ _ hget
      dsimp only
      cases ham : amendment protocol x webhook (is 0).resumed with
      | error e => rfl
      | ok c =>
        rcases amendment_cases hx ham with ⟨webhook', rfl, hsame, -⟩ | ⟨-, rfl⟩
        · simp only [exec, hsame.id, hkey]
          exact OMap.get_set_ne _ _ hid
        · simp only [exec, hkey]
          rw [OMap.get_erase, if_neg hid]

theorem within_alone (hx : x.Amends) (hs : Keyed s') (h : Within s s') :
    Within s ((machine protocol).alone s' x is).1 := by
  rw [alone_of_amends hx]
  cases hget : s'.webhooks.get x.target with
  | none => exact h
  | some webhook =>
    dsimp only
    cases ham : amendment protocol x webhook (is 0).resumed with
    | error e => exact h
    | ok c =>
      rcases amendment_cases hx ham with ⟨webhook', rfl, hsame, -⟩ | ⟨-, rfl⟩
      · simp only [exec, hsame.id, hs _ _ hget]
        exact h.set hget webhook'
      · exact h.erase webhook.id

theorem Keyed.alone (hx : x.Amends) (hs : Keyed s) : Keyed ((machine protocol).alone s x is).1 := by
  intro id webhook h
  rw [get_alone_of_amends hx hs] at h
  split at h
  · obtain ⟨webhook₀, hget, hleaves⟩ := Option.bind_eq_some_iff.1 h
    exact (leaves_identity hx hleaves).id.trans (hs id webhook₀ hget)
  · exact hs id webhook h

theorem within_series (hxs : ∀ x ∈ xs, x.1.Amends) : ∀ {s'}, Keyed s' → Within s s' →
    Within s ((machine protocol).series s' xs) := by
  induction xs with
  | nil => exact fun _ h => h
  | cons x xs ih =>
    rw [List.forall_mem_cons] at hxs
    exact fun hs h => ih hxs.2 (hs.alone hxs.1) (within_alone hxs.1 hs h)

/-- **Each record** is changed by the commands about it only. -/
theorem get_series (hxs : ∀ x ∈ xs, x.1.Amends) : ∀ {s}, Keyed s →
    ((machine protocol).series s xs).webhooks.get id =
      (xs.filter fun x => x.1.target = id).foldl (leave protocol) (s.webhooks.get id) := by
  induction xs with
  | nil => exact fun _ => rfl
  | cons x xs ih =>
    intro s hs
    rw [List.forall_mem_cons] at hxs
    rw [Machine.series_cons, ih hxs.2 (hs.alone hxs.1), get_alone_of_amends hxs.1 hs]
    by_cases hid : x.1.target = id
    · rw [if_pos hid, List.filter_cons_of_pos (by simpa using hid), List.foldl_cons]
    · rw [if_neg hid, List.filter_cons_of_neg (by simpa using hid)]

end Store

/-! ## Making room for one more

An enable may write after another one that it did not see. It then counts as executed before that one,
which finds the webhook enabled and does nothing. The same holds of two disables. -/

section Reorder

variable {b : Bool} {x : Command × (ℕ → Choice)} {xs : List (Command × (ℕ → Choice))}

/-- Equal but for `isActive` and `updatedAt`. -/
def SameContent (webhook webhook' : Webhook) : Prop :=
  webhook' = { webhook with isActive := webhook'.isActive, updatedAt := webhook'.updatedAt }

/-- Leaving out what gives `isActive` the value `b`. -/
abbrev withoutSetting (b : Bool) (xs : List (Command × (ℕ → Choice))) : List (Command × (ℕ → Choice)) :=
  xs.filter fun x => x.1.sets ≠ some b

/-- The same command keeps the contents the same. -/
theorem SameContent.leave {r r' r₁ : Webhook} (h : SameContent r r') (hx : leave protocol (some r) x = some r₁) :
    ∃ r₁', Webhooks.leave protocol (some r') x = some r₁' ∧ SameContent r₁ r₁' := by
  obtain ⟨x, is⟩ := x
  simp only [Webhooks.leave, Option.bind_some] at hx ⊢
  have htoggle : ∀ {b}, x.sets = some b →
      ∃ r₁', x.leaves protocol (is 0).resumed r' = some r₁' ∧ SameContent r₁ r₁' := by
    intro b hb
    rw [leaves_toggle hb] at hx ⊢
    refine ⟨_, rfl, ?_⟩
    rw [← Option.some.inj hx, h]
    split <;> split <;> rfl
  cases x with
  | create command draft =>
    cases hx
    exact ⟨r', rfl, h⟩
  | edit command =>
    rcases leaves_edit protocol command with he | he
    · rw [he] at hx ⊢
      cases hx
      exact ⟨r', rfl, h⟩
    · rw [he] at hx ⊢
      cases hx
      refine ⟨_, rfl, ?_⟩
      rw [h]
      rfl
  | enable command => exact htoggle rfl
  | disable command => exact htoggle rfl
  | delete command => cases hx

/-- Enabling or disabling keeps the contents the same. -/
theorem SameContent.of_sets {r r' r₁ : Webhook} (h : SameContent r r') (hb : x.1.sets = some b)
    (hx : Webhooks.leave protocol (some r) x = some r₁) : SameContent r₁ r' := by
  simp only [Webhooks.leave, Option.bind_some, leaves_toggle hb] at hx
  rw [← Option.some.inj hx, h]
  split <;> rfl

/-- **What is left out** changes only `isActive` and `updatedAt` in the end. -/
theorem sameContent_filter {webhook : Webhook} : ∀ {r r'}, SameContent r r' →
    xs.foldl (leave protocol) (some r) = some webhook →
    ∃ webhook', (withoutSetting b xs).foldl (leave protocol) (some r') = some webhook' ∧
      SameContent webhook webhook' := by
  induction xs with
  | nil =>
    intro r r' h hr
    cases hr
    exact ⟨r', rfl, h⟩
  | cons x xs ih =>
    intro r r' h hr
    rw [List.foldl_cons] at hr
    cases hx : leave protocol (some r) x with
    | none =>
      rw [hx, foldl_leave_none] at hr
      cases hr
    | some r₁ =>
      rw [hx] at hr
      by_cases hb : x.1.sets = some b
      · rw [withoutSetting, List.filter_cons_of_neg (by simpa using hb)]
        exact ih (h.of_sets hb hx) hr
      · obtain ⟨r₁', hx', h₁⟩ := h.leave hx
        rw [withoutSetting, List.filter_cons_of_pos (by simpa using hb), List.foldl_cons, hx']
        exact ih h₁ hr

/-- A command that does not set `isActive` to `b` leaves it at `!b`; one that sets it to `!b` makes it so. -/
theorem isActive_leave {r r₁ : Webhook} (hx : leave protocol (some r) x = some r₁) (hb : x.1.sets ≠ some b)
    (hr : r.isActive = !b ∨ x.1.sets = some !b) : r₁.isActive = !b := by
  rcases leaves_isActive (show x.1.leaves protocol (x.2 0).resumed r = some r₁ from hx) with ⟨hnone, hkeep⟩ | hset
  · rw [hkeep]
    exact hr.resolve_right (by simp [hnone])
  · rw [hset] at hb
    exact Bool.eq_not.2 fun h => hb (congrArg some h)

theorem isActive_filter {webhook : Webhook} : ∀ {r : Webhook},
    (withoutSetting b xs).foldl (leave protocol) (some r) = some webhook →
    (r.isActive = !b ∨ ∃ x ∈ xs, x.1.sets = some !b) → webhook.isActive = !b := by
  induction xs with
  | nil =>
    intro r h hr
    cases h
    exact hr.resolve_right (by simp)
  | cons x xs ih =>
    intro r h hr
    by_cases hb : x.1.sets = some b
    · rw [withoutSetting, List.filter_cons_of_neg (by simpa using hb)] at h
      refine ih h (hr.imp_right ?_)
      rintro ⟨y, hy, hset⟩
      rcases List.mem_cons.1 hy with rfl | hy
      · rw [hb] at hset
        cases b <;> cases hset
      · exact ⟨y, hy, hset⟩
    · rw [withoutSetting, List.filter_cons_of_pos (by simpa using hb), List.foldl_cons] at h
      cases hx : leave protocol (some r) x with
      | none =>
        rw [hx, foldl_leave_none] at h
        cases h
      | some r₁ =>
        rw [hx] at h
        refine ih h ?_
        rcases hr with hr | ⟨y, hy, hset⟩
        · exact Or.inl (isActive_leave hx hb (Or.inl hr))
        · rcases List.mem_cons.1 hy with rfl | hy
          · exact Or.inl (isActive_leave hx hb (Or.inr hset))
          · exact Or.inr ⟨y, hy, hset⟩

/-- What sets `isActive` to the value it has does nothing. -/
theorem foldl_leave_sets (hxs : ∀ x ∈ xs, x.1.sets = some b) {r : Webhook} (hr : r.isActive = b) :
    xs.foldl (leave protocol) (some r) = some r := by
  induction xs with
  | nil => rfl
  | cons x xs ih =>
    rw [List.forall_mem_cons] at hxs
    rw [List.foldl_cons]
    have hx : leave protocol (some r) x = some r := by
      rw [leave, Option.bind_some, leaves_toggle hxs.1, if_pos hr]
    rw [hx]
    exact ih hxs.2

/-- **One more** enable of an enabled webhook, or disable of a disabled one, that writes nevertheless:
executed before those that it did not see, it has that effect. -/
theorem foldl_leave_reorder {r webhook : Webhook} (hxs : xs.foldl (leave protocol) (some r) = some webhook)
    (hactive : webhook.isActive = b) (hx : x.1.sets = some b)
    (hr : r.isActive = !b ∨ ∃ x ∈ xs, x.1.sets = some !b) :
    (withoutSetting b xs ++ x :: xs.filter fun x => x.1.sets = some b).foldl (leave protocol) (some r) =
      some { webhook with updatedAt := (x.2 0).resumed } := by
  obtain ⟨webhook', hfold, hsame⟩ := sameContent_filter (b := b) (rfl : SameContent r r) hxs
  have hinactive := isActive_filter hfold hr
  have hne : webhook'.isActive ≠ b := by
    rw [hinactive]
    cases b <;> decide
  rw [List.foldl_append, hfold, List.foldl_cons]
  have hlast : leave protocol (some webhook') x = some { webhook with updatedAt := (x.2 0).resumed } := by
    rw [leave, Option.bind_some, leaves_toggle hx, if_neg hne, hsame, ← hactive]
  rw [hlast]
  exact foldl_leave_sets (fun y hy => by simpa using (List.mem_filter.1 hy).2) hactive

theorem perm_reorder : (withoutSetting b xs ++ x :: xs.filter fun x => x.1.sets = some b).Perm (x :: xs) := by
  refine List.perm_middle.trans (List.Perm.cons x ?_)
  have h := List.filter_append_perm (fun x : Command × (ℕ → Choice) => decide (x.1.sets ≠ some b)) xs
  simpa [withoutSetting] using h

end Reorder

/-! ## The write of a command -/

section Write

variable {s : Repositories} {x : Command} {read stored : Webhook} {now : ℕ} {c : Cmd} {i : Choice}
  {xs : List (Command × (ℕ → Choice))}

/-- The clock readings of a command that goes on at `now`. -/
def clock (now : ℕ) : ℕ → Choice := fun _ => ⟨⟨now, now, 0, .null⟩, ""⟩

/-- **Nobody has changed** what the command writes back as it read it: the webhook is still stored, and
an edit finds its `isActive`, an enable or disable finds its events and url. -/
def Command.Undisturbed (read : Webhook) (stored : Option Webhook) : Command → Prop
  | .edit _ => ∃ webhook ∈ stored, webhook.isActive = read.isActive
  | .enable _ => ∃ webhook ∈ stored, webhook.events = read.events ∧ webhook.deliveryUrl = read.deliveryUrl
  | .disable _ => ∃ webhook ∈ stored, webhook.events = read.events ∧ webhook.deliveryUrl = read.deliveryUrl
  | _ => True

/-- What an enable or disable writes. -/
theorem amendment_toggle (protocol : Protocols) {b : Bool} (hx : x.sets = some b) (webhook : Webhook) (now : ℕ) :
    (webhook.isActive = !b ∧
      amendment protocol x webhook now = .ok (.update { webhook with isActive := b, updatedAt := now })) ∨
    webhook.isActive = b ∧ ∃ e, amendment protocol x webhook now = .error e := by
  cases x with
  | create command draft => cases hx
  | edit command => cases hx
  | enable command =>
    cases hx
    cases h : webhook.isActive
    · exact Or.inl ⟨rfl, by simp [amendment, EnableWebhook, h, Except.map]⟩
    · exact Or.inr ⟨rfl, _, by simp [amendment, EnableWebhook, h, Except.map]; rfl⟩
  | disable command =>
    cases hx
    cases h : webhook.isActive
    · exact Or.inr ⟨rfl, _, by simp [amendment, DisableWebhook, h, Except.map]; rfl⟩
    · exact Or.inl ⟨rfl, by simp [amendment, DisableWebhook, h, Except.map]⟩
  | delete command => cases hx

/-- A command that finds what it read writes what it would write if it read again. -/
theorem exec_eq_alone {c' : Cmd} (hx : x.Amends) (hget : s.webhooks.get x.target = some stored)
    (ham : amendment protocol x stored now = .ok c') (hc : (exec i s c).1 = (exec i s c').1) :
    (exec i s c).1 = ((machine protocol).alone s x (clock now)).1 := by
  have hnow : (clock now 0).resumed = now := rfl
  rw [alone_of_amends hx, hget, hc, hnow]
  dsimp only
  rw [ham]
  rcases amendment_cases hx ham with ⟨webhook', rfl, -, -⟩ | ⟨-, rfl⟩
  · rfl
  · rfl

/-- **What an undisturbed command writes**: what it writes when executed alone, or its own `updatedAt`
on a webhook that was enabled, or disabled, by another command. -/
theorem write_cases (hx : x.Amends) (hs : Keyed s) (ham : amendment protocol x read now = .ok c)
    (hid : read.id = x.target) (hsame : ∀ stored, s.webhooks.get x.target = some stored → SameIdentity read stored)
    (hun : x.Undisturbed read (s.webhooks.get x.target)) :
    (exec i s c).1 = ((machine protocol).alone s x (clock now)).1 ∨
    ∃ stored b, s.webhooks.get x.target = some stored ∧ x.sets = some b ∧ stored.isActive = b ∧ read.isActive = (!b) ∧
      (exec i s c).1 = { s with webhooks := s.webhooks.set x.target { stored with updatedAt := now } } := by
  have htoggle : ∀ {b}, x.sets = some b → (∃ webhook ∈ s.webhooks.get x.target,
      webhook.events = read.events ∧ webhook.deliveryUrl = read.deliveryUrl) →
      (exec i s c).1 = ((machine protocol).alone s x (clock now)).1 ∨
      ∃ stored b, s.webhooks.get x.target = some stored ∧ x.sets = some b ∧ stored.isActive = b ∧
        read.isActive = (!b) ∧
        (exec i s c).1 = { s with webhooks := s.webhooks.set x.target { stored with updatedAt := now } } := by
    rintro b hb ⟨stored, hget, hevents, hurl⟩
    rcases amendment_toggle protocol hb read now with ⟨hread, hwrite⟩ | ⟨-, e, he⟩
    · rw [hwrite] at ham
      cases ham
      have hsame := hsame stored hget
      -- the two records differ in `isActive` and `updatedAt` only
      have hrecord : { read with isActive := b, updatedAt := now } =
          ({ stored with isActive := b, updatedAt := now } : Webhook) := by
        simp [hsame.id, hsame.assigneeId, hsame.secret, hsame.createdBy, hsame.createdAt, hevents, hurl]
      rcases amendment_toggle protocol hb stored now with ⟨-, hagain⟩ | ⟨hstored, -⟩
      · exact Or.inl (exec_eq_alone hx hget hagain (by rw [hrecord]))
      · refine Or.inr ⟨stored, b, hget, hb, hstored, hread, ?_⟩
        rw [hrecord, ← hstored]
        simp only [exec, hs _ _ hget]
    · rw [he] at ham
      cases ham
  cases x with
  | create command draft => exact hx.elim
  | edit command =>
    obtain ⟨stored, hget, hactive⟩ := hun
    have hsame := hsame stored hget
    refine Or.inl ?_
    simp only [amendment, EditWebhook] at ham
    cases hc : checkArguments protocol command.events command.deliveryUrl with
    | error e => rw [hc] at ham; cases ham
    | ok u =>
      rw [hc] at ham
      cases ham
      have hagain : amendment protocol (.edit command) stored now = .ok (.update { stored with
          events := command.events, deliveryUrl := command.deliveryUrl, updatedAt := now }) := by
        simp only [amendment, EditWebhook, hc]
        rfl
      have hrecord : { read with events := command.events, deliveryUrl := command.deliveryUrl, updatedAt := now } =
          ({ stored with events := command.events, deliveryUrl := command.deliveryUrl, updatedAt := now } : Webhook) := by
        simp [hsame.id, hsame.assigneeId, hsame.secret, hsame.createdBy, hsame.createdAt, hactive]
      exact exec_eq_alone hx hget hagain (by rw [hrecord])
  | enable command => exact htoggle rfl hun
  | disable command => exact htoggle rfl hun
  | delete command =>
    cases ham
    refine Or.inl ?_
    cases hget : s.webhooks.get (Command.delete command).target with
    | none =>
      rw [alone_of_amends hx, hget]
      simp only [exec, hid, OMap.erase_of_get_eq_none hget]
    | some stored =>
      refine exec_eq_alone hx hget rfl ?_
      simp only [exec, hid, hs _ _ hget]

/-- **The records of a series**: what is stored after it was stored before it, with the same identity, and
has its `isActive` from there or from a command of the series. -/
theorem foldl_leave_some : ∀ {r webhook : Webhook}, (∀ x ∈ xs, x.1.Amends) →
    xs.foldl (leave protocol) (some r) = some webhook → SameIdentity r webhook ∧
      (r.isActive = webhook.isActive ∨ ∃ x ∈ xs, x.1.sets = some webhook.isActive) := by
  induction xs using List.reverseRecOn with
  | nil =>
    intro r webhook _ h
    cases h
    exact ⟨SameIdentity.refl r, Or.inl rfl⟩
  | append_singleton xs x ih =>
    intro r webhook hxs h
    rw [List.foldl_append] at h
    cases hr : xs.foldl (leave protocol) (some r) with
    | none =>
      rw [hr] at h
      cases h
    | some r₁ =>
      obtain ⟨hsame, hactive⟩ := ih (fun y hy => hxs y (List.mem_append_left _ hy)) hr
      have hx : x.1.leaves protocol (x.2 0).resumed r₁ = some webhook := by
        rw [hr] at h
        exact h
      refine ⟨hsame.trans (leaves_identity (hxs x (by simp)) hx), ?_⟩
      rcases leaves_isActive hx with ⟨-, hkeep⟩ | hset
      · rw [hkeep]
        refine hactive.imp_right ?_
        rintro ⟨y, hy, hset⟩
        exact ⟨y, List.mem_append_left _ hy, hset⟩
      · exact Or.inr ⟨x, by simp, hset⟩

end Write

/-! ## The calls -/

/-- The store, with all commands called so far. -/
abbrev CommandPool : Type := Pool Resp Repositories Command (Except Exception String)

/-- The webhook that a command has read, and when it went on. -/
def readBy : Hist Resp → Option (Webhook × ℕ)
  | ⟨.ofId _, (some webhook, now)⟩ :: _ => some (webhook, now)
  | _ => none

/-- The command, if it has succeeded, with its clock readings. -/
def done (p : Proc Resp Command (Except Exception String)) : Multiset (Command × (ℕ → Choice)) :=
  match p.result, readBy p.hist with
  | some (.ok _), some (_, now) => {(p.call, clock now)}
  | _, _ => 0

theorem done_of_not_ok {p : Proc Resp Command (Except Exception String)}
    (h : ∀ id, p.result ≠ some (.ok id)) : done p = 0 := by
  unfold done
  split
  · rename_i hres _
    exact absurd hres (h _)
  · rfl

/-- **Only commands on stored webhooks are called, and each writes undisturbed.** -/
def Steady (w : CommandPool) : Ev Choice Empty Command → Prop
  | .call _ x => x.Amends
  | .step pid _ => ∀ p ∈ w.procs.get pid, p.Running → ∀ r ∈ readBy p.hist,
      p.call.Undisturbed r.1 (w.st.webhooks.get p.call.target)
  | .env _ => True

/-- How far a command has come: it has to read, it has read, or it has written. -/
inductive Stage (protocol : Protocols) (x : Command) : Hist Resp → Client (Except Exception String) → Prop where
  | called : Stage protocol x [] (.await (.ofId x.target) (afterRead protocol x))
  | read (r : Option Webhook × ℕ) : Stage protocol x [⟨.ofId x.target, r⟩] (afterRead protocol x r)
  | wrote {webhook : Webhook} {now : ℕ} {c : Cmd} (h : amendment protocol x webhook now = .ok c) (a : Resp c) :
      Stage protocol x [⟨.ofId x.target, (some webhook, now)⟩, ⟨c, a⟩] (.ret (.ok (x.reply webhook)))

/-- **The next command** of a call: it reads the webhook, or it has read it and writes. -/
theorem Stage.await_cases {x : Command} {h : Hist Resp} {c : Cmd} {k : Resp c → Client (Except Exception String)}
    (hs : Stage protocol x h (.await c k)) :
    (h = [] ∧ c = .ofId x.target) ∨ ∃ webhook now, h = [⟨.ofId x.target, (some webhook, now)⟩] ∧
      amendment protocol x webhook now = .ok c ∧ ∀ a, k a = .ret (.ok (x.reply webhook)) := by
  generalize hrest : (Prog.await c k : Client _) = rest at hs
  cases hs with
  | called =>
    cases hrest
    exact Or.inl ⟨rfl, rfl⟩
  | read r =>
    obtain ⟨_ | webhook, now⟩ := r
    · cases hrest
    · refine Or.inr ⟨webhook, now, rfl, ?_⟩
      simp only [afterRead] at hrest
      cases ham : amendment protocol x webhook now with
      | error e =>
        rw [ham] at hrest
        cases hrest
      | ok c' =>
        rw [ham] at hrest
        cases hrest
        exact ⟨rfl, fun _ => rfl⟩
  | wrote ham a => cases hrest

theorem Stage.advance {x : Command} {h : Hist Resp} {c : Cmd} {k : Resp c → Client (Except Exception String)}
    (hs : Stage protocol x h (.await c k)) (a : Resp c) : Stage protocol x (h ++ [⟨c, a⟩]) (k a) := by
  generalize hrest : (Prog.await c k : Client _) = rest at hs
  cases hs with
  | called =>
    cases hrest
    exact .read a
  | read r =>
    obtain ⟨_ | webhook, now⟩ := r
    · cases hrest
    · simp only [afterRead] at hrest
      cases ham : amendment protocol x webhook now with
      | error e =>
        rw [ham] at hrest
        cases hrest
      | ok c' =>
        rw [ham] at hrest
        cases hrest
        exact .wrote ham a
  | wrote ham a' => cases hrest

/-- A command succeeds by writing. -/
theorem Stage.of_ok {x : Command} {h : Hist Resp} {id : String} (hs : Stage protocol x h (.ret (.ok id))) :
    ∃ webhook now c a, h = [⟨.ofId x.target, (some webhook, now)⟩, ⟨c, a⟩] ∧
      amendment protocol x webhook now = .ok c := by
  generalize hrest : (Prog.ret (.ok id) : Client (Except Exception String)) = rest at hs
  cases hs with
  | called => cases hrest
  | read r =>
    obtain ⟨_ | webhook, now⟩ := r
    · cases hrest
    · simp only [afterRead] at hrest
      cases ham : amendment protocol x webhook now with
      | error e =>
        rw [ham] at hrest
        cases hrest
      | ok c =>
        rw [ham] at hrest
        cases hrest
  | wrote ham a => exact ⟨_, _, _, a, rfl, ham⟩

/-! ## What every run keeps -/

section Kept

variable {s : Repositories} {w : CommandPool} {pid : ℕ} {x : Command} {i : Choice} {id : String} {webhook : Webhook}
  {m m' : Multiset (Command × (ℕ → Choice))}

/-- A record of a webhook that `s` has, after the commands `m`. -/
def Known (s : Repositories) (m : Multiset (Command × (ℕ → Choice))) (id : String) (webhook : Webhook) : Prop :=
  ∃ r, s.webhooks.get id = some r ∧ SameIdentity r webhook ∧
    (r.isActive = webhook.isActive ∨ ∃ x ∈ m, x.1.target = id ∧ x.1.sets = some webhook.isActive)

theorem Known.mono (h : Known s m id webhook) (hm : m ≤ m') : Known s m' id webhook := by
  obtain ⟨r, hget, hsame, hactive⟩ := h
  refine ⟨r, hget, hsame, hactive.imp_right ?_⟩
  rintro ⟨x, hx, hset⟩
  exact ⟨x, Multiset.mem_of_le hm hx, hset⟩

/-- The store is the result of the commands `m`, one after another in some order. -/
def Serial (protocol : Protocols) (s : Repositories) (m : Multiset (Command × (ℕ → Choice))) (s' : Repositories) :
    Prop :=
  ∃ xs : List (Command × (ℕ → Choice)), (xs : Multiset _) = m ∧ s' = (machine protocol).series s xs

/-- What is stored after a series of commands is known. -/
theorem Serial.known {s' : Repositories} (h : Serial protocol s m s') (hm : ∀ x ∈ m, x.1.Amends) (hs : Keyed s)
    (hget : s'.webhooks.get id = some webhook) : Known s m id webhook := by
  obtain ⟨xs, rfl, rfl⟩ := h
  rw [get_series hm hs] at hget
  cases hr : s.webhooks.get id with
  | none =>
    rw [hr, foldl_leave_none] at hget
    cases hget
  | some r =>
    rw [hr] at hget
    obtain ⟨hsame, hactive⟩ := foldl_leave_some (fun x hx => hm x (List.mem_of_mem_filter hx)) hget
    refine ⟨r, hr, hsame, hactive.imp_right ?_⟩
    rintro ⟨x, hx, hset⟩
    obtain ⟨hmem, htarget⟩ := List.mem_filter.1 hx
    exact ⟨x, hmem, by simpa using htarget, hset⟩

theorem Serial.keyed {s' : Repositories} (h : Serial protocol s m s') (hm : ∀ x ∈ m, x.1.Amends) (hs : Keyed s) :
    Keyed s' := by
  intro id webhook hget
  obtain ⟨r, hr, hsame, -⟩ := h.known hm hs hget
  exact hsame.id.trans (hs id r hr)

/-- The commands about the webhook come last, with one more before those that it did not see. -/
theorem Serial.reorder {xs : List (Command × (ℕ → Choice))} {b : Bool} {r stored : Webhook} {now : ℕ}
    (hxs : ∀ x ∈ xs, x.1.Amends) (hs : Keyed s) (hx : x.Amends) (hb : x.sets = some b)
    (hget : ((machine protocol).series s xs).webhooks.get x.target = some stored) (hstored : stored.isActive = b)
    (hr : s.webhooks.get x.target = some r)
    (hactive : r.isActive = (!b) ∨ ∃ y ∈ xs, y.1.target = x.target ∧ y.1.sets = some !b) :
    Serial protocol s ((x, clock now) ::ₘ ↑xs) { (machine protocol).series s xs with
      webhooks := ((machine protocol).series s xs).webhooks.set x.target { stored with updatedAt := now } } := by
  -- the commands about the webhook, and with the one more
  let ys := xs.filter fun y => y.1.target = x.target
  let ys' := withoutSetting b ys ++ (x, clock now) :: ys.filter fun y => y.1.sets = some b
  let xs' := (xs.filter fun y => !decide (y.1.target = x.target)) ++ ys'
  have hperm' : ys'.Perm ((x, clock now) :: ys) := perm_reorder
  have hperm : xs'.Perm ((x, clock now) :: xs) := by
    refine (hperm'.append_left _).trans (List.perm_middle.trans (List.Perm.cons _ ?_))
    exact List.perm_append_comm.trans (List.filter_append_perm _ xs)
  have hxs' : ∀ y ∈ xs', y.1.Amends := by
    intro y hy
    rcases List.mem_cons.1 (hperm.mem_iff.1 hy) with rfl | hy
    · exact hx
    · exact hxs y hy
  have htarget : ∀ y ∈ ys', y.1.target = x.target := by
    intro y hy
    rcases List.mem_cons.1 (hperm'.mem_iff.1 hy) with rfl | hy
    · rfl
    · simpa using (List.mem_filter.1 hy).2
  have hfold : ys.foldl (leave protocol) (some r) = some stored := by
    rw [← hr, ← get_series hxs hs, hget]
  have hlast : ys'.foldl (leave protocol) (some r) = some { stored with updatedAt := now } := by
    refine foldl_leave_reorder hfold hstored hb (hactive.imp_right ?_)
    rintro ⟨y, hy, hyt, hset⟩
    exact ⟨y, List.mem_filter.2 ⟨hy, by simpa using hyt⟩, hset⟩
  refine ⟨xs', Multiset.coe_eq_coe.2 hperm, ?_⟩
  refine Within.ext ((within_series hxs hs (Within.refl s)).set hget _) (within_series hxs' hs (Within.refl s)) ?_
  intro j
  rw [get_series hxs' hs, List.filter_append, OMap.get_set]
  by_cases hj : x.target = j
  · subst hj
    have hnone : (xs.filter fun y => !decide (y.1.target = x.target)).filter (fun y => y.1.target = x.target) = [] := by
      rw [List.filter_filter]
      exact List.filter_eq_nil_iff.2 fun y _ => by simp
    have hall : ys'.filter (fun y => y.1.target = x.target) = ys' :=
      List.filter_eq_self.2 fun y hy => by simpa using htarget y hy
    rw [if_pos rfl, hnone, hall, List.nil_append, hr, hlast]
  · have hnone : ys'.filter (fun y => y.1.target = j) = [] :=
      List.filter_eq_nil_iff.2 fun y hy => by simp [htarget y hy, hj]
    have hall : (xs.filter fun y => !decide (y.1.target = x.target)).filter (fun y => y.1.target = j) =
        xs.filter fun y => y.1.target = j := by
      rw [List.filter_filter]
      refine List.filter_congr fun y _ => ?_
      by_cases hyj : y.1.target = j
      · simp [hyj, Ne.symm hj]
      · simp [hyj]
    rw [if_neg hj, hnone, hall, List.append_nil, get_series hxs hs]

/-- **One more command**: after an undisturbed write the store is again the result of a series. -/
theorem Serial.write {s' : Repositories} {read : Webhook} {now : ℕ} {c : Cmd} (h : Serial protocol s m s')
    (hm : ∀ x ∈ m, x.1.Amends) (hs : Keyed s) (hx : x.Amends) (hread : Known s m x.target read)
    (ham : amendment protocol x read now = .ok c) (hun : x.Undisturbed read (s'.webhooks.get x.target)) :
    Serial protocol s ((x, clock now) ::ₘ m) (exec i s' c).1 := by
  obtain ⟨r, hr, hrsame, hractive⟩ := hread
  have hsame : ∀ stored, s'.webhooks.get x.target = some stored → SameIdentity read stored := by
    intro stored hget
    obtain ⟨r', hr', hsame, -⟩ := h.known hm hs hget
    rw [hr] at hr'
    cases hr'
    exact hrsame.symm.trans hsame
  have hid : read.id = x.target := hrsame.id.trans (hs _ _ hr)
  rcases write_cases (i := i) hx (h.keyed hm hs) ham hid hsame hun with
    hwrite | ⟨stored, b, hget, hb, hstored, hnot, hwrite⟩
  · -- the command comes last
    obtain ⟨xs, rfl, rfl⟩ := h
    refine ⟨xs ++ [(x, clock now)], ?_, ?_⟩
    · exact Multiset.coe_eq_coe.2 (List.perm_append_singleton ..)
    · rw [Machine.series_append, hwrite]
      rfl
  · obtain ⟨xs, rfl, rfl⟩ := h
    rw [hwrite]
    rw [hnot] at hractive
    exact Serial.reorder hm hs hx hb hget hstored hr hractive

/-- **What every run keeps.** -/
structure Kept (protocol : Protocols) (s : Repositories) (w : CommandPool) : Prop where
  calls : ∀ pid p, w.procs.get pid = some p → p.call.Amends ∧ Stage protocol p.call p.hist p.rest
  amends : ∀ x ∈ w.tally fun _ p => done p, x.1.Amends
  serial : Serial protocol s (w.tally fun _ p => done p) w.st
  reads : ∀ pid p r, w.procs.get pid = some p → r ∈ readBy p.hist →
    Known s (w.tally fun _ p => done p) p.call.target r.1
  gone : ∀ pid p command id, w.procs.get pid = some p → p.call = .delete command → p.result = some (.ok id) →
    w.st.webhooks.get command.id = none

theorem kept_init (s : Repositories) : Kept protocol s (Pool.init s) where
  calls := fun _ _ h => by simp [Pool.init] at h
  amends := fun _ h => by simp [Pool.init, Pool.tally] at h
  serial := ⟨[], rfl, rfl⟩
  reads := fun _ _ _ h => by simp [Pool.init] at h
  gone := fun _ _ _ _ h => by simp [Pool.init] at h

theorem Kept.begin (hk : Kept protocol s w) (hx : x.Amends) (hn : w.procs.get pid = none) :
    Kept protocol s ((machine protocol).begin w pid x) := by
  have hprog : (machine protocol).prog x = .await (.ofId x.target) (afterRead protocol x) := prog_of_amends hx
  have htally : (((machine protocol).begin w pid x).tally fun _ p => done p) = w.tally fun _ p => done p := by
    have hdone : done ⟨x, [], (machine protocol).prog x⟩ = 0 := done_of_not_ok fun id h => by
      rw [Proc.result_eq_some, hprog] at h
      cases h
    rw [Machine.tally_begin hn, hdone, add_zero]
  refine ⟨Machine.begin_all hk.calls ⟨hx, ?_⟩, ?_, ?_, fun q p r hp hr => ?_, fun q p command id hp hc hres => ?_⟩
  · rw [hprog]
    exact .called
  · rw [htally]
    exact hk.amends
  · rw [htally]
    exact hk.serial
  · rw [htally]
    rcases Machine.begin_cases hp with ⟨-, rfl⟩ | ⟨-, hp⟩
    · cases hr
    · exact hk.reads q p r hp hr
  · rcases Machine.begin_cases hp with ⟨-, rfl⟩ | ⟨-, hp⟩
    · rw [Proc.result_eq_some, hprog] at hres
      cases hres
    · exact hk.gone q p command id hp hc hres

/-- A write does not bring back a webhook, unless it was stored when written. -/
theorem get_exec_none {x : Command} {read : Webhook} {now : ℕ} {c : Cmd} {s' : Repositories} (hx : x.Amends)
    (ham : amendment protocol x read now = .ok c) (hid : read.id = x.target)
    (hun : x.Undisturbed read (s'.webhooks.get x.target)) (hnone : s'.webhooks.get id = none) :
    (exec i s' c).1.webhooks.get id = none := by
  rcases amendment_cases hx ham with ⟨webhook', rfl, hsame, hdid⟩ | ⟨-, rfl⟩
  · have hne : x.target ≠ id := by
      rintro rfl
      rw [hnone] at hun
      cases x with
      | create command draft => exact hx
      | edit command => exact absurd hun (by simp [Command.Undisturbed])
      | enable command => exact absurd hun (by simp [Command.Undisturbed])
      | disable command => exact absurd hun (by simp [Command.Undisturbed])
      | delete command => exact hdid
    simp only [exec, hsame.id, hid]
    rw [OMap.get_set_ne _ _ hne, hnone]
  · simp only [exec]
    rw [OMap.get_erase, hnone, ite_self]

/-- **A command** of an undisturbed call keeps the invariant. -/
theorem Kept.advance {p : Proc Resp Command (Except Exception String)} {c : Cmd}
    {k : Resp c → Client (Except Exception String)} (hk : Kept protocol s w) (hs : Keyed s)
    (hG : Steady w (.step pid i)) (hp : w.procs.get pid = some p) (hr : p.rest = .await c k) :
    Kept protocol s ((machine protocol).advance w pid i p c k) := by
  obtain ⟨hx, hstage⟩ := hk.calls pid p hp
  rw [hr] at hstage
  have hnew := hstage.advance (exec i w.st c).2
  have hcalls : ∀ q p', ((machine protocol).advance w pid i p c k).procs.get q = some p' →
      p'.call.Amends ∧ Stage protocol p'.call p'.hist p'.rest := Machine.advance_all hk.calls ⟨hx, hnew⟩
  have htally := Machine.tally_advance (M := machine protocol) (i := i) (c := c) (k := k)
    (f := fun _ p => done p) hp
  have hold : done p = 0 := done_of_not_ok fun id h => by
    rw [Proc.result_eq_some, hr] at h
    cases h
  rw [hold, add_zero] at htally
  rcases hstage.await_cases with ⟨hhist, rfl⟩ | ⟨read, now, hhist, ham, hret⟩
  · -- the command has read the webhook, and the store is as before
    have hnot : ∀ id, k (exec i w.st (.ofId p.call.target)).2 ≠ .ret (.ok id) := by
      intro id hok
      rw [hok, hhist] at hnew
      obtain ⟨_, _, _, _, h, -⟩ := hnew.of_ok
      exact absurd (congrArg List.length h) (by simp)
    have hdone : done ⟨p.call, p.hist ++ [⟨.ofId p.call.target, (exec i w.st (.ofId p.call.target)).2⟩],
        k (exec i w.st (.ofId p.call.target)).2⟩ = 0 :=
      done_of_not_ok fun id h => hnot id (Proc.result_eq_some.1 h)
    have hsame : (((machine protocol).advance w pid i p (.ofId p.call.target) k).tally fun _ p => done p) =
        w.tally fun _ p => done p := by
      rw [htally]
      exact (congrArg _ hdone).trans (add_zero _)
    refine ⟨hcalls, ?_, ?_, fun q p' r hq hread => ?_, fun q p' command id hq hc hres => ?_⟩
    · rw [hsame]
      exact hk.amends
    · rw [hsame]
      exact hk.serial
    · rw [hsame]
      rcases Machine.advance_cases hq with ⟨-, rfl⟩ | ⟨-, hq⟩
      · have hget : w.st.webhooks.get p.call.target = some r.1 := by
          dsimp only at hread
          rw [hhist] at hread
          cases hg : w.st.webhooks.get p.call.target with
          | none => simp [machine, exec, readBy, hg] at hread
          | some webhook =>
            simp only [List.nil_append, machine, exec, hg, readBy, Option.mem_some_iff] at hread
            rw [← hread]
        exact hk.serial.known hk.amends hs hget
      · exact hk.reads q p' r hq hread
    · rcases Machine.advance_cases hq with ⟨-, rfl⟩ | ⟨-, hq⟩
      · exact absurd (Proc.result_eq_some.1 hres) (hnot id)
      · exact hk.gone q p' command id hq hc hres
  · -- the command has written
    have hread : Known s (w.tally fun _ p => done p) p.call.target read :=
      hk.reads pid p (read, now) hp (by rw [hhist]; rfl)
    have hun : p.call.Undisturbed read (w.st.webhooks.get p.call.target) :=
      hG p hp (Proc.running_of_await hr) (read, now) (by rw [hhist]; rfl)
    have hid : read.id = p.call.target := by
      obtain ⟨r, hget, hsame, -⟩ := hread
      exact hsame.id.trans (hs _ _ hget)
    have hdone : done ⟨p.call, p.hist ++ [⟨c, (exec i w.st c).2⟩], k (exec i w.st c).2⟩ = {(p.call, clock now)} := by
      simp only [done, Proc.result, hret, hhist]
      rfl
    have hmore : (((machine protocol).advance w pid i p c k).tally fun _ p => done p) =
        (p.call, clock now) ::ₘ w.tally fun _ p => done p := by
      rw [htally, add_comm]
      exact congrArg (· + _) hdone
    refine ⟨hcalls, ?_, ?_, fun q p' r hq hread' => ?_, fun q p' command id hq hc hres => ?_⟩
    · rw [hmore]
      exact fun x hmem => (Multiset.mem_cons.1 hmem).elim (fun h => h ▸ hx) (hk.amends x)
    · rw [hmore]
      exact hk.serial.write hk.amends hs hx hread ham hun
    · rw [hmore]
      rcases Machine.advance_cases hq with ⟨-, rfl⟩ | ⟨-, hq⟩
      · have hr : r = (read, now) := by
          dsimp only at hread'
          rw [hhist] at hread'
          exact (Option.some.inj hread').symm
        rw [hr]
        exact hread.mono (Multiset.le_cons_self _ _)
      · exact (hk.reads q p' r hq hread').mono (Multiset.le_cons_self _ _)
    · rcases Machine.advance_cases hq with ⟨-, rfl⟩ | ⟨-, hq⟩
      · dsimp only at hc
        rw [hc] at ham hid
        cases ham
        have hkey : read.id = command.id := hid
        change (w.st.webhooks.erase read.id).get command.id = none
        rw [OMap.get_erase, if_pos hkey]
      · exact get_exec_none hx ham hid hun (hk.gone q p' command id hq hc hres)

theorem kept_run {es : List (Ev Choice Empty Command)} (hs : Keyed s) (hk : Kept protocol s w)
    (hG : (machine protocol).Along Steady w es) : Kept protocol s ((machine protocol).run w es) :=
  Machine.run_inv (fun _ _ _ hk hG hn => hk.begin hG hn) (fun _ _ _ _ _ _ hk hG hp hr => hk.advance hs hG hp hr)
    (fun _ v => v.elim) hk hG

end Kept

/-! ## Every run -/

/-- **Concurrent commands.** In every run in which each command writes undisturbed: a webhook whose
deletion has completed is never stored again, and the store is the result of the commands that have
succeeded, executed one after another in some order. -/
theorem commands_keep (protocol : Protocols) {s : Repositories} (hs : Keyed s) {es : List (Ev Choice Empty Command)}
    (hG : (machine protocol).Along Steady (Pool.init s) es) :
    (∀ v v', v <+: v' → v' <+: es → ∀ pid p command id,
      ((machine protocol).run (Pool.init s) v).procs.get pid = some p → p.call = .delete command →
      p.result = some (.ok id) → ((machine protocol).run (Pool.init s) v').st.webhooks.get command.id = none) ∧
    Serial protocol s (((machine protocol).run (Pool.init s) es).tally fun _ p => done p)
      ((machine protocol).run (Pool.init s) es).st := by
  have hkept : ∀ v, v <+: es → Kept protocol s ((machine protocol).run (Pool.init s) v) := by
    rintro v ⟨rest, rfl⟩
    exact kept_run hs (kept_init s) (Machine.Along.append.1 hG).1
  refine ⟨fun v v' hv hv' pid p command id hp hc hres => ?_, (hkept es List.prefix_rfl).serial⟩
  refine (hkept v' hv').gone pid p command id ?_ hc hres
  obtain ⟨between, rfl⟩ := hv
  rw [Machine.run_append]
  exact Machine.run_stays hres hp

instance : ∀ x : Command, Decidable x.Amends
  | .create _ _ => inferInstanceAs (Decidable False)
  | .edit _ | .enable _ | .disable _ | .delete _ => inferInstanceAs (Decidable True)

instance (read : Webhook) (stored : Option Webhook) : ∀ x : Command, Decidable (x.Undisturbed read stored)
  | .edit _ => inferInstanceAs (Decidable (∃ webhook ∈ stored, webhook.isActive = read.isActive))
  | .enable _ | .disable _ => inferInstanceAs (Decidable (∃ webhook ∈ stored,
      webhook.events = read.events ∧ webhook.deliveryUrl = read.deliveryUrl))
  | .create _ _ | .delete _ => inferInstanceAs (Decidable True)

instance (w : CommandPool) : ∀ e : Ev Choice Empty Command, Decidable (Steady w e)
  | .call _ x => inferInstanceAs (Decidable x.Amends)
  | .step pid _ => inferInstanceAs (Decidable (∀ p ∈ w.procs.get pid, p.Running → ∀ r ∈ readBy p.hist,
      p.call.Undisturbed r.1 (w.st.webhooks.get p.call.target)))
  | .env _ => inferInstanceAs (Decidable True)

/-- A repository with one webhook. -/
def oneWebhook : Repositories :=
  ⟨OMap.empty.set "w" ⟨"w", "u", "5ec7e7", "https://a.example/in", ["test"], true, "u", 1, 1⟩, .empty⟩

theorem keyed_oneWebhook : Keyed oneWebhook := by
  intro id webhook h
  simp only [oneWebhook, OMap.get_set] at h
  split at h
  · cases h
    assumption
  · cases h

/-- A user who asks for something. -/
def someSession : Session := ⟨⟨"u", ["webhooks/*"]⟩, none, none⟩

/-- Two calls disable the webhook, neither sees the other, and a third one deletes it. -/
def twoDisables : List (Ev Choice Empty Command) :=
  [.call 0 (.disable ⟨someSession, "w"⟩), .call 1 (.disable ⟨someSession, "w"⟩), .step 0 (clock 2 0),
    .step 1 (clock 3 0), .step 0 (clock 4 0), .step 1 (clock 5 0), .call 2 (.delete ⟨someSession, "w"⟩),
    .step 2 (clock 6 0), .step 2 (clock 7 0)]

theorem commands_keep_twoDisables :
    ((machine exampleUrls).run (Pool.init oneWebhook) twoDisables).Quiet ∧
    Serial exampleUrls oneWebhook (((machine exampleUrls).run (Pool.init oneWebhook) twoDisables).tally fun _ p => done p)
      ((machine exampleUrls).run (Pool.init oneWebhook) twoDisables).st :=
  ⟨by decide +kernel, (commands_keep exampleUrls keyed_oneWebhook (by decide +kernel)).2⟩

/-- An edit reads the webhook, a deletion completes, and the edit writes. -/
def lateEdit : List (Ev Choice Empty Command) :=
  [.call 0 (.edit ⟨⟨someSession, "w"⟩, "https://b.example/in", ["test"]⟩), .call 1 (.delete ⟨someSession, "w"⟩),
    .step 0 (clock 2 0), .step 1 (clock 3 0), .step 1 (clock 4 0), .step 0 (clock 5 0)]

/-- **A deleted webhook comes back**: the deletion has completed and the webhook is gone; then it is
stored again, and neither order of the two commands, which both succeeded, leads to that store. -/
theorem commands_undo :
    let edit : Command := .edit ⟨⟨someSession, "w"⟩, "https://b.example/in", ["test"]⟩
    let delete : Command := .delete ⟨someSession, "w"⟩
    let after (n : ℕ) := (machine exampleUrls).run (Pool.init oneWebhook) (lateEdit.take n)
    ((after 5).procs.get 1).bind Proc.result = some (.ok "w") ∧
    ((after 5).st.webhooks.get "w").isNone ∧
    ((after 6).procs.get 0).bind Proc.result = some (.ok "w") ∧ (after 6).Quiet ∧
    ((after 6).st.webhooks.get "w").map Webhook.deliveryUrl = some "https://b.example/in" ∧
    ∀ order ∈ [[(edit, clock 2), (delete, clock 3)], [(delete, clock 3), (edit, clock 2)]],
      (((machine exampleUrls).series oneWebhook order).webhooks.get "w").isNone := by
  decide +kernel

end NodeToolkit.Webhooks
