import NodeToolkit.Proof.Delivery

/-!
# Overlapping deliveries

Any number of calls that send, send to many and retry, interleaved in any order of
their steps. `CanRetryOutboxEvent` is true of a pending record, so the retry job may
POST a record whose first POST is still on its way, and each of the two calls then
writes back what it made of its own copy.

* `Exclusive`: the POST steps that do not do this.
* `Sound`: the invariant of runs of such steps (`sound_run`).
* `overlap_safe`: in these runs a delivered record stays delivered and is not
  POSTed again, no record is POSTed more than seven times, and with no call in
  flight the tries of a record are the POSTs made for it.
* `overlap_undoes_delivery`: a run where they fail.
-/

namespace NodeToolkit.Outbox

open Async

/-- The calls made so far, with the outbox. -/
abbrev World : Type := Pool Resp Outbox Call Reply

/-- One call. -/
abbrev Task : Type := Proc Resp Call Reply

/-- Where a call is. -/
def phase (p : Task) : Phase := protocol.after p.call.start p.hist

/-- The ids generated for a call. -/
def Call.newIds (x : Call) : List String := x.created.map OutboxEvent.id

/-- The record that call `q` has POSTed and not written back. -/
def Flies (w : World) (q : ℕ) (r : OutboxEvent) : Prop :=
  ∃ p, w.procs.get q = some p ∧ (phase p).flying = some r

/-- The id was generated for call `q`. -/
def Owns (w : World) (q : ℕ) (id : String) : Prop := ∃ p, w.procs.get q = some p ∧ id ∈ p.call.newIds

/-- The records that call `q` is about to store. -/
def Creates (w : World) (q : ℕ) (rs : List OutboxEvent) : Prop :=
  ∃ p now, w.procs.get q = some p ∧ phase p = .creating rs now

/-- A new call gets ids that no call had before. -/
def FreshIds (w : World) : Ev Choice Empty Call → Prop
  | .call _ x => x.newIds.Nodup ∧ ∀ q, ∀ id ∈ x.newIds, ¬ Owns w q id
  | _ => True

/-- **No overlap.** A POST is only made for a record that is stored just as the call holds it, and
that no call has POSTed and not yet written back. -/
def Exclusive (w : World) : Ev Choice Empty Call → Prop
  | .step pid _ => ∀ p r post, w.procs.get pid = some p → p.pending = some (.post r post) →
      w.st.map.get r.id = some r ∧ ∀ q r', Flies w q r' → r'.id ≠ r.id
  | _ => True

/-- The call has written a successful answer back to the record. -/
def WroteBack (id : String) (h : Hist Resp) : Prop :=
  ∃ (a : Answer) (r : OutboxEvent) (n : ℕ), [⟨.answer, a⟩, ⟨.update r, n⟩] <:+: h ∧
    (a.status = 200 ∨ a.status = 201) ∧ r.id = id

/-- Call `q` has written a successful answer back to the record. -/
def Wrote (w : World) (q : ℕ) (id : String) : Prop := ∃ p, w.procs.get q = some p ∧ WroteBack id p.hist

/-- The tries of a stored record. -/
def triesOf (s : Outbox) (id : String) : ℕ := ((s.map.get id).map OutboxEvent.tries).getD 0

/-! ## Histories -/

section Hist

variable {h : Hist Resp} {c : Cmd} {a : Resp c} {ph : Phase} {id : String}

theorem after_snoc : protocol.after ph (h ++ [⟨c, a⟩]) = (protocol.after ph h).next c a :=
  Protocol.after_snoc ..

/-- After an answer is the only place to write back. -/
theorem answer_suffix {x : Call} {r : OutboxEvent} {held : List OutboxEvent} {answer : Answer}
    (hp : protocol.after x.start h = .answered r answer held) : [⟨.answer, answer⟩] <:+ h := by
  rcases List.eq_nil_or_concat h with rfl | ⟨h', e, rfl⟩
  · cases x <;> cases hp
  · obtain ⟨c, a⟩ := e
    rw [List.concat_eq_append] at hp ⊢
    rw [after_snoc] at hp
    have hce : (⟨c, a⟩ : Σ c : Cmd, Resp c) = ⟨.answer, answer⟩ := by
      generalize protocol.after x.start h' = ph at hp
      unfold Phase.next at hp
      split at hp <;> cases hp
      rfl
    rw [hce]
    exact List.suffix_append ..

theorem wroteBack_snoc (e : Σ c : Cmd, Resp c) : WroteBack id (h ++ [e]) ↔ WroteBack id h ∨
    ∃ (a : Answer) (r : OutboxEvent) (n : ℕ), e = ⟨.update r, n⟩ ∧ [⟨.answer, a⟩] <:+ h ∧
      (a.status = 200 ∨ a.status = 201) ∧ r.id = id := by
  unfold WroteBack
  constructor
  · rintro ⟨a, r, n, hin, hok, hid⟩
    rcases List.infix_concat_iff.1 hin with hin | hin
    · rcases List.suffix_concat_iff.1 hin with hnil | ⟨t, ht, hs⟩
      · cases hnil
      · have ht' : [(⟨.answer, a⟩ : Σ c : Cmd, Resp c)] ++ [⟨.update r, n⟩] = t ++ [e] := ht
        obtain ⟨rfl, he⟩ := List.append_inj' ht' rfl
        exact Or.inr ⟨a, r, n, (List.cons.inj he).1.symm, hs, hok, hid⟩
    · exact Or.inl ⟨a, r, n, hin, hok, hid⟩
  · rintro (⟨a, r, n, hin, hok, hid⟩ | ⟨a, r, n, rfl, hs, hok, hid⟩)
    · exact ⟨a, r, n, List.infix_concat_iff.2 (Or.inr hin), hok, hid⟩
    · obtain ⟨t, rfl⟩ := hs
      exact ⟨a, r, n, ⟨t, [], by simp⟩, hok, hid⟩

theorem not_wroteBack_nil : ¬ WroteBack id [] := by
  rintro ⟨a, r, n, hin, -⟩
  exact absurd (List.infix_nil.1 hin) (by simp)

end Hist

section Start

theorem phase_start (x : Call) (q : Client Reply) : phase ⟨x, [], q⟩ = x.start := rfl

theorem flying_start (x : Call) : x.start.flying = none := by cases x <;> rfl

theorem created_of_start {x : Call} {rs : List OutboxEvent} {n : ℕ} (h : x.start = .creating rs n) :
    rs = x.created := by
  cases x with
  | send webhook event isTest id now => exact (Phase.creating.inj h).1.symm
  | sendBatch webhooks event isTest now => exact (Phase.creating.inj h).1.symm
  | retry outbox now => cases h
  | job => cases h

end Start

/-! ## One step, seen from all calls -/

section Step

variable {hmac : String → String → String} {w : World} {pid : ℕ} {p : Task} {i : Choice} {c : Cmd}
  {k : Resp c → Client Reply} {x : Call} {q : ℕ} {r : OutboxEvent} {rs : List OutboxEvent} {id : String}

theorem flies_self (hp : w.procs.get pid = some p) : Flies w pid r ↔ (phase p).flying = some r := by
  simp [Flies, hp]

/-- The phase of a call after a command. -/
theorem phase_advance (q : Client Reply) (a : Resp c) :
    phase ⟨p.call, p.hist ++ [⟨c, a⟩], q⟩ = (phase p).next c a := after_snoc

theorem owns_begin (hn : w.procs.get pid = none) :
    Owns ((machine hmac).begin w pid x) q id ↔ Owns w q id ∨ q = pid ∧ id ∈ x.newIds := by
  constructor
  · rintro ⟨p, hq, hid⟩
    rcases Machine.begin_cases hq with ⟨rfl, rfl⟩ | ⟨-, hq⟩
    · exact Or.inr ⟨rfl, hid⟩
    · exact Or.inl ⟨p, hq, hid⟩
  · rintro (⟨p, hq, hid⟩ | ⟨rfl, hid⟩)
    · exact ⟨p, Machine.begin_stays hn hq, hid⟩
    · exact ⟨_, OMap.get_set_self .., hid⟩

theorem flies_begin (hn : w.procs.get pid = none) :
    Flies ((machine hmac).begin w pid x) q r ↔ Flies w q r := by
  constructor
  · rintro ⟨p, hq, hf⟩
    rcases Machine.begin_cases hq with ⟨rfl, rfl⟩ | ⟨-, hq⟩
    · rw [phase_start, flying_start] at hf; cases hf
    · exact ⟨p, hq, hf⟩
  · rintro ⟨p, hq, hf⟩
    exact ⟨p, Machine.begin_stays hn hq, hf⟩

theorem creates_begin (h : Creates ((machine hmac).begin w pid x) q rs) :
    Creates w q rs ∨ q = pid ∧ rs = x.created := by
  obtain ⟨p, n, hq, hph⟩ := h
  rcases Machine.begin_cases hq with ⟨rfl, rfl⟩ | ⟨-, hq⟩
  · exact Or.inr ⟨rfl, created_of_start hph⟩
  · exact Or.inl ⟨p, n, hq, hph⟩

theorem wrote_begin (h : Wrote ((machine hmac).begin w pid x) q id) : Wrote w q id := by
  obtain ⟨p, hq, hw⟩ := h
  rcases Machine.begin_cases hq with ⟨rfl, rfl⟩ | ⟨-, hq⟩
  · exact absurd hw not_wroteBack_nil
  · exact ⟨p, hq, hw⟩

theorem owns_advance (hp : w.procs.get pid = some p) :
    Owns ((machine hmac).advance w pid i p c k) q id ↔ Owns w q id := by
  unfold Owns
  by_cases hq : q = pid
  · rw [hq, Machine.get_advance_self, hp]
    simp
  · rw [Machine.get_advance_ne hq]

theorem flies_advance : Flies ((machine hmac).advance w pid i p c k) q r ↔
    q = pid ∧ ((phase p).next c (exec i w.st c).2).flying = some r ∨ q ≠ pid ∧ Flies w q r := by
  unfold Flies
  by_cases hq : q = pid
  · rw [hq, Machine.get_advance_self]
    simp [phase_advance, machine]
  · rw [Machine.get_advance_ne hq]
    simp [hq]

theorem creates_advance (h : Creates ((machine hmac).advance w pid i p c k) q rs) :
    (q = pid ∧ ∃ n, (phase p).next c (exec i w.st c).2 = .creating rs n) ∨ q ≠ pid ∧ Creates w q rs := by
  obtain ⟨p', n, hq, hph⟩ := h
  rcases Machine.advance_cases hq with ⟨rfl, rfl⟩ | ⟨hne, hq⟩
  · rw [phase_advance] at hph
    exact Or.inl ⟨rfl, n, hph⟩
  · exact Or.inr ⟨hne, p', n, hq, hph⟩

/-- A write-back is an update after an answer. -/
theorem wrote_advance (hp : w.procs.get pid = some p)
    (h : Wrote ((machine hmac).advance w pid i p c k) q id) : Wrote w q id ∨
      q = pid ∧ ∃ (a : Answer) (r : OutboxEvent), c = .update r ∧ [⟨.answer, a⟩] <:+ p.hist ∧
        (a.status = 200 ∨ a.status = 201) ∧ r.id = id := by
  obtain ⟨p', hq, hw⟩ := h
  rcases Machine.advance_cases hq with ⟨rfl, rfl⟩ | ⟨-, hq⟩
  · rcases (wroteBack_snoc _).1 hw with hw | ⟨a, r, n, he, hs, hok, hid⟩
    · exact Or.inl ⟨p, hp, hw⟩
    · exact Or.inr ⟨rfl, a, r, congrArg Sigma.fst he, hs, hok, hid⟩
  · exact Or.inl ⟨p', hq, hw⟩

end Step

/-! ## The invariant -/

/-- **What exclusive runs keep**: a record whose POST is on its way is stored as it was POSTed, open,
and was POSTed once more than it says; of any other record the tries are the POSTs. -/
structure Sound (w : World) : Prop where
  obeys : w.Obeys (fun _ => protocol) Call.start
  apart : ∀ q q' id, Owns w q id → Owns w q' id → q = q'
  stored : ∀ id r, w.st.map.get id = some r → r.id = id ∧ Valid r ∧ ∃ q, Owns w q id
  unborn : ∀ q rs, Creates w q rs → (rs.map OutboxEvent.id).Nodup ∧
    ∀ r ∈ rs, Valid r ∧ r.tries = 0 ∧ Owns w q r.id ∧ w.st.map.get r.id = none
  flight : ∀ q r, Flies w q r →
    w.st.map.get r.id = some r ∧ Open r ∧ w.st.postsOf r.id = r.tries + 1
  single : ∀ q q' r r', Flies w q r → Flies w q' r' → r.id = r'.id → q = q'
  rest : ∀ id, (∀ q r, Flies w q r → r.id ≠ id) → w.st.postsOf id = triesOf w.st id
  written : ∀ q id, Wrote w q id → ∃ r, w.st.map.get id = some r ∧ r.status = .delivered

theorem sound_init : Sound (Pool.init .empty) where
  obeys := Pool.obeys_init _ _ _
  apart q q' id h := by obtain ⟨p, hp, -⟩ := h; simp [Pool.init] at hp
  stored id r h := by simp [Pool.init, Outbox.empty] at h
  unborn q rs h := by obtain ⟨p, n, hp, -⟩ := h; simp [Pool.init] at hp
  flight q r h := by obtain ⟨p, hp, -⟩ := h; simp [Pool.init] at hp
  single q q' r r' h := by obtain ⟨p, hp, -⟩ := h; simp [Pool.init] at hp
  rest id _ := by simp [Pool.init, Outbox.empty, postsOf, triesOf]
  written q id h := by obtain ⟨p, hp, -⟩ := h; simp [Pool.init] at hp

section Keeps

variable {hmac : String → String → String} {w : World} {pid : ℕ} {p : Task} {i : Choice} {c : Cmd}
  {k : Resp c → Client Reply} {x : Call} {r : OutboxEvent} {held : List OutboxEvent} {n : ℕ}

/-- A stored record and a record not yet stored are different. -/
theorem Sound.ne_of_stored (hS : Sound w) {q : ℕ} {rs : List OutboxEvent} (hc : Creates w q rs) {id : String}
    (hget : w.st.map.get id = some r) : ∀ r' ∈ rs, r'.id ≠ id := by
  intro r' hr' he
  have hnone := ((hS.unborn q rs hc).2 r' hr').2.2.2
  rw [he, hget] at hnone
  cases hnone

/-- A call starts. -/
theorem Sound.begin (hS : Sound w) (hnew : FreshIds w (.call pid x)) (hn : w.procs.get pid = none) :
    Sound ((machine hmac).begin w pid x) where
  obeys := Machine.begin_obeys hS.obeys pid (prog_follows x)
  apart q q' id h h' := by
    rcases (owns_begin hn).1 h with hold | ⟨hq, hmem⟩
    · rcases (owns_begin hn).1 h' with hold' | ⟨-, hmem'⟩
      · exact hS.apart q q' id hold hold'
      · exact absurd hold (hnew.2 q id hmem')
    · rcases (owns_begin hn).1 h' with hold' | ⟨hq', -⟩
      · exact absurd hold' (hnew.2 q' id hmem)
      · exact hq.trans hq'.symm
  stored id r h := by
    obtain ⟨hid, hv, q, hown⟩ := hS.stored id r h
    exact ⟨hid, hv, q, (owns_begin hn).2 (Or.inl hown)⟩
  unborn q rs h := by
    rcases creates_begin h with h | ⟨rfl, rfl⟩
    · obtain ⟨hnd, hrs⟩ := hS.unborn q rs h
      refine ⟨hnd, fun r hr => ?_⟩
      obtain ⟨hv, ht, hown, hnone⟩ := hrs r hr
      exact ⟨hv, ht, (owns_begin hn).2 (Or.inl hown), hnone⟩
    · refine ⟨hnew.1, fun r hr => ?_⟩
      obtain ⟨hv, -, ht⟩ := created_valid r hr
      have hid : r.id ∈ x.newIds := List.mem_map_of_mem hr
      refine ⟨hv, ht, (owns_begin hn).2 (Or.inr ⟨rfl, hid⟩), ?_⟩
      -- a stored record belongs to an earlier call
      cases hg : w.st.map.get r.id with
      | none => exact hg
      | some r' =>
        obtain ⟨-, -, q', hown⟩ := hS.stored r.id r' hg
        exact absurd hown (hnew.2 q' r.id hid)
  flight q r h := hS.flight q r ((flies_begin hn).1 h)
  single q q' r r' h h' := hS.single q q' r r' ((flies_begin hn).1 h) ((flies_begin hn).1 h')
  rest id h := hS.rest id fun q r hf => h q r ((flies_begin hn).2 hf)
  written q id h := hS.written q id (wrote_begin h)

/-- The command the protocol allows. -/
theorem Sound.may (hS : Sound w) (hp : w.procs.get pid = some p) (hr : p.rest = .await c k) :
    (phase p).may c := by
  have h := hS.obeys pid p hp
  rw [hr] at h
  exact h.1

/-- What a step must keep of the records. -/
theorem Sound.keep (hS : Sound w) (hp : w.procs.get pid = some p) (hr : p.rest = .await c k) {w' : World}
    (hw' : w' = (machine hmac).advance w pid i p c k)
    (hstored : ∀ id r, w'.st.map.get id = some r → r.id = id ∧ Valid r ∧ ∃ q, Owns w q id)
    (hunborn : ∀ q rs, Creates w' q rs → (rs.map OutboxEvent.id).Nodup ∧
      ∀ r ∈ rs, Valid r ∧ r.tries = 0 ∧ Owns w q r.id ∧ w'.st.map.get r.id = none)
    (hflight : ∀ q r, Flies w' q r → w'.st.map.get r.id = some r ∧ Open r ∧ w'.st.postsOf r.id = r.tries + 1)
    (hsingle : ∀ q q' r r', Flies w' q r → Flies w' q' r' → r.id = r'.id → q = q')
    (hrest : ∀ id, (∀ q r, Flies w' q r → r.id ≠ id) → w'.st.postsOf id = triesOf w'.st id)
    (hwritten : ∀ q id, Wrote w' q id → ∃ r, w'.st.map.get id = some r ∧ r.status = .delivered) :
    Sound w' := by
  -- no step changes whose ids are whose
  have howns : ∀ q id, Owns w' q id ↔ Owns w q id := fun q id => by rw [hw', owns_advance hp]
  refine ⟨?_, fun q q' id h h' => ?_, ?_, ?_, hflight, hsingle, hrest, hwritten⟩
  · rw [hw']
    exact Machine.advance_obeys hS.obeys i hp hr
  · exact hS.apart q q' id ((howns q id).1 h) ((howns q' id).1 h')
  · simpa only [howns] using hstored
  · simpa only [howns] using hunborn

/-- **A step that changes no record and makes no POST**, and after which the call has the same
record on its way. -/
theorem Sound.silent (hS : Sound w) (hp : w.procs.get pid = some p) (hr : p.rest = .await c k)
    (hmap : (exec i w.st c).1.map = w.st.map) (hposts : (exec i w.st c).1.posts = w.st.posts)
    (hfly : ((phase p).next c (exec i w.st c).2).flying = (phase p).flying)
    (hborn : ∀ rs n, (phase p).next c (exec i w.st c).2 ≠ .creating rs n) (hupd : ∀ r, c ≠ .update r) :
    Sound ((machine hmac).advance w pid i p c k) := by
  have hmap' : ((machine hmac).advance w pid i p c k).st.map = w.st.map := hmap
  have hposts' : ∀ id, ((machine hmac).advance w pid i p c k).st.postsOf id = w.st.postsOf id := fun id =>
    congrArg (fun l => l.countP fun e => decide (e.1 = id)) hposts
  have hflies : ∀ q r, Flies ((machine hmac).advance w pid i p c k) q r ↔ Flies w q r := by
    intro q r
    rw [flies_advance, hfly]
    by_cases hq : q = pid
    · simp [hq, flies_self hp]
    · simp [hq]
  refine hS.keep hp hr rfl (fun id r h => ?_) (fun q rs h => ?_) (fun q r h => ?_)
    (fun q q' r r' h h' => ?_) (fun id h => ?_) fun q id h => ?_
  · rw [hmap'] at h
    exact hS.stored id r h
  · rcases creates_advance h with ⟨-, n, h⟩ | ⟨-, h⟩
    · exact absurd h (hborn rs n)
    · rw [hmap']
      exact hS.unborn q rs h
  · rw [hmap', hposts']
    exact hS.flight q r ((hflies q r).1 h)
  · exact hS.single q q' r r' ((hflies q r).1 h) ((hflies q' r').1 h')
  · rw [hposts', triesOf, hmap']
    exact hS.rest id fun q r hf => h q r ((hflies q r).2 hf)
  · rw [hmap']
    rcases wrote_advance hp h with h | ⟨-, a, r, hc, -⟩
    · exact hS.written q id h
    · exact absurd hc (hupd r)

/-! ### Storing new records -/

/-- `createBatch`. -/
def store (m : OMap String OutboxEvent) (rs : List OutboxEvent) : OMap String OutboxEvent :=
  rs.foldl (fun m event => m.set event.id event) m

theorem get_store_of_not_mem {rs : List OutboxEvent} {id : String} (h : ∀ r ∈ rs, r.id ≠ id) :
    ∀ {m : OMap String OutboxEvent}, (store m rs).get id = m.get id := by
  induction rs with
  | nil => exact rfl
  | cons r rs ih =>
    intro m
    have hrest := ih (fun r' hr' => h r' (by simp [hr'])) (m := m.set r.id r)
    exact hrest.trans (OMap.get_set_ne _ _ (h r (by simp)))

theorem get_store_of_mem {rs : List OutboxEvent} (hnd : (rs.map OutboxEvent.id).Nodup) (hr : r ∈ rs) :
    ∀ {m : OMap String OutboxEvent}, (store m rs).get r.id = some r := by
  induction rs with
  | nil => cases hr
  | cons r' rs ih =>
    intro m
    rw [List.map_cons, List.nodup_cons] at hnd
    rcases List.mem_cons.1 hr with rfl | htail
    · have hrest : ∀ r' ∈ rs, r'.id ≠ r.id := fun r' hr' he => hnd.1 (List.mem_map.2 ⟨r', hr', he⟩)
      exact (get_store_of_not_mem hrest).trans (OMap.get_set_self ..)
    · exact ih hnd.2 htail

/-- New records are stored. -/
theorem Sound.create (hS : Sound w) (hp : w.procs.get pid = some p) (hr : p.rest = .await c k)
    {rs : List OutboxEvent} {n' : ℕ} (hph : phase p = .creating rs n)
    (hmap : (exec i w.st c).1.map = store w.st.map rs) (hposts : (exec i w.st c).1.posts = w.st.posts)
    (hnext : (phase p).next c (exec i w.st c).2 = .holding rs n') (hupd : ∀ r, c ≠ .update r) :
    Sound ((machine hmac).advance w pid i p c k) := by
  have hmap' : ((machine hmac).advance w pid i p c k).st.map = store w.st.map rs := hmap
  have hposts' : ∀ id, ((machine hmac).advance w pid i p c k).st.postsOf id = w.st.postsOf id := fun id =>
    congrArg (fun l => l.countP fun e => decide (e.1 = id)) hposts
  have hc : Creates w pid rs := ⟨p, n, hp, hph⟩
  obtain ⟨hnd, hrs⟩ := hS.unborn pid rs hc
  have hflies : ∀ q r, Flies ((machine hmac).advance w pid i p c k) q r ↔ Flies w q r := by
    intro q r
    rw [flies_advance, hnext]
    by_cases hq : q = pid
    · simp [hq, flies_self hp, hph, Phase.flying]
    · simp [hq]
  -- a record stored before is not among the new ones
  have hold : ∀ id r, w.st.map.get id = some r → (store w.st.map rs).get id = some r := fun id r hget =>
    (get_store_of_not_mem (hS.ne_of_stored hc hget)).trans hget
  refine hS.keep hp hr rfl (fun id r h => ?_) (fun q rs' h => ?_) (fun q r h => ?_)
    (fun q q' r r' h h' => ?_) (fun id h => ?_) fun q id h => ?_
  · rw [hmap'] at h
    by_cases hin : ∃ r' ∈ rs, r'.id = id
    · obtain ⟨r', hr', rfl⟩ := hin
      rw [get_store_of_mem hnd hr'] at h
      rw [← Option.some.inj h]
      exact ⟨rfl, (hrs r' hr').1, pid, (hrs r' hr').2.2.1⟩
    · rw [get_store_of_not_mem fun r' hr' he => hin ⟨r', hr', he⟩] at h
      exact hS.stored id r h
  · rcases creates_advance h with ⟨-, n, h⟩ | ⟨hne, h⟩
    · rw [hnext] at h; cases h
    · obtain ⟨hnd', hrs'⟩ := hS.unborn q rs' h
      refine ⟨hnd', fun r hr => ?_⟩
      obtain ⟨hv, ht, hown, hnone⟩ := hrs' r hr
      refine ⟨hv, ht, hown, ?_⟩
      rw [hmap', get_store_of_not_mem, hnone]
      intro r' hr' he
      exact hne (hS.apart q pid r.id hown (he ▸ (hrs r' hr').2.2.1))
  · obtain ⟨hget, ho, hcount⟩ := hS.flight q r ((hflies q r).1 h)
    rw [hmap', hposts']
    exact ⟨hold r.id r hget, ho, hcount⟩
  · exact hS.single q q' r r' ((hflies q r).1 h) ((hflies q' r').1 h')
  · have hrest := hS.rest id fun q r hf => h q r ((hflies q r).2 hf)
    rw [hposts', hrest, triesOf, triesOf, hmap']
    by_cases hin : ∃ r' ∈ rs, r'.id = id
    · obtain ⟨r', hr', rfl⟩ := hin
      rw [get_store_of_mem hnd hr', (hrs r' hr').2.2.2]
      simp [(hrs r' hr').2.1]
    · rw [get_store_of_not_mem fun r' hr' he => hin ⟨r', hr', he⟩]
  · rcases wrote_advance hp h with h | ⟨-, a, r, hc, -⟩
    · obtain ⟨r, hget, hd⟩ := hS.written q id h
      exact ⟨r, by rw [hmap']; exact hold id r hget, hd⟩
    · exact absurd hc (hupd r)

/-! ### A POST and its write-back -/

theorem postsOf_post (s : Outbox) (post : Post) (id : String) :
    (exec i s (.post r post)).1.postsOf id = s.postsOf id + if r.id = id then 1 else 0 := by
  simp [exec, postsOf, List.countP_append, List.countP_cons]

/-- **A POST** under the guard is of a record stored as it is, whose tries are the POSTs so far. -/
theorem Sound.can_post (hS : Sound w) {post : Post} {k : Resp (.post r post) → Client Reply}
    (hp : w.procs.get pid = some p) (hr : p.rest = .await (.post r post) k)
    (hex : Exclusive w (.step pid i)) : w.st.map.get r.id = some r ∧ (∀ q r', Flies w q r' → r'.id ≠ r.id) ∧
      w.st.postsOf r.id = r.tries := by
  obtain ⟨hget, hno⟩ := hex p r post hp (by rw [Proc.pending, hr])
  have hcount : w.st.postsOf r.id = triesOf w.st r.id := hS.rest r.id hno
  exact ⟨hget, hno, by rw [hcount, triesOf, hget]; rfl⟩

/-- **A record is POSTed.** -/
theorem Sound.post (hS : Sound w) {post : Post} {k : Resp (.post r post) → Client Reply}
    (hp : w.procs.get pid = some p) (hr : p.rest = .await (.post r post) k)
    (hph : phase p = .holding (r :: held) n) (hcan : CanRetryOutboxEvent r n)
    (hex : Exclusive w (.step pid i)) : Sound ((machine hmac).advance w pid i p (.post r post) k) := by
  obtain ⟨hget, hno, hcount⟩ := hS.can_post hp hr hex
  have hposts : ∀ id, ((machine hmac).advance w pid i p (.post r post) k).st.postsOf id =
      w.st.postsOf id + if r.id = id then 1 else 0 := postsOf_post w.st post
  have hnext : (phase p).next (.post r post) (exec i w.st (.post r post)).2 = .sent r held := by
    rw [hph]; rfl
  -- now this call, too, has a record on its way
  have hflies : ∀ q r', Flies ((machine hmac).advance w pid i p (.post r post) k) q r' ↔
      q = pid ∧ r = r' ∨ q ≠ pid ∧ Flies w q r' := by
    intro q r'
    rw [flies_advance, hnext]
    simp [Phase.flying]
  refine hS.keep hp hr rfl hS.stored (fun q rs h => ?_) (fun q r' h => ?_)
    (fun q q' r₁ r₂ h h' he => ?_) (fun id h => ?_) fun q id h => ?_
  · rcases creates_advance h with ⟨-, n, h⟩ | ⟨-, h⟩
    · rw [hnext] at h; cases h
    · exact hS.unborn q rs h
  · rcases (hflies q r').1 h with ⟨-, rfl⟩ | ⟨-, hf⟩
    · refine ⟨hget, open_of_canRetry hcan, ?_⟩
      rw [hposts, if_pos rfl, hcount]
    · obtain ⟨hget', ho, hcount'⟩ := hS.flight q r' hf
      refine ⟨hget', ho, ?_⟩
      rw [hposts, if_neg (hno q r' hf).symm, hcount', Nat.add_zero]
  · rcases (hflies q r₁).1 h with ⟨hq, rfl⟩ | ⟨-, hf⟩
    · rcases (hflies q' r₂).1 h' with ⟨hq', -⟩ | ⟨-, hf'⟩
      · exact hq.trans hq'.symm
      · exact absurd he.symm (hno q' r₂ hf')
    · rcases (hflies q' r₂).1 h' with ⟨-, rfl⟩ | ⟨-, hf'⟩
      · exact absurd he (hno q r₁ hf)
      · exact hS.single q q' r₁ r₂ hf hf' he
  · have hne : r.id ≠ id := h pid r ((hflies pid r).2 (Or.inl ⟨rfl, rfl⟩))
    have hrest := hS.rest id fun q r' hf => by
      by_cases hq : q = pid
      · rw [hq, flies_self hp, hph] at hf
        cases hf
      · exact h q r' ((hflies q r').2 (Or.inr ⟨hq, hf⟩))
    rw [hposts, if_neg hne, Nat.add_zero]
    exact hrest
  · rcases wrote_advance hp h with h | ⟨-, a, r, hc, -⟩
    · exact hS.written q id h
    · cases hc

/-- **The outcome is written back.** -/
theorem Sound.update (hS : Sound w) {o : OutboxEvent} {k : Resp (.update o) → Client Reply}
    (hp : w.procs.get pid = some p) (hr : p.rest = .await (.update o) k) {a : Answer}
    (hph : phase p = .answered r a held) (ho : o = outcome r a) :
    Sound ((machine hmac).advance w pid i p (.update o) k) := by
  have hid : o.id = r.id := ho ▸ outcome_id
  have hmap : ((machine hmac).advance w pid i p (.update o) k).st.map = w.st.map.set r.id o := by
    rw [← hid]; rfl
  have hnext : (phase p).next (.update o) (exec i w.st (.update o)).2 = .holding held i.resumed := by
    rw [hph]; rfl
  have hmine : Flies w pid r := (flies_self hp).2 (by rw [hph]; rfl)
  obtain ⟨hget, hopen, hcount⟩ := hS.flight pid r hmine
  -- and the call has no record on its way any more
  have hflies : ∀ q r', Flies ((machine hmac).advance w pid i p (.update o) k) q r' ↔
      q ≠ pid ∧ Flies w q r' := by
    intro q r'
    rw [flies_advance, hnext]
    simp [Phase.flying]
  refine hS.keep hp hr rfl (fun id r' h => ?_) (fun q rs h => ?_) (fun q r' h => ?_)
    (fun q q' r₁ r₂ h h' => ?_) (fun id h => ?_) fun q id h => ?_
  · rw [hmap, OMap.get_set] at h
    obtain ⟨hrid, hv, q, hown⟩ := hS.stored r.id r hget
    split at h
    · rename_i he
      rw [← Option.some.inj h, ← he, ho]
      exact ⟨outcome_id, hv.outcome hopen a, q, hown⟩
    · exact hS.stored id r' h
  · rcases creates_advance h with ⟨-, n, h⟩ | ⟨-, h⟩
    · rw [hnext] at h; cases h
    · obtain ⟨hnd, hrs⟩ := hS.unborn q rs h
      refine ⟨hnd, fun r' hr' => ?_⟩
      obtain ⟨hv, ht, hown, hnone⟩ := hrs r' hr'
      refine ⟨hv, ht, hown, ?_⟩
      rw [hmap, OMap.get_set_ne _ _ (hS.ne_of_stored h hget r' hr').symm, hnone]
  · obtain ⟨hne, hf⟩ := (hflies q r').1 h
    obtain ⟨hget', hopen', hcount'⟩ := hS.flight q r' hf
    have hid' : r.id ≠ r'.id := fun he => hne (hS.single q pid r' r hf hmine he.symm)
    exact ⟨by rw [hmap, OMap.get_set_ne _ _ hid', hget'], hopen', hcount'⟩
  · exact hS.single q q' r₁ r₂ ((hflies q r₁).1 h).2 ((hflies q' r₂).1 h').2
  · rw [triesOf, hmap, OMap.get_set]
    by_cases he : r.id = id
    · -- the POST is now counted
      rw [if_pos he, ← he, ho]
      exact hcount.trans outcome_tries.symm
    · rw [if_neg he]
      refine hS.rest id fun q r' hf => ?_
      by_cases hq : q = pid
      · rw [hq, flies_self hp, hph] at hf
        cases hf
        exact he
      · exact h q r' ((hflies q r').2 ⟨hq, hf⟩)
  · rcases wrote_advance hp h with h | ⟨-, a', r', hc, hsuf, hok, rfl⟩
    · obtain ⟨r', hget', hd⟩ := hS.written q id h
      -- a delivered record is closed, and the one written is open
      have hne : r.id ≠ id := by
        rintro rfl
        rw [hget] at hget'
        cases hget'
        rcases hopen with hs | hs <;> rw [hs] at hd <;> cases hd
      exact ⟨r', by rw [hmap, OMap.get_set_ne _ _ hne, hget'], hd⟩
    · cases hc
      -- the answer written back is the answer the call got
      have ha : a' = a := by
        have hlast := List.suffix_of_suffix_length_le hsuf (answer_suffix hph) le_rfl
        have heq := hlast.eq_of_length rfl
        cases heq
        rfl
      refine ⟨o, by rw [hmap, hid, OMap.get_set_self], ?_⟩
      rw [ho]
      exact outcome_delivered (ha ▸ hok)

/-- **A call goes on.** -/
theorem Sound.advance (hS : Sound w) (hp : w.procs.get pid = some p) (hr : p.rest = .await c k)
    (hex : Exclusive w (.step pid i)) : Sound ((machine hmac).advance w pid i p c k) := by
  rcases Phase.may_cases (hS.may hp hr) with ⟨rs, now, hph, rfl | ⟨r, rfl, rfl⟩⟩ | ⟨hph, rfl⟩ |
    ⟨r, held, now, post, hph, rfl, hcan⟩ | ⟨r, held, hph, rfl⟩ | ⟨r, a, held, hph, rfl⟩
  · exact hS.create hp hr hph rfl rfl (by rw [hph]; rfl) (by simp)
  · exact hS.create hp hr hph rfl rfl (by rw [hph]; rfl) (by simp)
  · exact hS.silent hp hr rfl rfl (by rw [hph]; rfl) (by rw [hph]; simp [Phase.next]) (by simp)
  · exact hS.post hp hr hph hcan hex
  · exact hS.silent hp hr rfl rfl (by rw [hph]; rfl) (by rw [hph]; simp [Phase.next]) (by simp)
  · exact hS.update hp hr hph rfl

/-- **Every exclusive run keeps the invariant.** -/
theorem sound_run {es : List (Ev Choice Empty Call)} (hS : Sound w) (hnew : (machine hmac).Along FreshIds w es)
    (hex : (machine hmac).Along Exclusive w es) : Sound ((machine hmac).run w es) :=
  Machine.run_inv (fun _ _ _ hS hG hn => hS.begin hG.1 hn) (fun _ _ _ _ _ _ hS hG hp hr => hS.advance hp hr hG.2)
    (fun _ v => v.elim) hS (hnew.and hex)

/-! ## Stored records -/

/-- **What a step does to a stored record**: nothing, or, to an open one, a POST or its outcome. -/
theorem Sound.record_step (hS : Sound w) (hp : w.procs.get pid = some p) (hr : p.rest = .await c k)
    (hex : Exclusive w (.step pid i)) {id : String} (hget : w.st.map.get id = some r) :
    (exec i w.st c).1.map.get id = some r ∧ (exec i w.st c).1.postsOf id = w.st.postsOf id ∨
    Open r ∧ ((exec i w.st c).1.map.get id = some r ∨
      ∃ a, (exec i w.st c).1.map.get id = some (outcome r a)) := by
  have hid := (hS.stored id r hget).1
  rcases Phase.may_cases (hS.may hp hr) with ⟨rs, now, hph, rfl | ⟨r', rfl, rfl⟩⟩ | ⟨hph, rfl⟩ |
    ⟨r', held, now, post, hph, rfl, hcan⟩ | ⟨r', held, hph, rfl⟩ | ⟨r', a, held, hph, rfl⟩
  · have hne := hS.ne_of_stored ⟨p, now, hp, hph⟩ hget
    exact Or.inl ⟨(get_store_of_not_mem hne).trans hget, rfl⟩
  · have hne := hS.ne_of_stored ⟨p, now, hp, hph⟩ hget
    exact Or.inl ⟨(get_store_of_not_mem hne).trans hget, rfl⟩
  · exact Or.inl ⟨hget, rfl⟩
  · -- a POST counts for its own record only
    by_cases he : r'.id = id
    · have hget' := (hS.can_post hp hr hex).1
      rw [he, hget] at hget'
      cases hget'
      exact Or.inr ⟨open_of_canRetry hcan, Or.inl hget⟩
    · refine Or.inl ⟨hget, ?_⟩
      rw [postsOf_post, if_neg he, Nat.add_zero]
  · exact Or.inl ⟨hget, rfl⟩
  · obtain ⟨hget', hopen, -⟩ := hS.flight pid r' ((flies_self hp).2 (by rw [hph]; rfl))
    by_cases he : r'.id = id
    · rw [he, hget] at hget'
      cases hget'
      refine Or.inr ⟨hopen, Or.inr ⟨a, ?_⟩⟩
      rw [← hid, ← outcome_id (r := r) (a := a)]
      exact OMap.get_set_self ..
    · exact Or.inl ⟨(OMap.get_set_ne _ _ fun h => he (outcome_id.symm.trans h)).trans hget, rfl⟩

/-- A record is never removed, its first try is never changed, and a closed one stays as it is and is
not POSTed. -/
def Persists (id : String) (s s' : Outbox) : Prop :=
  ∀ r, s.map.get id = some r → ∃ r', s'.map.get id = some r' ∧
    (∀ first, r.firstTryAt = some first → r'.firstTryAt = some first) ∧
    (¬ Open r → r' = r ∧ s'.postsOf id = s.postsOf id)

theorem Persists.trans {id : String} {s s' s'' : Outbox} (h : Persists id s s') (h' : Persists id s' s'') :
    Persists id s s'' := by
  intro r hget
  obtain ⟨r', hget', hfirst, hclosed⟩ := h r hget
  obtain ⟨r'', hget'', hfirst', hclosed'⟩ := h' r' hget'
  refine ⟨r'', hget'', fun first hf => hfirst' first (hfirst first hf), fun hno => ?_⟩
  obtain ⟨rfl, hposts⟩ := hclosed hno
  obtain ⟨rfl, hposts'⟩ := hclosed' hno
  exact ⟨rfl, hposts'.trans hposts⟩

theorem Sound.persists_step (hS : Sound w) (hp : w.procs.get pid = some p) (hr : p.rest = .await c k)
    (hex : Exclusive w (.step pid i)) (id : String) : Persists id w.st (exec i w.st c).1 := by
  intro r hget
  rcases hS.record_step hp hr hex hget with ⟨hsame, hposts⟩ | ⟨hopen, hsame | ⟨a, hout⟩⟩
  · exact ⟨r, hsame, fun _ hf => hf, fun _ => ⟨rfl, hposts⟩⟩
  · exact ⟨r, hsame, fun _ hf => hf, fun hno => absurd hopen hno⟩
  · refine ⟨_, hout, fun first hf => ?_, fun hno => absurd hopen hno⟩
    rw [outcome_firstTryAt, hf, Option.getD_some]

/-- **Records persist** in exclusive runs. -/
theorem persists_run {es : List (Ev Choice Empty Call)} (hS : Sound w)
    (hnew : (machine hmac).Along FreshIds w es) (hex : (machine hmac).Along Exclusive w es) (id : String) :
    Persists id w.st ((machine hmac).run w es).st := by
  refine (Machine.run_inv (I := fun w' => Sound w' ∧ Persists id w.st w'.st) ?_ ?_ ?_
    ⟨hS, fun r hget => ⟨r, hget, fun _ hf => hf, fun _ => ⟨rfl, rfl⟩⟩⟩ (hnew.and hex)).2
  · intro w' pid x h hG hn
    exact ⟨h.1.begin hG.1 hn, h.2⟩
  · intro w' pid i p c k h hG hp hr
    exact ⟨h.1.advance hp hr hG.2, h.2.trans (h.1.persists_step hp hr hG.2 id)⟩
  · intro w' v
    exact v.elim

/-! ## Results -/

theorem Sound.posts_le (hS : Sound w) (id : String) : w.st.postsOf id ≤ 7 := by
  by_cases hf : ∃ q r, Flies w q r ∧ r.id = id
  · obtain ⟨q, r, hf, rfl⟩ := hf
    obtain ⟨hget, hopen, hcount⟩ := hS.flight q r hf
    have h6 := (hS.stored r.id r hget).2.1.tries_le_of_open hopen
    omega
  · have hrest := hS.rest id fun q r hq he => hf ⟨q, r, hq, he⟩
    rw [hrest, triesOf]
    cases hget : w.st.map.get id with
    | none => exact Nat.zero_le 7
    | some r => exact (hS.stored id r hget).2.1.tries_le

/-- A call with a POST on its way has not returned. -/
theorem Sound.running_of_flies (hS : Sound w) (hp : w.procs.get pid = some p)
    (hf : (phase p).flying = some r) : p.Running := by
  cases hr : p.rest with
  | ret a =>
    have hfin := hS.obeys pid p hp
    rw [hr] at hfin
    have hnone : (phase p).flying = none := hfin
    rw [hnone] at hf
    cases hf
  | await c k => exact Proc.running_of_await hr

theorem Sound.not_flies_of_quiet (hS : Sound w) (hq : w.Quiet) (q : ℕ) : ¬ Flies w q r := by
  rintro ⟨p, hp, hf⟩
  exact hq q p hp (hS.running_of_flies hp hf)

/-- **The tries are the POSTs**, but for a POST on its way. -/
theorem Sound.tries_cases (hS : Sound w) {id : String} (hget : w.st.map.get id = some r) :
    (∃ q, Flies w q r) ∧ w.st.postsOf id = r.tries + 1 ∨ (∀ q, ¬ Flies w q r) ∧ w.st.postsOf id = r.tries := by
  have hid := (hS.stored id r hget).1
  by_cases hf : ∃ q, Flies w q r
  · obtain ⟨q, hq⟩ := hf
    have hcount := (hS.flight q r hq).2.2
    rw [hid] at hcount
    exact Or.inl ⟨⟨q, hq⟩, hcount⟩
  · have hno : ∀ q r', Flies w q r' → r'.id ≠ id := by
      rintro q r' hq rfl
      have hget' := (hS.flight q r' hq).1
      rw [hget] at hget'
      cases hget'
      exact hf ⟨q, hq⟩
    have hcount := hS.rest id hno
    rw [triesOf, hget] at hcount
    exact Or.inr ⟨fun q hq => hf ⟨q, hq⟩, hcount⟩

theorem Sound.tries_of_quiet (hS : Sound w) (hq : w.Quiet) {id : String} (hget : w.st.map.get id = some r) :
    r.tries = w.st.postsOf id := by
  rcases hS.tries_cases hget with ⟨⟨q, hf⟩, -⟩ | ⟨-, hcount⟩
  · exact absurd hf (hS.not_flies_of_quiet hq q)
  · exact hcount.symm

/-- What is asked of a record, from a moment `w₁` of a run to a later one `w₂`. -/
def Safe (id : String) (w₁ w₂ : World) : Prop :=
  (∀ q, Wrote w₁ q id → (∃ r, w₂.st.map.get id = some r ∧ r.status = .delivered) ∧
    w₂.st.postsOf id = w₁.st.postsOf id) ∧
  w₂.st.postsOf id ≤ 7 ∧
  (w₂.Quiet → ∀ r, w₂.st.map.get id = some r → r.tries = w₂.st.postsOf id)

end Keeps

/-- **Delivery is safe without overlap.** In every interleaving whose POSTs are exclusive, a record with
a successful answer written back is delivered for good and not POSTed again, no record is POSTed more
than seven times, and with no call in flight the tries are the POSTs. -/
theorem overlap_safe (hmac : String → String → String) (es₁ es₂ : List (Ev Choice Empty Call))
    (hnew : (machine hmac).Along FreshIds (Pool.init .empty) (es₁ ++ es₂))
    (hex : (machine hmac).Along Exclusive (Pool.init .empty) (es₁ ++ es₂)) (id : String) :
    let w₁ := (machine hmac).run (Pool.init .empty) es₁
    Safe id w₁ ((machine hmac).run w₁ es₂) := by
  intro w₁
  obtain ⟨hnew₁, hnew₂⟩ := Machine.Along.append.1 hnew
  obtain ⟨hex₁, hex₂⟩ := Machine.Along.append.1 hex
  have hS₁ : Sound w₁ := sound_run sound_init hnew₁ hex₁
  have hS₂ : Sound ((machine hmac).run w₁ es₂) := sound_run hS₁ hnew₂ hex₂
  refine ⟨fun q hw => ?_, hS₂.posts_le id, fun hq r hget => hS₂.tries_of_quiet hq hget⟩
  obtain ⟨r, hget, hd⟩ := hS₁.written q id hw
  have hclosed : ¬ Open r := by rintro (h | h) <;> rw [h] at hd <;> cases hd
  obtain ⟨r', hget', -, hstay⟩ := persists_run hS₁ hnew₂ hex₂ id r hget
  obtain ⟨rfl, hposts⟩ := hstay hclosed
  exact ⟨⟨r', hget', hd⟩, hposts⟩

/-! ## A run with a retry, and a run that overlaps -/

/-- The ids generated at an event. -/
def idsAt : Ev Choice Empty Call → List String
  | .call _ x => x.newIds
  | _ => []

/-- Only the first call generates ids. -/
theorem freshIds_of_first {hmac : String → String → String} {pid : ℕ} {x : Call}
    {es : List (Ev Choice Empty Call)} (hnd : x.newIds.Nodup) (h : ∀ e ∈ es, idsAt e = []) :
    (machine hmac).Along FreshIds (Pool.init .empty) (.call pid x :: es) := by
  refine ⟨⟨hnd, fun q id _ ho => ?_⟩, Machine.Along.of_mem fun e he w => ?_⟩
  · obtain ⟨p, hp, -⟩ := ho
    simp [Pool.init] at hp
  · have hids := h e he
    cases e with
    | call pid x =>
      have hx : x.newIds = [] := hids
      exact ⟨by simp [hx], by simp [hx]⟩
    | step pid i => exact trivial
    | env v => exact v.elim

theorem exclusive_idle {w : World} {pid : ℕ} {i : Choice} {c : Cmd}
    (h : (w.procs.get pid).bind Proc.pending = some c) (hc : ∀ r post, c ≠ .post r post) :
    Exclusive w (.step pid i) := by
  intro p r post hp hpend
  rw [hp, Option.bind_some, hpend] at h
  exact absurd (Option.some.inj h).symm (hc r post)

theorem exclusive_post {w : World} {pid : ℕ} {i : Choice} {r : OutboxEvent} {post : Post}
    (h : (w.procs.get pid).bind Proc.pending = some (.post r post)) (hget : w.st.map.get r.id = some r)
    (hno : ∀ e ∈ w.procs.entries, (phase e.2).flying = none) : Exclusive w (.step pid i) := by
  intro p r' post' hp hpend
  rw [hp, Option.bind_some, hpend] at h
  cases h
  refine ⟨hget, ?_⟩
  rintro q r'' ⟨p', hp', hf⟩
  rw [hno (q, p') (OMap.get_eq_some.1 hp')] at hf
  cases hf

/-- The world at a moment, with the status of an answer if one is due. -/
def moment (now status : ℕ) : Choice := ⟨now, now, status, .null⟩

/-- A send. -/
def sendOne : Call := .send ⟨"hook", "me", "key", "https://example.com", ["paid"], true, "me", 0, 0⟩
  ⟨"event", 0, "paid", []⟩ false "id" 0

theorem overlap_safe_retried :
    let es₁ : List (Ev Choice Empty Call) := [.call 0 sendOne, .step 0 (moment 0 0), .step 0 (moment 0 0),
      .step 0 (moment 1 500), .step 0 (moment 1 0), .call 1 .job, .step 1 (moment 300001 0),
      .step 1 (moment 300001 0), .step 1 (moment 300002 200), .step 1 (moment 300002 0)]
    let es₂ : List (Ev Choice Empty Call) := [.call 2 .job, .step 2 (moment 600000 0)]
    let w₁ := (machine fun _ _ => "").run (Pool.init .empty) es₁
    Wrote w₁ 1 "id" ∧ w₁.st.postsOf "id" = 2 ∧ Safe "id" w₁ ((machine fun _ _ => "").run w₁ es₂) := by
  intro es₁ es₂ w₁
  refine ⟨⟨_, rfl, ⟨200, .null, 300002⟩, _, 300002, ⟨[_, _], [], rfl⟩, Or.inl rfl, rfl⟩, by decide +kernel, ?_⟩
  refine overlap_safe _ es₁ es₂ (freshIds_of_first (by decide) (by decide)) ?_ "id"
  exact ⟨trivial, exclusive_idle rfl (by simp), exclusive_post rfl rfl (by decide +kernel),
    exclusive_idle rfl (by simp), exclusive_idle rfl (by simp), trivial, exclusive_idle rfl (by simp),
    exclusive_post rfl rfl (by decide +kernel), exclusive_idle rfl (by simp), exclusive_idle rfl (by simp),
    trivial, exclusive_idle rfl (by simp), trivial⟩

/-- Seven jobs list and POST the pending record while its first POST is on its way, which then succeeds
and is written back. -/
def overlap₁ : List (Ev Choice Empty Call) :=
  [.call 0 sendOne, .step 0 (moment 0 0), .step 0 (moment 0 0)] ++
    [1, 2, 3, 4, 5, 6, 7].flatMap (fun q => [.call q .job, .step q (moment 1 0), .step q (moment 1 0)]) ++
    [.step 0 (moment 2 200), .step 0 (moment 2 0)]

/-- The other POSTs fail, and five minutes later the job finds a failed record. -/
def overlap₂ : List (Ev Choice Empty Call) :=
  [1, 2, 3, 4, 5, 6, 7].flatMap (fun q => [.step q (moment 3 500), .step q (moment 3 0)]) ++
    [.call 8 .job] ++ List.replicate 4 (.step 8 (moment 300003 500))

theorem overlap_undoes_delivery :
    let w₁ := (machine fun _ _ => "").run (Pool.init .empty) overlap₁
    let w₂ := (machine fun _ _ => "").run w₁ overlap₂
    (machine fun _ _ => "").Along FreshIds (Pool.init .empty) (overlap₁ ++ overlap₂) ∧
      Wrote w₁ 0 "id" ∧ w₁.st.postsOf "id" = 8 ∧ w₂.Quiet ∧ w₂.st.postsOf "id" = 9 ∧
      (w₂.st.map.get "id").map (fun r => (r.status, r.tries)) = some (.failed, 2) ∧ ¬ Safe "id" w₁ w₂ := by
  intro w₁ w₂
  have hposts : w₂.st.postsOf "id" = 9 := by decide +kernel
  have hw : Wrote w₁ 0 "id" := by
    exact ⟨_, rfl, ⟨200, .null, 2⟩, _, 2, ⟨[_, _], [], rfl⟩, Or.inl rfl, rfl⟩
  refine ⟨freshIds_of_first (by decide) (by decide), hw, by decide +kernel, by decide +kernel, hposts,
    by decide +kernel, ?_⟩
  rintro ⟨-, hle, -⟩
  omega

end NodeToolkit.Outbox
