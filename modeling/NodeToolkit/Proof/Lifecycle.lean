import NodeToolkit.Proof.Overlap

/-!
# The life of an outbox event

Calls one after another, with a clock that does not go back: a call starts when none is
in flight, and a retry is given the record as it is stored. Such runs are exclusive, so
they keep `Sound`; in addition the records a call holds are the stored ones, and no time
in a record is ahead of the clock.

* `Sequential`: the events of these runs.
* `Serial`: their invariant (`serial_run`), and `Serial.exclusive`.
* `lifecycle`: what holds of every stored record, which POSTs can be made, and what
  later steps leave as it is.
-/

namespace NodeToolkit.Outbox

open Async

/-- **One call after another.** The job reads the clock only when it lists the records. -/
def Sequential (w : World) : Ev Choice Empty Call → Prop
  | .call _ x => w.Quiet ∧ (x = .job ∨ w.st.clock ≤ x.now) ∧
      ∀ r now, x = .retry r now → w.st.map.get r.id = some r
  | .step _ i => w.st.clock ≤ i.now ∧ i.now ≤ i.resumed
  | .env _ => True

/-- The records that a call has listed or created and not yet dealt with. -/
def Phase.held : Phase → List OutboxEvent
  | holding held _ => held
  | sent outbox held => outbox :: held
  | answered outbox _ held => outbox :: held
  | _ => []

/-- The tries of a record are in order and not ahead of the clock. -/
def Dated (clock : ℕ) (r : OutboxEvent) : Prop :=
  ∀ last, r.lastTryAt = some last → last ≤ clock ∧ ∀ first, r.firstTryAt = some first → first ≤ last

/-- The clock readings a call goes by. -/
def Phase.Timed (clock : ℕ) : Phase → Prop
  | holding _ now => now ≤ clock
  | answered r answer _ => answer.now ≤ clock ∧ ∀ last, r.lastTryAt = some last → last ≤ answer.now
  | _ => True

/-- The records held are those stored. -/
def Phase.Fresh (map : OMap String OutboxEvent) (ph : Phase) : Prop :=
  (ph.held.map OutboxEvent.id).Nodup ∧ ∀ r ∈ ph.held, map.get r.id = some r

section Records

variable {clock clock' : ℕ} {r : OutboxEvent}

theorem Dated.mono (h : Dated clock r) (hle : clock ≤ clock') : Dated clock' r :=
  fun last hl => ⟨(h last hl).1.trans hle, (h last hl).2⟩

theorem Phase.Timed.mono {ph : Phase} (h : ph.Timed clock) (hle : clock ≤ clock') : ph.Timed clock' := by
  cases ph with
  | holding held now => exact h.trans hle
  | answered r answer held => exact ⟨h.1.trans hle, h.2⟩
  | creating rs now => exact trivial
  | listing => exact trivial
  | sent r held => exact trivial

theorem dated_of_untried (hv : Valid r) (h : r.tries = 0) : Dated clock r := by
  intro last hl
  rw [(hv.untried h).2.1] at hl
  cases hl

/-- An answer that came after the last try keeps the order. -/
theorem Dated.outcome (hv : Valid r) (h : Dated clock r) {a : Answer}
    (ha : a.now ≤ clock' ∧ ∀ last, r.lastTryAt = some last → last ≤ a.now) : Dated clock' (outcome r a) := by
  intro last hl
  rw [outcome_lastTryAt] at hl
  cases hl
  refine ⟨ha.1, fun first hf => ?_⟩
  rw [outcome_firstTryAt] at hf
  cases hfirst : r.firstTryAt with
  | none =>
    rw [hfirst] at hf
    exact (Option.some.inj hf).ge
  | some first' =>
    -- a first try comes with a last one
    have htried : 1 ≤ r.tries := by
      by_contra h0
      rw [(hv.untried (by omega)).1] at hfirst
      cases hfirst
    obtain ⟨last', hlast⟩ := Option.isSome_iff_exists.1 (hv.tried htried).2
    rw [hfirst] at hf
    cases hf
    exact ((h last' hlast).2 _ hfirst).trans (ha.2 last' hlast)

end Records

/-- **What sequential runs keep.** -/
structure Serial (w : World) : Prop where
  sound : Sound w
  alone : ∀ q q' p p', w.procs.get q = some p → w.procs.get q' = some p' → p.Running → p'.Running → q = q'
  fresh : ∀ q p, w.procs.get q = some p → p.Running → (phase p).Fresh w.st.map
  timed : ∀ q p, w.procs.get q = some p → (phase p).Timed w.st.clock
  dated : ∀ id r, w.st.map.get id = some r → Dated w.st.clock r

theorem serial_init : Serial (Pool.init .empty) where
  sound := sound_init
  alone q q' p p' h := by simp [Pool.init] at h
  fresh q p h := by simp [Pool.init] at h
  timed q p h := by simp [Pool.init] at h
  dated id r h := by simp [Pool.init, Outbox.empty] at h

section Step

variable {hmac : String → String → String} {w : World} {pid : ℕ} {p : Task} {i : Choice} {c : Cmd}
  {k : Resp c → Client Reply} {x : Call} {r : OutboxEvent} {held : List OutboxEvent}

/-- A call starts. -/
theorem Serial.begin (hS : Serial w) (hnew : FreshIds w (.call pid x)) (hseq : Sequential w (.call pid x))
    (hn : w.procs.get pid = none) : Serial ((machine hmac).begin w pid x) := by
  obtain ⟨hquiet, hnow, hretry⟩ := hseq
  have hclock : w.st.clock ≤ ((machine hmac).begin w pid x).st.clock := Nat.le_max_left ..
  refine ⟨hS.sound.begin hnew hn, fun q q' p p' hq hq' hrun hrun' => ?_, fun q p hq hrun => ?_,
    Machine.begin_all (fun q p hq => (hS.timed q p hq).mono hclock) ?_, fun id r hget => ?_⟩
  · rcases Machine.begin_cases hq with ⟨rfl, -⟩ | ⟨-, hq⟩
    · rcases Machine.begin_cases hq' with ⟨rfl, -⟩ | ⟨-, hq'⟩
      · rfl
      · exact absurd hrun' (hquiet q' p' hq')
    · exact absurd hrun (hquiet q p hq)
  · -- only a retry starts with a record, and it is the stored one
    rcases Machine.begin_cases hq with ⟨rfl, rfl⟩ | ⟨-, hq⟩
    · rw [phase_start]
      cases x with
      | retry r now =>
        refine ⟨List.nodup_singleton _, fun r' hr' => ?_⟩
        rw [List.mem_singleton.1 hr']
        exact hretry r now rfl
      | send webhook event isTest id now => exact ⟨List.nodup_nil, by simp [Call.start, Phase.held]⟩
      | sendBatch webhooks event isTest now => exact ⟨List.nodup_nil, by simp [Call.start, Phase.held]⟩
      | job => exact ⟨List.nodup_nil, by simp [Call.start, Phase.held]⟩
    · exact absurd hrun (hquiet q p hq)
  · rw [phase_start]
    cases x with
    | retry r now => exact Nat.le_max_right ..
    | send webhook event isTest id now => exact trivial
    | sendBatch webhooks event isTest now => exact trivial
    | job => exact trivial
  · exact (hS.dated id r hget).mono hclock

/-- A call that is about to POST holds the record, and found that it can be retried. -/
theorem Sound.posting (hS : Sound w) (hp : w.procs.get pid = some p) {post : Post}
    (hpend : p.pending = some (.post r post)) : p.Running ∧ ∃ held now, phase p = .holding (r :: held) now ∧
      CanRetryOutboxEvent r now := by
  obtain ⟨k, hr⟩ := Proc.await_of_pending hpend
  refine ⟨Proc.running_of_await hr, ?_⟩
  rcases Phase.may_cases (hS.may hp hr) with ⟨rs, now, -, hc | ⟨r', -, hc⟩⟩ | ⟨-, hc⟩ |
    ⟨r', held, now, post', hph, hc, hcan⟩ | ⟨r', held, -, hc⟩ | ⟨r', a, held, -, hc⟩
  all_goals cases hc
  exact ⟨held, now, hph, hcan⟩

/-- **Sequential runs are exclusive.** -/
theorem Serial.exclusive (hS : Serial w) (i : Choice) : Exclusive w (.step pid i) := by
  intro p r post hp hpend
  obtain ⟨hrun, held, now, hph, -⟩ := hS.sound.posting hp hpend
  refine ⟨(hS.fresh pid p hp hrun).2 r (by rw [hph]; exact List.mem_cons_self), ?_⟩
  intro q r' hf
  -- the other POST would be of a second running call
  have hq : q = pid := by
    obtain ⟨p', hp', hf'⟩ := hf
    exact hS.alone q pid p' p hp' hp (hS.sound.running_of_flies hp' hf') hrun
  rw [hq, flies_self hp, hph] at hf
  cases hf

/-- What a step must keep of the call that makes it. -/
theorem Serial.keep (hS : Serial w) (hp : w.procs.get pid = some p) (hr : p.rest = .await c k)
    (hclock : w.st.clock ≤ (exec i w.st c).1.clock)
    (hfresh : ((phase p).next c (exec i w.st c).2).Fresh (exec i w.st c).1.map)
    (htimed : ((phase p).next c (exec i w.st c).2).Timed (exec i w.st c).1.clock)
    (hdated : ∀ id r, (exec i w.st c).1.map.get id = some r → Dated (exec i w.st c).1.clock r) :
    Serial ((machine hmac).advance w pid i p c k) := by
  have hrun : p.Running := Proc.running_of_await hr
  -- a call that runs after the step ran before
  have hback : ∀ q p', ((machine hmac).advance w pid i p c k).procs.get q = some p' → p'.Running → q = pid := by
    intro q p' hq hrun'
    rcases Machine.advance_cases hq with ⟨rfl, -⟩ | ⟨-, hq⟩
    · rfl
    · exact hS.alone q pid p' p hq hp hrun' hrun
  refine ⟨hS.sound.advance hp hr (hS.exclusive i), fun q q' p₁ p₁' hq hq' h h' => ?_, fun q p₁ hq h => ?_,
    Machine.advance_all (fun q p hq => (hS.timed q p hq).mono hclock) ?_, hdated⟩
  · exact (hback q p₁ hq h).trans (hback q' p₁' hq' h').symm
  · rw [hback q p₁ hq h, Machine.get_advance_self] at hq
    cases hq
    rw [phase_advance]
    exact hfresh
  · rw [phase_advance]
    exact htimed

/-- The records listed by the repository are those stored, each once. -/
theorem Sound.listed (hS : Sound w) (f : OutboxEvent → Bool) :
    ((w.st.map.values.filter f).map OutboxEvent.id).Nodup ∧
      ∀ r ∈ w.st.map.values.filter f, w.st.map.get r.id = some r := by
  constructor
  · have hkeys : w.st.map.values.map OutboxEvent.id = w.st.map.keys := by
      unfold OMap.values OMap.keys
      rw [List.map_map]
      exact List.map_congr_left fun e he => (hS.stored e.1 e.2 (OMap.get_eq_some.2 he)).1
    have hnd : (w.st.map.values.map OutboxEvent.id).Nodup := hkeys ▸ w.st.map.keys_nodup
    exact hnd.sublist (List.filter_sublist.map _)
  · intro r hr
    obtain ⟨id, hget⟩ := OMap.mem_values.1 (List.mem_of_mem_filter hr)
    rw [(hS.stored id r hget).1]
    exact hget

/-- New records are stored. -/
theorem Serial.create (hS : Serial w) (hp : w.procs.get pid = some p) (hr : p.rest = .await c k)
    {rs : List OutboxEvent} {now : ℕ} (hph : phase p = .creating rs now)
    (hmap : (exec i w.st c).1.map = store w.st.map rs)
    (hclock : (exec i w.st c).1.clock = max w.st.clock i.resumed)
    (hnext : (phase p).next c (exec i w.st c).2 = .holding rs i.resumed) :
    Serial ((machine hmac).advance w pid i p c k) := by
  obtain ⟨hnd, hrs⟩ := hS.sound.unborn pid rs ⟨p, now, hp, hph⟩
  have hle : w.st.clock ≤ (exec i w.st c).1.clock := hclock ▸ Nat.le_max_left ..
  refine hS.keep hp hr hle ?_ ?_ fun id r hget => ?_
  · rw [hnext, hmap]
    exact ⟨hnd, fun r hr => get_store_of_mem hnd hr⟩
  · rw [hnext, hclock]
    exact Nat.le_max_right ..
  · rw [hmap] at hget
    by_cases hin : ∃ r' ∈ rs, r'.id = id
    · obtain ⟨r', hr', rfl⟩ := hin
      rw [get_store_of_mem hnd hr'] at hget
      rw [← Option.some.inj hget]
      exact dated_of_untried (hrs r' hr').1 (hrs r' hr').2.1
    · rw [get_store_of_not_mem fun r' hr' he => hin ⟨r', hr', he⟩] at hget
      exact (hS.dated id r hget).mono hle

/-- The outcome is written back. -/
theorem Serial.update (hS : Serial w) {a : Answer} {k : Resp (.update (outcome r a)) → Client Reply}
    (hp : w.procs.get pid = some p) (hr : p.rest = .await (.update (outcome r a)) k)
    (hph : phase p = .answered r a held) :
    Serial ((machine hmac).advance w pid i p (.update (outcome r a)) k) := by
  have hmap : (exec i w.st (.update (outcome r a))).1.map = w.st.map.set r.id (outcome r a) := by
    rw [← outcome_id (r := r) (a := a)]; rfl
  have hle : w.st.clock ≤ (exec i w.st (.update (outcome r a))).1.clock := Nat.le_max_left ..
  have hnext : (phase p).next (.update (outcome r a)) (exec i w.st (.update (outcome r a))).2 =
      .holding held i.resumed := by rw [hph]; rfl
  have hfresh := hS.fresh pid p hp (Proc.running_of_await hr)
  rw [hph] at hfresh
  obtain ⟨hnd, hstored⟩ := hfresh
  rw [Phase.held, List.map_cons, List.nodup_cons] at hnd
  -- the records still held have other ids than the one written
  have hget : w.st.map.get r.id = some r := hstored r List.mem_cons_self
  refine hS.keep hp hr hle ?_ ?_ fun id r' hget' => ?_
  · rw [hnext, hmap]
    refine ⟨hnd.2, fun r' hr' => ?_⟩
    have hne : r.id ≠ r'.id := fun he => hnd.1 (List.mem_map.2 ⟨r', hr', he.symm⟩)
    rw [OMap.get_set_ne _ _ hne]
    exact hstored r' (List.mem_cons_of_mem _ hr')
  · rw [hnext]
    exact Nat.le_max_right ..
  · rw [hmap, OMap.get_set] at hget'
    split at hget'
    · have htimed := hS.timed pid p hp
      rw [hph] at htimed
      rw [← Option.some.inj hget']
      exact (hS.dated r.id r hget).outcome (hS.sound.stored r.id r hget).2.1 ⟨htimed.1.trans hle, htimed.2⟩
    · exact (hS.dated id r' hget').mono hle

/-- **A call goes on.** -/
theorem Serial.advance (hS : Serial w) (hp : w.procs.get pid = some p) (hr : p.rest = .await c k)
    (hseq : Sequential w (.step pid i)) : Serial ((machine hmac).advance w pid i p c k) := by
  obtain ⟨hnow, hres⟩ := hseq
  have hrun : p.Running := Proc.running_of_await hr
  rcases Phase.may_cases (hS.sound.may hp hr) with ⟨rs, now, hph, rfl | ⟨r, rfl, rfl⟩⟩ | ⟨hph, rfl⟩ |
    ⟨r, held, now, post, hph, rfl, hcan⟩ | ⟨r, held, hph, rfl⟩ | ⟨r, a, held, hph, rfl⟩
  · exact hS.create hp hr hph rfl rfl (by rw [hph]; rfl)
  · exact hS.create hp hr hph rfl rfl (by rw [hph]; rfl)
  · have hle : w.st.clock ≤ max w.st.clock i.resumed := Nat.le_max_left ..
    refine hS.keep hp hr hle ?_ ?_ fun id r hget => (hS.dated id r hget).mono hle
    · rw [hph]
      exact hS.sound.listed _
    · rw [hph]
      exact Nat.le_max_right ..
  · have hle : w.st.clock ≤ max w.st.clock i.now := Nat.le_max_left ..
    refine hS.keep hp hr hle ?_ ?_ fun id r hget => (hS.dated id r hget).mono hle
    · have hfresh := hS.fresh pid p hp hrun
      rw [hph] at hfresh ⊢
      exact hfresh
    · rw [hph]
      exact trivial
  · have hle : w.st.clock ≤ max w.st.clock i.resumed := Nat.le_max_left ..
    have hfresh := hS.fresh pid p hp hrun
    refine hS.keep hp hr hle ?_ ?_ fun id r hget => (hS.dated id r hget).mono hle
    · rw [hph] at hfresh ⊢
      exact hfresh
    · rw [hph] at hfresh ⊢
      -- the answer is read after every earlier try
      refine ⟨Nat.le_max_right .., fun last hlast => ?_⟩
      have hdated := hS.dated r.id r (hfresh.2 r List.mem_cons_self)
      exact ((hdated last hlast).1.trans hnow).trans hres
  · exact hS.update hp hr hph

/-- **Every sequential run keeps the invariant.** -/
theorem serial_run {es : List (Ev Choice Empty Call)} (hS : Serial w)
    (hnew : (machine hmac).Along FreshIds w es) (hseq : (machine hmac).Along Sequential w es) :
    Serial ((machine hmac).run w es) :=
  Machine.run_inv (fun _ _ _ hS hG hn => hS.begin hG.1 hG.2 hn) (fun _ _ _ _ _ _ hS hG hp hr => hS.advance hp hr hG.2)
    (fun _ v => v.elim) hS (hnew.and hseq)

theorem exclusive_run {es : List (Ev Choice Empty Call)} (hS : Serial w)
    (hnew : (machine hmac).Along FreshIds w es) (hseq : (machine hmac).Along Sequential w es) :
    (machine hmac).Along Exclusive w es := by
  refine Machine.Along.of_inv (fun _ _ _ hS hG hn => hS.begin hG.1 hG.2 hn)
    (fun _ _ _ _ _ _ hS hG hp hr => hS.advance hp hr hG.2) (fun _ v => v.elim) (fun w e hS _ => ?_) hS
    (hnew.and hseq)
  cases e with
  | call pid x => exact trivial
  | step pid i => exact hS.exclusive i
  | env v => exact v.elim

/-- **When a POST is made**: of a stored record that is still open, and after a failure not before its
next try is due. -/
theorem Serial.post_due (hS : Serial w) (hp : w.procs.get pid = some p) {post : Post}
    (hpend : p.pending = some (.post r post)) (hseq : Sequential w (.step pid i)) :
    w.st.map.get r.id = some r ∧ Open r ∧
      ∀ next, r.status = .failed → r.nextTryAt = some next → next ≤ i.now := by
  obtain ⟨hrun, held, now, hph, hcan⟩ := hS.sound.posting hp hpend
  refine ⟨(hS.exclusive i p r post hp hpend).1, open_of_canRetry hcan, fun next hf hnext => ?_⟩
  have htimed : now ≤ w.st.clock := by
    have h := hS.timed pid p hp
    rw [hph] at h
    exact h
  rcases canRetry_iff.1 hcan with hpending | ⟨-, -, next', hnext', hle⟩
  · rw [hpending] at hf
    cases hf
  · rw [hnext] at hnext'
    cases hnext'
    exact (hle.trans htimed).trans hseq.1

end Step

/-! ## The lifecycle -/

/-- What is asked of the records, from a moment `w₁` of a run to a later one `w₂`. -/
structure Lifecycle (w₁ w₂ : World) : Prop where
  /-- Status, tries and times fit together. -/
  valid : ∀ id r, w₂.st.map.get id = some r → Valid r
  ordered : ∀ id r first last, w₂.st.map.get id = some r → r.firstTryAt = some first →
    r.lastTryAt = some last → first ≤ last
  /-- The tries are the POSTs, but for a POST not yet written back. -/
  counted : ∀ id r, w₂.st.map.get id = some r → (∃ q, Flies w₂ q r) ∧ w₂.st.postsOf id = r.tries + 1 ∨
    (∀ q, ¬ Flies w₂ q r) ∧ w₂.st.postsOf id = r.tries
  quiet : w₂.Quiet → ∀ id r, w₂.st.map.get id = some r → r.tries = w₂.st.postsOf id
  /-- A first try is never changed; what is delivered or cancelled is neither changed nor POSTed. -/
  persists : ∀ id, Persists id w₁.st w₂.st
  due : ∀ pid i p r post, Sequential w₂ (.step pid i) → w₂.procs.get pid = some p →
    p.pending = some (.post r post) → w₂.st.map.get r.id = some r ∧ Open r ∧
      ∀ next, r.status = .failed → r.nextTryAt = some next → next ≤ i.now
  /-- No open record is stuck. -/
  retryable : ∀ id r, w₂.st.map.get id = some r → Open r →
    ∃ next, r.nextTryAt = some next ∧ ∀ now, next ≤ now → CanRetryOutboxEvent r now

/-- **The lifecycle of outbox events**, in every sequential run. -/
theorem lifecycle (hmac : String → String → String) (es₁ es₂ : List (Ev Choice Empty Call))
    (hnew : (machine hmac).Along FreshIds (Pool.init .empty) (es₁ ++ es₂))
    (hseq : (machine hmac).Along Sequential (Pool.init .empty) (es₁ ++ es₂)) :
    let w₁ := (machine hmac).run (Pool.init .empty) es₁
    Lifecycle w₁ ((machine hmac).run w₁ es₂) := by
  intro w₁
  obtain ⟨hnew₁, hnew₂⟩ := Machine.Along.append.1 hnew
  obtain ⟨hseq₁, hseq₂⟩ := Machine.Along.append.1 hseq
  have hS₁ : Serial w₁ := serial_run serial_init hnew₁ hseq₁
  have hS₂ : Serial ((machine hmac).run w₁ es₂) := serial_run hS₁ hnew₂ hseq₂
  refine ⟨fun id r hget => (hS₂.sound.stored id r hget).2.1, fun id r first last hget hf hl => ?_,
    fun id r hget => hS₂.sound.tries_cases hget, fun hq id r hget => hS₂.sound.tries_of_quiet hq hget,
    fun id => persists_run hS₁.sound hnew₂ (exclusive_run hS₁ hnew₂ hseq₂) id,
    fun pid i p r post hi hp hpend => hS₂.post_due hp hpend hi,
    fun id r hget ho => (hS₂.sound.stored id r hget).2.1.retryable ho⟩
  exact (hS₂.dated id r hget last hl).2 first hf

/-- The record of the send after a failure. -/
def failedOnce : OutboxEvent :=
  { id := "id", webhookId := "hook", assigneeId := "me", webhookSecret := "key",
    deliveryUrl := "https://example.com", event := ⟨"event", 0, "paid", []⟩, status := .failed,
    nextTryAt := some 300001, tries := 1, firstTryAt := some 1, lastTryAt := some 1, lastStatusCode := some 500,
    lastResponse := some "null", isTest := false, createdAt := 0, updatedAt := 1 }

theorem lifecycle_retried :
    let es₁ : List (Ev Choice Empty Call) := [.call 0 sendOne, .step 0 (moment 0 0), .step 0 (moment 0 0),
      .step 0 (moment 1 500), .step 0 (moment 1 0)]
    let es₂ : List (Ev Choice Empty Call) := [.call 1 (.retry failedOnce 300001), .step 1 (moment 300001 0),
      .step 1 (moment 300002 200), .step 1 (moment 300002 0)]
    let w₁ := (machine fun _ _ => "").run (Pool.init .empty) es₁
    let w₂ := (machine fun _ _ => "").run w₁ es₂
    (w₂.st.map.get "id").map OutboxEvent.status = some .delivered ∧ w₂.st.postsOf "id" = 2 ∧
      Lifecycle w₁ w₂ := by
  intro es₁ es₂ w₁ w₂
  refine ⟨by decide +kernel, by decide +kernel,
    lifecycle _ es₁ es₂ (freshIds_of_first (by decide) (by decide)) ?_⟩
  have hstep : ∀ {w : World} {pid now status : ℕ}, w.st.clock ≤ now → Sequential w (.step pid (moment now status)) :=
    fun h => ⟨h, le_rfl⟩
  refine ⟨⟨by decide, Or.inr le_rfl, by simp [sendOne]⟩, hstep (by decide +kernel), hstep (by decide +kernel),
    hstep (by decide +kernel), hstep (by decide +kernel), ⟨by decide +kernel, Or.inr (by decide +kernel), ?_⟩,
    hstep (by decide +kernel), hstep (by decide +kernel), hstep (by decide +kernel), trivial⟩
  rintro r now he
  cases he
  rfl

end NodeToolkit.Outbox
