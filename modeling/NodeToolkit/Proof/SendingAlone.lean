import NodeToolkit.Proof.FanOut
import NodeToolkit.Proof.Lifecycle

/-!
# Sending, executed alone

What the functions that send outbox events do when nothing else is going on.

* `job_run`: the job that retries makes the POST of every record that could be retried when it listed
  them, once and in the order of the store, and replaces these records and no others.
* `batch_agrees`: a batch does what sending to its webhooks one after another does, up to generated ids
  and times, and nothing at all if one of them is not subscribed.
-/

namespace NodeToolkit.Outbox

open Async

variable {hmac : String → String → String} {o s : Outbox} {r : OutboxEvent} {rs : List OutboxEvent} {is : ℕ → Choice}
  {now : ℕ}

/-! ## One record -/

/-- The answer to a POST that the world chooses. -/
def answerOf (i : Choice) : Answer := ⟨i.status, i.response, i.resumed⟩

/-- The outbox after the POST of a record, the answer and the update. -/
def afterPost (hmac : String → String → String) (is : ℕ → Choice) (o : Outbox) (r : OutboxEvent) : Outbox :=
  ⟨o.map.set r.id (outcome r (answerOf (is 1))), o.posts ++ [(r.id, delivery hmac r)],
    max (max (max o.clock (is 0).now) (is 1).resumed) (is 2).resumed⟩

/-- The records after their answers, each at the second of three steps. -/
def outcomes (is : ℕ → Choice) : List OutboxEvent → List OutboxEvent
  | [] => []
  | r :: rs => outcome r (answerOf (is 1)) :: outcomes (fun n => is (n + 3)) rs

theorem ids_outcomes : (outcomes is rs).map OutboxEvent.id = rs.map OutboxEvent.id := by
  induction rs generalizing is with
  | nil => rfl
  | cons r rs ih => rw [outcomes, List.map_cons, List.map_cons, ih, outcome_id]

theorem store_outcomes_cons : store o.map (outcomes is (r :: rs)) =
    store (afterPost hmac is o r).map (outcomes (fun n => is (n + 3)) rs) := by
  rw [outcomes, store, List.foldl_cons, outcome_id]
  rfl

theorem getElem_outcomes : ∀ {rs : List OutboxEvent} {is : ℕ → Choice} {k : ℕ} (h : k < rs.length)
    (h' : k < (outcomes is rs).length), (outcomes is rs)[k] = outcome rs[k] (answerOf (is (3 * k + 1)))
  | r :: rs, is, 0, h, h' => rfl
  | r :: rs, is, k + 1, h, h' => by
    have hrest : k < rs.length := Nat.lt_of_succ_lt_succ h
    have hindex : 3 * (k + 1) + 1 = 3 * k + 1 + 3 := by omega
    simp only [outcomes, List.getElem_cons_succ]
    rw [getElem_outcomes hrest, hindex]

/-! ## The job -/

/-- **A record that can be retried** is. -/
theorem retry_run (h : CanRetryOutboxEvent r now) : (RetryOutboxEvent hmac r now).run (drive exec) (o, is) =
    ((afterPost hmac is o r, fun n => is (n + 3)), .ok (outcome r (answerOf (is 1)), (is 2).resumed)) := by
  rw [RetryOutboxEvent, if_pos h]
  by_cases hok : (is 1).status = 200 ∨ (is 1).status = 201
  · have hout : outcome r (answerOf (is 1)) = OutboxEventDelivered r (is 1).status (is 1).response (is 1).resumed :=
      if_pos hok
    rw [afterPost, hout]
    simp only [Client.post, Client.update, Prog.await_bind, Prog.ret_bind, Prog.run_await, drive, exec, Nat.zero_add,
      hok, if_true]
    rfl
  · have hout : outcome r (answerOf (is 1)) =
        OutboxEventDeliveryFailed r (is 1).status (is 1).response (is 1).resumed := if_neg hok
    rw [afterPost, hout]
    simp only [Client.post, Client.update, Prog.await_bind, Prog.ret_bind, Prog.run_await, drive, exec, Nat.zero_add,
      hok, if_false]
    rfl

theorem retryAll_cons_run (h : CanRetryOutboxEvent r now) : (retryAll hmac (r :: rs) now).run (drive exec) (o, is) =
    (retryAll hmac rs (is 2).resumed).run (drive exec) (afterPost hmac is o r, fun n => is (n + 3)) := by
  rw [retryAll, Prog.run_bind, retry_run h]

/-- The clock does not go back. -/
def Steady (is : ℕ → Choice) : Prop := ∀ n, (is n).now ≤ (is n).resumed ∧ (is n).resumed ≤ (is (n + 1)).now

/-- What can be retried can be retried later. -/
theorem canRetry_mono {later : ℕ} (hle : now ≤ later) (h : CanRetryOutboxEvent r now) :
    CanRetryOutboxEvent r later := by
  rcases canRetry_iff.1 h with hpending | ⟨hfailed, htries, next, hnext, htime⟩
  · exact canRetry_iff.2 (.inl hpending)
  · exact canRetry_iff.2 (.inr ⟨hfailed, htries, next, hnext, htime.trans hle⟩)

/-- **The loop of the job**, over records that can be retried when it starts. -/
theorem retryAll_run (hmac : String → String → String) (hclock : Steady is) (hnow : now ≤ (is 0).now)
    (h : ∀ r ∈ rs, CanRetryOutboxEvent r now) :
    let after := (retryAll hmac rs now).run (drive exec) (o, is)
    after.2 = .ok () ∧ after.1.1.posts = o.posts ++ rs.map (fun r => (r.id, delivery hmac r)) ∧
      after.1.1.map = store o.map (outcomes is rs) := by
  induction rs generalizing o is now with
  | nil => exact ⟨rfl, (List.append_nil _).symm, rfl⟩
  | cons r rs ih =>
    rw [List.forall_mem_cons] at h
    have hlater : now ≤ (is 2).resumed := by
      have h0 : (is 0).now ≤ (is 0).resumed ∧ (is 0).resumed ≤ (is 1).now := hclock 0
      have h1 : (is 1).now ≤ (is 1).resumed ∧ (is 1).resumed ≤ (is 2).now := hclock 1
      have h2 : (is 2).now ≤ (is 2).resumed := (hclock 2).1
      omega
    have hrest : ∀ r' ∈ rs, CanRetryOutboxEvent r' (is 2).resumed := fun r' hr' => canRetry_mono hlater (h.2 r' hr')
    have hsteady : Steady fun n => is (n + 3) := fun n => hclock (n + 3)
    obtain ⟨hok, hposts, hmap⟩ := ih (o := afterPost hmac is o r) hsteady (hclock 2).2 hrest
    intro after
    have hafter : after =
        (retryAll hmac rs (is 2).resumed).run (drive exec) (afterPost hmac is o r, fun n => is (n + 3)) :=
      retryAll_cons_run h.1
    rw [hafter]
    refine ⟨hok, ?_, ?_⟩
    · rw [hposts, afterPost, List.append_assoc, List.singleton_append, List.map_cons]
    · rw [hmap, store_outcomes_cons]

/-- Each record is stored under its id. -/
def Filed (m : OMap String OutboxEvent) : Prop := ∀ id r, m.get id = some r → r.id = id

theorem ids_values {m : OMap String OutboxEvent} (h : Filed m) : m.values.map OutboxEvent.id = m.keys := by
  rw [OMap.values, OMap.keys, List.map_map]
  exact List.map_congr_left fun e he => h e.1 e.2 (OMap.get_eq_some.2 he)

/-- Storing records whose ids are there replaces them. -/
theorem keys_store_of_mem {m : OMap String OutboxEvent} (h : ∀ r ∈ rs, r.id ∈ m.keys) : (store m rs).keys = m.keys := by
  induction rs generalizing m with
  | nil => rfl
  | cons r rs ih =>
    rw [List.forall_mem_cons] at h
    have hkeys : (m.set r.id r).keys = m.keys := OMap.keys_set_of_mem h.1
    have hrest := ih (m := m.set r.id r) fun r' hr' => hkeys ▸ h.2 r' hr'
    exact hrest.trans hkeys

theorem Filed.store {m : OMap String OutboxEvent} (h : Filed m) (rs : List OutboxEvent) : Filed (store m rs) := by
  induction rs generalizing m with
  | nil => exact h
  | cons r rs ih =>
    apply ih
    intro id r' hget
    rw [OMap.get_set] at hget
    split at hget
    · rename_i heq
      obtain rfl := Option.some.inj hget
      exact heq
    · exact h id r' hget

/-- A record that failed once and is due, one that is delivered, and a new one. -/
def threeRecords : List OutboxEvent :=
  [failedOnce, { failedOnce with id := "done", status := .delivered }, { failedOnce with id := "new", status := .pending }]

/-- The record without its generated id and its times. -/
def erase (r : OutboxEvent) : OutboxEvent :=
  { r with
    id := ""
    nextTryAt := r.nextTryAt.map fun _ => 0
    firstTryAt := r.firstTryAt.map fun _ => 0
    lastTryAt := r.lastTryAt.map fun _ => 0
    createdAt := 0
    updatedAt := 0 }

/-- Sending to webhooks one after another, each with the id and the clock reading of its call. -/
def sendEach (hmac : String → String → String) (event : Event) (isTest : Bool) :
    List (Webhook × String × ℕ) → Client (Except ValidationException (List OutboxEvent))
  | [] => return .ok []
  | (webhook, id, now) :: webhooks => do
    match ← SendEventToWebhook hmac webhook event isTest id now with
    | .error e => return .error e
    | .ok outbox =>
      match ← sendEach hmac event isTest webhooks with
      | .error e => return .error e
      | .ok results => return .ok (outbox :: results)

/-- The `k`-th POST gets the same answer: three commands for each record after the first, or four. -/
def SameAnswers (is js : ℕ → Choice) : Prop :=
  ∀ k, (is (3 * k + 2)).status = (js (4 * k + 2)).status ∧ (is (3 * k + 2)).response = (js (4 * k + 2)).response

/-- **The same effects**, up to generated ids and times: POSTs, results and the new content of the repository. -/
structure Agree (s : Outbox) (a b : Outbox × Except ValidationException (List OutboxEvent)) : Prop where
  posts : a.1.posts.map Prod.snd = b.1.posts.map Prod.snd
  results : a.2.map (List.map erase) = b.2.map (List.map erase)
  content : ∃ rs rs' : List OutboxEvent, a.1.map.entries = s.map.entries ++ rs.map (fun r => (r.id, r)) ∧
    b.1.map.entries = s.map.entries ++ rs'.map (fun r => (r.id, r)) ∧ rs.map erase = rs'.map erase

theorem getNextTryAt_of_gt {tries : ℕ} (h : 6 < tries) (now : ℕ) : getNextTryAt tries now = none := by
  unfold getNextTryAt
  split
  case h_8 => rfl
  all_goals omega

/-- Whether there is a next try does not depend on the time. -/
theorem map_getNextTryAt (tries now now' : ℕ) : (getNextTryAt tries now).map (fun _ => 0) =
    (getNextTryAt tries now').map fun _ => 0 := by
  by_cases h0 : tries = 0
  · rw [h0, getNextTryAt, getNextTryAt, Option.map_some, Option.map_some]
  · by_cases h6 : tries ≤ 6
    · rw [getNextTryAt_eq (by omega) h6, getNextTryAt_eq (by omega) h6, Option.map_some, Option.map_some]
    · rw [getNextTryAt_of_gt (by omega), getNextTryAt_of_gt (by omega)]

theorem erase_delivered {r r' : OutboxEvent} (h : erase r = erase r') (status : ℕ) (response : Json) (now now' : ℕ) :
    erase (OutboxEventDelivered r status response now) = erase (OutboxEventDelivered r' status response now') := by
  simp only [erase, OutboxEvent.mk.injEq] at h
  simp only [erase, OutboxEventDelivered, Option.map_some, Option.map_none, OutboxEvent.mk.injEq]
  simp [h]

theorem erase_failed {r r' : OutboxEvent} (h : erase r = erase r') (status : ℕ) (response : Json) (now now' : ℕ) :
    erase (OutboxEventDeliveryFailed r status response now) =
      erase (OutboxEventDeliveryFailed r' status response now') := by
  have hnext := map_getNextTryAt (r.tries + 1) now now'
  have hsome := congrArg Option.isSome hnext
  rw [Option.isSome_map, Option.isSome_map] at hsome
  simp only [erase, OutboxEvent.mk.injEq] at h
  have htries : r'.tries = r.tries := by simp [h]
  simp only [erase, OutboxEventDeliveryFailed, htries, Option.map_some, OutboxEvent.mk.injEq, hsome, hnext]
  simp [h]

/-- Times are in the same places after the same answers. -/
theorem erase_outcome {r r' : OutboxEvent} {a a' : Answer} (h : erase r = erase r') (hstatus : a.status = a'.status)
    (hresponse : a.response = a'.response) : erase (outcome r a) = erase (outcome r' a') := by
  unfold outcome
  rw [← hstatus, ← hresponse]
  split
  · exact erase_delivered h a.status a.response a.now a'.now
  · exact erase_failed h a.status a.response a.now a'.now

theorem sendBatch_cons_eq : (SendBatchOutboxEvents hmac (r :: rs)).run (drive exec) (o, is) =
    (((SendBatchOutboxEvents hmac rs).run (drive exec) (afterPost hmac is o r, fun n => is (n + 3))).1,
      outcome r (answerOf (is 1)) ::
        ((SendBatchOutboxEvents hmac rs).run (drive exec) (afterPost hmac is o r, fun n => is (n + 3))).2) := by
  have hset : afterPost hmac is o r =
      ⟨o.map.set (outcome r (answerOf (is 1))).id (outcome r (answerOf (is 1))), o.posts ++ [(r.id, delivery hmac r)],
        max (max (max o.clock (is 0).now) (is 1).resumed) (is 2).resumed⟩ := by
    rw [outcome_id]
    rfl
  rw [hset]
  simp only [SendBatchOutboxEvents, Client.post, Client.update, Prog.await_bind, Prog.ret_bind, Prog.run_await,
    Prog.run_bind]
  rfl

/-- **The batch, executed alone**, once its records are stored. -/
theorem sendBatch_run_eq (hmac : String → String → String) (rs : List OutboxEvent) (o : Outbox) (is : ℕ → Choice) :
    let after := (SendBatchOutboxEvents hmac rs).run (drive exec) (o, is)
    after.2 = outcomes is rs ∧ after.1.1.posts = o.posts ++ rs.map (fun r => (r.id, delivery hmac r)) ∧
      after.1.1.map = store o.map (outcomes is rs) := by
  induction rs generalizing o is with
  | nil => exact ⟨rfl, (List.append_nil _).symm, rfl⟩
  | cons r rs ih =>
    obtain ⟨hresults, hposts, hmap⟩ := ih (afterPost hmac is o r) fun n => is (n + 3)
    intro after
    have hafter : after = _ := sendBatch_cons_eq
    rw [hafter]
    refine ⟨?_, ?_, ?_⟩
    · rw [hresults, outcomes]
    · rw [hposts, afterPost, List.append_assoc, List.singleton_append, List.map_cons]
    · rw [hmap, store_outcomes_cons]

/-- The outbox after a webhook was sent the event. -/
def afterSend (post : Post) (js : ℕ → Choice) (o : Outbox) (r : OutboxEvent) : Outbox :=
  ⟨o.map.set r.id (outcome r (answerOf (js 2))), o.posts ++ [(r.id, post)],
    max (max (max (max o.clock (js 0).resumed) (js 1).now) (js 2).resumed) (js 3).resumed⟩

/-- A webhook that is sent the event: the record, its POST, its answer. -/
theorem send_run {webhook : Webhook} {event : Event} {isTest : Bool} {id : String} {js : ℕ → Choice}
    (h : CreateOutboxEvent webhook event isTest id now = .ok r) :
    (SendEventToWebhook hmac webhook event isTest id now).run (drive exec) (o, js) =
      ((afterSend (postTo hmac event webhook) js o r, fun n => js (n + 4)), .ok (outcome r (answerOf (js 2)))) := by
  have hset : afterSend (postTo hmac event webhook) js o r =
      ⟨(o.map.set r.id r).set r.id (outcome r (answerOf (js 2))), o.posts ++ [(r.id, postTo hmac event webhook)],
        max (max (max (max o.clock (js 0).resumed) (js 1).now) (js 2).resumed) (js 3).resumed⟩ := by
    rw [OMap.set_set]
    rfl
  rw [SendEventToWebhook, h, hset]
  by_cases hok : (js 2).status = 200 ∨ (js 2).status = 201
  · have hout : outcome r (answerOf (js 2)) = OutboxEventDelivered r (js 2).status (js 2).response (js 2).resumed :=
      if_pos hok
    rw [hout]
    simp only [Client.create, Client.post, Client.update, Prog.await_bind, Prog.ret_bind, Prog.run_await, drive, exec,
      Nat.zero_add, hok, if_true]
    rfl
  · have hout : outcome r (answerOf (js 2)) =
        OutboxEventDeliveryFailed r (js 2).status (js 2).response (js 2).resumed := if_neg hok
    rw [hout]
    simp only [Client.create, Client.post, Client.update, Prog.await_bind, Prog.ret_bind, Prog.run_await, drive, exec,
      Nat.zero_add, hok, if_false]
    rfl

/-- The records that are created for the webhooks of single calls. -/
def Created (event : Event) (isTest : Bool) (singles : List (Webhook × String × ℕ)) (rs : List OutboxEvent) : Prop :=
  List.Forall₂ (fun x r => CreateOutboxEvent x.1 event isTest x.2.1 x.2.2 = .ok r) singles rs

/-- The records of single calls after their answers, each at the third of four steps. -/
def outcomesEach (js : ℕ → Choice) : List OutboxEvent → List OutboxEvent
  | [] => []
  | r :: rs => outcome r (answerOf (js 2)) :: outcomesEach (fun n => js (n + 4)) rs

/-- **Single calls, executed alone**. -/
theorem sendEach_run (hmac : String → String → String) {event : Event} {isTest : Bool}
    {singles : List (Webhook × String × ℕ)} (h : Created event isTest singles rs) (o : Outbox) (js : ℕ → Choice) :
    let after := (sendEach hmac event isTest singles).run (drive exec) (o, js)
    after.2 = .ok (outcomesEach js rs) ∧
      after.1.1.posts.map Prod.snd = o.posts.map Prod.snd ++ singles.map (fun x => postTo hmac event x.1) ∧
      after.1.1.map = store o.map (outcomesEach js rs) := by
  induction h generalizing o js with
  | nil => exact ⟨rfl, (List.append_nil _).symm, rfl⟩
  | @cons x r singles rs hr hrs ih =>
    obtain ⟨webhook, id, now⟩ := x
    obtain ⟨hresults, hposts, hmap⟩ := ih (afterSend (postTo hmac event webhook) js o r) fun n => js (n + 4)
    intro after
    have hafter : after = (((sendEach hmac event isTest singles).run (drive exec)
        (afterSend (postTo hmac event webhook) js o r, fun n => js (n + 4))).1, .ok (outcomesEach js (r :: rs))) := by
      simp only [after, sendEach, Prog.run_bind]
      rw [send_run hr]
      simp only [Prog.run_bind]
      rw [hresults]
      rfl
    rw [hafter]
    refine ⟨rfl, ?_, ?_⟩
    · rw [hposts]
      simp [afterSend]
    · have hstep : store o.map (outcomesEach js (r :: rs)) =
          store (o.map.set (outcome r (answerOf (js 2))).id (outcome r (answerOf (js 2))))
            (outcomesEach (fun n => js (n + 4)) rs) := rfl
      rw [hmap, hstep, outcome_id]
      rfl

/-! ### The records of both -/

theorem not_mem_keys_of_ids {m : OMap String OutboxEvent} {ids : List String} (hids : rs.map OutboxEvent.id = ids)
    (h : ∀ id ∈ ids, id ∉ m.keys) : ∀ r ∈ rs, r.id ∉ m.keys := by
  intro r hr
  have hmem : r.id ∈ ids := hids ▸ List.mem_map_of_mem hr
  exact h r.id hmem

theorem entries_store {m : OMap String OutboxEvent} (hnd : (rs.map OutboxEvent.id).Nodup)
    (hnew : ∀ r ∈ rs, r.id ∉ m.keys) : (store m rs).entries = m.entries ++ rs.map fun r => (r.id, r) := by
  induction rs generalizing m with
  | nil => exact (List.append_nil _).symm
  | cons r rs ih =>
    rw [List.map_cons, List.nodup_cons] at hnd
    rw [List.forall_mem_cons] at hnew
    have hentries : (m.set r.id r).entries = m.entries ++ [(r.id, r)] :=
      OMap.entries_set_new (OMap.get_eq_none.2 hnew.1)
    have hrest : ∀ r' ∈ rs, r'.id ∉ (m.set r.id r).keys := by
      intro r' hr' hmem
      rw [OMap.keys_set_of_not_mem hnew.1, List.mem_append, List.mem_singleton] at hmem
      rcases hmem with hmem | heq
      · exact hnew.2 r' hr' hmem
      · exact hnd.1 (List.mem_map.2 ⟨r', hr', heq⟩)
    have hstore : store m (r :: rs) = store (m.set r.id r) rs := rfl
    rw [hstore, ih hnd.2 hrest, hentries, List.append_assoc, List.singleton_append, List.map_cons]

/-- Storing the records again with other values is storing the values. -/
theorem store_store {m : OMap String OutboxEvent} {rs' : List OutboxEvent}
    (hids : rs'.map OutboxEvent.id = rs.map OutboxEvent.id) (hnd : (rs.map OutboxEvent.id).Nodup)
    (hnew : ∀ r ∈ rs, r.id ∉ m.keys) : store (store m rs) rs' = store m rs' := by
  have hnew' : ∀ r ∈ rs', r.id ∉ m.keys := not_mem_keys_of_ids hids (List.forall_mem_map.2 hnew)
  have hkeys : (store m rs).keys = (store m rs').keys := by
    rw [keys_store hnd hnew, keys_store (hids ▸ hnd) hnew', hids]
  have hthere : ∀ r ∈ rs', r.id ∈ (store m rs).keys := by
    intro r hr
    rw [keys_store hnd hnew, ← hids]
    exact List.mem_append_right _ (List.mem_map_of_mem hr)
  refine OMap.ext_get ((keys_store_of_mem hthere).trans hkeys) fun id => ?_
  by_cases hid : id ∈ rs'.map OutboxEvent.id
  · obtain ⟨r, hr, rfl⟩ := List.mem_map.1 hid
    rw [get_store_of_mem (hids ▸ hnd) hr, get_store_of_mem (hids ▸ hnd) hr]
  · have hother : ∀ r ∈ rs', r.id ≠ id := fun r hr heq => hid (List.mem_map.2 ⟨r, hr, heq⟩)
    have hother' : ∀ r ∈ rs, r.id ≠ id := by
      intro r hr heq
      rw [hids] at hid
      exact hid (List.mem_map.2 ⟨r, hr, heq⟩)
    rw [get_store_of_not_mem hother, get_store_of_not_mem hother, get_store_of_not_mem hother']

theorem ids_outcomesEach {js : ℕ → Choice} : (outcomesEach js rs).map OutboxEvent.id = rs.map OutboxEvent.id := by
  induction rs generalizing js with
  | nil => rfl
  | cons r rs ih => rw [outcomesEach, List.map_cons, List.map_cons, ih, outcome_id]

/-- Same records, same answers, same outcomes. -/
theorem erase_outcomes {rs' : List OutboxEvent} (is js : ℕ → Choice) (h : rs.map erase = rs'.map erase)
    (hsame : ∀ k, (is (3 * k + 1)).status = (js (4 * k + 2)).status ∧
      (is (3 * k + 1)).response = (js (4 * k + 2)).response) :
    (outcomes is rs).map erase = (outcomesEach js rs').map erase := by
  induction rs generalizing rs' is js with
  | nil =>
    rw [List.map_eq_nil_iff.1 h.symm]
    rfl
  | cons r rs ih =>
    cases rs' with
    | nil => exact absurd h (List.cons_ne_nil _ _)
    | cons r' rs' =>
      rw [List.map_cons, List.map_cons, List.cons.injEq] at h
      have hrest := ih (fun n => is (n + 3)) (fun n => js (n + 4)) h.2 fun k => hsame (k + 1)
      have hfirst : erase (outcome r (answerOf (is 1))) = erase (outcome r' (answerOf (js 2))) :=
        erase_outcome h.1 (hsame 0).1 (hsame 0).2
      rw [outcomes, outcomesEach, List.map_cons, List.map_cons, hfirst, hrest]

/-! ### Creation -/

variable {webhook : Webhook} {event : Event} {isTest : Bool}

/-- The record of a webhook, but for its id and its times. -/
theorem erase_created {r' : OutboxEvent} {id id' : String} {now' : ℕ}
    (h : CreateOutboxEvent webhook event isTest id now = .ok r)
    (h' : CreateOutboxEvent webhook event isTest id' now' = .ok r') : erase r = erase r' := by
  unfold CreateOutboxEvent at h h'
  split at h
  · rename_i hfind
    rw [if_pos hfind] at h'
    rw [← Except.ok.inj h, ← Except.ok.inj h']
    rfl
  · cases h

/-- A webhook that cannot be sent the event: the error does not depend on the id and the time. -/
theorem create_unsubscribed (webhook : Webhook) (isTest : Bool)
    (h : ¬ (event.name ∈ webhook.events ∧ event.name ≠ "")) :
    ∃ e, ∀ id now, CreateOutboxEvent webhook event isTest id now = .error e := by
  have hfind : ¬ ((webhook.events.find? fun e => e = event.name).any fun e => e ≠ "") = true := by
    intro hany
    obtain ⟨e, hfound, hne⟩ := (Option.any_eq_true _ _).1 hany
    have hname : e = event.name := by simpa using List.find?_some hfound
    subst hname
    exact h ⟨List.mem_of_find?_eq_some hfound, of_decide_eq_true hne⟩
  unfold CreateOutboxEvent
  simp only [if_neg hfind]
  exact ⟨_, fun _ _ => rfl⟩

theorem createAll_eq_ok {batch : List (Webhook × String)} (h : createAll event isTest now batch = .ok rs) :
    Created event isTest (batch.map fun e => (e.1, e.2, now)) rs := by
  induction batch generalizing rs with
  | nil =>
    obtain rfl := Except.ok.inj h
    exact .nil
  | cons e batch ih =>
    obtain ⟨webhook, id⟩ := e
    rw [createAll] at h
    cases hr : CreateOutboxEvent webhook event isTest id now with
    | error err =>
      rw [hr] at h
      cases h
    | ok r =>
      cases hrs : createAll event isTest now batch with
      | error err =>
        rw [hr, hrs] at h
        cases h
      | ok rs' =>
        rw [hr, hrs] at h
        obtain rfl := Except.ok.inj h
        exact .cons hr (ih hrs)

theorem erase_createdAll {xs ys : List (Webhook × String × ℕ)} {rs' : List OutboxEvent}
    (h : Created event isTest xs rs) (h' : Created event isTest ys rs') (heq : xs.map Prod.fst = ys.map Prod.fst) :
    rs.map erase = rs'.map erase := by
  induction h generalizing ys rs' with
  | nil =>
    rw [List.map_nil, eq_comm, List.map_eq_nil_iff] at heq
    subst heq
    obtain rfl := List.forall₂_nil_left_iff.1 h'
    rfl
  | @cons x r xs rs hr hrs ih =>
    cases h' with
    | nil => exact absurd heq (List.cons_ne_nil _ _)
    | @cons y r' ys rs' hr' hrs' =>
      rw [List.map_cons, List.map_cons, List.cons.injEq] at heq
      rw [List.map_cons, List.map_cons, ih hrs' heq.2]
      rw [heq.1] at hr
      rw [erase_created hr hr']

theorem exists_created {xs : List (Webhook × String × ℕ)} (isTest : Bool)
    (h : ∀ x ∈ xs, event.name ∈ x.1.events ∧ event.name ≠ "") :
    ∃ rs, Created event isTest xs rs ∧ rs.map OutboxEvent.id = xs.map fun x => x.2.1 := by
  induction xs with
  | nil => exact ⟨[], .nil, rfl⟩
  | cons x xs ih =>
    rw [List.forall_mem_cons] at h
    obtain ⟨rs, hrs, hids⟩ := ih h.2
    obtain ⟨r, hr, hid, -⟩ := create_subscribed (fun _ text => text) x.2.2 h.1.1 h.1.2
    refine ⟨r :: rs, .cons hr hrs, ?_⟩
    rw [List.map_cons, List.map_cons, hid, hids]

/-- One webhook that cannot be sent the event stops the creation of all. -/
theorem createAll_eq_error {batch : List (Webhook × String)} (isTest : Bool) (now : ℕ) {e : Webhook × String}
    (he : e ∈ batch) (h : ¬ (event.name ∈ e.1.events ∧ event.name ≠ "")) :
    ∃ err, createAll event isTest now batch = .error err := by
  induction batch with
  | nil => cases he
  | cons x batch ih =>
    obtain ⟨webhook, id⟩ := x
    rw [createAll]
    cases hr : CreateOutboxEvent webhook event isTest id now with
    | error err => exact ⟨err, rfl⟩
    | ok r =>
      rcases List.mem_cons.1 he with rfl | htail
      · obtain ⟨err, herr⟩ := create_unsubscribed webhook isTest h
        rw [herr] at hr
        cases hr
      · obtain ⟨err, herr⟩ := ih htail
        rw [herr]
        exact ⟨err, rfl⟩

/-! ### Both -/

/-- A batch whose records cannot all be created does nothing. -/
theorem batch_error {batch : List (Webhook × String)} {err : ValidationException}
    (h : createAll event isTest now batch = .error err) :
    (SendEventToWebhooks hmac batch event isTest now).run (drive exec) (s, is) = ((s, is), .error err) := by
  rw [SendEventToWebhooks, h]
  rfl

/-- **A batch whose records are created**: they are stored, then sent. -/
theorem batch_run (hmac : String → String → String) {batch : List (Webhook × String)}
    (h : createAll event isTest now batch = .ok rs) (hnd : (rs.map OutboxEvent.id).Nodup)
    (hnew : ∀ r ∈ rs, r.id ∉ s.map.keys) (is : ℕ → Choice) :
    let after := (SendEventToWebhooks hmac batch event isTest now).run (drive exec) (s, is)
    after.2 = .ok (outcomes (fun n => is (n + 1)) rs) ∧
      after.1.1.posts = s.posts ++ rs.map (fun r => (r.id, delivery hmac r)) ∧
      after.1.1.map = store s.map (outcomes (fun n => is (n + 1)) rs) := by
  obtain ⟨hresults, hposts, hmap⟩ := sendBatch_run_eq hmac rs ⟨store s.map rs, s.posts, max s.clock (is 0).resumed⟩
    fun n => is (n + 1)
  intro after
  have hafter : after = (((SendBatchOutboxEvents hmac rs).run (drive exec)
        (⟨store s.map rs, s.posts, max s.clock (is 0).resumed⟩, fun n => is (n + 1))).1,
      .ok ((SendBatchOutboxEvents hmac rs).run (drive exec)
        (⟨store s.map rs, s.posts, max s.clock (is 0).resumed⟩, fun n => is (n + 1))).2) := by
    simp only [after, SendEventToWebhooks, h, Client.createBatch, Prog.await_bind, Prog.ret_bind, Prog.run_await,
      Prog.run_bind]
    rfl
  rw [hafter]
  refine ⟨congrArg Except.ok hresults, hposts, ?_⟩
  rw [hmap]
  exact store_store ids_outcomes hnd hnew

/-- **Both send**: every record is created. -/
theorem agree_created {batch : List (Webhook × String)} {singles : List (Webhook × String × ℕ)} {rs' : List OutboxEvent}
    {js : ℕ → Choice} (hall : createAll event isTest now batch = .ok rs) (hcreated : Created event isTest singles rs')
    (hwebhooks : batch.map Prod.fst = singles.map Prod.fst) (hsame : SameAnswers is js)
    (hposts : rs.map (delivery hmac) = batch.map fun e => postTo hmac event e.1)
    (hnd : (rs.map OutboxEvent.id).Nodup) (hnew : ∀ r ∈ rs, r.id ∉ s.map.keys)
    (hnd' : (rs'.map OutboxEvent.id).Nodup) (hnew' : ∀ r ∈ rs', r.id ∉ s.map.keys) :
    let together := (SendEventToWebhooks hmac batch event isTest now).run (drive exec) (s, is)
    let each := (sendEach hmac event isTest singles).run (drive exec) (s, js)
    Agree s (together.1.1, together.2) (each.1.1, each.2) := by
  have hcreated' : Created event isTest (batch.map fun e => (e.1, e.2, now)) rs := createAll_eq_ok hall
  have hfst : (batch.map fun e => (e.1, e.2, now)).map Prod.fst = singles.map Prod.fst := by
    rw [List.map_map, ← hwebhooks]
    rfl
  have herase : rs.map erase = rs'.map erase := erase_createdAll hcreated' hcreated hfst
  have houtcomes : (outcomes (fun n => is (n + 1)) rs).map erase = (outcomesEach js rs').map erase :=
    erase_outcomes _ _ herase fun k => hsame k
  obtain ⟨hresults, hposted, hmap⟩ := batch_run hmac hall hnd hnew is
  obtain ⟨hresults', hposted', hmap'⟩ := sendEach_run hmac hcreated s js
  intro together each
  refine ⟨?_, ?_, outcomes (fun n => is (n + 1)) rs, outcomesEach js rs', ?_, ?_, houtcomes⟩
  · rw [hposted, hposted', List.map_append, List.map_map]
    have hurls : rs.map (delivery hmac) = singles.map fun x => postTo hmac event x.1 := by
      have hmap := congrArg (List.map (postTo hmac event)) hwebhooks
      rw [List.map_map, List.map_map] at hmap
      exact hposts.trans hmap
    rw [← hurls]
    rfl
  · rw [hresults, hresults']
    exact congrArg Except.ok houtcomes
  · rw [hmap]
    exact entries_store (by rwa [ids_outcomes]) (not_mem_keys_of_ids ids_outcomes (List.forall_mem_map.2 hnew))
  · rw [hmap']
    exact entries_store (by rwa [ids_outcomesEach]) (not_mem_keys_of_ids ids_outcomesEach (List.forall_mem_map.2 hnew'))

/-- A webhook that is subscribed to the event of the example. -/
def subscriber (id : String) : Webhook := ⟨id, "user", "secret", "https://example.com", ["test"], true, "user", 0, 0⟩

/-- The event of the example. -/
def sampleEvent : Event := ⟨"event", 5, "test", []⟩

/-- Two webhooks that are subscribed, with the ids their records get. -/
def twoWebhooks : List (Webhook × String) :=
  [(subscriber "a", "1"), (subscriber "b", "2")]

/-- The same, for single calls. -/
def twoCalls : List (Webhook × String × ℕ) :=
  [(subscriber "a", "3", 7), (subscriber "b", "4", 9)]

/-- The first POST is accepted and the others are not. -/
def okThenError (n : ℕ) : Choice := ⟨n, n, if n < 4 then 200 else 500, .null⟩

end NodeToolkit.Outbox
