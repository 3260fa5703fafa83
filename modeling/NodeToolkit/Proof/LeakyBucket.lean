import NodeToolkit.Base.Queue
import NodeToolkit.Spec.LeakyBucket

/-!
# The leaky bucket: queue discipline

* `handler_queue`, `handler_released`: one tick takes the first `leaksPerSecond`
  requests off every queue and resolves them in order.
* `refines_queue`: each key of the algorithm is a bounded queue of its own
  (`Base/Queue.lean`), driven by the requests of that key and the ticks alone.
* `discipline`: capacity, rejection, exact release time, order and independence of
  the other keys, over every run.
-/

namespace NodeToolkit.LeakyBucket

variable {config : Config} {s : State} {k : String} {now : ℕ}

/-! ## What is waiting and what is released -/

/-- The requests that wait under a key, oldest first. -/
def waiting (s : State) (k : String) : List Call := ((s.map.get k).getD []).map Waiting.resolver

/-- The calls of a key that a list of answers resolves successfully. -/
def resolved (k : String) (replies : List (Call × RateReply)) : List Call :=
  replies.filterMap fun e => match e.2 with
    | .requested (.ok _) => if key e.1.userId e.1.token = k then some e.1 else none
    | _ => none

/-- The requests of a key that were resolved successfully, in that order. -/
def released (s : State) (k : String) : List Call := resolved k s.replies

theorem resolved_append (l l' : List (Call × RateReply)) :
    resolved k (l ++ l') = resolved k l ++ resolved k l' := List.filterMap_append

/-- Every request waits under its own key. -/
def Sorted (s : State) : Prop :=
  ∀ k, ∀ c ∈ waiting s k, key c.userId c.token = k

/-! ## One tick -/

/-- A tick passes the first requests of the queue, in their order. -/
theorem passRequests_calls (remaining : Remaining) (n : ℕ) (q : List Waiting) :
    (passRequests config remaining now n q).1.map Prod.fst =
      (q.take (config.leaksPerSecond - n)).map Waiting.resolver := by
  induction q generalizing n with
  | nil => simp [passRequests]
  | cons w q ih =>
    unfold passRequests
    by_cases h : config.leaksPerSecond ≤ n
    · simp [h]
    · obtain ⟨m, hm⟩ : ∃ m, config.leaksPerSecond - n = m + 1 := ⟨config.leaksPerSecond - n - 1, by omega⟩
      have hm' : config.leaksPerSecond - (n + 1) = m := by omega
      simp only [if_neg h, List.map_cons, ih, hm, hm', List.take_succ_cons]

/-- Every request that is passed succeeds. -/
theorem passRequests_ok (remaining : Remaining) (n : ℕ) (q : List Waiting) :
    ∀ e ∈ (passRequests config remaining now n q).1, ∃ r, e.2 = .requested (.ok r) := by
  induction q generalizing n with
  | nil => simp [passRequests]
  | cons w q ih =>
    unfold passRequests
    by_cases h : config.leaksPerSecond ≤ n
    · simp [h]
    · simp only [if_neg h, List.mem_cons, forall_eq_or_imp]
      exact ⟨⟨_, rfl⟩, ih (n + 1)⟩

/-- It passes as many as there are, up to the rate. -/
theorem passRequests_count (remaining : Remaining) (n : ℕ) (q : List Waiting) :
    (passRequests config remaining now n q).2 = n + min (config.leaksPerSecond - n) q.length := by
  induction q generalizing n with
  | nil => simp [passRequests]
  | cons w q ih =>
    unfold passRequests
    by_cases h : config.leaksPerSecond ≤ n
    · simp only [if_pos h]; omega
    · simp only [if_neg h, ih, List.length_cons]; omega

/-- Answers that are all releases of calls of one key. -/
theorem resolved_of_ok {l : List (Call × RateReply)} {j : String}
    (hok : ∀ e ∈ l, ∃ r, e.2 = .requested (.ok r)) (hkey : ∀ c ∈ l.map Prod.fst, key c.userId c.token = j) :
    resolved k l = if j = k then l.map Prod.fst else [] := by
  induction l with
  | nil => simp [resolved]
  | cons e l ih =>
    simp only [List.map_cons, List.mem_cons, forall_eq_or_imp] at hok hkey
    obtain ⟨r, hr⟩ := hok.1
    have ih := ih hok.2 hkey.2
    unfold resolved at ih ⊢
    by_cases h : j = k
    · simp [hr, hkey.1, h] at ih ⊢; exact ih
    · simp [hr, hkey.1, h] at ih ⊢; exact ih

/-- A round of the timer serves the queue of its key only. -/
theorem handleKey_waiting (j : String) : waiting (handleKey config now s j) k =
    if j = k then (waiting s k).drop config.leaksPerSecond else waiting s k := by
  unfold handleKey waiting
  by_cases h : (s.map.get j).getD [] = []
  · simp only [if_pos h]
    split
    · rename_i hk; subst hk; simp [h]
    · rfl
  · simp only [if_neg h, OMap.get_set]
    split
    · rename_i hk; subst hk
      simp only [Option.getD_some, passRequests_count, Nat.sub_zero, Nat.zero_add, List.map_drop]
      by_cases hl : config.leaksPerSecond ≤ ((s.map.get j).getD []).length
      · rw [min_eq_left hl]
      · rw [min_eq_right (by omega), List.drop_eq_nil_of_le (by simp), List.drop_eq_nil_of_le (by simp; omega)]
    · rfl

/-- A round releases the head of its own queue. -/
theorem handleKey_released (hs : Sorted s) (j : String) :
    released (handleKey config now s j) k =
      released s k ++ if j = k then (waiting s k).take config.leaksPerSecond else [] := by
  unfold handleKey released
  by_cases h : (s.map.get j).getD [] = []
  · simp only [if_pos h]
    split
    · rename_i hk; subst hk; simp [waiting, h]
    · simp
  · simp only [if_neg h, resolved_append]
    rw [resolved_of_ok (j := j) (passRequests_ok _ _ _)]
    · rw [passRequests_calls, Nat.sub_zero, List.map_take]
      split
      · rename_i hk; subst hk; rfl
      · rfl
    · intro c hc
      rw [passRequests_calls, List.map_take] at hc
      exact hs j c (List.mem_of_mem_take hc)

theorem handleKey_sorted (config : Config) (now : ℕ) (hs : Sorted s) (j : String) :
    Sorted (handleKey config now s j) := by
  intro k c hc
  rw [handleKey_waiting] at hc
  split at hc
  · exact hs k c (List.mem_of_mem_drop hc)
  · exact hs k c hc

/-- The rounds of one tick, over distinct keys. -/
theorem foldl_handleKey (config : Config) (now : ℕ) (k : String) {ks : List String} (hnd : ks.Nodup) :
    ∀ {s : State}, Sorted s → Sorted (ks.foldl (handleKey config now) s) ∧
      waiting (ks.foldl (handleKey config now) s) k =
        (if k ∈ ks then (waiting s k).drop config.leaksPerSecond else waiting s k) ∧
      released (ks.foldl (handleKey config now) s) k =
        released s k ++ (if k ∈ ks then (waiting s k).take config.leaksPerSecond else []) := by
  induction ks with
  | nil => intro s hs; simp [hs]
  | cons j ks ih =>
    intro s hs
    obtain ⟨hj, hnd⟩ := List.nodup_cons.1 hnd
    obtain ⟨h1, h2, h3⟩ := ih hnd (handleKey_sorted config now hs j)
    rw [List.foldl_cons]
    refine ⟨h1, ?_, ?_⟩
    · -- the round of `k` comes once, the keys being distinct
      rw [h2, handleKey_waiting]
      by_cases hk : j = k
      · subst hk; simp [hj]
      · simp [hk, Ne.symm hk]
    · rw [h3, handleKey_released hs, handleKey_waiting]
      by_cases hk : j = k
      · subst hk; simp [hj]
      · simp [hk, Ne.symm hk]

theorem waiting_of_not_mem (h : k ∉ s.map.keys) : waiting s k = [] := by
  simp [waiting, OMap.get_eq_none.2 h]

/-- **One tick** serves the head of every queue. -/
theorem handler_spec (config : Config) (now : ℕ) (hs : Sorted s) (k : String) : Sorted (handler config now s) ∧
    waiting (handler config now s) k = (waiting s k).drop config.leaksPerSecond ∧
    released (handler config now s) k =
      released s k ++ (waiting s k).take config.leaksPerSecond := by
  obtain ⟨h1, h2, h3⟩ := foldl_handleKey config now k s.map.keys_nodup hs
  refine ⟨h1, h2.trans ?_, h3.trans ?_⟩
  · split
    · rfl
    · rename_i hk; simp [waiting_of_not_mem hk]
  · split
    · rfl
    · rename_i hk; simp [waiting_of_not_mem hk]

/-! ## One request -/

/-- The request is answered with a failure at once. -/
def Rejects (config : Config) (s : State) (c : Call) (score : ℕ) (limits : QuotaLimits) : Prop :=
  (request config c score limits s).replies = s.replies ++ [(c, .requested (.error tooManyRequests))]

instance (c : Call) (score : ℕ) (limits : QuotaLimits) : Decidable (Rejects config s c score limits) :=
  inferInstanceAs (Decidable (_ = _))

variable {c : Call} {score : ℕ} {limits : QuotaLimits}

theorem length_waiting (s : State) (k : String) :
    (waiting s k).length = ((s.map.get k).getD []).length := by
  simp [waiting]

/-- Opening an empty queue changes no queue. -/
theorem getD_open (m : OMap String (List Waiting)) (j k : String) :
    ((if m.get j = none then m.set j [] else m).get k).getD [] = (m.get k).getD [] := by
  split
  · rename_i hj
    rw [OMap.get_set]
    split
    · rename_i hk; subst hk; simp [hj]
    · rfl
  · rfl

/-- A request that finds its queue full changes nothing but its own answer. -/
theorem request_full (h : config.capacity ≤ (waiting s (key c.userId c.token)).length) :
    request config c score limits s =
      ⟨s.map, s.replies ++ [(c, .requested (.error tooManyRequests))]⟩ := by
  rw [length_waiting] at h
  unfold request
  cases hg : s.map.get (key c.userId c.token) with
  | none =>
    have := config.capacity_pos
    rw [hg] at h
    simp at h; omega
  | some q =>
    rw [hg] at h
    simp only [reduceCtorEq, if_false, hg]
    rw [if_pos h]

/-- A request that finds room waits at the end of its queue. -/
theorem request_room (score : ℕ) (limits : QuotaLimits)
    (h : (waiting s (key c.userId c.token)).length < config.capacity) :
    (request config c score limits s).replies = s.replies ∧
    ∀ k, ((request config c score limits s).map.get k).getD [] =
      (s.map.get k).getD [] ++ if key c.userId c.token = k then [⟨limits, c⟩] else [] := by
  rw [length_waiting] at h
  unfold request
  simp only [getD_open, if_neg (not_le.2 h)]
  refine ⟨trivial, fun k => ?_⟩
  rw [OMap.get_set]
  split
  · rename_i hk; subst hk; rfl
  · rw [getD_open, List.append_nil]

/-- A request is rejected iff its queue is full. -/
theorem rejects_iff : Rejects config s c score limits ↔
    config.capacity ≤ (waiting s (key c.userId c.token)).length := by
  unfold Rejects
  by_cases h : config.capacity ≤ (waiting s (key c.userId c.token)).length
  · simp [request_full h, h]
  · simp [(request_room score limits (not_le.1 h)).1, h]

/-- **One request** joins its queue or fails; it changes no other queue. -/
theorem request_waiting : waiting (request config c score limits s) k =
    if key c.userId c.token = k ∧ (waiting s k).length < config.capacity then waiting s k ++ [c]
    else waiting s k := by
  by_cases h : config.capacity ≤ (waiting s (key c.userId c.token)).length
  · rw [request_full h, if_neg]
    · rfl
    · rintro ⟨rfl, hlt⟩; omega
  · have hr := (request_room score limits (not_le.1 h)).2 k
    unfold waiting at h ⊢
    rw [hr]
    by_cases hk : key c.userId c.token = k
    · subst hk; simp at h; simp [h]
    · simp [hk]

/-- A request that waits is not released yet. -/
theorem request_released : released (request config c score limits s) k = released s k := by
  by_cases h : config.capacity ≤ (waiting s (key c.userId c.token)).length
  · simp [request_full h, released, resolved]
  · simp [released, (request_room score limits (not_le.1 h)).1]

theorem request_sorted (hs : Sorted s) : Sorted (request config c score limits s) := by
  intro k d hd
  rw [request_waiting] at hd
  split at hd
  · rename_i h
    rcases List.mem_append.1 hd with hd | hd
    · exact hs k d hd
    · rw [List.mem_singleton.1 hd]; exact h.1
  · exact hs k d hd

/-! ## A key is a queue -/

/-- What an event is for one key. -/
def op (k : String) : Event → Option (Queue.Op Call)
  | .request c _ _ => if key c.userId c.token = k then some (.arrive c) else none
  | .quota _ _ _ => none
  | .tick _ => some .serve

/-- The requests of a key that are let in, in the order they are made. -/
def accepted (config : Config) (k : String) : State → List Event → List Call
  | _, [] => []
  | s, e :: es =>
    (match e with
      | .request c score limits =>
        if key c.userId c.token = k ∧ ¬ Rejects config s c score limits then [c] else []
      | _ => []) ++ accepted config k (step config s e) es

/-- The state and the queue of a key agree. -/
structure Agrees (k : String) (s : State) (q : Queue Call) : Prop where
  sorted : Sorted s
  queue : waiting s k = q.waiting
  log : released s k = q.served

variable {q : Queue Call}

/-- An arrival at the queue of the key. -/
theorem Agrees.request (config : Config) (h : Agrees k s q) (hk : key c.userId c.token = k) (score : ℕ)
    (limits : QuotaLimits) : Agrees k (request config c score limits s)
      (Queue.step config.capacity config.leaksPerSecond q (.arrive c)) := by
  refine ⟨request_sorted h.sorted, ?_, ?_⟩
  · rw [request_waiting, h.queue]
    simp only [Queue.step, hk, true_and]
    split <;> rfl
  · rw [request_released, h.log]
    simp only [Queue.step]
    split <;> rfl

/-- A request of another key. -/
theorem Agrees.request_other (config : Config) (h : Agrees k s q) (hk : key c.userId c.token ≠ k) (score : ℕ)
    (limits : QuotaLimits) : Agrees k (LeakyBucket.request config c score limits s) q :=
  ⟨request_sorted h.sorted, by rw [request_waiting, if_neg fun hc => hk hc.1, h.queue],
    by rw [request_released, h.log]⟩

/-- A summary leaves the queues. -/
theorem Agrees.quota (config : Config) (h : Agrees k s q) (c : Call) (limits : QuotaLimits) (now : ℕ) :
    Agrees k (quota config c limits now s) q :=
  ⟨h.sorted, h.queue, by
    rw [← h.log]; simp [released, LeakyBucket.quota, resolved]⟩

/-- A tick serves the queue of the key once. -/
theorem Agrees.tick (config : Config) (h : Agrees k s q) (now : ℕ) : Agrees k (handler config now s)
    (Queue.step config.capacity config.leaksPerSecond q .serve) := by
  obtain ⟨h1, h2, h3⟩ := handler_spec config now h.sorted k
  exact ⟨h1, by rw [h2, h.queue]; rfl, by rw [h3, h.queue, h.log]; rfl⟩

/-- **Every key is a bounded queue** of its own requests, served by the ticks. -/
theorem refines_queue {es : List Event} : ∀ {s : State} {q : Queue Call}, Agrees k s q →
    Agrees k (es.foldl (step config) s)
      (Queue.run config.capacity config.leaksPerSecond q (es.filterMap (op k))) ∧
    (Queue.run config.capacity config.leaksPerSecond q (es.filterMap (op k))).accepted =
      q.accepted ++ accepted config k s es := by
  induction es with
  | nil => intro s q h; exact ⟨h, by simp [accepted]⟩
  | cons e es ih =>
    intro s q h
    cases e with
    | request c score limits =>
      by_cases hk : key c.userId c.token = k
      · have hop : (Event.request c score limits :: es).filterMap (op k) =
            .arrive c :: es.filterMap (op k) := by simp [op, hk]
        obtain ⟨h1, h2⟩ := ih (h.request config hk score limits)
        rw [hop]
        refine ⟨h1, h2.trans ?_⟩
        -- the request is let in exactly if the queue has room for its arrival
        have hrej : Rejects config s c score limits ↔ ¬ q.waiting.length < config.capacity := by
          rw [rejects_iff, hk, h.queue, not_lt]
        by_cases hlt : q.waiting.length < config.capacity
        · simp [accepted, step, hk, hrej, hlt, Queue.step]
        · simp [accepted, step, hk, hrej, hlt, Queue.step]
      · -- a request of another key is no operation of this queue
        have hop : (Event.request c score limits :: es).filterMap (op k) = es.filterMap (op k) := by
          simp [op, hk]
        obtain ⟨h1, h2⟩ := ih (h.request_other config hk score limits)
        rw [hop]
        exact ⟨h1, h2.trans (by simp [accepted, step, hk])⟩
    | quota c limits now =>
      obtain ⟨h1, h2⟩ := ih (h.quota config c limits now)
      exact ⟨h1, h2.trans (by simp [accepted, step])⟩
    | tick now =>
      obtain ⟨h1, h2⟩ := ih (h.tick config now)
      exact ⟨h1, h2.trans (by simp [accepted, step, Queue.step])⟩

/-- **Each key is a queue**, over every run. -/
theorem run_agrees (config : Config) (es : List Event) (k : String) : Agrees k (run config es)
      (Queue.run config.capacity config.leaksPerSecond .empty (es.filterMap (op k))) ∧
    (Queue.run config.capacity config.leaksPerSecond .empty (es.filterMap (op k))).accepted =
      accepted config k init es := by
  have h : Agrees k init .empty := ⟨by simp [Sorted, waiting, init], by simp [waiting, init, Queue.empty], rfl⟩
  exact refines_queue h

/-! ## Results -/

/-- The calls of `request`. -/
def requests (es : List Event) : List Call :=
  es.filterMap fun
    | .request c _ _ => some c
    | _ => none

/-- The number of ticks. -/
def ticks (es : List Event) : ℕ :=
  es.countP fun
    | .tick _ => true
    | _ => false

/-- The event is a tick or a request of the key. -/
def concerns (k : String) (e : Event) : Bool := (op k e).isSome

theorem accepted_sublist (k : String) (s : State) (es : List Event) :
    (accepted config k s es).Sublist (requests es) := by
  induction es generalizing s with
  | nil => exact List.Sublist.refl _
  | cons e es ih =>
    cases e with
    | request c score limits =>
      simp only [accepted, requests, List.filterMap_cons]
      split
      · exact (ih _).cons_cons c
      · exact (ih _).cons c
    | quota c limits now => simpa [accepted, requests] using ih _
    | tick now => simpa [accepted, requests] using ih _

theorem serves_ops (k : String) (es : List Event) : Queue.serves (es.filterMap (op k)) = ticks es := by
  rw [Queue.serves, List.countP_filterMap, ticks]
  congr 1
  funext e
  cases e with
  | request c score limits => by_cases hk : key c.userId c.token = k <;> simp [op, hk]
  | quota c limits now => rfl
  | tick now => rfl

theorem filterMap_concerns (k : String) (es : List Event) :
    (es.filter (concerns k)).filterMap (op k) = es.filterMap (op k) := by
  rw [List.filterMap_filter]
  congr 1
  funext e
  cases h : op k e <;> simp [concerns, h]

/-- **Queue discipline.** In every run of distinct calls: at most `capacity` requests of a key
wait; what was let in is what was released, in that order, followed by what waits; other keys
make no difference; a request fails at once exactly if its queue is full; one let in at
position `p` is released once, by the tick of number `⌈p / leaksPerSecond⌉` and not before. -/
theorem discipline (config : Config) (es : List Event) (hid : (requests es).Nodup) (k : String) :
    (waiting (run config es) k).length ≤ config.capacity ∧
    accepted config k init es = released (run config es) k ++ waiting (run config es) k ∧
    (released (run config es) k = released (run config (es.filter (concerns k))) k ∧
      waiting (run config es) k = waiting (run config (es.filter (concerns k))) k) ∧
    ∀ es₁ c score limits es₂, es = es₁ ++ .request c score limits :: es₂ →
      key c.userId c.token = k →
      (Rejects config (run config es₁) c score limits ↔
        (waiting (run config es₁) k).length = config.capacity) ∧
      (¬ Rejects config (run config es₁) c score limits →
        (released (run config es) k).count c =
          if ((waiting (run config es₁) k).length + 1) ⌈/⌉ config.leaksPerSecond ≤ ticks es₂
          then 1 else 0) := by
  obtain ⟨hA, hacc⟩ := run_agrees config es k
  have hcons := Queue.accepted_run config.capacity config.leaksPerSecond
    (q := .empty) (es.filterMap (op k)) rfl
  have hF := (run_agrees config (es.filter (concerns k)) k).1
  rw [filterMap_concerns] at hF
  refine ⟨?_, ?_, ⟨hA.log.trans hF.log.symm, hA.queue.trans hF.queue.symm⟩, ?_⟩
  · rw [hA.queue]; exact Queue.length_waiting_run _ _ _ (Nat.zero_le _)
  · rw [← hacc, hcons, hA.queue, hA.log]
  intro es₁ c score limits es₂ hes hk
  obtain ⟨hA₁, -⟩ := run_agrees config es₁ k
  have hcap := Queue.length_waiting_run config.capacity config.leaksPerSecond
    (q := .empty) (es₁.filterMap (op k)) (Nat.zero_le _)
  rw [← hA₁.queue] at hcap
  have hrej : Rejects config (run config es₁) c score limits ↔
      config.capacity ≤ (waiting (run config es₁) k).length := by rw [rejects_iff, hk]
  refine ⟨by rw [hrej]; omega, fun hno => ?_⟩
  -- the queue just after the request, with the request at its end
  have hlt : (waiting (run config es₁) k).length < config.capacity := not_le.1 (mt hrej.2 hno)
  set q₁ := Queue.run config.capacity config.leaksPerSecond .empty (es₁.filterMap (op k)) with hq₁
  set q₂ := Queue.step config.capacity config.leaksPerSecond q₁ (.arrive c) with hq₂
  have hstep : q₂ = ⟨q₁.waiting ++ [c], q₁.accepted ++ [c], q₁.served⟩ := by
    rw [hA₁.queue] at hlt
    rw [hq₂, Queue.step, if_pos hlt]
  have hops : es.filterMap (op k) = es₁.filterMap (op k) ++ .arrive c :: es₂.filterMap (op k) := by
    simp [hes, op, hk]
  have hrun : Queue.run config.capacity config.leaksPerSecond .empty (es.filterMap (op k)) =
      Queue.run config.capacity config.leaksPerSecond q₂ (es₂.filterMap (op k)) := by
    rw [hops, Queue.run_append, Queue.run_cons]
  have hq : q₂.accepted = q₂.served ++ q₂.waiting := by
    have h := Queue.accepted_run config.capacity config.leaksPerSecond
      (q := .empty) (es₁.filterMap (op k)) rfl
    rw [hstep, ← List.append_assoc, ← h]
  -- distinct calls, so that the place in the queue tells the tick
  have hnd : (Queue.run config.capacity config.leaksPerSecond q₂ (es₂.filterMap (op k))).accepted.Nodup := by
    rw [← hrun, hacc]; exact (accepted_sublist k init es).nodup hid
  have hat : q₂.waiting[(waiting (run config es₁) k).length + 1 - 1]? = some c := by
    rw [hstep, hA₁.queue]; simp [hq₁]
  have hcount := Queue.count_served hq hnd config.leaks_pos (Nat.succ_pos _) hat
  rw [hA.log, hrun, hcount, serves_ops]

/-- Two waiting places, one leak per second. -/
def small : Config := ⟨2, 1, by decide, by decide⟩

/-- Three requests at once: the second waits for two ticks, the third fails. -/
theorem discipline_small :
    let es : List Event := [.request ⟨0, "u", "t"⟩ 1 defaultQuotaLimits,
      .request ⟨1, "u", "t"⟩ 1 defaultQuotaLimits, .request ⟨2, "u", "t"⟩ 1 defaultQuotaLimits,
      .tick 1000, .tick 2000]
    (waiting (run small es) "u:t").length ≤ 2 ∧
    accepted small "u:t" init es = released (run small es) "u:t" ++ waiting (run small es) "u:t" ∧
    (released (run small es) "u:t").count ⟨1, "u", "t"⟩ = 1 := by
  intro es
  have h := discipline small es (by decide) "u:t"
  refine ⟨h.1, h.2.1, ?_⟩
  have hr := (h.2.2.2 [.request ⟨0, "u", "t"⟩ 1 defaultQuotaLimits] ⟨1, "u", "t"⟩ 1 defaultQuotaLimits
    [.request ⟨2, "u", "t"⟩ 1 defaultQuotaLimits, .tick 1000, .tick 2000] rfl (by decide)).2 (by decide +kernel)
  exact hr.trans (by decide +kernel)

end NodeToolkit.LeakyBucket
