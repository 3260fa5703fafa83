import NodeToolkit.Proof.Isolation
import NodeToolkit.Proof.LeakyBucket

/-!
# Clients that do not interfere: the leaky bucket

The timer reads the client off the key of a queue, `key.split(':')`, and reports the
queue of that client. For a key with more than one `:` this is another queue
(`readKey`), so a request is told how full a stranger's queue is.

* `isolated_iff`: a client is isolated from another exactly if their keys differ and
  the other's key is not the one that the timer reads for the first.
* `clients_isolated_iff`: the four algorithms together.
-/

namespace NodeToolkit.LeakyBucket

/-- The key that the timer looks up when it serves the queue `k`. -/
def readKey (k : String) : String := key (reverseKey k).1 (reverseKey k).2

/-- The event is a request of one of the calls. -/
def Event.isRequestOf (D : Call → Bool) : Event → Bool
  | .request c _ _ => D c
  | _ => false

/-- A run without some requests. -/
def without (D : Call → Bool) (es : List Event) : List Event := es.filter fun e => !e.isRequestOf D

/-- The replies to the calls of a client. -/
def repliesTo (u t : String) (replies : List (Call × RateReply)) : List (Call × RateReply) :=
  replies.filter fun e => e.1.userId = u ∧ e.1.token = t

/-- **Isolation.** Whatever requests of the second client are left out of a run, the calls of the
first get the same replies in the same order. -/
def Isolated (config : Config) (u t u' t' : String) : Prop :=
  ∀ (D : Call → Bool) (es : List Event), (∀ c, D c = true → c.userId = u' ∧ c.token = t') →
    repliesTo u t (run config es).replies = repliesTo u t (run config (without D es)).replies

variable {config : Config} {u t : String} {s s' : State} {k j : String} {now : ℕ}

theorem repliesTo_append (l l' : List (Call × RateReply)) :
    repliesTo u t (l ++ l') = repliesTo u t l ++ repliesTo u t l' := List.filter_append ..

/-- Replies to calls with another key are none of the client's. -/
theorem repliesTo_eq_nil {l : List (Call × RateReply)} (hne : k ≠ key u t)
    (h : ∀ c ∈ l.map Prod.fst, key c.userId c.token = k) : repliesTo u t l = [] := by
  refine List.filter_eq_nil_iff.2 fun e he hc => hne ?_
  obtain ⟨hu, ht⟩ : e.1.userId = u ∧ e.1.token = t := by simpa using hc
  rw [← h e.1 (List.mem_map_of_mem he), hu, ht]

theorem repliesTo_single_ne {c : Call} {r : RateReply} (hne : key c.userId c.token ≠ key u t) :
    repliesTo u t [(c, r)] = [] := repliesTo_eq_nil hne (by simp)

/-! ## Two states that differ in one queue -/

/-- The states differ at most in the queue `j` and in replies that are none of the client's. -/
def Alike (u t j : String) (s s' : State) : Prop :=
  s.map.erase j = s'.map.erase j ∧ repliesTo u t s.replies = repliesTo u t s'.replies

theorem Alike.refl (s : State) : Alike u t j s s := ⟨rfl, rfl⟩

theorem Alike.symm (h : Alike u t j s s') : Alike u t j s' s := ⟨h.1.symm, h.2.symm⟩

theorem Alike.trans {s'' : State} (h : Alike u t j s s') (h' : Alike u t j s' s'') : Alike u t j s s'' :=
  ⟨h.1.trans h'.1, h.2.trans h'.2⟩

theorem Alike.get (h : Alike u t j s s') (hne : j ≠ k) : s.map.get k = s'.map.get k := by
  have he := congrArg (fun m => m.get k) h.1
  simpa only [OMap.get_erase, if_neg hne] using he

/-- What a round of the timer for the queue `k` does. -/
theorem handleKey_of_some {w : Waiting} {q : List Waiting} (h : s.map.get k = some (w :: q)) :
    handleKey config now s k = ⟨s.map.set k ((w :: q).drop (min config.leaksPerSecond (w :: q).length)),
      s.replies ++ (passRequests config (calculateRemaining config s.map (reverseKey k).1 (reverseKey k).2)
        now 0 (w :: q)).1⟩ := by
  unfold handleKey
  rw [h]
  simp only [Option.getD_some, reduceCtorEq, if_false, passRequests_count, Nat.sub_zero, Nat.zero_add]

theorem handleKey_of_empty (h : (s.map.get k).getD [] = []) : handleKey config now s k = s := by
  unfold handleKey; rw [if_pos h]

/-- The calls that a round for the queue `k` answers have the key `k`. -/
theorem key_of_passed (hs : Sorted s) {q : List Waiting} (h : s.map.get k = some q) (remaining : Remaining) :
    ∀ c ∈ (passRequests config remaining now 0 q).1.map Prod.fst, key c.userId c.token = k := by
  intro c hc
  rw [passRequests_calls, Nat.sub_zero, List.map_take] at hc
  refine hs k c ?_
  unfold waiting
  rw [h]
  exact List.mem_of_mem_take hc

/-- A round for the queue in which the states differ, in one of them. -/
theorem handleKey_alike_self (hs : Sorted s) (hne : j ≠ key u t) :
    Alike u t j (handleKey config now s j) s := by
  cases hg : s.map.get j with
  | none => rw [handleKey_of_empty (by rw [hg]; rfl)]; exact .refl s
  | some q =>
    cases q with
    | nil => rw [handleKey_of_empty (by rw [hg]; rfl)]; exact .refl s
    | cons w q =>
      rw [handleKey_of_some hg]
      refine ⟨OMap.erase_set_self, ?_⟩
      rw [repliesTo_append, repliesTo_eq_nil hne (key_of_passed hs hg _), List.append_nil]

/-- A round for another queue, in both. -/
theorem handleKey_alike (hs : Sorted s) (h : Alike u t j s s') (hne : k ≠ j) (hread : readKey (key u t) ≠ j) :
    Alike u t j (handleKey config now s k) (handleKey config now s' k) := by
  have hget := h.get hne.symm
  cases hg : s.map.get k with
  | none =>
    rw [handleKey_of_empty (by rw [hg]; rfl), handleKey_of_empty (by rw [← hget, hg]; rfl)]
    exact h
  | some q =>
    cases q with
    | nil =>
      rw [handleKey_of_empty (by rw [hg]; rfl), handleKey_of_empty (by rw [← hget, hg]; rfl)]
      exact h
    | cons w q =>
      rw [handleKey_of_some hg, handleKey_of_some (hget.symm.trans hg)]
      refine ⟨by rw [OMap.erase_set_ne hne, OMap.erase_set_ne hne, h.1], ?_⟩
      rw [repliesTo_append, repliesTo_append, h.2]
      by_cases hk : k = key u t
      · -- the client's own queue: the timer reads the same queue in both states
        have hrem : calculateRemaining config s.map (reverseKey k).1 (reverseKey k).2 =
            calculateRemaining config s'.map (reverseKey k).1 (reverseKey k).2 := by
          have hsame : s.map.get (key (reverseKey k).1 (reverseKey k).2) =
              s'.map.get (key (reverseKey k).1 (reverseKey k).2) := h.get (by rw [hk]; exact hread.symm)
          unfold calculateRemaining
          rw [hsame]
        rw [hrem]
      · have hcalls : ∀ remaining, ∀ c ∈ (passRequests config remaining now 0 (w :: q)).1.map Prod.fst,
            key c.userId c.token = k := fun remaining => key_of_passed hs hg remaining
        rw [repliesTo_eq_nil hk (hcalls _), repliesTo_eq_nil hk (hcalls _)]

/-- The rounds of a tick, the ones for the queue `j` left out on one side. -/
theorem foldl_alike (config : Config) (now : ℕ) (hne : j ≠ key u t) (hread : readKey (key u t) ≠ j) (ks : List String) :
    ∀ {s s' : State}, Sorted s → Alike u t j s s' → Alike u t j (ks.foldl (handleKey config now) s)
      ((ks.filter (· ≠ j)).foldl (handleKey config now) s') := by
  induction ks with
  | nil => exact fun _ h => h
  | cons k ks ih =>
    intro s s' hs h
    rw [List.foldl_cons]
    by_cases hk : k = j
    · subst hk
      rw [List.filter_cons_of_neg (by simp)]
      exact ih (handleKey_sorted config now hs k) ((handleKey_alike_self hs hne).trans h)
    · rw [List.filter_cons_of_pos (by simpa using hk), List.foldl_cons]
      exact ih (handleKey_sorted config now hs k) (handleKey_alike hs h hk hread)

/-- **A tick.** -/
theorem handler_alike (hs : Sorted s) (hs' : Sorted s') (h : Alike u t j s s') (hne : j ≠ key u t)
    (hread : readKey (key u t) ≠ j) : Alike u t j (handler config now s) (handler config now s') := by
  have hkeys : s.map.keys.filter (· ≠ j) = s'.map.keys.filter (· ≠ j) := by
    rw [← OMap.keys_erase, ← OMap.keys_erase, h.1]
  have h1 := foldl_alike config now hne hread s.map.keys hs h
  have h2 := foldl_alike config now hne hread s'.map.keys hs' (.refl s')
  rw [hkeys] at h1
  exact h1.trans h2.symm

/-- A request of the queue in which the states differ, in one of them. -/
theorem request_alike_self {c : Call} (hk : key c.userId c.token = j) (hne : j ≠ key u t) (score : ℕ)
    (limits : QuotaLimits) : Alike u t j (request config c score limits s) s := by
  subst hk
  by_cases hfull : config.capacity ≤ (waiting s (key c.userId c.token)).length
  · rw [request_full hfull]
    refine ⟨rfl, ?_⟩
    rw [repliesTo_append, repliesTo_single_ne hne, List.append_nil]
  · refine ⟨?_, by rw [(request_room score limits (not_le.1 hfull)).1]⟩
    unfold request
    rw [length_waiting] at hfull
    simp only [getD_open, if_neg hfull, OMap.erase_set_self]
    split
    · exact OMap.erase_set_self
    · rfl

/-- A request of another queue, in both. -/
theorem request_alike {c : Call} (h : Alike u t j s s') (hk : key c.userId c.token ≠ j) (score : ℕ)
    (limits : QuotaLimits) :
    Alike u t j (request config c score limits s) (request config c score limits s') := by
  have hget := h.get (Ne.symm hk)
  have hopen : (if s.map.get (key c.userId c.token) = none then s.map.set (key c.userId c.token) [] else
        s.map).erase j = (if s'.map.get (key c.userId c.token) = none then
          s'.map.set (key c.userId c.token) [] else s'.map).erase j := by
    rw [hget]
    split
    · rw [OMap.erase_set_ne hk, OMap.erase_set_ne hk, h.1]
    · exact h.1
  unfold request
  simp only [getD_open]
  rw [hget] at hopen ⊢
  split
  · refine ⟨hopen, ?_⟩
    rw [repliesTo_append, repliesTo_append, h.2]
  · refine ⟨?_, h.2⟩
    simp only [OMap.erase_set_ne hk, hopen]

/-- A call of `quota`, in both. -/
theorem quota_alike (h : Alike u t j s s') (hne : j ≠ key u t) (c : Call) (limits : QuotaLimits) (now : ℕ) :
    Alike u t j (quota config c limits now s) (quota config c limits now s') := by
  refine ⟨h.1, ?_⟩
  unfold quota
  simp only [repliesTo_append, h.2]
  by_cases hk : key c.userId c.token = key u t
  · have hget : s.map.get (key c.userId c.token) = s'.map.get (key c.userId c.token) :=
      h.get (by rw [hk]; exact hne)
    unfold calculateRemaining
    rw [hget]
  · rw [repliesTo_single_ne hk, repliesTo_single_ne hk]

theorem step_sorted (hs : Sorted s) (e : Event) : Sorted (step config s e) := by
  cases e with
  | request c score limits =>
    show Sorted (request config c score limits s)
    exact request_sorted hs
  | quota c limits now => exact hs
  | tick now => exact (handler_spec config now hs "").1

/-- **A run** and the run without some requests of the queue `j`. -/
theorem run_alike {D : Call → Bool} (hD : ∀ c, D c = true → key c.userId c.token = j) (hne : j ≠ key u t)
    (hread : readKey (key u t) ≠ j) (es : List Event) : ∀ {s s' : State}, Sorted s → Sorted s' →
      Alike u t j s s' → Alike u t j (es.foldl (step config) s) ((without D es).foldl (step config) s') := by
  induction es with
  | nil => exact fun _ _ h => h
  | cons e es ih =>
    intro s s' hs hs' h
    unfold without at ih ⊢
    rw [List.foldl_cons]
    cases e with
    | request c score limits =>
      by_cases hc : D c = true
      · rw [List.filter_cons_of_neg (by simp [Event.isRequestOf, hc])]
        exact ih (step_sorted hs _) hs' ((request_alike_self (hD c hc) hne score limits).trans h)
      · rw [List.filter_cons_of_pos (by simp [Event.isRequestOf, hc]), List.foldl_cons]
        refine ih (step_sorted hs _) (step_sorted hs' _) ?_
        -- a request of `j` that stays in the run is as hidden as one left out
        by_cases hk : key c.userId c.token = j
        · exact (request_alike_self hk hne score limits).trans
            (h.trans (request_alike_self hk hne score limits).symm)
        · exact request_alike h hk score limits
    | quota c limits now =>
      rw [List.filter_cons_of_pos (by simp [Event.isRequestOf]), List.foldl_cons]
      exact ih (step_sorted hs _) (step_sorted hs' _) (quota_alike h hne c limits now)
    | tick now =>
      rw [List.filter_cons_of_pos (by simp [Event.isRequestOf]), List.foldl_cons]
      exact ih (step_sorted hs _) (step_sorted hs' _) (handler_alike hs hs' h hne hread)

theorem sorted_init : Sorted init := by
  intro k c hc
  simp [waiting, init] at hc

variable {u' t' : String}

theorem isolated (hne : key u t ≠ key u' t') (hread : readKey (key u t) ≠ key u' t') :
    Isolated config u t u' t' := by
  intro D es hD
  have hkey : ∀ c, D c = true → key c.userId c.token = key u' t' := by
    intro c hc
    rw [(hD c hc).1, (hD c hc).2]
  exact (run_alike hkey hne.symm hread es sorted_init sorted_init (.refl init)).2

/-! ## Interference -/

/-- Rounds of other queues give the client no reply. -/
theorem repliesTo_foldl (now : ℕ) {ks : List String} (hk : key u t ∉ ks) : ∀ {s : State}, Sorted s →
    repliesTo u t (ks.foldl (handleKey config now) s).replies = repliesTo u t s.replies := by
  induction ks with
  | nil => exact fun _ => rfl
  | cons k ks ih =>
    intro s hs
    rw [List.mem_cons, not_or] at hk
    rw [List.foldl_cons, ih hk.2 (handleKey_sorted config now hs k)]
    exact (handleKey_alike_self hs (Ne.symm hk.1)).2

/-- The first round of a tick serves the queue of the client's only waiting request; the others
do not concern it. -/
theorem repliesTo_handler (now : ℕ) (hs : Sorted s) {c : Call} {limits : QuotaLimits} {ks : List String}
    (hc : c.userId = u ∧ c.token = t) (hkeys : s.map.keys = key u t :: ks)
    (hget : s.map.get (key u t) = some [⟨limits, c⟩]) :
    repliesTo u t (handler config now s).replies = repliesTo u t s.replies ++
      [(c, .requested (.ok (summary limits (calculateRemaining config s.map (reverseKey (key u t)).1
        (reverseKey (key u t)).2) 1 (some (now + 1000)))))] := by
  have hleaks := config.leaks_pos
  have hpass : ∀ remaining, (passRequests config remaining now 0 [⟨limits, c⟩]).1 =
      [(c, .requested (.ok (summary limits remaining 1 (some (now + 1000)))))] := by
    intro remaining
    simp only [passRequests, if_neg (show ¬ config.leaksPerSecond ≤ 0 by omega)]
  have hnot : key u t ∉ ks := by
    have hnd := s.map.keys_nodup
    rw [hkeys] at hnd
    exact (List.nodup_cons.1 hnd).1
  unfold handler
  rw [hkeys, List.foldl_cons, repliesTo_foldl now hnot (handleKey_sorted config now hs _),
    handleKey_of_some hget, repliesTo_append, hpass]
  congr 1
  simp [repliesTo, hc]

/-- The first request of a key opens its queue. -/
theorem request_new (s : State) (c : Call) (h : s.map.get (key c.userId c.token) = none) (score : ℕ)
    (limits : QuotaLimits) : request config c score limits s =
      ⟨(s.map.set (key c.userId c.token) []).set (key c.userId c.token) [⟨limits, c⟩], s.replies⟩ := by
  have hcap := config.capacity_pos
  unfold request
  simp [h, show ¬ config.capacity ≤ 0 by omega]

theorem calculateRemaining_of_none {m : OMap String (List Waiting)} (h : m.get (key u t) = none) :
    (calculateRemaining config m u t).perSecond = config.capacity := by
  unfold calculateRemaining; rw [h]

theorem calculateRemaining_of_some {m : OMap String (List Waiting)} {q : List Waiting}
    (h : m.get (key u t) = some q) :
    (calculateRemaining config m u t).perSecond = config.capacity - q.length := by
  unfold calculateRemaining; rw [h]

/-- **The same key**: `quota` counts the other client's request. -/
theorem not_isolated_of_key (he : key u t = key u' t') : ¬ Isolated config u t u' t' := by
  intro hI
  have hsame := hI (fun c => c.userId = u' ∧ c.token = t')
    [.request ⟨0, u', t'⟩ 1 defaultQuotaLimits, .quota ⟨1, u, t⟩ defaultQuotaLimits 0] (by simp)
  have hwithout : without (fun c => c.userId = u' ∧ c.token = t')
      [.request ⟨0, u', t'⟩ 1 defaultQuotaLimits, .quota ⟨1, u, t⟩ defaultQuotaLimits 0] =
        [.quota ⟨1, u, t⟩ defaultQuotaLimits 0] := by
    simp [without, Event.isRequestOf]
  rw [hwithout] at hsame
  simp only [run, List.foldl_cons, List.foldl_nil, step, request_new init ⟨0, u', t'⟩ rfl, quota, ← he] at hsame
  simp [repliesTo, init, summary, calculateRemaining] at hsame

/-- **The key the timer reads**: a released request is told about the other client's queue. -/
theorem not_isolated_of_read (hne : key u t ≠ key u' t') (hread : readKey (key u t) = key u' t') :
    ¬ Isolated config u t u' t' := by
  intro hI
  have hpair : ¬ (u = u' ∧ t = t') := by
    rintro ⟨rfl, rfl⟩
    exact hne rfl
  have hsame := hI (fun c => c.userId = u' ∧ c.token = t')
    [.request ⟨0, u, t⟩ 1 defaultQuotaLimits, .request ⟨1, u', t'⟩ 1 defaultQuotaLimits, .tick 0] (by simp)
  have hwithout : without (fun c => c.userId = u' ∧ c.token = t')
      [.request ⟨0, u, t⟩ 1 defaultQuotaLimits, .request ⟨1, u', t'⟩ 1 defaultQuotaLimits, .tick 0] =
        [.request ⟨0, u, t⟩ 1 defaultQuotaLimits, .tick 0] := by
    rw [without, List.filter_cons_of_pos (by simpa [Event.isRequestOf] using not_and_or.1 hpair),
      List.filter_cons_of_neg (by simp [Event.isRequestOf]), List.filter_cons_of_pos rfl, List.filter_nil]
  rw [hwithout] at hsame
  -- the two states before the tick
  obtain ⟨s₁, hs₁⟩ : ∃ s₁, s₁ = request config ⟨0, u, t⟩ 1 defaultQuotaLimits init := ⟨_, rfl⟩
  obtain ⟨s₂, hs₂⟩ : ∃ s₂, s₂ = request config ⟨1, u', t'⟩ 1 defaultQuotaLimits s₁ := ⟨_, rfl⟩
  simp only [run, List.foldl_cons, List.foldl_nil, step, ← hs₁, ← hs₂] at hsame
  have hsort₁ : Sorted s₁ := by rw [hs₁]; exact request_sorted sorted_init
  have hsort₂ : Sorted s₂ := by rw [hs₂]; exact request_sorted hsort₁
  rw [request_new init ⟨0, u, t⟩ rfl] at hs₁
  have hget₁ : s₁.map.get (key u' t') = none := by
    rw [hs₁, OMap.get_set_ne _ _ hne, OMap.get_set_ne _ _ hne]; rfl
  rw [request_new s₁ ⟨1, u', t'⟩ hget₁] at hs₂
  have hkeys₁ : s₁.map.keys = [key u t] := by
    rw [hs₁, OMap.keys_set_of_mem (OMap.mem_keys.2 ⟨_, OMap.get_set_self ..⟩)]; rfl
  have hkeys₂ : s₂.map.keys = [key u t, key u' t'] := by
    rw [hs₂, OMap.keys_set_of_mem (OMap.mem_keys.2 ⟨_, OMap.get_set_self ..⟩),
      OMap.keys_set_of_not_mem (OMap.get_eq_none.1 hget₁), hkeys₁]
    rfl
  have hown₁ : s₁.map.get (key u t) = some [⟨defaultQuotaLimits, ⟨0, u, t⟩⟩] := by
    rw [hs₁, OMap.get_set_self]
  have hown₂ : s₂.map.get (key u t) = some [⟨defaultQuotaLimits, ⟨0, u, t⟩⟩] := by
    rw [hs₂, OMap.get_set_ne _ _ hne.symm, OMap.get_set_ne _ _ hne.symm, hown₁]
  have hother : s₂.map.get (key u' t') = some [⟨defaultQuotaLimits, ⟨1, u', t'⟩⟩] := by
    rw [hs₂, OMap.get_set_self]
  have hreplies : s₂.replies = s₁.replies := by rw [hs₂]
  have hcall : (Call.mk 0 u t).userId = u ∧ (Call.mk 0 u t).token = t := ⟨rfl, rfl⟩
  rw [repliesTo_handler 0 hsort₂ hcall hkeys₂ hown₂, repliesTo_handler 0 hsort₁ hcall hkeys₁ hown₁, hreplies,
    List.append_cancel_left_eq] at hsame
  have hsum := Except.ok.inj (RateReply.requested.inj (Prod.mk.inj (List.cons.inj hsame).1).2)
  have hrem := congrArg (fun q : QuotaSummary => q.perSecond.remaining) hsum
  simp only [summary] at hrem
  unfold readKey at hread
  rw [← hread] at hget₁ hother
  rw [calculateRemaining_of_some hother, calculateRemaining_of_none hget₁] at hrem
  simp at hrem

theorem isolated_iff : Isolated config u t u' t' ↔
    key u t ≠ key u' t' ∧ readKey (key u t) ≠ key u' t' := by
  refine ⟨fun hI => ?_, fun h => isolated h.1 h.2⟩
  have hne : key u t ≠ key u' t' := fun he => not_isolated_of_key he hI
  exact ⟨hne, fun hread => not_isolated_of_read hne hread hI⟩

end NodeToolkit.LeakyBucket

namespace NodeToolkit

variable {u t u' t' : String}

/-- **Clients do not interfere**, in every run, exactly if their texts differ; in the leaky bucket
the second text, too, must not be what the timer reads for the first. -/
theorem clients_isolated_iff :
    (Isolated FixedWindow.algorithm u t u' t' ↔ clientText u t ≠ clientText u' t') ∧
    (Isolated SlidingWindow.algorithm u t u' t' ↔ clientText u t ≠ clientText u' t') ∧
    (∀ config, Isolated (TokenBucket.algorithm config) u t u' t' ↔ clientText u t ≠ clientText u' t') ∧
    (∀ config, LeakyBucket.Isolated config u t u' t' ↔ clientText u t ≠ clientText u' t' ∧
      LeakyBucket.readKey (clientText u t) ≠ clientText u' t') :=
  ⟨fixedWindow_isolated_iff, slidingWindow_isolated_iff, tokenBucket_isolated_iff,
    fun _ => LeakyBucket.isolated_iff⟩

/-- **One text, two clients**: `a:b` with `c`, and `a` with `b:c`. A request with the token `b:c`
also reads the queue of the token `b`. -/
theorem clients_interfere :
    ¬ Isolated FixedWindow.algorithm "a:b" "c" "a" "b:c" ∧
    ¬ Isolated SlidingWindow.algorithm "a:b" "c" "a" "b:c" ∧
    (∀ config, ¬ Isolated (TokenBucket.algorithm config) "a:b" "c" "a" "b:c") ∧
    (∀ config, ¬ LeakyBucket.Isolated config "a:b" "c" "a" "b:c") ∧
    ∀ config, ¬ LeakyBucket.Isolated config "a" "b:c" "a" "b" := by
  have htext : clientText "a:b" "c" = clientText "a" "b:c" := by decide
  refine ⟨fun h => fixedWindow_isolated_iff.1 h htext, fun h => slidingWindow_isolated_iff.1 h htext,
    fun config h => (tokenBucket_isolated_iff config).1 h htext,
    fun config => LeakyBucket.not_isolated_of_key htext,
    fun config => LeakyBucket.not_isolated_of_read (by decide) (by decide)⟩

end NodeToolkit
