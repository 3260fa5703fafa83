import NodeToolkit.Proof.LeakyIsolation

/-!
# What the leaky bucket tells its clients

A released request is told how much of the capacity is left. The timer computes it from the
queue of the client that it reads off the key, and counts on for each request that it releases.

* `told_eq`: what a tick tells the requests of a key whose client it reads right.
* `truthful_iff`: in every run the summaries are those of the client's own queue if and only if
  neither its user id nor its token has a `:`. Any other client is told about the queue of
  another one.
-/

namespace NodeToolkit.LeakyBucket

variable {config : Config} {u t : String} {s : State} {k j : String} {now : ℕ} {q : List Waiting}

/-! ## The summaries of a tick -/

/-- What is left according to a summary. -/
def left (r : QuotaSummary) : Remaining :=
  ⟨r.perSecond.remaining, r.perMinute.remaining, r.perHour.remaining, r.perDay.remaining⟩

/-- What is left when `n` requests wait. -/
def leftAt (config : Config) (n : ℚ) : Remaining where
  perSecond := config.capacity - n
  perMinute := config.capacity - n + 60 * config.leaksPerSecond
  perHour := config.capacity - n + 3600 * config.leaksPerSecond
  perDay := config.capacity - n + 86400 * config.leaksPerSecond

/-- The calls of a key that a list of answers resolves, with their summaries. -/
def answers (k : String) (replies : List (Call × RateReply)) : List (Call × QuotaSummary) :=
  replies.filterMap fun e => match e.2 with
    | .requested (.ok r) => if key e.1.userId e.1.token = k then some (e.1, r) else none
    | _ => none

/-- The calls of a key that a tick resolves, with their summaries. -/
def told (config : Config) (now : ℕ) (s : State) (k : String) : List (Call × QuotaSummary) :=
  answers k ((handler config now s).replies.drop s.replies.length)

/-- **The summaries are true**: the requests that a tick releases are the first of the client's queue, each is
told what is left once it and those before it are gone, the last one what `quota` says after the tick, and
none is told more than the capacity. -/
structure Truthful (config : Config) (now : ℕ) (s : State) (u t : String) : Prop where
  calls : (told config now s (key u t)).map Prod.fst = (waiting s (key u t)).take config.leaksPerSecond
  remaining : ∀ i (h : i < (told config now s (key u t)).length),
    left (told config now s (key u t))[i].2 = leftAt config ((waiting s (key u t)).length - (i + 1))
  last : ∀ e, (told config now s (key u t)).getLast? = some e → ∀ id limits later, ∃ r,
    (quota config ⟨id, u, t⟩ limits later (handler config now s)).replies =
      (handler config now s).replies ++ [(⟨id, u, t⟩, .quota r)] ∧ left r = left e.2
  bounded : ∀ e ∈ told config now s (key u t), e.2.perSecond.remaining ≤ config.capacity

theorem calculateRemaining_eq (m : OMap String (List Waiting)) : calculateRemaining config m u t =
    leftAt config ((m.get (key u t)).getD []).length := by
  unfold calculateRemaining leftAt
  cases m.get (key u t) with
  | none =>
    simp only [Option.getD_none, List.length_nil, Nat.cast_zero, Remaining.mk.injEq]
    exact ⟨by ring, by ring, by ring, by ring⟩
  | some q =>
    simp only [Option.getD_some, Remaining.mk.injEq]
    exact ⟨trivial, by ring, by ring, by ring⟩

theorem left_summary (limits : QuotaLimits) (n : ℚ) (passed : ℕ) (reset : Option ℕ) :
    left (summary limits (leftAt config n) passed reset) = leftAt config (n - passed) := by
  unfold left summary leftAt
  simp only [Remaining.mk.injEq]
  exact ⟨by ring, by ring, by ring, by ring⟩

/-- The answers to the first requests of a queue, when `n` were answered before them. -/
def given (config : Config) (remaining : Remaining) (now n : ℕ) (q : List Waiting) : List (Call × QuotaSummary) :=
  (q.take (config.leaksPerSecond - n)).mapIdx fun i w =>
    (w.resolver, summary w.limits remaining (n + i + 1) (some (now + 1000)))

/-- **The inner loop** counts the requests that it lets pass. -/
theorem passRequests_eq (remaining : Remaining) (n : ℕ) (q : List Waiting) :
    (passRequests config remaining now n q).1 =
      (given config remaining now n q).map fun e => (e.1, .requested (.ok e.2)) := by
  unfold given
  induction q generalizing n with
  | nil => simp [passRequests]
  | cons w q ih =>
    unfold passRequests
    by_cases h : config.leaksPerSecond ≤ n
    · have hzero : config.leaksPerSecond - n = 0 := by omega
      simp [h, hzero]
    · obtain ⟨m, hm⟩ : ∃ m, config.leaksPerSecond - n = m + 1 := ⟨config.leaksPerSecond - n - 1, by omega⟩
      have hm' : config.leaksPerSecond - (n + 1) = m := by omega
      have hshift : ∀ i : ℕ, n + (i + 1) + 1 = n + 1 + i + 1 := by omega
      simp only [if_neg h, ih, hm, hm', List.take_succ_cons, List.mapIdx_cons, List.map_cons, Nat.add_zero, hshift]

theorem fst_given (config : Config) (remaining : Remaining) (now n : ℕ) (q : List Waiting) :
    (given config remaining now n q).map Prod.fst = (q.take (config.leaksPerSecond - n)).map Waiting.resolver := by
  unfold given
  rw [List.mapIdx_eq_zipIdx_map, List.map_map]
  conv_rhs => rw [← List.zipIdx_map_fst 0 (q.take (config.leaksPerSecond - n)), List.map_map]
  rfl

theorem answers_append (l l' : List (Call × RateReply)) : answers k (l ++ l') = answers k l ++ answers k l' :=
  List.filterMap_append

theorem answers_map_ok (l : List (Call × QuotaSummary)) : answers k (l.map fun e => (e.1, .requested (.ok e.2))) =
    l.filter fun e => key e.1.userId e.1.token = k := by
  unfold answers
  rw [List.filterMap_map]
  induction l with
  | nil => rfl
  | cons e l ih =>
    rw [List.filterMap_cons, ih, List.filter_cons]
    by_cases h : key e.1.userId e.1.token = k
    · simp [h]
    · simp [h]

/-- All the answers to the requests of a queue are for its key. -/
theorem answers_given (hkey : ∀ c ∈ q.map Waiting.resolver, key c.userId c.token = j) (remaining : Remaining)
    (now : ℕ) : answers k ((given config remaining now 0 q).map fun e => (e.1, .requested (.ok e.2))) =
      if j = k then given config remaining now 0 q else [] := by
  have hall : ∀ e ∈ given config remaining now 0 q, key e.1.userId e.1.token = j := by
    intro e he
    have hmem : e.1 ∈ (given config remaining now 0 q).map Prod.fst := List.mem_map_of_mem he
    rw [fst_given, List.map_take] at hmem
    exact hkey e.1 (List.mem_of_mem_take hmem)
  rw [answers_map_ok]
  split
  · rename_i hjk
    exact List.filter_eq_self.2 fun e he => decide_eq_true (hjk ▸ hall e he)
  · rename_i hjk
    exact List.filter_eq_nil_iff.2 fun e he heq => hjk ((hall e he).symm.trans (of_decide_eq_true heq))

/-! ## One tick -/

/-- What a round of the timer adds to the answers of a key. -/
theorem handleKey_replies (config : Config) (now : ℕ) (k : String) (hs : Sorted s) (j : String) :
    ∃ new, (handleKey config now s j).replies = s.replies ++ new ∧
    answers k new = if j = k then given config (leftAt config ((s.map.get (readKey k)).getD []).length) now 0
      ((s.map.get k).getD []) else [] := by
  by_cases hempty : (s.map.get j).getD [] = []
  · rw [handleKey_of_empty hempty]
    refine ⟨[], (List.append_nil _).symm, ?_⟩
    split
    · rename_i hjk
      rw [← hjk, hempty, given, List.take_nil]
      rfl
    · rfl
  · obtain ⟨w, q, hg⟩ : ∃ w q, s.map.get j = some (w :: q) := by
      cases hg : s.map.get j with
      | none => exact absurd (by rw [hg]; rfl) hempty
      | some l =>
        cases l with
        | nil => exact absurd (by rw [hg]; rfl) hempty
        | cons w q => exact ⟨w, q, rfl⟩
    have hkey : ∀ c ∈ (w :: q).map Waiting.resolver, key c.userId c.token = j := by
      intro c hc
      refine hs j c ?_
      unfold waiting
      rw [hg]
      exact hc
    rw [handleKey_of_some hg]
    refine ⟨_, rfl, ?_⟩
    rw [passRequests_eq, answers_given hkey, calculateRemaining_eq]
    split
    · rename_i hjk
      subst hjk
      rw [hg]
      rfl
    · rfl

/-- A round of another key leaves the queue as it is. -/
theorem get_handleKey_ne (hne : j ≠ k) : (handleKey config now s j).map.get k = s.map.get k := by
  unfold handleKey
  by_cases hempty : (s.map.get j).getD [] = []
  · simp only [if_pos hempty]
  · simp only [if_neg hempty]
    exact OMap.get_set_ne _ _ hne

/-- The rounds of a tick, over distinct keys: what they add to the answers of a key that the timer reads right. -/
theorem foldl_replies (config : Config) (now : ℕ) (hread : readKey k = k) {ks : List String} (hnd : ks.Nodup) :
    ∀ {s : State}, Sorted s → ∃ new, (ks.foldl (handleKey config now) s).replies = s.replies ++ new ∧
      answers k new = if k ∈ ks then given config (leftAt config ((s.map.get k).getD []).length) now 0
        ((s.map.get k).getD []) else [] := by
  induction ks with
  | nil => exact fun _ => ⟨[], (List.append_nil _).symm, rfl⟩
  | cons j ks ih =>
    intro s hs
    obtain ⟨hj, hnd⟩ := List.nodup_cons.1 hnd
    obtain ⟨first, hfirst, hadd⟩ := handleKey_replies config now k hs j
    obtain ⟨rest, hrest, hadd'⟩ := ih hnd (handleKey_sorted config now hs j)
    refine ⟨first ++ rest, ?_, ?_⟩
    · rw [List.foldl_cons, hrest, hfirst, List.append_assoc]
    · rw [answers_append, hadd, hadd', hread]
      by_cases hjk : j = k
      · subst hjk
        rw [if_pos rfl, if_neg hj, if_pos List.mem_cons_self, List.append_nil]
      · rw [if_neg hjk, List.nil_append, get_handleKey_ne hjk]
        by_cases hk : k ∈ ks
        · rw [if_pos hk, if_pos (List.mem_cons_of_mem j hk)]
        · have hnot : k ∉ j :: ks := List.not_mem_cons_of_ne_of_not_mem (Ne.symm hjk) hk
          rw [if_neg hk, if_neg hnot]

/-- **What a tick tells** the requests of a key that the timer reads right. -/
theorem told_eq (config : Config) (now : ℕ) (hs : Sorted s) (hread : readKey k = k) : told config now s k =
    given config (leftAt config ((s.map.get k).getD []).length) now 0 ((s.map.get k).getD []) := by
  obtain ⟨new, hnew, hadd⟩ := foldl_replies config now hread s.map.keys_nodup hs
  unfold told handler
  rw [hnew, List.drop_left, hadd]
  split
  · rfl
  · rename_i hk
    rw [OMap.get_eq_none.2 hk, Option.getD_none, given, List.take_nil]
    rfl

/-! ## The client that the timer reads -/

/-- What the timer reads has no `:`, a missing token included. -/
theorem notMem_piece (i : ℕ) : ':' ∉ ((split k ':')[i]?.getD "undefined").toList := by
  cases hi : (split k ':')[i]? with
  | none => decide
  | some piece => exact notMem_of_mem_split (List.mem_of_getElem? hi)

/-- **The timer reads the client right** if and only if its key has one `:`. -/
theorem readKey_eq_iff : readKey (key u t) = key u t ↔ ':' ∉ u.toList ∧ ':' ∉ t.toList := by
  constructor
  · intro hread
    have hfirst : ':' ∉ (reverseKey (key u t)).1.toList := notMem_piece 0
    have hsecond : ':' ∉ (reverseKey (key u t)).2.toList := notMem_piece 1
    have hpieces : ((reverseKey (key u t)).1 ++ ":" ++ (reverseKey (key u t)).2).toList = (u ++ ":" ++ t).toList :=
      congrArg String.toList hread
    have hcount := congrArg (List.count ':') hpieces
    simp only [String.toList_append, List.count_append, List.count_eq_zero.2 hfirst,
      List.count_eq_zero.2 hsecond] at hcount
    exact ⟨List.count_eq_zero.1 (by omega), List.count_eq_zero.1 (by omega)⟩
  · rintro ⟨hu, ht⟩
    have hsplit : split (key u t) ':' = u :: split t ':' := split_append hu
    rw [split_self ht] at hsplit
    rw [readKey, reverseKey, hsplit]
    rfl

/-! ## Runs -/

theorem run_sorted (config : Config) (es : List Event) : Sorted (run config es) := (run_agrees config es "").1.sorted

/-- A client that the timer reads right is told the truth. -/
theorem truthful_of_read (hs : Sorted s) (hread : readKey (key u t) = key u t) : Truthful config now s u t := by
  have htold := told_eq config now hs hread
  have hleft : ∀ i (h : i < (told config now s (key u t)).length), left (told config now s (key u t))[i].2 =
      leftAt config ((waiting s (key u t)).length - (i + 1)) := by
    intro i h
    have hpassed : ((0 + i + 1 : ℕ) : ℚ) = i + 1 := by
      push_cast
      ring
    simp only [htold, given, List.getElem_mapIdx, left_summary, length_waiting, hpassed]
  have hcalls : (told config now s (key u t)).map Prod.fst = (waiting s (key u t)).take config.leaksPerSecond := by
    rw [htold, fst_given, Nat.sub_zero, List.map_take]
    rfl
  have hlength : (told config now s (key u t)).length = min config.leaksPerSecond (waiting s (key u t)).length := by
    rw [← List.length_map Prod.fst, hcalls, List.length_take]
  refine ⟨hcalls, hleft, fun e he id limits later => ⟨_, rfl, ?_⟩, fun e he => ?_⟩
  · -- the last request released leaves what waits after the tick
    rw [List.getLast?_eq_getElem?] at he
    obtain ⟨hlt, rfl⟩ := List.getElem?_eq_some_iff.1 he
    have hafter : (waiting (handler config now s) (key u t)).length =
        (waiting s (key u t)).length - config.leaksPerSecond := by
      rw [(handler_spec config now hs (key u t)).2.1, List.length_drop]
    rw [hleft, calculateRemaining_eq, left_summary, ← length_waiting, hafter]
    have hsum : (waiting s (key u t)).length - config.leaksPerSecond +
        ((told config now s (key u t)).length - 1 + 1) = (waiting s (key u t)).length := by omega
    have hcast := congrArg (Nat.cast : ℕ → ℚ) hsum
    push_cast at hcast
    congr 1
    push_cast
    linarith
  · obtain ⟨i, hi, rfl⟩ := List.getElem_of_mem he
    have hsecond := congrArg Remaining.perSecond (hleft i hi)
    have hle : ((i + 1 : ℕ) : ℚ) ≤ (waiting s (key u t)).length := by
      exact_mod_cast (by omega : i + 1 ≤ (waiting s (key u t)).length)
    push_cast at hle
    simp only [left, leftAt] at hsecond
    linarith

/-- **A client that the timer reads wrong** is told about a queue that does not exist: its only request is
promised more than the capacity. -/
theorem not_truthful (config : Config) (now : ℕ) (hread : readKey (key u t) ≠ key u t) :
    ¬ Truthful config now (run config [.request ⟨0, u, t⟩ 1 defaultQuotaLimits]) u t := by
  intro htrue
  have hleaks := config.leaks_pos
  set s := run config [.request ⟨0, u, t⟩ 1 defaultQuotaLimits] with hs
  have hmap : s.map = (init.map.set (key u t) []).set (key u t) [⟨defaultQuotaLimits, ⟨0, u, t⟩⟩] := by
    have hrequest : s = ⟨(init.map.set (key u t) []).set (key u t) [⟨defaultQuotaLimits, ⟨0, u, t⟩⟩], init.replies⟩ :=
      request_new init ⟨0, u, t⟩ rfl 1 defaultQuotaLimits
    rw [hrequest]
  have hget : s.map.get (key u t) = some [⟨defaultQuotaLimits, ⟨0, u, t⟩⟩] := by
    rw [hmap, OMap.get_set_self]
  have hother : s.map.get (readKey (key u t)) = none := by
    rw [hmap, OMap.get_set_ne _ _ hread.symm, OMap.get_set_ne _ _ hread.symm]
    rfl
  have hkeys : s.map.keys = [key u t] := by
    rw [hmap, OMap.keys_set_of_mem (OMap.mem_keys.2 ⟨_, OMap.get_set_self ..⟩)]
    rfl
  obtain ⟨new, hnew, hadd⟩ := handleKey_replies config now (key u t)
    (run_sorted config [.request ⟨0, u, t⟩ 1 defaultQuotaLimits]) (key u t)
  rw [← hs, if_pos rfl, hget, hother] at hadd
  rw [← hs] at hnew
  have htold : told config now s (key u t) =
      [(⟨0, u, t⟩, summary defaultQuotaLimits (leftAt config 0) 1 (some (now + 1000)))] := by
    unfold told handler
    rw [hkeys, List.foldl_cons, List.foldl_nil, hnew, List.drop_left, hadd]
    obtain ⟨m, hm⟩ : ∃ m, config.leaksPerSecond - 0 = m + 1 := ⟨config.leaksPerSecond - 1, by omega⟩
    simp [given, hm]
  have hlength : 0 < (told config now s (key u t)).length := by
    rw [htold]
    exact Nat.one_pos
  have hbound := htrue.bounded _ (List.getElem_mem hlength)
  simp only [htold, List.getElem_cons_zero, summary, leftAt] at hbound
  norm_num at hbound

/-- **When the summaries tell the truth**, in every run and at every tick: when the client's key has no `:` but
the one that separates its user id from its token. -/
theorem truthful_iff (config : Config) (u t : String) :
    (∀ es now, Truthful config now (run config es) u t) ↔ ':' ∉ u.toList ∧ ':' ∉ t.toList := by
  rw [← readKey_eq_iff]
  constructor
  · intro htrue
    by_contra hread
    exact not_truthful config 0 hread (htrue _ 0)
  · exact fun hread es now => truthful_of_read (run_sorted config es) hread

/-- **A token with a `:`**: the timer looks for the queue of the token `b`. -/
theorem token_with_colon :
    ¬ Truthful small 1000 (run small [.request ⟨0, "a", "b:c"⟩ 1 defaultQuotaLimits]) "a" "b:c" :=
  not_truthful small 1000 (by decide)

end NodeToolkit.LeakyBucket
