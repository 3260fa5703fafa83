import NodeToolkit.Proof.Redis
import NodeToolkit.Spec.SlidingWindow
import Mathlib.Algebra.BigOperators.Group.Finset.Basic
import Mathlib.Algebra.Order.BigOperators.Group.Finset

/-!
# The sliding window: what the sorted sets record

Every request, accepted or not, leaves the entry `now`, `now:score` in its four
sorted sets: the rollback of a rejected request asks for the entries from `now` on
and before `now`. A set therefore holds the distinct pairs of time and score of the
requests of its key that are still in its window, and maybe some that are not.

* `request_run`, `serve_eq`: what one request does.
* `Holds`: the invariant of a run of requests (`Holds.serve`, `holds_serveAll`).
* `consumedAt_eq`, `serve_answer_eq`: what a request finds, and answers, in terms
  of the requests before it.
* `quota_eq`: what `quota` reports.
-/

namespace NodeToolkit.SlidingWindow

open Async Redis

/-! ## Keys and members -/

/-- **The key of a set determines the client text and the window.** -/
@[simp] theorem setKey_inj {b b' : String} {v w : Span} : setKey b v = setKey b' w ↔ b = b' ∧ v = w := by
  refine ⟨fun h => ?_, fun h => by rw [h.1, h.2]⟩
  obtain ⟨h1, h2⟩ := colon_inj_right v.colon_notMem_label w.colon_notMem_label h
  exact ⟨h1, Span.label_inj h2⟩

/-- **A member determines the time and the score.** -/
@[simp] theorem member_inj {n s n' s' : ℕ} : member n s = member n' s' ↔ n = n' ∧ s = s' := by
  refine ⟨fun h => ?_, fun h => by rw [h.1, h.2]⟩
  obtain ⟨h1, h2⟩ := colon_inj_left (colon_notMem_numberToString n) (colon_notMem_numberToString n') h
  exact ⟨numberToString_inj h1, numberToString_inj h2⟩

/-- What `parseInt` reads back of a number. -/
def counted (n : ℕ) : ℕ := parseInt (numberToString n)

/-- A score is read back exactly, below the size at which numbers are printed with an exponent. -/
theorem counted_of_lt {n : ℕ} (h : n < 10 ^ 21) : counted n = n := parseInt_numberToString h

theorem counted_pos {n : ℕ} (h : 0 < n) : 0 < counted n := parseInt_numberToString_pos h

/-- `request` reads the score of a member. -/
theorem scorePart_member (n s : ℕ) : scorePart (member n s) = counted s := by
  unfold scorePart member
  rw [show (":" : String) = ':'.toString from rfl, split_append (colon_notMem_numberToString n),
    split_self (colon_notMem_numberToString s)]
  rfl

/-- `quota` reads the time of a member. -/
theorem parseInt_member (n s : ℕ) : parseInt (member n s) = counted n := parseInt_colon _ _

/-- `reduce` with `+` is a sum. -/
theorem total_eq_sum (f : String → ℕ) (l : List String) : total f l = (l.map f).sum := by
  have key : ∀ a, l.foldl (fun acc curr => acc + f curr) a = a + (l.map f).sum := by
    induction l with
    | nil => intro a; simp
    | cons x l ih => intro a; rw [List.foldl_cons, ih, List.map_cons, List.sum_cons, Nat.add_assoc]
  rw [total, key, Nat.zero_add]

/-! ## One request, run alone -/

/-- What a set holds after a request has been recorded in it. -/
def recordedSet (s : Redis) (b : String) (v : Span) (now score : ℕ) : ZSet :=
  ((s.zset (setKey b v)).zRemRangeByScore .negInf (.incl ((now : ℤ) - v.ms))).zAdd now (member now score)

/-- The state after `record`. -/
def recorded (b : String) (now score : ℕ) (s : Redis) (v : Span) (seconds : ℕ) : Redis :=
  (((s.zRemRangeByScore (setKey b v) .negInf (.incl ((now : ℤ) - v.ms))).zAdd
    (setKey b v) now (member now score)).expire (setKey b v) seconds)

section Recorded

variable {b k : String} {now score seconds : ℕ} {s : Redis} {v w : Span}

/-- A request is recorded in one set of its client. -/
theorem zset_recorded : (recorded b now score s v seconds).zset (setKey k w) =
    if b = k ∧ v = w then recordedSet s b v now score else s.zset (setKey k w) := by
  unfold recorded recordedSet
  rw [zset_expire, Redis.zAdd, zset_setZSet]
  simp only [setKey_inj, Redis.zRemRangeByScore, zset_setZSet, if_true]
  split <;> rfl

theorem zsets_get_recorded : (recorded b now score s v seconds).zsets.get (setKey k w) =
    if b = k ∧ v = w then some ⟨recordedSet s b v now score, some (s.clock + seconds * 1000)⟩
    else s.zsets.get (setKey k w) := by
  unfold recorded recordedSet
  rw [zsets_get_expire]
  simp only [setKey_inj]
  split
  · rename_i h
    obtain ⟨rfl, rfl⟩ := h
    rw [Redis.zAdd, zsets_get_setZSet _ _ ZSet.zAdd_ne_nil]
    simp [Redis.zRemRangeByScore]
  · rename_i h
    have hne : setKey b v ≠ setKey k w := by simpa using h
    rw [Redis.zAdd, zsets_get_setZSet_ne _ _ hne, Redis.zRemRangeByScore, zsets_get_setZSet_ne _ _ hne]

@[simp] theorem clock_recorded : (recorded b now score s v seconds).clock = s.clock := by
  unfold recorded
  rw [show ∀ (s : Redis) k n, (s.expire k n).clock = s.clock from fun _ _ _ => rfl, Redis.zAdd,
    clock_setZSet, Redis.zRemRangeByScore, clock_setZSet]

/-- The program of one window does this, and answers the sum of the set. -/
theorem record_run : (record b v seconds now score).run exec s =
    (recorded b now score s v seconds, total scorePart ((recordedSet s b v now score).map Prod.snd)) := by
  simp only [record, Client.zRemRangeByScore, Client.zAdd, Client.zRangeByScore, Client.expire,
    Prog.pure_eq, Prog.await_bind, Prog.ret_bind, Prog.run_await, Prog.run_ret, exec,
    ZSet.zRangeByScore_all]
  refine Prod.ext rfl ?_
  simp only [Redis.zAdd, Redis.zRemRangeByScore, zset_setZSet, if_true]
  rfl

end Recorded

/-- The time to live of a set, in seconds. -/
def ttl : Span → ℕ
  | .second => 2
  | .minute => 61
  | .hour => 3601
  | .day => 86401

/-- A set outlives the window of its last entry. -/
theorem ms_le_ttl (v : Span) : v.ms ≤ ttl v * 1000 := by cases v <;> decide

/-- The state after the four `record`s of a request. -/
def recordedAll (b : String) (now score : ℕ) (s : Redis) : Redis :=
  [Span.second, .minute, .hour, .day].foldl (fun s v => recorded b now score s v (ttl v)) s

/-- The rollback of a request, which looks for entries from `now` on and before `now`. -/
def rolledBack (b : String) (now : ℕ) (s : Redis) : Redis :=
  [Span.second, .minute, .hour, .day].foldl
    (fun s v => s.zRemRangeByScore (setKey b v) (.incl now) (.excl now)) s

/-- What a request reads in the set of a window. -/
def consumedAt (b : String) (now score : ℕ) (s : Redis) (v : Span) : ℕ :=
  total scorePart ((recordedSet s b v now score).map Prod.snd)

/-- The summary for what was consumed in each window. -/
def summary (limits : QuotaLimits) (consumed : Span → ℕ) (now : ℕ) : QuotaSummary where
  perSecond := ⟨limits.perSecond, limits.perSecond - consumed .second, some (now + 1000)⟩
  perMinute := ⟨limits.perMinute, limits.perMinute - consumed .minute, some (now + 60000)⟩
  perHour := ⟨limits.perHour, limits.perHour - consumed .hour, some (now + 3600000)⟩
  perDay := ⟨limits.perDay, limits.perDay - consumed .day, some (now + 86400000)⟩

/-- One of the limits is exceeded. -/
def Exceeds (limits : QuotaLimits) (consumed : Span → ℕ) : Prop :=
  limits.perSecond < consumed .second ∨ limits.perMinute < consumed .minute ∨
    limits.perHour < consumed .hour ∨ limits.perDay < consumed .day

instance (limits : QuotaLimits) (consumed : Span → ℕ) : Decidable (Exceeds limits consumed) := by
  unfold Exceeds; infer_instance

/-- A limit of some window is exceeded. -/
theorem exceeds_iff {limits : QuotaLimits} {consumed : Span → ℕ} :
    Exceeds limits consumed ↔ ∃ v, limits.of v < consumed v := by
  unfold Exceeds
  constructor
  · rintro (h | h | h | h)
    exacts [⟨.second, h⟩, ⟨.minute, h⟩, ⟨.hour, h⟩, ⟨.day, h⟩]
  · rintro ⟨v, h⟩
    cases v
    exacts [Or.inl h, Or.inr (Or.inl h), Or.inr (Or.inr (Or.inl h)), Or.inr (Or.inr (Or.inr h))]

variable {u t : String} {score now : ℕ} {limits : QuotaLimits} {s : Redis}

/-- The set of a window is untouched by the records of other windows. -/
theorem recordedSet_recorded {b : String} {v w : Span} (h : v ≠ w) (seconds : ℕ) :
    recordedSet (recorded b now score s v seconds) b w now score = recordedSet s b w now score := by
  unfold recordedSet
  rw [zset_recorded, if_neg fun hc => h hc.2]

/-- **A request, run alone**: it records itself in every set, and compares. -/
theorem request_run : (request u t score limits now).run exec s =
    if Exceeds limits (consumedAt (key u t) now score s) then
      (rolledBack (key u t) now (recordedAll (key u t) now score s), .error tooManyRequests)
    else (recordedAll (key u t) now score s,
      .ok (summary limits (consumedAt (key u t) now score s) now)) := by
  have h2 : Span.second ≠ .minute ∧ Span.second ≠ .hour ∧ Span.second ≠ .day := by decide
  have h3 : Span.minute ≠ .hour ∧ Span.minute ≠ .day := by decide
  have h4 : Span.hour ≠ .day := by decide
  unfold request
  simp only [Prog.run_bind]
  rw [record_run, record_run, record_run, record_run]
  simp only [recordedSet_recorded, h2, h3, h4, ne_eq, not_false_eq_true]
  by_cases h : Exceeds limits (consumedAt (key u t) now score s)
  · rw [if_pos h]
    split
    · simp only [Client.zRemRangeByScore, Prog.pure_eq, Prog.await_bind, Prog.ret_bind, Prog.run_await,
        Prog.run_ret, exec, rolledBack, recordedAll, List.foldl_cons, List.foldl_nil, ttl]
    · rename_i hno
      exact absurd h hno
  · rw [if_neg h]
    split
    · rename_i hyes
      exact absurd hyes h
    · simp only [Prog.pure_eq, Prog.run_ret, recordedAll, List.foldl_cons, List.foldl_nil, ttl]
      rfl

section All

variable {b k : String} {w : Span}

/-- A request is recorded in the four sets of its client. -/
theorem zset_recordedAll : (recordedAll b now score s).zset (setKey k w) =
    if b = k then recordedSet s b w now score else s.zset (setKey k w) := by
  simp only [recordedAll, List.foldl_cons, List.foldl_nil, zset_recorded]
  by_cases hk : b = k
  · subst hk
    cases w <;> simp [recordedSet_recorded]
  · simp [hk]

theorem zsets_get_recordedAll : (recordedAll b now score s).zsets.get (setKey k w) =
    if b = k then some ⟨recordedSet s b w now score, some (s.clock + ttl w * 1000)⟩
    else s.zsets.get (setKey k w) := by
  simp only [recordedAll, List.foldl_cons, List.foldl_nil, zsets_get_recorded]
  by_cases hk : b = k
  · subst hk
    cases w <;> simp [recordedSet_recorded, ttl]
  · simp [hk]

@[simp] theorem clock_recordedAll : (recordedAll b now score s).clock = s.clock := by
  simp [recordedAll]

/-- One command of the rollback removes nothing. -/
theorem zsets_get_void (s : Redis) {j i : String} (h : s.zset j ≠ []) (x : ℤ) :
    (s.zRemRangeByScore j (.incl x) (.excl x)).zsets.get i = s.zsets.get i := by
  unfold Redis.zRemRangeByScore
  rw [ZSet.zRemRangeByScore_void]
  by_cases hj : j = i
  · subst hj
    rw [zsets_get_setZSet _ _ h]
    unfold Redis.zset at h ⊢
    cases hg : s.zsets.get j with
    | none => simp [hg] at h
    | some v => simp
  · exact zsets_get_setZSet_ne _ _ hj

theorem zset_of_get {s s' : Redis} {j : String} (h : s.zsets.get j = s'.zsets.get j) :
    s.zset j = s'.zset j := by
  unfold Redis.zset; rw [h]

/-- **The rollback removes nothing.** -/
theorem zsets_get_rolledBack (now : ℕ) (h : ∀ v, s.zset (setKey b v) ≠ []) (i : String) :
    (rolledBack b now s).zsets.get i = s.zsets.get i := by
  have key : ∀ (l : List Span) (s : Redis), (∀ v, s.zset (setKey b v) ≠ []) →
      (l.foldl (fun s v => s.zRemRangeByScore (setKey b v) (.incl now) (.excl now)) s).zsets.get i =
        s.zsets.get i := by
    intro l
    induction l with
    | nil => exact fun _ _ => rfl
    | cons v l ih =>
      intro s h
      have hsame := fun i => zsets_get_void s (i := i) (h v) now
      have hne : ∀ v', (s.zRemRangeByScore (setKey b v) (.incl now) (.excl now)).zset (setKey b v') ≠ [] :=
        fun v' => by rw [zset_of_get (hsame _)]; exact h v'
      exact (ih _ hne).trans (hsame i)
  exact key _ s h

@[simp] theorem clock_rolledBack : (rolledBack b now s).clock = s.clock := by
  simp [rolledBack, Redis.zRemRangeByScore]

end All

/-! ## Runs -/

/-- A call of `request`. -/
structure Request where
  userId : String
  token : String
  score : ℕ
  limits : QuotaLimits
  now : ℕ
deriving DecidableEq

def Request.key (r : Request) : String := SlidingWindow.key r.userId r.token

/-- A request made when the server's clock, too, has come to its clock reading. -/
def serve (s : Redis) (r : Request) : Redis × RequestResult :=
  (request r.userId r.token r.score r.limits r.now).run exec (s.advance r.now)

def serveAll (s : Redis) (rs : List Request) : Redis := rs.foldl (fun s r => (serve s r).1) s

/-- The requests of a run with their answers. -/
def answers (s : Redis) : List Request → List (Request × RequestResult)
  | [] => []
  | r :: rs => (r, (serve s r).2) :: answers (serve s r).1 rs

/-- A request is rolled back when it exceeds a limit. -/
theorem serve_eq (s : Redis) (r : Request) : serve s r =
    if Exceeds r.limits (consumedAt r.key r.now r.score (s.advance r.now)) then
      (rolledBack r.key r.now (recordedAll r.key r.now r.score (s.advance r.now)), .error tooManyRequests)
    else (recordedAll r.key r.now r.score (s.advance r.now),
      .ok (summary r.limits (consumedAt r.key r.now r.score (s.advance r.now)) r.now)) := request_run

theorem zset_recordedAll_ne (b : String) (now score : ℕ) (s : Redis) (v : Span) :
    (recordedAll b now score s).zset (setKey b v) ≠ [] := by
  rw [zset_recordedAll, if_pos rfl]
  exact ZSet.zAdd_ne_nil

/-- **A request is recorded**, whatever its answer. -/
theorem zsets_get_serve (r : Request) (k : String) (w : Span) :
    (serve s r).1.zsets.get (setKey k w) =
      if r.key = k then some ⟨recordedSet (s.advance r.now) r.key w r.now r.score,
        some ((s.advance r.now).clock + ttl w * 1000)⟩
      else (s.advance r.now).zsets.get (setKey k w) := by
  have hback := zsets_get_rolledBack r.now
    (zset_recordedAll_ne r.key r.now r.score (s.advance r.now)) (setKey k w)
  rw [← zsets_get_recordedAll, serve_eq]
  split
  · exact hback
  · rfl

theorem clock_serve (r : Request) : (serve s r).1.clock = (s.advance r.now).clock := by
  rw [serve_eq]
  split
  · dsimp only
    rw [clock_rolledBack, clock_recordedAll]
  · dsimp only
    rw [clock_recordedAll]

/-- The answer of a request. -/
theorem serve_answer (r : Request) : (serve s r).2 =
    if Exceeds r.limits (consumedAt r.key r.now r.score (s.advance r.now)) then .error tooManyRequests
    else .ok (summary r.limits (consumedAt r.key r.now r.score (s.advance r.now)) r.now) := by
  rw [serve_eq]
  split <;> rfl

/-! ## What is recorded -/

/-- The entry of a time and a score. -/
def entry (e : ℕ × ℕ) : ℤ × String := (e.1, member e.1 e.2)

theorem entry_injective : Function.Injective entry := by
  rintro ⟨n, m⟩ ⟨n', m'⟩ h
  have h2 : member n m = member n' m' := (Prod.mk.inj h).2
  rw [member_inj] at h2
  rw [h2.1, h2.2]

/-- The times and scores of the requests made under a key, rejected ones included. -/
def entries (h : List Request) (k : String) : Finset (ℕ × ℕ) :=
  ((h.filter fun r => r.key = k).map fun r => (r.now, r.score)).toFinset

/-- The entries in the window that ends at `now`. -/
def inWindow (h : List Request) (k : String) (v : Span) (now : ℕ) : Finset (ℕ × ℕ) :=
  (entries h k).filter fun e => now < e.1 + v.ms

section Entries

variable {h : List Request} {k : String} {e : ℕ × ℕ} {r : Request} {v : Span}

theorem mem_entries : e ∈ entries h k ↔ ∃ r ∈ h, r.key = k ∧ (r.now, r.score) = e := by
  simp [entries, and_assoc]

/-- What counts in a window came in less than its length ago. -/
theorem mem_inWindow : e ∈ inWindow h k v now ↔ e ∈ entries h k ∧ now < e.1 + v.ms := by
  simp [inWindow]

/-- A request is an entry of its client. -/
theorem entries_snoc : entries (h ++ [r]) k =
    if r.key = k then insert (r.now, r.score) (entries h k) else entries h k := by
  ext e
  rw [mem_entries]
  by_cases hk : r.key = k
  · simp only [if_pos hk, Finset.mem_insert, mem_entries, List.mem_append, List.mem_singleton]
    constructor
    · rintro ⟨r', hr | rfl, hk', he⟩
      · exact Or.inr ⟨r', hr, hk', he⟩
      · exact Or.inl he.symm
    · rintro (rfl | ⟨r', hr, hk', he⟩)
      · exact ⟨r, Or.inr rfl, hk, rfl⟩
      · exact ⟨r', Or.inl hr, hk', he⟩
  · simp only [if_neg hk, mem_entries, List.mem_append, List.mem_singleton]
    constructor
    · rintro ⟨r', hr | rfl, hk', he⟩
      · exact ⟨r', hr, hk', he⟩
      · exact absurd hk' hk
    · rintro ⟨r', hr, hk', he⟩
      exact ⟨r', Or.inl hr, hk', he⟩

end Entries

/-- A set that holds exactly some entries adds up to their sum. -/
theorem total_of_entries {z : ZSet} {S : Finset (ℕ × ℕ)} (hnd : z.Nodup)
    (hmem : ∀ x, x ∈ z ↔ ∃ e ∈ S, entry e = x) (f : String → ℕ) :
    total f (z.map Prod.snd) = ∑ e ∈ S, f (member e.1 e.2) := by
  have hperm : z.Perm (S.toList.map entry) := by
    refine (List.perm_ext_iff_of_nodup hnd (S.nodup_toList.map entry_injective)).2 fun x => ?_
    rw [hmem, List.mem_map]
    simp
  rw [total_eq_sum, List.map_map, (hperm.map _).sum_eq, List.map_map]
  exact Finset.sum_map_toList S _

/-! ## The invariant of a run -/

/-- **What a run leaves in the sorted sets**, after the requests `h`: distinct entries,
all of them made by a request of the key; and at least those still in the window. -/
structure Holds (h : List Request) (s : Redis) : Prop where
  past : ∀ r ∈ h, r.now ≤ s.clock
  nodup : ∀ k v, (s.zset (setKey k v)).Nodup
  real : ∀ k v x, x ∈ s.zset (setKey k v) → ∃ e ∈ entries h k, entry e = x
  kept : ∀ k v e, e ∈ entries h k → s.clock < e.1 + v.ms → entry e ∈ s.zset (setKey k v)
  lasting : ∀ k v z d, s.zsets.get (setKey k v) = some ⟨z, some d⟩ → ∀ x ∈ z, x.1 + v.ms ≤ (d : ℤ)

theorem holds_server : Holds [] server where
  past := by simp
  nodup := by simp [server, zset]
  real := by simp [server, zset]
  kept := by simp [entries]
  lasting := by simp [server]

section Holds

variable {h : List Request} {r : Request}

/-- **Time passes.** A set expires only after its last entry has left the window. -/
theorem Holds.advance (hs : Holds h s) (t : ℕ) : Holds h (s.advance t) where
  past r hr := (hs.past r hr).trans (le_max_left ..)
  nodup k v := by
    rcases zset_advance s (setKey k v) t with he | ⟨he, -⟩
    · rw [he]; exact hs.nodup k v
    · rw [he]; exact List.nodup_nil
  real k v x hx := by
    rcases zset_advance s (setKey k v) t with he | ⟨he, -⟩
    · rw [he] at hx; exact hs.real k v x hx
    · rw [he] at hx; cases hx
  kept k v e he hlt := by
    have hlt' : max s.clock t < e.1 + v.ms := hlt
    have hin := hs.kept k v e he (lt_of_le_of_lt (le_max_left ..) hlt')
    rcases zset_advance s (setKey k v) t with hz | ⟨-, z, d, hg, hd, hlate⟩
    · rw [hz]; exact hin
    · have hz : s.zset (setKey k v) = z.val := by simp [zset, hg]
      have hle := hs.lasting k v z.val d (by rw [hg, ← hd]) _ (hz ▸ hin)
      simp only [entry] at hle
      omega
  lasting k v z d hg := by
    refine hs.lasting k v z d ?_
    simp only [Redis.advance, OMap.get_keep] at hg
    exact (Option.filter_eq_some_iff.1 hg).1

/-- What a set holds after a request: the request, and what is in the window. -/
theorem mem_recordedSet {b : String} {v : Span} {x : ℤ × String} :
    x ∈ recordedSet s b v now score ↔ x = entry (now, score) ∨
      x ∈ s.zset (setKey b v) ∧ (now : ℤ) < x.1 + v.ms ∧ x.2 ≠ member now score := by
  unfold recordedSet
  rw [ZSet.mem_zAdd, ZSet.mem_zRemRangeByScore]
  simp only [Bound.minOK, Bound.maxOK, decide_eq_true_eq, true_and, and_assoc]
  have hiff : ¬ x.1 ≤ (now : ℤ) - v.ms ↔ (now : ℤ) < x.1 + v.ms := by omega
  rw [hiff]
  rfl

theorem nodup_recordedSet {b : String} {v : Span} (h : (s.zset (setKey b v)).Nodup) :
    (recordedSet s b v now score).Nodup := ZSet.nodup_zAdd (ZSet.nodup_zRemRangeByScore h ..) ..

/-- What a request leaves in a set, accepted or not: a rollback removes nothing. -/
theorem zset_serve (r : Request) (k : String) (w : Span) : (serve s r).1.zset (setKey k w) =
    if r.key = k then recordedSet (s.advance r.now) r.key w r.now r.score
    else (s.advance r.now).zset (setKey k w) := by
  unfold zset
  rw [zsets_get_serve]
  split <;> rfl

/-- After a request its set holds its entry and the entries of its key still in the window. -/
theorem Holds.mem_recordedSet (hs : Holds h s) {v : Span} {x : ℤ × String}
    (hx : x ∈ recordedSet s r.key v r.now r.score) :
    ∃ e ∈ entries (h ++ [r]) r.key, entry e = x ∧ r.now < e.1 + v.ms := by
  rw [entries_snoc, if_pos rfl]
  rcases SlidingWindow.mem_recordedSet.1 hx with rfl | ⟨hz, hin, -⟩
  · exact ⟨_, Finset.mem_insert_self .., rfl, Nat.lt_add_of_pos_right v.ms_pos⟩
  · obtain ⟨e, he, rfl⟩ := hs.real r.key v x hz
    refine ⟨e, Finset.mem_insert_of_mem he, rfl, ?_⟩
    simp only [entry] at hin
    omega

theorem Holds.recordedSet_mem (hs : Holds h s) {v : Span} {e : ℕ × ℕ} (hclock : r.now ≤ s.clock)
    (he : e ∈ entries (h ++ [r]) r.key) (hin : s.clock < e.1 + v.ms) :
    entry e ∈ recordedSet s r.key v r.now r.score := by
  rw [entries_snoc, if_pos rfl, Finset.mem_insert] at he
  rw [SlidingWindow.mem_recordedSet]
  by_cases hnew : e = (r.now, r.score)
  · exact Or.inl (by rw [hnew])
  · refine Or.inr ⟨hs.kept r.key v e (he.resolve_left hnew) hin, ?_, ?_⟩
    · simp only [entry]; omega
    · intro hm
      obtain ⟨h1, h2⟩ := member_inj.1 hm
      exact hnew (Prod.ext h1 h2)

/-- **One request** keeps the invariant. -/
theorem Holds.serve (hs : Holds h s) (r : Request) : Holds (h ++ [r]) (serve s r).1 := by
  have ha : Holds h (s.advance r.now) := hs.advance r.now
  have hnow : r.now ≤ (s.advance r.now).clock := le_max_right ..
  have hpast : ∀ r' ∈ h ++ [r], r'.now ≤ (s.advance r.now).clock := by
    intro r' hr'
    rcases List.mem_append.1 hr' with hr' | hr'
    · exact ha.past r' hr'
    · rw [List.mem_singleton.1 hr']; exact hnow
  refine ⟨fun r' hr' => ?_, fun k v => ?_, fun k v x hx => ?_, fun k v e he hlt => ?_,
    fun k v z d hg x hx => ?_⟩
  · rw [clock_serve]; exact hpast r' hr'
  · rw [zset_serve]
    split
    · exact nodup_recordedSet (ha.nodup _ _)
    · exact ha.nodup k v
  · -- every entry was made by a request: by this one, or before
    rw [zset_serve] at hx
    split at hx
    · rename_i hk
      subst hk
      obtain ⟨e, he, hxe, -⟩ := ha.mem_recordedSet hx
      exact ⟨e, he, hxe⟩
    · rename_i hk
      rw [entries_snoc, if_neg hk]
      exact ha.real k v x hx
  · -- the refund range holds no score, so nothing recorded is taken back
    rw [clock_serve] at hlt
    rw [zset_serve]
    by_cases hk : r.key = k
    · subst hk
      rw [if_pos rfl]
      exact ha.recordedSet_mem hnow he hlt
    · rw [entries_snoc, if_neg hk] at he
      rw [if_neg hk]
      exact ha.kept k v e he hlt
  · rw [zsets_get_serve] at hg
    split at hg
    · rename_i hk
      subst hk
      obtain ⟨rfl, hd⟩ := Timed.mk.inj (Option.some.inj hg)
      obtain ⟨e, he, rfl, -⟩ := ha.mem_recordedSet hx
      obtain ⟨r', hr', -, rfl⟩ := mem_entries.1 he
      have hle := hpast r' hr'
      have httl := ms_le_ttl v
      have hd' := Option.some.inj hd
      simp only [entry]
      omega
    · exact ha.lasting k v z d hg x hx

@[simp] theorem serveAll_snoc (s : Redis) (h : List Request) (r : Request) :
    serveAll s (h ++ [r]) = (SlidingWindow.serve (serveAll s h) r).1 := by
  simp [serveAll]

/-- **Every run of requests** keeps the invariant. -/
theorem holds_serveAll (h : List Request) : Holds h (serveAll server h) := by
  induction h using List.reverseRecOn with
  | nil => exact holds_server
  | append_singleton h r ih => rw [serveAll_snoc]; exact ih.serve r

/-- The server's clock is not ahead of the clock readings. -/
theorem clock_serveAll_le {T : ℕ} (hT : ∀ r ∈ h, r.now ≤ T) : (serveAll server h).clock ≤ T := by
  induction h using List.reverseRecOn with
  | nil => exact Nat.zero_le T
  | append_singleton h r ih =>
    rw [serveAll_snoc, clock_serve]
    exact max_le (ih fun r' hr' => hT r' (by simp [hr'])) (hT r (by simp))

end Holds

/-! ## What a request finds -/

/-- What the entries of a key in the window that ends at `now` count for. -/
def consumed (h : List Request) (k : String) (v : Span) (now : ℕ) : ℕ :=
  ∑ e ∈ inWindow h k v now, counted e.2

/-- What a request answers after the requests `h`. -/
def answer (h : List Request) (r : Request) : RequestResult :=
  if Exceeds r.limits fun v => consumed (h ++ [r]) r.key v r.now then .error tooManyRequests
  else .ok (summary r.limits (fun v => consumed (h ++ [r]) r.key v r.now) r.now)

section Answer

variable {h : List Request} {r : Request}

theorem clock_advance_of_le {t : ℕ} (h : s.clock ≤ t) : (s.advance t).clock = t := max_eq_right h

/-- **A request finds** what the requests so far, itself included, recorded in the window. -/
theorem consumedAt_eq (hpast : ∀ r' ∈ h, r'.now ≤ r.now) (v : Span) :
    consumedAt r.key r.now r.score ((serveAll server h).advance r.now) v =
      consumed (h ++ [r]) r.key v r.now := by
  have ha : Holds h ((serveAll server h).advance r.now) := (holds_serveAll h).advance r.now
  have hclock := clock_advance_of_le (clock_serveAll_le hpast)
  unfold consumedAt consumed
  rw [total_of_entries (nodup_recordedSet (ha.nodup _ _)) (S := inWindow (h ++ [r]) r.key v r.now)]
  · exact Finset.sum_congr rfl fun e _ => scorePart_member ..
  · intro x
    constructor
    · intro hx
      obtain ⟨e, he, hxe, hin⟩ := ha.mem_recordedSet hx
      exact ⟨e, mem_inWindow.2 ⟨he, hin⟩, hxe⟩
    · rintro ⟨e, he, rfl⟩
      rw [mem_inWindow] at he
      exact ha.recordedSet_mem hclock.ge he.1 (by rw [hclock]; exact he.2)

/-- **The answer** of a request after others. -/
theorem serve_answer_eq (hpast : ∀ r' ∈ h, r'.now ≤ r.now) :
    (serve (serveAll server h) r).2 = answer h r := by
  have hc : consumedAt r.key r.now r.score ((serveAll server h).advance r.now) =
      fun v => consumed (h ++ [r]) r.key v r.now := funext fun v => consumedAt_eq hpast v
  rw [serve_answer, hc]
  rfl

end Answer

/-! ## What quota reports -/

/-- A call of `quota`, made when the server's clock, too, has come to its clock reading. -/
def quotaAt (s : Redis) (userId token : String) (limits : QuotaLimits) (now : ℕ) : QuotaSummary :=
  ((quota userId token limits now).run exec (s.advance now)).2

/-- What `quota` leaves of the set of a window. -/
def evicted (b : String) (now : ℕ) (s : Redis) (v : Span) : Redis :=
  s.zRemRangeByScore (setKey b v) .negInf (.incl ((now : ℤ) - v.ms))

def evictedAll (b : String) (now : ℕ) (s : Redis) : Redis :=
  [Span.second, .minute, .hour, .day].foldl (evicted b now) s

section Evicted

variable {b : String} {v w : Span}

theorem zset_evicted : (evicted b now s v).zset (setKey b w) =
    if v = w then (s.zset (setKey b w)).zRemRangeByScore .negInf (.incl ((now : ℤ) - w.ms))
    else s.zset (setKey b w) := by
  unfold evicted Redis.zRemRangeByScore
  rw [zset_setZSet]
  simp only [setKey_inj, true_and]
  split
  · rename_i h; rw [h]
  · rfl

theorem zset_evictedAll : (evictedAll b now s).zset (setKey b w) =
    (s.zset (setKey b w)).zRemRangeByScore .negInf (.incl ((now : ℤ) - w.ms)) := by
  simp only [evictedAll, List.foldl_cons, List.foldl_nil, zset_evicted]
  cases w <;> simp

end Evicted

theorem ms_eq : ((Span.second.ms : ℕ) : ℤ) = 1000 ∧ ((Span.minute.ms : ℕ) : ℤ) = 60000 ∧
    ((Span.hour.ms : ℕ) : ℤ) = 3600000 ∧ ((Span.day.ms : ℕ) : ℤ) = 86400000 := by simp [Span.ms]

/-- A summary evicts, and reads the sums. -/
theorem quota_run : (quota u t limits now).run exec s = (evictedAll (key u t) now s, summary limits
    (fun v => total parseInt (((evictedAll (key u t) now s).zset (setKey (key u t) v)).map Prod.snd)) now) := by
  simp only [quota, Client.zRemRangeByScore, Client.zRangeByScore, Prog.pure_eq, Prog.await_bind,
    Prog.ret_bind, Prog.run_await, Prog.run_ret, exec, ZSet.zRangeByScore_all, evictedAll, evicted,
    List.foldl_cons, List.foldl_nil, ms_eq, summary]

/-- **Quota reports** the times of the entries in the window, not their scores. -/
theorem quota_eq {h : List Request} (hpast : ∀ r ∈ h, r.now ≤ now) :
    quotaAt (serveAll server h) u t limits now =
      summary limits (fun v => ∑ e ∈ inWindow h (key u t) v now, counted e.1) now := by
  rw [quotaAt, quota_run]
  have ha : Holds h ((serveAll server h).advance now) := (holds_serveAll h).advance now
  have hclock := clock_advance_of_le (clock_serveAll_le hpast)
  generalize (serveAll server h).advance now = s at ha hclock
  have hread : ∀ v, total parseInt (((evictedAll (key u t) now s).zset (setKey (key u t) v)).map Prod.snd) =
      ∑ e ∈ inWindow h (key u t) v now, counted e.1 := by
    intro v
    rw [zset_evictedAll, total_of_entries (ZSet.nodup_zRemRangeByScore (ha.nodup (key u t) v) ..)
      (S := inWindow h (key u t) v now)]
    · exact Finset.sum_congr rfl fun e _ => parseInt_member ..
    · intro x
      rw [ZSet.mem_zRemRangeByScore]
      simp only [Bound.minOK, Bound.maxOK, decide_eq_true_eq, true_and, mem_inWindow]
      -- what eviction leaves is what was recorded in the window
      constructor
      · rintro ⟨hx, hin⟩
        obtain ⟨e, he, rfl⟩ := ha.real _ _ _ hx
        simp only [entry] at hin
        exact ⟨e, ⟨he, by omega⟩, rfl⟩
      · rintro ⟨e, ⟨he, hin⟩, rfl⟩
        refine ⟨ha.kept _ _ _ he (by rw [hclock]; exact hin), ?_⟩
        simp only [entry]
        omega
  simp only [hread]

end NodeToolkit.SlidingWindow
