import NodeToolkit.Async.Triple
import NodeToolkit.Proof.FixedWindow

/-!
# The fixed window: requests one after another

What a request of a client does when no other runs beside it, from any values of
the client's counters, and what a list of them does.

* `alone_request`: a request is accepted iff it fits, and charges its counters iff it
  is accepted.
* `outcomes`: which calls of a list are accepted; `replies_granted`: they are those
  that the algorithm accepts.
* `outcomes_fit`, `outcomes_reject`: calls that fit together are accepted in any
  order, and calls that exceed a limit change nothing.
* `overLimit_of_outcomes`: a call rejected in its turn exceeds a limit beside all that
  are accepted.
-/

namespace NodeToolkit.FixedWindow

open Async Redis

variable {u t : String} {limits : QuotaLimits}

/-- With `f` on the counters the request exceeds one of its limits. -/
def OverLimit (f : Span → ℕ → ℤ) : RateCall → Prop
  | .request _ _ score limits now => ∃ v, limits.of v < ((f v (windowStart v now) + score : ℤ) : ℚ)
  | _ => False

instance (f : Span → ℕ → ℤ) : DecidablePred (OverLimit f)
  | .request _ _ score limits now =>
    inferInstanceAs (Decidable (∃ v, limits.of v < ((f v (windowStart v now) + score : ℤ) : ℚ)))
  | .quota _ _ _ _ => inferInstanceAs (Decidable False)
  | .timer => inferInstanceAs (Decidable False)

/-! ## A request alone -/

/-- What an accepted call charges on the counter of a window. -/
def share (x : RateCall) (v : Span) (start : ℕ) : ℤ := if addresses v start x then x.score else 0

theorem share_nonneg (x : RateCall) (v : Span) (start : ℕ) : 0 ≤ share x v start := by
  unfold share
  split <;> omega

/-- The counters of the client hold `f`. -/
def Holds (u t : String) (f : Span → ℕ → ℤ) (s : Redis) : Prop :=
  ∀ v start, s.value (counter (key u t) v start) = f v start

/-- The counters after `n` is added to one of them. -/
def charge (f : Span → ℕ → ℤ) (v : Span) (start : ℕ) (n : ℤ) : Span → ℕ → ℤ :=
  fun v' start' => f v' start' + if v = v' ∧ start = start' then n else 0

/-- One counter of the client is set. -/
theorem Holds.setInt {f : Span → ℕ → ℤ} {s : Redis} (h : Holds u t f s) (v : Span) (start : ℕ) (n : ℤ) :
    Holds u t (charge f v start n) (s.setInt (counter (key u t) v start) (f v start + n)) := by
  intro v' start'
  rw [value_setInt, charge]
  by_cases heq : v = v' ∧ start = start'
  · obtain ⟨rfl, rfl⟩ := heq
    rw [if_pos rfl, if_pos ⟨rfl, rfl⟩]
  · have hne : counter (key u t) v start ≠ counter (key u t) v' start' := fun hkey => heq (counter_inj.1 hkey)
    rw [if_neg hne, if_neg heq, add_zero, h]

section Rules

variable {α : Type} {f : Span → ℕ → ℤ} {v : Span} {start : ℕ} {n : ℤ} {Q : α → Redis → Prop}

/-- `INCRBY` answers the counter with the score added. -/
theorem triple_incrBy {k : ℤ → Client α}
    (h : Triple algorithm.machine.exec (Holds u t (charge f v start n)) (k (f v start + n)) Q) :
    Triple algorithm.machine.exec (Holds u t f) (.await (.incrBy (counter (key u t) v start) n) k) Q := by
  refine .await (T := fun r s => r = f v start + n ∧ Holds u t (charge f v start n) s) (fun _ s hs => ?_)
    fun r => .pre fun hr => ?_
  · refine ⟨?_, ?_⟩
    · show s.value _ + n = _
      rw [hs]
    · have hset := hs.setInt v start n
      rw [← hs] at hset
      exact hset
  · rw [hr]
    exact h

/-- `DECRBY` takes the score back; no one reads its answer. -/
theorem triple_decrBy {k : ℤ → Client α}
    (h : ∀ r, Triple algorithm.machine.exec (Holds u t (charge f v start (-n))) (k r) Q) :
    Triple algorithm.machine.exec (Holds u t f) (.await (.decrBy (counter (key u t) v start) n) k) Q := by
  refine .await (T := fun _ s => Holds u t (charge f v start (-n)) s) (fun _ s hs => ?_) h
  have hset := hs.setInt v start (-n)
  rw [← hs] at hset
  exact hset

/-- `EXPIRE` changes no count. -/
theorem triple_expire {key' : String} {seconds : ℕ} {k : Unit → Client α}
    (h : Triple algorithm.machine.exec (Holds u t f) (k ()) Q) :
    Triple algorithm.machine.exec (Holds u t f) (.await (.expire key' seconds) k) Q := by
  refine .await (T := fun _ s => Holds u t f s) (fun _ s hs v start => ?_) fun _ => h
  rw [← hs v start]
  exact value_expire s key' _ seconds

end Rules

/-- The counters after a charge of all windows. -/
def chargeAll (f : Span → ℕ → ℤ) (now : ℕ) (n : ℤ) : Span → ℕ → ℤ :=
  fun v start => f v start + if windowStart v now = start then n else 0

theorem charge_ne {f : Span → ℕ → ℤ} {v v' : Span} (h : v ≠ v') (i j : ℕ) (n : ℤ) : charge f v i n v' j = f v' j := by
  rw [charge, if_neg fun he => h he.1, add_zero]

/-- The four increments of a request. -/
theorem charge_charge (f : Span → ℕ → ℤ) (now : ℕ) (n : ℤ) :
    charge (charge (charge (charge f .second (windowStart .second now) n) .minute (windowStart .minute now) n) .hour
      (windowStart .hour now) n) .day (windowStart .day now) n = chargeAll f now n := by
  funext v start
  cases v <;> simp [charge, chargeAll]

/-- A rollback restores the counters. -/
theorem chargeAll_chargeAll (f : Span → ℕ → ℤ) (now : ℕ) (n : ℤ) : chargeAll (chargeAll f now n) now (-n) = f := by
  funext v start
  unfold chargeAll
  split <;> omega

/-- **A request executed alone**, from counters that hold `f`. -/
theorem request_triple (f : Span → ℕ → ℤ) (score now : ℕ) :
    Triple algorithm.machine.exec (Holds u t f) (request u t score limits now) fun r s =>
      if OverLimit f (.request u t score limits now) then (∃ e, r = .error e) ∧ Holds u t f s
      else (∃ q, r = .ok q) ∧ Holds u t (chargeAll f now score) s := by
  simp only [request, Client.incrBy, Client.decrBy, Client.expire, Prog.pure_eq, Prog.await_bind, Prog.ret_bind]
  refine triple_incrBy (triple_incrBy (triple_incrBy (triple_incrBy ?_)))
  refine triple_expire (triple_expire (triple_expire (triple_expire ?_)))
  rw [charge_charge]
  simp only [charge_ne, ne_eq, reduceCtorEq, not_false_eq_true]
  have hexists : OverLimit f (.request u t score limits now) ↔ _ := Span.exists_iff
  simp only [QuotaLimits.of] at hexists
  by_cases hover : OverLimit f (.request u t score limits now)
  · rw [if_pos (hexists.1 hover)]
    simp only [if_pos hover]
    refine triple_decrBy fun _ => triple_decrBy fun _ => triple_decrBy fun _ => triple_decrBy fun _ => ?_
    rw [charge_charge, chargeAll_chargeAll]
    exact .ret fun s hs => ⟨⟨_, rfl⟩, hs⟩
  · rw [if_neg fun h => hover (hexists.2 h)]
    simp only [if_neg hover]
    exact .ret fun s hs => ⟨⟨_, rfl⟩, hs⟩

/-- **A request executed alone** is accepted iff it fits, and charges its counters iff it is accepted. -/
theorem alone_request {f : Span → ℕ → ℤ} {s : Redis} (hs : Holds u t f s) (score now : ℕ) (is : ℕ → Unit) :
    let r := algorithm.machine.alone s (.request u t score limits now) is
    (r.2.granted = true ↔ ¬ OverLimit f (.request u t score limits now)) ∧
      Holds u t (fun v start =>
        f v start + if r.2.granted then share (.request u t score limits now) v start else 0) r.1 := by
  have htriple : Triple algorithm.machine.exec (Holds u t f) (algorithm.prog (.request u t score limits now)) fun r s =>
      (r.granted = true ↔ ¬ OverLimit f (.request u t score limits now)) ∧
      Holds u t (fun v start =>
        f v start + if r.granted then share (.request u t score limits now) v start else 0) s := by
    refine (request_triple f score now).bind fun r => .ret fun s hr => ?_
    by_cases hover : OverLimit f (.request u t score limits now)
    · rw [if_pos hover] at hr
      obtain ⟨⟨e, rfl⟩, hs⟩ := hr
      refine ⟨iff_of_false (by simp [RateReply.granted]) (not_not_intro hover), fun v start => ?_⟩
      rw [hs v start]
      simp [RateReply.granted]
    · rw [if_neg hover] at hr
      obtain ⟨⟨q, rfl⟩, hs⟩ := hr
      refine ⟨iff_of_true rfl hover, fun v start => ?_⟩
      rw [hs v start, chargeAll]
      simp [RateReply.granted, share, addresses, RateCall.score]
  exact Triple.alone (M := algorithm.machine) (x := .request u t score limits now) htriple hs is

/-! ## Requests one after another -/

/-- The call is a request of the client with the limits. -/
def Asks (u t : String) (limits : QuotaLimits) (x : RateCall) : Prop := ∃ score now, x = .request u t score limits now

/-- What calls charge on the counter of a window when they are accepted. -/
def total (xs : List RateCall) (v : Span) (start : ℕ) : ℤ := (xs.map fun x => share x v start).sum

/-- Which calls are accepted, one after another, from counters that hold `f`. -/
def outcomes (f : Span → ℕ → ℤ) : List RateCall → List Bool
  | [] => []
  | x :: xs =>
    if OverLimit f x then false :: outcomes f xs
    else true :: outcomes (fun v start => f v start + share x v start) xs

/-- **A list of requests** of one client is answered as `outcomes` says, by induction on the list. -/
theorem replies_granted {xs : List RateCall} (hxs : ∀ x ∈ xs, Asks u t limits x) : ∀ {f : Span → ℕ → ℤ} {s : Redis},
    Holds u t f s →
    (algorithm.machine.replies s (xs.map fun x => (x, fun _ => ()))).map RateReply.granted = outcomes f xs := by
  induction xs with
  | nil => exact fun _ => rfl
  | cons x xs ih =>
    intro f s hs
    rw [List.forall_mem_cons] at hxs
    obtain ⟨⟨score, now, rfl⟩, hrest⟩ := hxs
    have halone := @alone_request u t limits f s hs score now fun _ => ()
    obtain ⟨hgranted, hafter⟩ := halone
    rw [List.map_cons, Machine.replies_cons, List.map_cons, outcomes, ih hrest hafter]
    by_cases hover : OverLimit f (.request u t score limits now)
    · have hno := Bool.eq_false_iff.2 (mt hgranted.1 (not_not_intro hover))
      rw [if_pos hover, hno]
      simp
    · rw [if_neg hover, hgranted.2 hover]
      simp

/-- A request that does not fit does not fit fuller counters. -/
theorem OverLimit.mono {f g : Span → ℕ → ℤ} (h : ∀ v start, f v start ≤ g v start) {x : RateCall}
    (hx : OverLimit f x) : OverLimit g x := by
  unfold OverLimit at hx ⊢
  split at hx
  · obtain ⟨v, hv⟩ := hx
    refine ⟨v, lt_of_lt_of_le hv (Int.cast_le.2 ?_)⟩
    have hle := h v
    gcongr
    exact hle _
  · exact hx

theorem total_cons (x : RateCall) (xs : List RateCall) (v : Span) (start : ℕ) :
    total (x :: xs) v start = share x v start + total xs v start := List.sum_cons

theorem total_nonneg (xs : List RateCall) (v : Span) (start : ℕ) : 0 ≤ total xs v start := by
  apply List.sum_nonneg
  intro n hn
  obtain ⟨x, -, rfl⟩ := List.mem_map.1 hn
  exact share_nonneg x v start

/-- **Calls that fit together** are accepted in any order. -/
theorem outcomes_fit {xs ys : List RateCall} : ∀ {f : Span → ℕ → ℤ},
    (∀ x ∈ xs, ¬ OverLimit (fun v start => f v start + total xs v start - share x v start) x) →
    outcomes f (xs ++ ys) = xs.map (fun _ => true) ++ outcomes (fun v start => f v start + total xs v start) ys := by
  induction xs with
  | nil =>
    intro f _
    simp [total]
  | cons x xs ih =>
    intro f h
    rw [List.forall_mem_cons] at h
    have hfits : ¬ OverLimit f x := by
      refine fun hover => h.1 (hover.mono fun v start => ?_)
      have hrest := total_nonneg xs v start
      rw [total_cons]
      omega
    have hsum : ∀ v start, f v start + share x v start + total xs v start = f v start + total (x :: xs) v start := by
      intro v start
      rw [total_cons, add_assoc]
    rw [List.cons_append, outcomes, if_neg hfits, ih, List.map_cons, List.cons_append]
    · simp only [hsum]
    · intro y hy
      simp only [hsum]
      exact h.2 y hy

/-- **Calls that exceed a limit** leave the counters as they are. -/
theorem outcomes_reject {f : Span → ℕ → ℤ} {xs : List RateCall} (h : ∀ x ∈ xs, OverLimit f x) :
    outcomes f xs = xs.map fun _ => false := by
  induction xs with
  | nil => rfl
  | cons x xs ih =>
    rw [List.forall_mem_cons] at h
    rw [outcomes, if_pos h.1, ih h.2, List.map_cons]

/-- What the accepted calls of a list charge. -/
def settled (f : Span → ℕ → ℤ) (ps : List RateProc) (v : Span) (start : ℕ) : ℤ :=
  f v start + (ps.map fun p => if accepted p then share p.call v start else 0).sum

/-- What the accepted calls charge, as a sum over all. -/
theorem total_filter (ps : List RateProc) (v : Span) (start : ℕ) :
    total ((ps.filter accepted).map Proc.call) v start =
      (ps.map fun p => if accepted p then share p.call v start else 0).sum := by
  induction ps with
  | nil => rfl
  | cons p ps ih =>
    rw [List.filter_cons, List.map_cons, List.sum_cons, ← ih]
    split
    · rw [List.map_cons, total_cons]
    · rw [zero_add]

/-- **A call that is rejected in its turn** exceeds a limit beside all that are accepted. -/
theorem overLimit_of_outcomes {ps : List RateProc} : ∀ {f : Span → ℕ → ℤ},
    outcomes f (ps.map Proc.call) = ps.map accepted →
      ∀ p ∈ ps, accepted p = false → OverLimit (settled f ps) p.call := by
  induction ps with
  | nil => exact fun _ p hp => absurd hp List.not_mem_nil
  | cons q ps ih =>
    intro f h p hp hno
    rw [List.map_cons, outcomes, List.map_cons] at h
    by_cases hover : OverLimit f q.call
    · rw [if_pos hover, List.cons.injEq] at h
      have hsettled : settled f (q :: ps) = settled f ps := by
        funext v start
        simp [settled, ← h.1]
      rw [hsettled]
      rcases List.mem_cons.1 hp with rfl | htail
      · apply hover.mono
        intro v start
        have hnonneg := total_nonneg ((ps.filter accepted).map Proc.call) v start
        rw [total_filter] at hnonneg
        unfold settled
        omega
      · exact ih h.2 p htail hno
    · rw [if_neg hover, List.cons.injEq] at h
      have hsettled : settled f (q :: ps) = settled (fun v start => f v start + share q.call v start) ps := by
        funext v start
        simp [settled, ← h.1, add_assoc]
      rw [hsettled]
      rcases List.mem_cons.1 hp with rfl | htail
      · rw [hno] at h
        exact absurd h.1 (by decide)
      · exact ih h.2 p htail hno

end NodeToolkit.FixedWindow
