import NodeToolkit.Proof.FixedWindowAlone

/-!
# The fixed window: interleavings and serial orders

Requests of one client with the same limits, cut at their Redis commands. A request
charges its four counters before it looks at any answer, so one that is bound to fail
(`Doomed`) is in the way of the others until it has rolled its charges back.

* `Books`: what holds in every run. A counter holds what the calls have on it, and one
  that was charged within the limit has room for all that `standing` counts: the
  charges of the requests that are not bound to fail.
* `Books.serial_iff`: a finished run has the outcome of a serial order iff every
  rejected request exceeds a limit beside the accepted ones.
* `serial_of_warranted`: that is so if no request becomes bound to fail because of
  charges that will be rolled back (`Warranted`).
* `poisoned`: an oversized request takes down one that fits.
-/

namespace NodeToolkit.FixedWindow

open Async Redis

variable {u t : String} {limits : QuotaLimits} {s₀ : Redis} {w : RateWorld}

/-! ## Requests that are bound to fail -/

/-- A charge of the request was answered above its limit: the request will be rejected. -/
def Doomed : RateCall → Hist Resp → Prop
  | .request u t _ limits now, h => ∃ v, exceeded (slot u t v now) (limits.of v) h
  | _, _ => False

instance : ∀ (x : RateCall) (h : Hist Resp), Decidable (Doomed x h)
  | .request u t _ limits now, h => inferInstanceAs (Decidable (∃ v, exceeded (slot u t v now) (limits.of v) h = true))
  | .quota _ _ _ _, _ => inferInstanceAs (Decidable False)
  | .timer, _ => inferInstanceAs (Decidable False)

/-- The charge the request is about to make will be answered above its limit. -/
def GoesOver (w : RateWorld) (p : RateProc) : Prop :=
  match p.call, p.pending with
  | .request u t _ limits now, some (.incrBy k n) =>
    ∃ v, k = slot u t v now ∧ limits.of v < ((w.st.value k + n : ℤ) : ℚ)
  | _, _ => False

instance (w : RateWorld) (p : RateProc) : Decidable (GoesOver w p) := by
  unfold GoesOver
  split <;> infer_instance

theorem Doomed.snoc {x : RateCall} {h : Hist Resp} (hd : Doomed x h) (e : Σ c : Cmd, Resp c) : Doomed x (h ++ [e]) := by
  obtain ⟨c, r⟩ := e
  unfold Doomed at hd ⊢
  split at hd
  · obtain ⟨v, hv⟩ := hd
    exact ⟨v, by rw [exceeded_snoc, hv, Bool.true_or]⟩
  · exact hd

/-- **When a request becomes bound to fail.** -/
theorem doomed_advance {p : RateProc} {c : Cmd} {k : Resp c → Client RateReply} (hr : p.rest = .await c k) :
    Doomed p.call (p.hist ++ [⟨c, (exec w.st c).2⟩]) ↔ Doomed p.call p.hist ∨ GoesOver w p := by
  have hpending : p.pending = some c := Proc.pending_of_await hr
  obtain ⟨x, h, rest⟩ := p
  cases x with
  | quota u t limits now => simp [Doomed, GoesOver]
  | timer => simp [Doomed, GoesOver]
  | request u t score limits now =>
    have hexceeds : GoesOver w ⟨.request u t score limits now, h, rest⟩ ↔
        ∃ v, exceeds (slot u t v now) (limits.of v) c (exec w.st c).2 = true := by
      unfold GoesOver
      rw [hpending]
      cases c with
      | incrBy key n => simp [exceeds, exec, Redis.incrBy]
      | _ => simp [exceeds]
    rw [hexceeds]
    show (∃ v, _ = true) ↔ (∃ v, _ = true) ∨ ∃ v, _
    rw [← exists_or]
    apply exists_congr
    intro v
    rw [exceeded_snoc, Bool.or_eq_true]

/-- What a call may do as to its charges: it rolls them back only if it is bound to fail. -/
def withdrawMay (x : RateCall) (h : Hist Resp) : Cmd → Prop
  | .decrBy _ _ => Doomed x h
  | _ => True

/-- What a call may return: it fails only if it is bound to. -/
def withdrawFin (x : RateCall) (h : Hist Resp) : RateReply → Prop
  | .requested (.error _) => Doomed x h
  | _ => True

theorem request_withdraws (score now : ℕ) : (request u t score limits now).Follows
    (.ofHist (withdrawMay (.request u t score limits now))
      fun h r => withdrawFin (.request u t score limits now) h (.requested r)) [] := by
  simp only [request, Client.incrBy, Client.decrBy, Client.expire, Prog.pure_eq, Prog.await_bind,
    Prog.ret_bind, Prog.follows_await, Protocol.ofHist, List.nil_append, List.cons_append]
  refine ⟨trivial, fun r₁ => ⟨trivial, fun r₂ => ⟨trivial, fun r₃ => ⟨trivial, fun r₄ => ?_⟩⟩⟩⟩
  refine ⟨trivial, fun _ => ⟨trivial, fun _ => ⟨trivial, fun _ => ⟨trivial, fun _ => ?_⟩⟩⟩⟩
  split
  · rename_i hover
    have hdoomed : Doomed (.request u t score limits now)
        [⟨.incrBy (slot u t .second now) score, r₁⟩, ⟨.incrBy (slot u t .minute now) score, r₂⟩,
          ⟨.incrBy (slot u t .hour now) score, r₃⟩, ⟨.incrBy (slot u t .day now) score, r₄⟩] := by
      apply Span.exists_iff.2
      simpa [exceeded, exceeds, QuotaLimits.of] using hover
    have hexpired := (((hdoomed.snoc ⟨.expire (slot u t .second now) 2, ()⟩).snoc
      ⟨.expire (slot u t .minute now) 61, ()⟩).snoc ⟨.expire (slot u t .hour now) 3601, ()⟩).snoc
      ⟨.expire (slot u t .day now) 86401, ()⟩
    refine ⟨hexpired, fun r₁ => ⟨hexpired.snoc _, fun r₂ => ⟨(hexpired.snoc _).snoc _, fun r₃ => ?_⟩⟩⟩
    exact ⟨((hexpired.snoc _).snoc _).snoc _, fun _ => (((hexpired.snoc _).snoc _).snoc _).snoc _⟩
  · exact trivial

theorem prog_withdraws {x : RateCall} (hx : Asks u t limits x) :
    (algorithm.prog x).Follows (.ofHist (withdrawMay x) (withdrawFin x)) [] := by
  obtain ⟨score, now, rfl⟩ := hx
  refine Prog.Follows.bind (P := .ofHist (withdrawMay (.request u t score limits now))
    fun h r => withdrawFin (.request u t score limits now) h (.requested r))
    (Q := .ofHist (withdrawMay _) (withdrawFin _)) rfl rfl ?_ (request_withdraws score now)
  intro h r hr
  exact hr

/-! ## The statement -/

/-- What all calls together hold on a counter. -/
def booked (w : RateWorld) (k : String) : ℤ := w.tally fun _ p => held k p

/-- The part of it that no rejection will roll back, as far as can be told. -/
def standing (w : RateWorld) (k : String) : ℤ :=
  w.tally fun _ p => if Doomed p.call p.hist then 0 else held k p

/-- The counters of the client when the requests that are bound to fail are rolled back. -/
def backed (u t : String) (s₀ : Redis) (w : RateWorld) (v : Span) (start : ℕ) : ℤ :=
  s₀.value (counter (key u t) v start) + standing w (counter (key u t) v start)

/-- The same, without one request. -/
def backedBut (u t : String) (s₀ : Redis) (w : RateWorld) (p : RateProc) (v : Span) (start : ℕ) : ℤ :=
  backed u t s₀ w v start - held (counter (key u t) v start) p

/-- The runs from `s₀`: requests of one client with the same limits in any order. No counter expires
under a running request, and none has before a request that is addressed to its window. -/
def Requests (u t : String) (limits : QuotaLimits) (s₀ : Redis) (w : RateWorld) : Ev Unit ℕ RateCall → Prop
  | .call _ x => Asks u t limits x ∧ ∀ v start, addresses v start x →
      w.st.value (counter (key u t) v start) =
        s₀.value (counter (key u t) v start) + booked w (counter (key u t) v start)
  | .step _ _ => True
  | .env now => ∀ v start, w.st.Expires (counter (key u t) v start) now →
      ∀ pid p, w.procs.get pid = some p → p.Running → addresses v start p.call = false

/-- **No request fails because of charges that are rolled back.** When the charge of a request is the
first to exceed a limit, the request exceeds one also beside what stands without it and without the
requests that are bound to fail, and so do these: none of them fails only because of the others. -/
def Warranted (u t : String) (s₀ : Redis) (w : RateWorld) : Ev Unit ℕ RateCall → Prop
  | .step pid _ => ∀ p, w.procs.get pid = some p → GoesOver w p → ¬ Doomed p.call p.hist →
      OverLimit (backedBut u t s₀ w p) p.call ∧
      ∀ r ∈ w.procs.values, Doomed r.call r.hist → OverLimit (backedBut u t s₀ w p) r.call
  | _ => True

instance (w : RateWorld) : ∀ e, Decidable (Warranted u t s₀ w e)
  | .step pid _ => inferInstanceAs (Decidable (∀ p ∈ w.procs.get pid, GoesOver w p → ¬ Doomed p.call p.hist →
      OverLimit (backedBut u t s₀ w p) p.call ∧
      ∀ r ∈ w.procs.values, Doomed r.call r.hist → OverLimit (backedBut u t s₀ w p) r.call))
  | .call _ _ => inferInstanceAs (Decidable True)
  | .env _ => inferInstanceAs (Decidable True)

/-- **The outcome is serial**: in some order, one after another from `s₀`, the same requests are
accepted and rejected as they were. -/
def Serial (s₀ : Redis) (w : RateWorld) : Prop :=
  ∃ ps : List RateProc, ps.Perm w.procs.values ∧
    (algorithm.machine.replies s₀ (ps.map fun p => (p.call, fun _ => ()))).map RateReply.granted = ps.map accepted

/-! ## The invariant -/

/-- What holds in every run. -/
structure Books (u t : String) (limits : QuotaLimits) (s₀ : Redis) (w : RateWorld) : Prop where
  orderly : ∀ v start, Orderly u t limits v start w
  withdraws : w.Keeps withdrawMay withdrawFin
  asks : ∀ pid p, w.procs.get pid = some p → Asks u t limits p.call
  value : ∀ v start pid p, w.procs.get pid = some p → p.Running → addresses v start p.call →
    w.st.value (counter (key u t) v start) =
      s₀.value (counter (key u t) v start) + booked w (counter (key u t) v start)
  room : ∀ v start pid p, w.procs.get pid = some p → ¬ Doomed p.call p.hist →
    charged (counter (key u t) v start) p.hist → (backed u t s₀ w v start : ℚ) ≤ limits.of v

theorem Asks.ofClient {x : RateCall} (hx : Asks u t limits x) : OfClient u t limits x := .inl hx

theorem not_doomed_nil (x : RateCall) : ¬ Doomed x [] := by
  unfold Doomed
  split
  · simp [exceeded]
  · exact id

theorem booked_begin {pid : ℕ} {x : RateCall} (hn : w.procs.get pid = none) (k : String) :
    booked (algorithm.machine.begin w pid x) k = booked w k := by
  have hnew : held k ⟨x, [], algorithm.machine.prog x⟩ = 0 := held_of_uncharged rfl
  unfold booked
  rw [Machine.tally_begin hn, hnew, add_zero]

theorem standing_begin {pid : ℕ} {x : RateCall} (hn : w.procs.get pid = none) (k : String) :
    standing (algorithm.machine.begin w pid x) k = standing w k := by
  have hnew : held k ⟨x, [], algorithm.machine.prog x⟩ = 0 := held_of_uncharged rfl
  unfold standing
  rw [Machine.tally_begin hn, hnew, ite_self, add_zero]

theorem backed_begin {pid : ℕ} {x : RateCall} (hn : w.procs.get pid = none) :
    backed u t s₀ (algorithm.machine.begin w pid x) = backed u t s₀ w := by
  funext v start
  unfold backed
  rw [standing_begin hn]

theorem Books.begin (hB : Books u t limits s₀ w) {pid : ℕ} {x : RateCall} (hn : w.procs.get pid = none)
    (hx : Asks u t limits x)
    (hvalue : ∀ v start, addresses v start x → w.st.value (counter (key u t) v start) =
      s₀.value (counter (key u t) v start) + booked w (counter (key u t) v start)) :
    Books u t limits s₀ (algorithm.machine.begin w pid x) where
  orderly v start := (hB.orderly v start).begin hx.ofClient
  withdraws := Machine.begin_obeys hB.withdraws pid (prog_withdraws hx)
  asks := Machine.begin_all hB.asks hx
  value v start := by
    rw [booked_begin hn]
    exact Machine.begin_all (hB.value v start) fun _ => hvalue v start
  room v start := by
    rw [backed_begin hn]
    exact Machine.begin_all (hB.room v start) fun _ hc => absurd hc (by simp [charged])

theorem standing_le_booked (w : RateWorld) (k : String) : standing w k ≤ booked w k := by
  apply Pool.tally_le
  intro pid p hp
  have hnonneg := held_nonneg k p
  split <;> omega

section Step

variable {pid : ℕ} {p p' : RateProc} {c : Cmd} {k : Resp c → Client RateReply}

/-- The value of a counter moves with what the calls hold on it. -/
theorem Books.balance (hB : Books u t limits s₀ w) (hp : w.procs.get pid = some p) (hr : p.rest = .await c k)
    (v : Span) (start : ℕ) :
    (exec w.st c).1.value (counter (key u t) v start) + booked w (counter (key u t) v start) =
      w.st.value (counter (key u t) v start) +
        booked (algorithm.machine.advance w pid () p c k) (counter (key u t) v start) := by
  have hshare := (hB.orderly v start).balance hp hr
  have hbooked : booked (algorithm.machine.advance w pid () p c k) (counter (key u t) v start) +
      held (counter (key u t) v start) p = booked w (counter (key u t) v start) + _ :=
    Machine.tally_advance (M := algorithm.machine) (i := ()) (c := c) (k := k) hp
  have hnew : held (counter (key u t) v start) ⟨p.call, p.hist ++ [⟨c, (algorithm.machine.exec () w.st c).2⟩],
      k (algorithm.machine.exec () w.st c).2⟩ = held (counter (key u t) v start)
      ⟨p.call, p.hist ++ [⟨c, (exec w.st c).2⟩], k (exec w.st c).2⟩ := rfl
  omega

/-- What stands moves with what the call that moves holds, unless it is bound to fail. -/
theorem standing_advance (hp : w.procs.get pid = some p) (hr : p.rest = .await c k) (key : String) :
    standing (algorithm.machine.advance w pid () p c k) key + (if Doomed p.call p.hist then 0 else held key p) =
      standing w key + if Doomed p.call p.hist ∨ GoesOver w p then 0
        else held key ⟨p.call, p.hist ++ [⟨c, (exec w.st c).2⟩], k (exec w.st c).2⟩ := by
  have h := Machine.tally_advance (M := algorithm.machine) (i := ()) (c := c) (k := k)
    (f := fun _ p => if Doomed p.call p.hist then 0 else held key p) hp
  have hdoomed := doomed_advance (w := w) hr
  simp only [RateLimitingAlgorithm.machine, hdoomed] at h
  exact h

/-- A call that was bound to fail changes nothing that stands. -/
theorem standing_doomed (hp : w.procs.get pid = some p) (hr : p.rest = .await c k) (hd : Doomed p.call p.hist)
    (key : String) : standing (algorithm.machine.advance w pid () p c k) key = standing w key := by
  have h := standing_advance hp hr key
  rw [if_pos hd, if_pos (.inl hd)] at h
  omega

/-- A call that becomes bound to fail takes its charges out of what stands. -/
theorem standing_goesOver (hp : w.procs.get pid = some p) (hr : p.rest = .await c k) (hd : ¬ Doomed p.call p.hist)
    (hg : GoesOver w p) (key : String) :
    standing (algorithm.machine.advance w pid () p c k) key = standing w key - held key p := by
  have h := standing_advance hp hr key
  rw [if_neg hd, if_pos (.inr hg)] at h
  omega

/-- A charge answered above the limit dooms the request. -/
theorem goesOver_of_charge {v : Span} {start : ℕ} (hx : Asks u t limits p.call) (hv : addresses v start p.call)
    (hr : p.rest = .await c k) (hc : c = .incrBy (counter (key u t) v start) p.call.score)
    (hover : limits.of v < ((w.st.value (counter (key u t) v start) + p.call.score : ℤ) : ℚ)) : GoesOver w p := by
  obtain ⟨score, now, hcall⟩ := hx
  have hpending : p.pending = some c := Proc.pending_of_await hr
  unfold GoesOver
  rw [hpending, hc, hcall]
  rw [hcall] at hv hover
  obtain rfl : windowStart v now = start := by simpa [addresses] using hv
  exact ⟨v, rfl, hover⟩

/-- **What a command leaves free**: a counter that a call has charged within the limit still has
room for all that stands on it. -/
theorem Books.room_advance (hB : Books u t limits s₀ w) (hp : w.procs.get pid = some p) (hr : p.rest = .await c k)
    {v : Span} {start : ℕ} (hroom : charges (counter (key u t) v start) c = false →
      (backed u t s₀ w v start : ℚ) ≤ limits.of v)
    (hfits : charges (counter (key u t) v start) c = true → GoesOver w p →
      (backed u t s₀ w v start : ℚ) ≤ limits.of v) :
    (backed u t s₀ (algorithm.machine.advance w pid () p c k) v start : ℚ) ≤ limits.of v := by
  have hstand := standing_advance hp hr (counter (key u t) v start)
  have hbalance := hB.balance hp hr v start
  have hle := standing_le_booked (algorithm.machine.advance w pid () p c k) (counter (key u t) v start)
  have hmay := hB.withdraws.allowed hp hr
  rcases touch_cases v start (hB.asks pid p hp).ofClient ((hB.orderly v start).keeps.allowed hp hr) with
    ⟨rfl, hv, hc, hf⟩ | ⟨rfl, -, hc, hf⟩ | ⟨hc, hf, hs⟩
  · -- a charge
    have hyes : charges (counter (key u t) v start) (.incrBy (counter (key u t) v start) p.call.score) = true := by
      simp [charges]
    by_cases hover : limits.of v < ((w.st.value (counter (key u t) v start) + p.call.score : ℤ) : ℚ)
    · -- above the limit: the request is bound to fail, and what stands does not grow
      have hgoes := goesOver_of_charge (hB.asks pid p hp) hv hr rfl hover
      refine le_trans (Int.cast_le.2 ?_) (hfits hyes hgoes)
      rw [held_of_uncharged hc, ite_self, if_pos (.inr hgoes)] at hstand
      unfold backed
      omega
    · -- within it: the answer covers all that is booked
      have hval := hB.value v start pid p hp (Proc.running_of_await hr) hv
      have hshare := (hB.orderly v start).balance hp hr
      rw [held_of_uncharged hc, held_charge hf] at hshare
      refine le_trans (Int.cast_le.2 ?_) (not_lt.1 hover)
      unfold backed
      omega
  · -- a refund, of a request that is bound to fail
    have hdoomed : Doomed p.call p.hist := hmay
    rw [backed, standing_doomed hp hr hdoomed]
    exact hroom rfl
  · -- a command that leaves this counter alone
    refine le_trans (Int.cast_le.2 ?_) (hroom hc)
    rw [held_other hc hf] at hstand
    have hnonneg := held_nonneg (counter (key u t) v start) p
    unfold backed
    by_cases hd : Doomed p.call p.hist
    · rw [if_pos hd, if_pos (.inl hd)] at hstand
      omega
    · rw [if_neg hd] at hstand
      split at hstand <;> omega

theorem Books.advance (hB : Books u t limits s₀ w) (hp : w.procs.get pid = some p) (hr : p.rest = .await c k) :
    Books u t limits s₀ (algorithm.machine.advance w pid () p c k) where
  orderly v start := (hB.orderly v start).advance hp hr
  withdraws := Machine.advance_obeys hB.withdraws () hp hr
  asks := Machine.advance_all hB.asks (hB.asks pid p hp)
  value v start := by
    have hbalance := hB.balance hp hr v start
    have hst : (algorithm.machine.advance w pid () p c k).st = (exec w.st c).1 := rfl
    rw [hst]
    intro q r hq hrun hv
    have hbefore : w.st.value (counter (key u t) v start) =
        s₀.value (counter (key u t) v start) + booked w (counter (key u t) v start) := by
      rcases Machine.advance_cases hq with ⟨rfl, rfl⟩ | ⟨-, hq⟩
      · exact hB.value v start _ p hp (Proc.running_of_await hr) hv
      · exact hB.value v start q r hq hrun hv
    omega
  room v start := by
    intro q r hq hd hc
    rcases Machine.advance_cases hq with ⟨rfl, rfl⟩ | ⟨-, hq⟩
    · -- the call that moves
      have hafter := doomed_advance (w := w) hr
      have hnot : ¬ (Doomed p.call p.hist ∨ GoesOver w p) := fun h => hd (hafter.2 h)
      refine hB.room_advance hp hr (fun hno => ?_) fun _ hg => absurd (.inr hg) hnot
      refine hB.room v start _ p hp (fun h => hnot (.inl h)) ?_
      rw [charged_snoc, hno, Bool.or_false] at hc
      exact hc
    · have hroom := hB.room v start q r hq hd hc
      exact hB.room_advance hp hr (fun _ => hroom) fun _ _ => hroom

end Step

/-- The clock may move as long as it expires no counter under a running request. -/
theorem Books.env (hB : Books u t limits s₀ w) {now : ℕ} (hno : ∀ v start,
    w.st.Expires (counter (key u t) v start) now →
      ∀ pid p, w.procs.get pid = some p → p.Running → addresses v start p.call = false) :
    Books u t limits s₀ ⟨w.st.advance now, w.procs⟩ where
  orderly v start := ⟨(hB.orderly v start).keeps, (hB.orderly v start).calls, (hB.orderly v start).own⟩
  withdraws := hB.withdraws
  asks := hB.asks
  value v start pid p hp hrun hv := by
    have hkept : ¬ w.st.Expires (counter (key u t) v start) now := by
      intro hexp
      rw [hno v start hexp pid p hp hrun] at hv
      cases hv
    exact (value_advance _ _ hkept).trans (hB.value v start pid p hp hrun hv)
  room := hB.room

theorem books_init (s₀ : Redis) : Books u t limits s₀ (Pool.init s₀) where
  orderly v start := ⟨Pool.obeys_init _ _ _, by simp [Pool.init], by simp [Pool.init]⟩
  withdraws := Pool.obeys_init _ _ _
  asks := by simp [Pool.init]
  value := by simp [Pool.init]
  room := by simp [Pool.init]

theorem books_run {es : List (Ev Unit ℕ RateCall)}
    (hes : algorithm.machine.Along (Requests u t limits s₀) (Pool.init s₀) es) :
    Books u t limits s₀ (algorithm.machine.run (Pool.init s₀) es) :=
  Machine.run_inv (I := Books u t limits s₀) (fun _ _ _ hB hG hn => hB.begin hn hG.1 hG.2)
    (fun _ _ _ _ _ _ hB _ hp hr => hB.advance hp hr) (fun _ _ hB hG => hB.env hG) (books_init s₀) hes

/-! ## Warranted runs -/

/-- Every request that is bound to fail exceeds a limit beside what stands. -/
def Due (u t : String) (s₀ : Redis) (w : RateWorld) : Prop :=
  ∀ pid p, w.procs.get pid = some p → Doomed p.call p.hist → OverLimit (backed u t s₀ w) p.call

theorem due_begin (hD : Due u t s₀ w) {pid : ℕ} {x : RateCall} (hn : w.procs.get pid = none) :
    Due u t s₀ (algorithm.machine.begin w pid x) := by
  unfold Due
  rw [backed_begin hn]
  exact Machine.begin_all hD fun hd => absurd hd (not_doomed_nil x)

/-- What stands only shrinks when a request becomes bound to fail. -/
theorem Books.backed_advance (hB : Books u t limits s₀ w) {pid : ℕ} {p : RateProc} {c : Cmd}
    {k : Resp c → Client RateReply} (hp : w.procs.get pid = some p) (hr : p.rest = .await c k)
    (hno : Doomed p.call p.hist ∨ ¬ GoesOver w p) (v : Span) (start : ℕ) :
    backed u t s₀ w v start ≤ backed u t s₀ (algorithm.machine.advance w pid () p c k) v start := by
  unfold backed
  have hstand := standing_advance hp hr (counter (key u t) v start)
  have hmay := hB.withdraws.allowed hp hr
  by_cases hd : Doomed p.call p.hist
  · rw [standing_doomed hp hr hd]
  · rw [if_neg hd, if_neg fun h => h.elim hd (hno.resolve_left hd)] at hstand
    rcases touch_cases v start (hB.asks pid p hp).ofClient ((hB.orderly v start).keeps.allowed hp hr) with
      ⟨rfl, -, hc, hf⟩ | ⟨rfl, -, -, -⟩ | ⟨hc, hf, -⟩
    · rw [held_of_uncharged hc, held_charge hf] at hstand
      omega
    · exact absurd hmay hd
    · rw [held_other hc hf] at hstand
      omega

theorem Books.due_advance (hB : Books u t limits s₀ w) (hD : Due u t s₀ w) {pid : ℕ} {p : RateProc} {c : Cmd}
    {k : Resp c → Client RateReply} (hW : Warranted u t s₀ w (.step pid ())) (hp : w.procs.get pid = some p)
    (hr : p.rest = .await c k) : Due u t s₀ (algorithm.machine.advance w pid () p c k) := by
  have hafter := doomed_advance (w := w) hr
  by_cases hfirst : GoesOver w p ∧ ¬ Doomed p.call p.hist
  · -- the request becomes bound to fail
    obtain ⟨hself, hothers⟩ := hW p hp hfirst.1 hfirst.2
    have hbut : backed u t s₀ (algorithm.machine.advance w pid () p c k) = backedBut u t s₀ w p := by
      funext v start
      unfold backedBut backed
      rw [standing_goesOver hp hr hfirst.2 hfirst.1, add_sub_assoc]
    unfold Due
    rw [hbut]
    exact Machine.advance_all (fun q r hq => hothers r (OMap.mem_values.2 ⟨q, hq⟩)) fun _ => hself
  · have hno : Doomed p.call p.hist ∨ ¬ GoesOver w p := by tauto
    have hmono := hB.backed_advance hp hr hno
    intro q r hq hd
    rcases Machine.advance_cases hq with ⟨rfl, rfl⟩ | ⟨-, hq⟩
    · have hbefore : Doomed p.call p.hist := (hafter.1 hd).elim id fun hg => hno.resolve_right (not_not_intro hg)
      exact (hD _ p hp hbefore).mono hmono
    · exact (hD q r hq hd).mono hmono

theorem due_run {es : List (Ev Unit ℕ RateCall)}
    (hes : algorithm.machine.Along (Requests u t limits s₀) (Pool.init s₀) es)
    (hW : algorithm.machine.Along (Warranted u t s₀) (Pool.init s₀) es) :
    Due u t s₀ (algorithm.machine.run (Pool.init s₀) es) := by
  have hrun := Machine.run_inv (M := algorithm.machine) (I := fun w => Books u t limits s₀ w ∧ Due u t s₀ w)
    (G := fun w e => Requests u t limits s₀ w e ∧ Warranted u t s₀ w e)
    (fun _ _ _ hI hG hn => ⟨hI.1.begin hn hG.1.1 hG.1.2, due_begin hI.2 hn⟩)
    (fun _ _ _ _ _ _ hI hG hp hr => ⟨hI.1.advance hp hr, hI.1.due_advance hI.2 hG.2 hp hr⟩)
    (fun _ _ hI hG => ⟨hI.1.env hG.1, hI.2⟩) ⟨books_init s₀, by simp [Due, Pool.init]⟩ (Machine.Along.and hes hW)
  exact hrun.2

/-! ## Finished runs -/

/-- A request is accepted iff it was not bound to fail. -/
theorem Books.accepted_iff_not_doomed (hB : Books u t limits s₀ w) {pid : ℕ} {p : RateProc}
    (hp : w.procs.get pid = some p) (hr : ¬ p.Running) : accepted p = true ↔ ¬ Doomed p.call p.hist := by
  obtain ⟨a, hres⟩ := Option.ne_none_iff_exists'.1 hr
  obtain ⟨score, now, hcall⟩ := hB.asks pid p hp
  constructor
  · intro ha hd
    rw [hcall] at hd
    obtain ⟨v, hv⟩ := hd
    have hspec := (hB.orderly v (windowStart v now)).accepted_spec hp ha (by simp [hcall, addresses])
    rw [hspec.2.2] at hv
    cases hv
  · intro hd
    have hfin := (hB.orderly .second 0).keeps.returned hp hres
    have hwith := hB.withdraws.returned hp hres
    rw [hcall] at hfin
    cases a with
    | requested r =>
      cases r with
      | ok q => exact accepted_iff.2 ⟨q, hres⟩
      | error e => exact absurd hwith hd
    | quota q => exact hfin.elim
    | ticked => exact hfin.elim

/-- The counters of the client in `s₀`. -/
def initially (u t : String) (s₀ : Redis) (v : Span) (start : ℕ) : ℤ := s₀.value (counter (key u t) v start)

/-- When no call is running, what stands is what the accepted requests charge. -/
theorem Books.backed_eq (hB : Books u t limits s₀ w) (hquiet : w.Quiet) :
    backed u t s₀ w = settled (initially u t s₀) w.procs.values := by
  funext v start
  have hstanding : standing w (counter (key u t) v start) =
      w.tally fun _ p => if accepted p then share p.call v start else 0 := by
    apply Pool.tally_congr
    intro pid p hp
    have hacc := hB.accepted_iff_not_doomed hp (hquiet pid p hp)
    by_cases ha : accepted p = true
    · rw [if_neg (hacc.1 ha), if_pos ha, held_eq (hB.orderly v start) hp,
        if_neg fun h : p.Running ∧ _ => hquiet pid p hp h.1, add_zero]
      by_cases hv : addresses v start p.call = true
      · rw [if_pos ⟨ha, hv⟩, share, if_pos hv]
      · rw [if_neg fun h => hv h.2, share, if_neg hv]
    · rw [if_pos (not_not.1 (mt hacc.2 ha)), if_neg ha]
  rw [backed, hstanding, settled, OMap.values, List.map_map]
  rfl

/-- An accepted request fits beside all the accepted ones. -/
theorem Books.fits (hB : Books u t limits s₀ w) (hquiet : w.Quiet) {pid : ℕ} {p : RateProc}
    (hp : w.procs.get pid = some p) (ha : accepted p = true) :
    ¬ OverLimit (fun v start => backed u t s₀ w v start - share p.call v start) p.call := by
  obtain ⟨score, now, hcall⟩ := hB.asks pid p hp
  rw [hcall]
  rintro ⟨v, hover⟩
  have hv : addresses v (windowStart v now) p.call = true := by simp [hcall, addresses]
  have hspec := (hB.orderly v (windowStart v now)).accepted_spec hp ha hv
  have hroom := hB.room v (windowStart v now) pid p hp
    ((hB.accepted_iff_not_doomed hp (hquiet pid p hp)).1 ha) hspec.1
  have hshare : share (.request u t score limits now) v (windowStart v now) = score := by
    rw [share, ← hcall, if_pos hv, hcall, RateCall.score]
  simp only [hshare, sub_add_cancel] at hover
  exact absurd hroom (not_le.2 hover)

/-- **When a finished run is serial**: iff every rejected request exceeds a limit beside the accepted
ones. -/
theorem Books.serial_iff (hB : Books u t limits s₀ w) (hquiet : w.Quiet) :
    Serial s₀ w ↔ ∀ pid p, w.procs.get pid = some p → accepted p = false →
      OverLimit (settled (initially u t s₀) w.procs.values) p.call := by
  have hasks : ∀ p ∈ w.procs.values, Asks u t limits p.call := by
    intro p hp
    obtain ⟨pid, hpid⟩ := OMap.mem_values.1 hp
    exact hB.asks pid p hpid
  have hgranted : ∀ ps : List RateProc, ps.Perm w.procs.values →
      (algorithm.machine.replies s₀ (ps.map fun p => (p.call, fun _ => ()))).map RateReply.granted =
        outcomes (initially u t s₀) (ps.map Proc.call) := by
    intro ps hperm
    have hcalls : ∀ x ∈ ps.map Proc.call, Asks u t limits x := by
      intro x hx
      obtain ⟨p, hp, rfl⟩ := List.mem_map.1 hx
      exact hasks p (hperm.mem_iff.1 hp)
    have hholds : Holds u t (initially u t s₀) s₀ := fun _ _ => rfl
    have hreplies := replies_granted hcalls hholds
    rwa [List.map_map] at hreplies
  constructor
  · rintro ⟨ps, hperm, hsame⟩ pid p hp hno
    rw [hgranted ps hperm] at hsame
    have hover := overLimit_of_outcomes hsame p (hperm.mem_iff.2 (OMap.mem_values.2 ⟨pid, hp⟩)) hno
    have hsettled : settled (initially u t s₀) ps = settled (initially u t s₀) w.procs.values := by
      funext v start
      unfold settled
      rw [(hperm.map _).sum_eq]
    rwa [hsettled] at hover
  · intro hover
    -- the accepted requests first
    refine ⟨w.procs.values.filter accepted ++ w.procs.values.filter fun p => !accepted p,
      List.filter_append_perm _ _, ?_⟩
    rw [hgranted _ (List.filter_append_perm _ _), List.map_append, outcomes_fit, outcomes_reject, List.map_append,
      List.map_map, List.map_map]
    · refine congrArg₂ _ (List.map_congr_left fun p hp => ?_) (List.map_congr_left fun p hp => ?_)
      · exact (List.mem_filter.1 hp).2.symm
      · exact ((Bool.not_eq_true' _).mp (List.mem_filter.1 hp).2).symm
    · intro x hx
      obtain ⟨p, hp, rfl⟩ := List.mem_map.1 hx
      obtain ⟨hmem, hno⟩ := List.mem_filter.1 hp
      obtain ⟨pid, hpid⟩ := OMap.mem_values.1 hmem
      simp only [total_filter]
      exact hover pid p hpid ((Bool.not_eq_true' _).mp hno)
    · intro x hx
      obtain ⟨p, hp, rfl⟩ := List.mem_map.1 hx
      obtain ⟨hmem, ha⟩ := List.mem_filter.1 hp
      obtain ⟨pid, hpid⟩ := OMap.mem_values.1 hmem
      have hfits := hB.fits hquiet hpid ha
      rw [hB.backed_eq hquiet] at hfits
      simp only [total_filter]
      exact hfits

/-- **Serializability of warranted runs.** -/
theorem serial_of_warranted {es : List (Ev Unit ℕ RateCall)}
    (hes : algorithm.machine.Along (Requests u t limits s₀) (Pool.init s₀) es)
    (hW : algorithm.machine.Along (Warranted u t s₀) (Pool.init s₀) es) :
    let w := algorithm.machine.run (Pool.init s₀) es
    w.Quiet → Serial s₀ w ∧ ∀ pid p, w.procs.get pid = some p → accepted p = false →
      OverLimit (settled (initially u t s₀) w.procs.values) p.call := by
  intro w hquiet
  have hB : Books u t limits s₀ w := books_run hes
  have hover : ∀ pid p, w.procs.get pid = some p → accepted p = false →
      OverLimit (settled (initially u t s₀) w.procs.values) p.call := by
    intro pid p hp hno
    rw [← hB.backed_eq hquiet]
    refine due_run hes hW pid p hp (not_not.1 fun hd => ?_)
    rw [(hB.accepted_iff_not_doomed hp (hquiet pid p hp)).2 hd] at hno
    cases hno
  exact ⟨(hB.serial_iff hquiet).2 hover, hover⟩

/-! ## Two requests -/

/-- Two requests of one second. The first makes as many of its commands as `n` says, then the second
runs to its end, then the first does. -/
def overlap (n score score' : ℕ) : List (Ev Unit ℕ RateCall) :=
  [.call 0 (.request "u" "t" score defaultQuotaLimits 0), .call 1 (.request "u" "t" score' defaultQuotaLimits 0)] ++
    (List.replicate n (.step 0 ()) ++ List.replicate 12 (.step 1 ()) ++ List.replicate 12 (.step 0 ()))

theorem overlap_requests (n score score' : ℕ) : algorithm.machine.Along (Requests "u" "t" defaultQuotaLimits server)
    (Pool.init server) (overlap n score score') := by
  have hfirst : ∀ v start, server.value (counter (key "u" "t") v start) =
      server.value (counter (key "u" "t") v start) + 0 := fun v start => (add_zero _).symm
  refine Machine.Along.append.2 ⟨⟨⟨⟨score, 0, rfl⟩, fun v start _ => hfirst v start⟩,
    ⟨⟨score', 0, rfl⟩, fun v start _ => hfirst v start⟩, trivial⟩, ?_⟩
  · apply Machine.Along.of_mem
    intro e he w
    rcases List.mem_append.1 he with he | he
    · rcases List.mem_append.1 he with he | he
      · rw [List.eq_of_mem_replicate he]
        exact trivial
      · rw [List.eq_of_mem_replicate he]
        exact trivial
    · rw [List.eq_of_mem_replicate he]
      exact trivial

/-- **A request taken down by one that is bound to fail**: a score of 6 in a second of 5 is charged on
the second before a score of 1 is checked. Both are rejected; in no order would the score of 1 be. -/
theorem poisoned :
    let w := algorithm.machine.run (Pool.init server) (overlap 1 6 1)
    algorithm.machine.Along (Requests "u" "t" defaultQuotaLimits server) (Pool.init server) (overlap 1 6 1) ∧
      w.Quiet ∧ ¬ Serial server w := by
  intro w
  have hes := overlap_requests 1 6 1
  have hquiet : w.Quiet := by decide +kernel
  refine ⟨hes, hquiet, fun hserial => ?_⟩
  have hfits : ∃ p ∈ w.procs.get 1, accepted p = false ∧
      ¬ OverLimit (settled (initially "u" "t" server) w.procs.values) p.call := by decide +kernel
  obtain ⟨p, hp, hno, hfits⟩ := hfits
  exact hfits (((books_run hes).serial_iff hquiet).1 hserial 1 p hp hno)

/-- A score of 4 that meets a score of 3 is rejected for it. -/
theorem serial_overlap : Serial server (algorithm.machine.run (Pool.init server) (overlap 4 3 4)) :=
  (serial_of_warranted (overlap_requests 4 3 4) (by decide +kernel) (by decide +kernel)).1

end NodeToolkit.FixedWindow
