import NodeToolkit.Proof.Calls
import NodeToolkit.Proof.Redis
import NodeToolkit.Spec.FixedWindow
import Mathlib.Algebra.Order.Ring.Cast
import Mathlib.Algebra.Order.Ring.Rat

/-!
# The fixed window: exact accounting under interleaving

Any number of `request` and `quota` calls of one client, cut at their Redis
commands and interleaved in any order.

* `counter_eq_iff`: counters of different clients or windows are different keys.
* `request_follows`: what one request does, as a protocol over its history: it
  charges its four counters once, refunds all of them if it fails and none if it
  succeeds, and succeeds only if every charge was answered within the limit.
* `accounting`: a counter holds the accepted scores of its window plus the open
  charges of running requests, counted since the counter last expired; the
  accepted scores stay within the limit; with no request running `quota` reports
  the limit less the accepted scores.
-/

namespace NodeToolkit.FixedWindow

open Async Redis

variable {u t : String} {limits : QuotaLimits}

/-! ## Counters -/

/-- **A counter determines its client and its window.** -/
theorem counter_eq_iff {b b' : String} {v w : Span} {i j : ℕ} :
    counter b v i = counter b' w j ↔ b = b' ∧ v = w ∧ i = j := by
  refine ⟨fun h => ?_, fun h => by rw [h.1, h.2.1, h.2.2]⟩
  unfold counter at h
  obtain ⟨h1, h2⟩ := colon_inj_right (colon_notMem_numberToString i) (colon_notMem_numberToString j) h
  obtain ⟨h0, h3⟩ := colon_inj_right v.colon_notMem_label w.colon_notMem_label h1
  exact ⟨h0, Span.label_inj h3, numberToString_inj h2⟩

@[simp] theorem counter_inj {b : String} {v w : Span} {i j : ℕ} :
    counter b v i = counter b w j ↔ v = w ∧ i = j := by
  rw [counter_eq_iff, and_iff_right rfl]

/-! ## What a call has done to a counter -/

/-- The command is an `INCRBY` of the key. -/
def charges (k : String) : Cmd → Bool
  | .incrBy j _ => j = k
  | _ => false

/-- The command is a `DECRBY` of the key. -/
def refunds (k : String) : Cmd → Bool
  | .decrBy j _ => j = k
  | _ => false

/-- The command is an `INCRBY` of the key, answered above the limit. -/
def exceeds (k : String) (limit : ℚ) : (c : Cmd) → Resp c → Bool
  | .incrBy j _, r => j = k ∧ limit < (r : ℚ)
  | _, _ => false

/-- The call has charged the key. -/
def charged (k : String) : Hist Resp → Bool
  | [] => false
  | e :: h => charges k e.1 || charged k h

/-- The call has refunded the key. -/
def refunded (k : String) : Hist Resp → Bool
  | [] => false
  | e :: h => refunds k e.1 || refunded k h

/-- A charge of the key was answered above the limit. -/
def exceeded (k : String) (limit : ℚ) : Hist Resp → Bool
  | [] => false
  | e :: h => exceeds k limit e.1 e.2 || exceeded k limit h

section Snoc

variable (k : String) (h : Hist Resp) (l : ℚ) (c : Cmd) (r : Resp c)

@[simp] theorem charged_snoc : charged k (h ++ [⟨c, r⟩]) = (charged k h || charges k c) := by
  induction h with
  | nil => simp [charged]
  | cons e h ih => simp [charged, ih, Bool.or_assoc]

@[simp] theorem refunded_snoc : refunded k (h ++ [⟨c, r⟩]) = (refunded k h || refunds k c) := by
  induction h with
  | nil => simp [refunded]
  | cons e h ih => simp [refunded, ih, Bool.or_assoc]

@[simp] theorem exceeded_snoc :
    exceeded k l (h ++ [⟨c, r⟩]) = (exceeded k l h || exceeds k l c r) := by
  induction h with
  | nil => simp [exceeded]
  | cons e h ih => simp [exceeded, ih, Bool.or_assoc]

end Snoc

/-- The counter a request at `now` addresses for a window. -/
abbrev slot (u t : String) (v : Span) (now : ℕ) : String :=
  counter (key u t) v (windowStart v now)

/-- **What a request may do** after a history. -/
def requestMay (u t : String) (score now : ℕ) (h : Hist Resp) : Cmd → Prop
  | .incrBy k n => n = score ∧ (∃ v, k = slot u t v now) ∧ charged k h = false ∧ refunded k h = false
  | .decrBy k n => n = score ∧ (∃ v, k = slot u t v now) ∧ charged k h ∧ refunded k h = false
  | .expire _ _ => True
  | _ => False

/-- **What a request may return** after a history. -/
def requestFin (u t : String) (limits : QuotaLimits) (now : ℕ) (h : Hist Resp) : RequestResult → Prop
  | .ok _ => ∀ v, charged (slot u t v now) h ∧ refunded (slot u t v now) h = false ∧
      exceeded (slot u t v now) (limits.of v) h = false
  | .error _ => ∀ v, refunded (slot u t v now) h

/-- **A request keeps to its protocol**, whatever Redis answers. -/
theorem request_follows (score now : ℕ) : (request u t score limits now).Follows
    (.ofHist (requestMay u t score now) (requestFin u t limits now)) [] := by
  simp only [request, Client.incrBy, Client.decrBy, Client.expire, Prog.pure_eq, Prog.await_bind,
    Prog.ret_bind, Prog.follows_await, Protocol.ofHist, List.nil_append, List.cons_append]
  -- the four charges
  refine ⟨by simp [requestMay, charged, refunded], fun r₁ => ?_⟩
  refine ⟨by simp [requestMay, charged, refunded, charges, refunds], fun r₂ => ?_⟩
  refine ⟨by simp [requestMay, charged, refunded, charges, refunds], fun r₃ => ?_⟩
  refine ⟨by simp [requestMay, charged, refunded, charges, refunds], fun r₄ => ?_⟩
  refine ⟨trivial, fun _ => ⟨trivial, fun _ => ⟨trivial, fun _ => ⟨trivial, fun _ => ?_⟩⟩⟩⟩
  split
  · -- the four refunds
    refine ⟨by simp [requestMay, charged, refunded, charges, refunds], fun _ => ?_⟩
    refine ⟨by simp [requestMay, charged, refunded, charges, refunds], fun _ => ?_⟩
    refine ⟨by simp [requestMay, charged, refunded, charges, refunds], fun _ => ?_⟩
    refine ⟨by simp [requestMay, charged, refunded, charges, refunds], fun _ => ?_⟩
    simp [requestFin, Span.forall_iff, refunded, refunds]
  · rename_i hle
    simp only [not_or, not_lt] at hle
    simp [requestFin, Span.forall_iff, charged, refunded, exceeded, charges, refunds, exceeds, QuotaLimits.of, hle]

/-- What a call may do; a `quota` only reads. -/
def may : RateCall → Hist Resp → Cmd → Prop
  | .request u t score _ now, h, c => requestMay u t score now h c
  | .quota _ _ _ _, _, c => ∃ k, c = .get k
  | .timer, _, _ => False

/-- What a call may return. -/
def fin : RateCall → Hist Resp → RateReply → Prop
  | .request u t _ limits now, h, .requested r => requestFin u t limits now h r
  | .quota _ _ _ _, _, .quota _ => True
  | .timer, _, .ticked => True
  | _, _, _ => False

/-- The protocol of a request: charge, expire, and refund when a limit is exceeded. -/
theorem prog_follows (x : RateCall) : (algorithm.prog x).Follows (.ofHist (may x) (fin x)) [] := by
  cases x with
  | request u t score limits now =>
    refine Prog.Follows.bind (P := .ofHist (requestMay u t score now) (requestFin u t limits now))
      (Q := .ofHist (may _) (fin _)) rfl rfl ?_ (request_follows score now)
    intro h r hr
    exact hr
  | quota u t limits now =>
    simp [algorithm, RateLimitingAlgorithm.prog, quota, Client.get, may, fin, Protocol.ofHist]
  | timer => exact trivial

/-! ## The statement -/

/-- A call of the client, with the limits. -/
def OfClient (u t : String) (limits : QuotaLimits) (x : RateCall) : Prop :=
  (∃ score now, x = .request u t score limits now) ∨ ∃ now, x = .quota u t limits now

/-- The call is a request in the window of this kind with this start. -/
def addresses (v : Span) (start : ℕ) : RateCall → Bool
  | .request _ _ _ _ now => windowStart v now = start
  | _ => false

/-- The sum of `f` over the calls started after `w₁`. -/
def since (w₁ w : RateWorld) (f : RateProc → ℤ) : ℤ :=
  w.tally fun pid p => if w₁.procs.get pid = none then f p else 0

/-- The total score of the accepted requests of a window started after `w₁`. -/
def acceptedScore (w₁ w : RateWorld) (v : Span) (start : ℕ) : ℤ :=
  since w₁ w fun p => if accepted p ∧ addresses v start p.call then p.call.score else 0

/-- The scores of the running requests started after `w₁` that have charged the key and
not rolled it back. -/
def openCharges (w₁ w : RateWorld) (k : String) : ℤ :=
  since w₁ w fun p =>
    if p.Running ∧ charged k p.hist ∧ refunded k p.hist = false then p.call.score else 0

/-- The runs: calls of one client with the same limits in any order, and a clock that
expires no counter while a request addressed to its window is running. -/
def Allowed (u t : String) (limits : QuotaLimits) (w : RateWorld) : Ev Unit ℕ RateCall → Prop
  | .call _ x => OfClient u t limits x
  | .step _ _ => True
  | .env now => ∀ v start, w.st.Expires (counter (key u t) v start) now →
      ∀ pid p, w.procs.get pid = some p → p.Running → addresses v start p.call = false

/-! ## The invariant -/

/-- What a call has on a counter: its score, between its charge and its refund. -/
def held (k : String) (p : RateProc) : ℤ :=
  if charged k p.hist ∧ refunded k p.hist = false then p.call.score else 0

/-- The part of it that was answered within the limit. -/
def passed (k : String) (limit : ℚ) (p : RateProc) : ℤ :=
  if exceeded k limit p.hist then 0 else held k p

/-- What holds in every run: calls of the client that follow their protocols and charge a
counter only from inside its window. -/
structure Orderly (u t : String) (limits : QuotaLimits) (v : Span) (start : ℕ) (w : RateWorld) : Prop where
  keeps : w.Keeps may fin
  calls : ∀ pid p, w.procs.get pid = some p → OfClient u t limits p.call
  own : ∀ pid p, w.procs.get pid = some p → charged (counter (key u t) v start) p.hist →
    addresses v start p.call

/-- The books of one counter, from `w₁` on. -/
structure Ledger (u t : String) (limits : QuotaLimits) (v : Span) (start : ℕ) (w₁ w : RateWorld) : Prop
    extends Orderly u t limits v start w where
  grows : ∀ pid, w.procs.get pid = none → w₁.procs.get pid = none
  old : ∀ pid p, w.procs.get pid = some p → w₁.procs.get pid ≠ none → p.Running →
    addresses v start p.call = false
  value : w.st.value (counter (key u t) v start) = since w₁ w (held (counter (key u t) v start))
  bound : (since w₁ w (passed (counter (key u t) v start) (limits.of v)) : ℚ) ≤ limits.of v

variable {v : Span} {start : ℕ} {w₁ w : RateWorld}

/-- **What a command can do to a counter**: charge it, refund it, or nothing. -/
theorem touch_cases (v : Span) (start : ℕ) {x : RateCall} (hx : OfClient u t limits x) {h : Hist Resp} {c : Cmd}
    (hc : may x h c) :
    (c = .incrBy (counter (key u t) v start) (x.score) ∧ addresses v start x ∧
      charged (counter (key u t) v start) h = false ∧
      refunded (counter (key u t) v start) h = false) ∨
    (c = .decrBy (counter (key u t) v start) (x.score) ∧ addresses v start x ∧
      charged (counter (key u t) v start) h ∧ refunded (counter (key u t) v start) h = false) ∨
    (charges (counter (key u t) v start) c = false ∧ refunds (counter (key u t) v start) c = false ∧
      ∀ s, (exec s c).1.value (counter (key u t) v start) = s.value (counter (key u t) v start)) := by
  rcases hx with ⟨score, now, rfl⟩ | ⟨now, rfl⟩
  · cases c with
    | incrBy k n =>
      obtain ⟨rfl, ⟨v', rfl⟩, h1, h2⟩ := hc
      -- one of the four charges is of this counter, if any
      by_cases hk : v' = v ∧ windowStart v' now = start
      · obtain ⟨rfl, rfl⟩ := hk
        exact Or.inl ⟨rfl, by simp [addresses], h1, h2⟩
      · refine Or.inr (Or.inr ⟨by simpa [charges] using hk, rfl, fun s => ?_⟩)
        have hne : slot u t v' now ≠ counter (key u t) v start := by simpa using hk
        simp [exec, Redis.incrBy, hne]
    | decrBy k n =>
      obtain ⟨rfl, ⟨v', rfl⟩, h1, h2⟩ := hc
      by_cases hk : v' = v ∧ windowStart v' now = start
      · obtain ⟨rfl, rfl⟩ := hk
        exact Or.inr (Or.inl ⟨rfl, by simp [addresses], h1, h2⟩)
      · refine Or.inr (Or.inr ⟨rfl, by simpa [refunds] using hk, fun s => ?_⟩)
        have hne : slot u t v' now ≠ counter (key u t) v start := by simpa using hk
        simp [exec, Redis.decrBy, hne]
    | expire k n => exact Or.inr (Or.inr ⟨rfl, rfl, fun s => by simp [exec]⟩)
    | _ => exact absurd hc (by simp [may, requestMay])
  · obtain ⟨k, rfl⟩ := hc
    exact Or.inr (Or.inr ⟨rfl, rfl, fun s => rfl⟩)

/-- A call that begins counts for nothing. -/
theorem since_begin {pid : ℕ} {x : RateCall} {f : RateProc → ℤ} (hn : w.procs.get pid = none)
    (hf : f ⟨x, [], algorithm.prog x⟩ = 0) : since w₁ (algorithm.machine.begin w pid x) f = since w₁ w f := by
  have h : f ⟨x, [], algorithm.machine.prog x⟩ = 0 := hf
  unfold since
  rw [Machine.tally_begin hn, h, ite_self, add_zero]

/-- A step changes what its own call counts for. -/
theorem since_advance {pid : ℕ} {p : RateProc} {c : Cmd} {k : Resp c → Client RateReply} {f : RateProc → ℤ}
    (hp : w.procs.get pid = some p) (hnew : w₁.procs.get pid = none) :
    since w₁ (algorithm.machine.advance w pid () p c k) f + f p = since w₁ w f +
      f ⟨p.call, p.hist ++ [⟨c, (exec w.st c).2⟩], k (exec w.st c).2⟩ := by
  have h := Machine.tally_advance (M := algorithm.machine) (i := ()) (c := c) (k := k)
    (f := fun pid p => if w₁.procs.get pid = none then f p else 0) hp
  simp only [hnew, if_true] at h
  exact h

/-- A step of a call from before is not counted. -/
theorem since_advance_old {pid : ℕ} {p : RateProc} {c : Cmd} {k : Resp c → Client RateReply}
    {f : RateProc → ℤ} (hp : w.procs.get pid = some p) (hold : w₁.procs.get pid ≠ none) :
    since w₁ (algorithm.machine.advance w pid () p c k) f = since w₁ w f := by
  have h := Machine.tally_advance (M := algorithm.machine) (i := ()) (c := c) (k := k)
    (f := fun pid p => if w₁.procs.get pid = none then f p else 0) hp
  simp only [hold, if_false, add_zero] at h
  exact h

theorem held_nonneg (k : String) (p : RateProc) : 0 ≤ held k p := by
  unfold held; split <;> omega

/-- What has been let through is held. -/
theorem passed_le_held (k : String) (l : ℚ) (p : RateProc) : passed k l p ≤ held k p := by
  have := held_nonneg k p
  unfold passed; split <;> omega

theorem since_le (w₁ w : RateWorld) {f g : RateProc → ℤ}
    (h : ∀ pid p, w.procs.get pid = some p → f p ≤ g p) : since w₁ w f ≤ since w₁ w g := by
  refine Pool.tally_le fun pid p hp => ?_
  split
  · exact h pid p hp
  · exact le_rfl

theorem since_eq_zero {f : RateProc → ℤ} (h : ∀ pid p, w.procs.get pid = some p → f p = 0) :
    since w₁ w f = 0 :=
  Pool.tally_eq_zero fun pid p hp => by rw [h pid p hp, ite_self]

section Held

variable {k : String} {l : ℚ} {p : RateProc} {q : Client RateReply}

/-- Nothing is held before the charge. -/
theorem held_of_uncharged (hc : charged k p.hist = false) : held k p = 0 := by simp [held, hc]

/-- The score is held from the charge to the refund. -/
theorem held_of_open (hc : charged k p.hist) (hf : refunded k p.hist = false) :
    held k p = p.call.score := by
  simp [held, hc, hf]

/-- The charge. -/
theorem held_charge {n r : ℤ} (hf : refunded k p.hist = false) :
    held k ⟨p.call, p.hist ++ [⟨.incrBy k n, r⟩], q⟩ = p.call.score := by
  simp [held, charges, refunds, hf]

/-- The refund. -/
theorem held_refund {n r : ℤ} : held k ⟨p.call, p.hist ++ [⟨.decrBy k n, r⟩], q⟩ = 0 := by
  simp [held, refunds]

/-- Any other command leaves what is held. -/
theorem held_other {c : Cmd} {r : Resp c} (hc : charges k c = false) (hf : refunds k c = false) :
    held k ⟨p.call, p.hist ++ [⟨c, r⟩], q⟩ = held k p := by
  simp [held, hc, hf]

/-- A charge that exceeds the limit is not let through. -/
theorem passed_charge_over {n r : ℤ} (hr : l < r) :
    passed k l ⟨p.call, p.hist ++ [⟨.incrBy k n, r⟩], q⟩ = 0 := by
  simp [passed, exceeds, hr]

theorem passed_other {c : Cmd} {r : Resp c} (hc : charges k c = false) (hf : refunds k c = false) :
    passed k l ⟨p.call, p.hist ++ [⟨c, r⟩], q⟩ = passed k l p := by
  have he : exceeds k l c r = false := by
    cases c <;> simp_all [exceeds, charges]
  simp [passed, held_other hc hf, he]

theorem passed_nonneg : 0 ≤ passed k l p := by
  have := held_nonneg k p
  unfold passed; split <;> omega

end Held

/-- A call of the client begins. -/
theorem Orderly.begin (hI : Orderly u t limits v start w) {pid : ℕ} {x : RateCall}
    (hx : OfClient u t limits x) : Orderly u t limits v start (algorithm.machine.begin w pid x) where
  keeps := Machine.begin_obeys hI.keeps pid (prog_follows x)
  calls := Machine.begin_all hI.calls hx
  own := Machine.begin_all hI.own (by simp [charged])

/-- **A command** of any call, by its protocol. -/
theorem Orderly.advance (hI : Orderly u t limits v start w) {pid : ℕ} {p : RateProc} {c : Cmd}
    {k : Resp c → Client RateReply} (hp : w.procs.get pid = some p) (hr : p.rest = .await c k) :
    Orderly u t limits v start (algorithm.machine.advance w pid () p c k) where
  keeps := Machine.advance_obeys hI.keeps () hp hr
  calls := Machine.advance_all hI.calls (hI.calls pid p hp)
  own := by
    refine Machine.advance_all hI.own fun hc => ?_
    simp only [charged_snoc, Bool.or_eq_true] at hc
    rcases hc with hc | hc
    · exact hI.own pid p hp hc
    · rcases touch_cases v start (hI.calls pid p hp) (hI.keeps.allowed hp hr) with
        ⟨-, h, -⟩ | ⟨-, h, -⟩ | ⟨h, -⟩
      · exact h
      · exact h
      · exact absurd (h.symm.trans hc) (by simp)

/-- The books stay right when a call starts. -/
theorem Ledger.begin (hI : Ledger u t limits v start w₁ w) {pid : ℕ} {x : RateCall}
    (hx : OfClient u t limits x) (hn : w.procs.get pid = none) :
    Ledger u t limits v start w₁ (algorithm.machine.begin w pid x) where
  toOrderly := hI.toOrderly.begin hx
  grows := fun q hq => hI.grows q (by
    simp only [Machine.begin, OMap.get_set] at hq
    split at hq
    · exact absurd hq (by simp)
    · exact hq)
  old := Machine.begin_all hI.old fun h => absurd (hI.grows pid hn) h
  value := by rw [since_begin hn (by simp [held, charged])]; exact hI.value
  bound := by rw [since_begin hn (by simp [passed, held, charged])]; exact hI.bound

/-- **What a command does to a counter** is what it does to the share of its call. -/
theorem Orderly.balance (hI : Orderly u t limits v start w) {pid : ℕ} {p : RateProc} {c : Cmd}
    {k : Resp c → Client RateReply} (hp : w.procs.get pid = some p) (hr : p.rest = .await c k) :
    (exec w.st c).1.value (counter (key u t) v start) + held (counter (key u t) v start) p =
      w.st.value (counter (key u t) v start) + held (counter (key u t) v start)
        ⟨p.call, p.hist ++ [⟨c, (exec w.st c).2⟩], k (exec w.st c).2⟩ := by
  have hcase := touch_cases v start (hI.calls pid p hp) (hI.keeps.allowed hp hr)
  generalize counter (key u t) v start = κ at hcase ⊢
  rcases hcase with ⟨rfl, -, hc, hf⟩ | ⟨rfl, -, hc, hf⟩ | ⟨hc, hf, hs⟩
  · -- a charge
    have hst : (exec w.st (.incrBy κ p.call.score)).1.value κ = w.st.value κ + p.call.score := by
      simp [exec, Redis.incrBy]
    rw [held_of_uncharged hc, held_charge hf]
    omega
  · -- a refund
    have hst : (exec w.st (.decrBy κ p.call.score)).1.value κ = w.st.value κ - p.call.score := by
      simp [exec, Redis.decrBy]
    rw [held_of_open hc hf, held_refund]
    omega
  · rw [held_other hc hf, hs]

/-- The balance of a counter after a command of a call that counts. -/
theorem Ledger.advance_new (hI : Ledger u t limits v start w₁ w) {pid : ℕ} {p : RateProc} {c : Cmd}
    {k : Resp c → Client RateReply} (hp : w.procs.get pid = some p) (hr : p.rest = .await c k)
    (hnew : w₁.procs.get pid = none) {w' : RateWorld} (hw' : w' = algorithm.machine.advance w pid () p c k) :
    w'.st.value (counter (key u t) v start) = since w₁ w' (held (counter (key u t) v start)) ∧
    (since w₁ w' (passed (counter (key u t) v start) (limits.of v)) : ℚ) ≤ limits.of v := by
  subst hw'
  have hst : (algorithm.machine.advance w pid () p c k).st = (exec w.st c).1 := rfl
  have hbal := hI.toOrderly.balance hp hr
  have hcase := touch_cases v start (hI.calls pid p hp) (hI.keeps.allowed hp hr)
  have hval := hI.value
  have hbnd := hI.bound
  rw [hst]
  generalize counter (key u t) v start = κ at hcase hval hbnd hbal ⊢
  have hheld := since_advance (c := c) (k := k) (f := held κ) hp hnew
  have hpass := since_advance (c := c) (k := k) (f := passed κ (limits.of v)) hp hnew
  have hle := since_le w₁ w fun _ p _ => passed_le_held κ (limits.of v) p
  have h0 := passed_nonneg (k := κ) (l := limits.of v) (p := p)
  refine ⟨by omega, ?_⟩
  rcases hcase with ⟨rfl, -, hc, hf⟩ | ⟨rfl, -, hc, hf⟩ | ⟨hc, hf, -⟩
  · -- a charge: its answer is the new value of the counter
    have hp0 := passed_le_held κ (limits.of v) p
    rw [held_of_uncharged hc] at hp0 hheld
    rw [held_charge hf] at hheld
    by_cases hr : limits.of v < ((w.st.value κ + p.call.score : ℤ) : ℚ)
    · -- answered above the limit: the request will fail, and adds nothing
      have hover := passed_charge_over (k := κ) (p := p) (n := p.call.score)
        (r := (exec w.st (.incrBy κ (p.call.score))).2)
        (q := k (exec w.st (.incrBy κ (p.call.score))).2) hr
      rw [hover] at hpass
      refine le_trans (Int.cast_le.2 ?_) hbnd
      omega
    · -- answered within the limit, which then bounds all that is held
      have hp1 := passed_le_held κ (limits.of v) ⟨p.call, p.hist ++ [⟨.incrBy κ (p.call.score),
        (exec w.st (.incrBy κ (p.call.score))).2⟩], k (exec w.st (.incrBy κ (p.call.score))).2⟩
      rw [held_charge hf] at hp1
      refine le_trans (Int.cast_le.2 ?_) (not_lt.1 hr)
      omega
  · -- a refund
    have hp1 := passed_le_held κ (limits.of v) ⟨p.call, p.hist ++ [⟨.decrBy κ (p.call.score),
      (exec w.st (.decrBy κ (p.call.score))).2⟩], k (exec w.st (.decrBy κ (p.call.score))).2⟩
    rw [held_refund] at hp1
    refine le_trans (Int.cast_le.2 ?_) hbnd
    omega
  · -- a command that leaves this counter alone
    rw [passed_other hc hf] at hpass
    refine le_trans (Int.cast_le.2 ?_) hbnd
    omega

/-- The books stay right when a call executes a command. -/
theorem Ledger.advance (hI : Ledger u t limits v start w₁ w) {pid : ℕ} {p : RateProc} {c : Cmd}
    {k : Resp c → Client RateReply} (hp : w.procs.get pid = some p) (hr : p.rest = .await c k) :
    Ledger u t limits v start w₁ (algorithm.machine.advance w pid () p c k) := by
  have hbal : (algorithm.machine.advance w pid () p c k).st.value (counter (key u t) v start) =
      since w₁ (algorithm.machine.advance w pid () p c k) (held (counter (key u t) v start)) ∧
      (since w₁ (algorithm.machine.advance w pid () p c k)
        (passed (counter (key u t) v start) (limits.of v)) : ℚ) ≤ limits.of v := by
    by_cases hnew : w₁.procs.get pid = none
    · exact hI.advance_new hp hr hnew rfl
    · -- a running call from before `w₁` is not addressed to this window
      have hno := hI.old pid p hp hnew (Proc.running_of_await hr)
      rw [since_advance_old hp hnew, since_advance_old hp hnew]
      rcases touch_cases v start (hI.calls pid p hp) (hI.keeps.allowed hp hr) with
        ⟨-, h, -⟩ | ⟨-, h, -⟩ | ⟨-, -, hs⟩
      · rw [hno] at h; exact absurd h (by simp)
      · rw [hno] at h; exact absurd h (by simp)
      · exact ⟨(hs w.st).trans hI.value, hI.bound⟩
  refine ⟨hI.toOrderly.advance hp hr, fun q hq => hI.grows q ?_, ?_, hbal.1, hbal.2⟩
  · simp only [Machine.advance, OMap.get_set] at hq
    split at hq
    · exact absurd hq (by simp)
    · exact hq
  · exact Machine.advance_all hI.old fun hq _ => hI.old pid p hp hq (Proc.running_of_await hr)

/-- The clock may move as long as it does not expire the counter. -/
theorem Ledger.env (hI : Ledger u t limits v start w₁ w) {now : ℕ}
    (hno : ¬ w.st.Expires (counter (key u t) v start) now) :
    Ledger u t limits v start w₁ ⟨w.st.advance now, w.procs⟩ :=
  { hI with value := (value_advance _ _ hno).trans hI.value }

/-- The books are opened at zero. -/
theorem Ledger.opened (hI : Orderly u t limits v start w) (hl : 0 ≤ limits.of v)
    (hv : w.st.value (counter (key u t) v start) = 0)
    (hrun : ∀ pid p, w.procs.get pid = some p → p.Running → addresses v start p.call = false) :
    Ledger u t limits v start w w := by
  have h0 : ∀ f, since w w f = 0 := by
    intro f
    refine Pool.tally_eq_zero fun pid p hp => ?_
    simp [hp]
  exact ⟨hI, fun _ h => h, fun pid p hp _ => hrun pid p hp, by rw [h0, hv], by rw [h0]; simpa using hl⟩

/-- Every run is orderly. -/
theorem orderly_run {s₀ : Redis} {es : List (Ev Unit ℕ RateCall)}
    (hes : algorithm.machine.Along (Allowed u t limits) (Pool.init s₀) es) :
    Orderly u t limits v start (algorithm.machine.run (Pool.init s₀) es) := by
  refine Machine.run_inv (I := Orderly u t limits v start) (fun w pid x hI hG _ => hI.begin hG)
    (fun w pid _ p c k hI _ hp hr => hI.advance hp hr) (fun w _ hI _ => ⟨hI.keeps, hI.calls, hI.own⟩) ?_ hes
  exact ⟨Pool.obeys_init _ _ _, by simp [Pool.init], by simp [Pool.init]⟩

/-- The key does not expire in this event. -/
def Kept (k : String) (w : RateWorld) : Ev Unit ℕ RateCall → Prop
  | .env now => ¬ w.st.Expires k now
  | _ => True

/-- The books stay right while the counter does not expire. -/
theorem Ledger.run (hI : Ledger u t limits v start w₁ w) {es : List (Ev Unit ℕ RateCall)}
    (hes : algorithm.machine.Along (Allowed u t limits) w es)
    (hk : algorithm.machine.Along (Kept (counter (key u t) v start)) w es) :
    Ledger u t limits v start w₁ (algorithm.machine.run w es) :=
  Machine.run_inv (I := Ledger u t limits v start w₁)
    (G := fun w e => Allowed u t limits w e ∧ Kept (counter (key u t) v start) w e)
    (fun _ _ _ hI hG hn => hI.begin hG.1 hn) (fun _ _ _ _ _ _ hI _ hp hr => hI.advance hp hr)
    (fun _ _ hI hG => hI.env hG.2) hI (Machine.Along.and hes hk)

/-! ## Results -/

/-- An accepted request of the window has charged the counter, within the limit, and not
refunded it. -/
theorem Orderly.accepted_spec (hI : Orderly u t limits v start w) {pid : ℕ} {p : RateProc}
    (hp : w.procs.get pid = some p) (ha : accepted p) (hw : addresses v start p.call) :
    charged (counter (key u t) v start) p.hist ∧
      refunded (counter (key u t) v start) p.hist = false ∧
      exceeded (counter (key u t) v start) (limits.of v) p.hist = false := by
  have hx := hI.calls pid p hp
  unfold accepted at ha
  split at ha
  · rename_i q hres
    have hfin := hI.keeps.returned hp hres
    obtain ⟨x, h, _⟩ := p
    rcases hx with ⟨score, now, rfl⟩ | ⟨now, rfl⟩
    · obtain rfl : windowStart v now = start := by simpa [addresses] using hw
      exact hfin v
    · simp [addresses] at hw
  · simp at ha

/-- A request of the window that has failed has refunded the counter. -/
theorem Orderly.rejected_spec (hI : Orderly u t limits v start w) {pid : ℕ} {p : RateProc}
    (hp : w.procs.get pid = some p) (hr : ¬ p.Running) (ha : ¬ accepted p)
    (hw : addresses v start p.call) : refunded (counter (key u t) v start) p.hist := by
  have hx := hI.calls pid p hp
  obtain ⟨a, hres⟩ := Option.ne_none_iff_exists'.1 hr
  have hfin := hI.keeps.returned hp hres
  unfold accepted at ha
  rw [hres] at ha
  obtain ⟨x, h, _⟩ := p
  rcases hx with ⟨score, now, rfl⟩ | ⟨now, rfl⟩
  · obtain rfl : windowStart v now = start := by simpa [addresses] using hw
    cases a with
    | requested r =>
      cases r with
      | error e => exact hfin v
      | ok q => simp at ha
    | quota s => exact hfin.elim
    | ticked => exact hfin.elim
  · simp [addresses] at hw

/-- What a call has on a counter is its accepted score or its open charge. -/
theorem held_eq (hI : Orderly u t limits v start w) {pid : ℕ} {p : RateProc}
    (hp : w.procs.get pid = some p) : held (counter (key u t) v start) p =
      (if accepted p ∧ addresses v start p.call then (p.call.score : ℤ) else 0) +
      (if p.Running ∧ charged (counter (key u t) v start) p.hist ∧
        refunded (counter (key u t) v start) p.hist = false then (p.call.score : ℤ) else 0) := by
  by_cases hr : p.Running
  · have ha : accepted p = false := by
      have hres : p.result = none := hr
      simp [accepted, hres]
    simp [held, hr, ha]
  · simp only [hr, false_and, if_false, add_zero]
    by_cases hw : addresses v start p.call
    · by_cases ha : accepted p
      · obtain ⟨hc, hf, -⟩ := hI.accepted_spec hp ha hw
        rw [held_of_open hc hf, if_pos ⟨ha, hw⟩]
      · rw [if_neg fun h => ha h.1, held, if_neg]
        rw [hI.rejected_spec hp hr ha hw]
        simp
    · rw [if_neg fun h => hw h.2, held_of_uncharged]
      rw [← Bool.not_eq_true]
      exact fun hc => hw (hI.own pid p hp hc)

/-- A summary reads the counters of the windows of its clock. -/
theorem quota_run (s : Redis) (now : ℕ) : ((quota u t limits now).run exec s).2.of v =
    ⟨limits.of v, limits.of v - s.value (slot u t v now), some (windowStart v now + v.ms)⟩ := by
  cases v <;> rfl

/-- **Exact accounting.** Split a run where the counter last expired (or take all of it). Then
the counter holds the accepted scores of its window and the open charges; the accepted scores
are within the limit; with no request running `quota` reports what they leave. -/
theorem accounting (hlim : 0 ≤ limits.of v) {s₀ : Redis}
    (h₀ : s₀.ints.get (counter (key u t) v start) = none) {es₁ es₂ : List (Ev Unit ℕ RateCall)}
    (hes : algorithm.machine.Along (Allowed u t limits) (Pool.init s₀) (es₁ ++ es₂))
    (hsplit : es₁ = [] ∨ ∃ es now, es₁ = es ++ [.env now] ∧
      (algorithm.machine.run (Pool.init s₀) es).st.Expires (counter (key u t) v start) now)
    (hkept : algorithm.machine.Along (Kept (counter (key u t) v start))
      (algorithm.machine.run (Pool.init s₀) es₁) es₂) :
    let w₁ := algorithm.machine.run (Pool.init s₀) es₁
    let w := algorithm.machine.run (Pool.init s₀) (es₁ ++ es₂)
    w.st.value (counter (key u t) v start) =
      acceptedScore w₁ w v start + openCharges w₁ w (counter (key u t) v start) ∧
    (acceptedScore w₁ w v start : ℚ) ≤ limits.of v ∧
    ((∀ pid p, w.procs.get pid = some p → p.call.isRequest → ¬ p.Running) →
      ∀ now, windowStart v now = start → ((quota u t limits now).run exec w.st).2.of v =
        ⟨limits.of v, limits.of v - acceptedScore w₁ w v start, some (start + v.ms)⟩) := by
  intro w₁ w
  rw [Machine.Along.append] at hes
  have ho : Orderly u t limits v start w₁ := orderly_run hes.1
  have hopen : Ledger u t limits v start w₁ w₁ := by
    rcases hsplit with rfl | ⟨es, now, rfl, hexp⟩
    · exact Ledger.opened ho hlim (value_of_none h₀) (by simp [w₁, Pool.init])
    · -- the last event before the split expired the counter
      have hw₁ : w₁ = ⟨(algorithm.machine.run (Pool.init s₀) es).st.advance now,
          (algorithm.machine.run (Pool.init s₀) es).procs⟩ := Machine.run_append ..
      have hG := (Machine.Along.append.1 hes.1).2.1
      refine Ledger.opened ho hlim ?_ ?_
      · rw [hw₁]; exact value_advance_of_expires _ _ hexp
      · rw [hw₁]; exact hG v start hexp
  have hL : Ledger u t limits v start w₁ w := by
    have h := hopen.run hes.2 hkept
    rwa [← Machine.run_append] at h
  -- what is held is accepted for good or an open charge
  have hsum : since w₁ w (held (counter (key u t) v start)) =
      acceptedScore w₁ w v start + openCharges w₁ w (counter (key u t) v start) := by
    unfold since acceptedScore openCharges since
    rw [← Pool.tally_add]
    refine Pool.tally_congr fun pid p hp => ?_
    rw [held_eq hL.toOrderly hp]
    split <;> simp
  have hval := hL.value.trans hsum
  refine ⟨hval, le_trans (Int.cast_le.2 ?_) hL.bound, ?_⟩
  · unfold acceptedScore
    refine since_le w₁ w fun pid p hp => ?_
    by_cases h : accepted p ∧ addresses v start p.call
    · obtain ⟨hc, hf, he⟩ := hL.accepted_spec hp h.1 h.2
      rw [if_pos h, passed, if_neg (by simp [he]), held_of_open hc hf]
    · rw [if_neg h]; exact passed_nonneg
  · intro hidle now hnow
    have hnone : openCharges w₁ w (counter (key u t) v start) = 0 := by
      refine since_eq_zero fun pid p hp => if_neg ?_
      rintro ⟨hr, hc, -⟩
      refine hidle pid p hp ?_ hr
      have hown := hL.own pid p hp hc
      unfold addresses at hown
      split at hown
      · rename_i hcall; rw [hcall]; rfl
      · simp at hown
    have hnow' : slot u t v now = counter (key u t) v start := by rw [slot, hnow]
    rw [quota_run, hnow', hnow, hval, hnone, add_zero]

/-! ## A late request

The counter of a second expires two seconds after its last charge. A request whose
clock still reads a time of that second then counts from zero. -/

/-- A request with the whole limit of a second, run to its end. -/
def lateRequest (pid : ℕ) : List (Ev Unit ℕ RateCall) :=
  .call pid (.request "u" "t" 5 defaultQuotaLimits 0) :: List.replicate 8 (.step pid ())

theorem lateRequest_expires : (algorithm.machine.run (Pool.init server) (lateRequest 0)).st.Expires
    (counter (key "u" "t") .second 0) 4000 :=
  ⟨⟨5, some 2000⟩, by decide +kernel, by decide +kernel⟩

theorem lateRequest_allowed : algorithm.machine.Along (Allowed "u" "t" defaultQuotaLimits)
    (Pool.init server) ((lateRequest 0 ++ [.env 4000]) ++ lateRequest 1) := by
  have hreq : ∀ w pid, algorithm.machine.Along (Allowed "u" "t" defaultQuotaLimits) w (lateRequest pid) := by
    intro w pid
    simp [lateRequest, Machine.Along, Allowed, OfClient, List.replicate]
  have hquiet : (algorithm.machine.run (Pool.init server) (lateRequest 0)).Quiet := by decide +kernel
  rw [Machine.Along.append, Machine.Along.append]
  exact ⟨⟨hreq _ 0, fun _ _ _ pid p hp hr => absurd hr (hquiet pid p hp), trivial⟩, hreq _ 1⟩

theorem lateRequest_quiet : (algorithm.machine.run (Pool.init server)
    ((lateRequest 0 ++ [.env 4000]) ++ lateRequest 1)).Quiet := by
  decide +kernel

/-- **Over the whole run the totals do not add up.** Both requests are accepted, so the accepted
score of the second is twice its limit, while the counter holds the later request only. -/
theorem lateRequest_exceeds :
    let w₀ := Pool.init server
    let w := algorithm.machine.run w₀ ((lateRequest 0 ++ [.env 4000]) ++ lateRequest 1)
    algorithm.machine.Along (Allowed "u" "t" defaultQuotaLimits) w₀
      ((lateRequest 0 ++ [.env 4000]) ++ lateRequest 1) ∧ w.Quiet ∧
    acceptedScore w₀ w .second 0 = 10 ∧
    ¬ (acceptedScore w₀ w .second 0 : ℚ) ≤ defaultQuotaLimits.of .second ∧
    w.st.value (counter (key "u" "t") .second 0) ≠
      acceptedScore w₀ w .second 0 + openCharges w₀ w (counter (key "u" "t") .second 0) :=
  ⟨lateRequest_allowed, lateRequest_quiet, by decide +kernel, by decide +kernel, by decide +kernel⟩

/-- From the expiry on they do. -/
theorem accounting_lateRequest :
    let w₁ := algorithm.machine.run (Pool.init server) (lateRequest 0 ++ [.env 4000])
    let w := algorithm.machine.run (Pool.init server) ((lateRequest 0 ++ [.env 4000]) ++ lateRequest 1)
    w.st.value (counter (key "u" "t") .second 0) =
      acceptedScore w₁ w .second 0 + openCharges w₁ w (counter (key "u" "t") .second 0) ∧
    (acceptedScore w₁ w .second 0 : ℚ) ≤ defaultQuotaLimits.of .second ∧
    ((quota "u" "t" defaultQuotaLimits 999).run exec w.st).2.of .second =
      ⟨5, 5 - acceptedScore w₁ w .second 0, some 1000⟩ := by
  have h := @accounting "u" "t" defaultQuotaLimits .second 0 (by decide +kernel) server rfl
    (lateRequest 0 ++ [.env 4000]) (lateRequest 1) lateRequest_allowed
    (Or.inr ⟨lateRequest 0, 4000, rfl, lateRequest_expires⟩)
    (by simp [lateRequest, Machine.Along, Kept, List.replicate])
  refine ⟨h.1, h.2.1, h.2.2 (fun pid p hp _ => ?_) 999 (by decide)⟩
  exact lateRequest_quiet pid p hp

end NodeToolkit.FixedWindow
