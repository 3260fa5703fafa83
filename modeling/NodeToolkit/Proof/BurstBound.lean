import NodeToolkit.Proof.Calls
import NodeToolkit.Proof.TokenBucket

/-!
# The token bucket: bursts under interleaving

Requests of one key and refills, cut at their Redis commands and interleaved in any
order. A request that exceeds the capacity charges first and refunds later; what it
has yet to refund is `owed`.

* `burst_bound`: if no refill takes off what is only owed (`Calm`), the requests
  charged and accepted between two points of a run take at most the capacity and
  what the refills in between brought.
* `race_exceeds`: a refill between a charge and its refund makes the bucket deeper
  than its capacity.
-/

namespace NodeToolkit.TokenBucket

open Async Redis

variable {config : Config} {u t : String} {w₁ w : RateWorld}

/-! ## What a call may do -/

/-- A request charges, and refunds after an answer above the capacity. -/
def requestMay (config : Config) (k : String) (score : ℕ) (h : Hist Resp) (c : Cmd) : Prop :=
  (h = [] ∧ c = .incrBy k score) ∨
  ∃ r : ℤ, h = [⟨.incrBy k score, r⟩] ∧ config.capacity < (r : ℚ) ∧ c = .decrBy k score

/-- It succeeds after its charge and fails after its refund. -/
def requestFin (config : Config) (k : String) (score : ℕ) (h : Hist Resp) : RequestResult → Prop
  | .ok _ => ∃ r : ℤ, h = [⟨.incrBy k score, r⟩] ∧ (r : ℚ) ≤ config.capacity
  | .error _ => ∃ r r' : ℤ, h = [⟨.incrBy k score, r⟩, ⟨.decrBy k score, r'⟩]

def may (config : Config) : RateCall → Hist Resp → Cmd → Prop
  | .request u t score _ _, h, c => requestMay config (key u t) score h c
  | .quota _ _ _ _, _, c => ∃ k, c = .get k
  | .timer, h, c => h = [] ∧ c = .evalRefill keyPrefix config.fillRate

def fin (config : Config) : RateCall → Hist Resp → RateReply → Prop
  | .request u t score _ _, h, .requested r => requestFin config (key u t) score h r
  | .quota _ _ _ _, _, .quota _ => True
  | .timer, h, .ticked => h ≠ []
  | _, _, _ => False

theorem request_follows (score now : ℕ) (limits : QuotaLimits) :
    (request config u t score limits now).Follows
      (.ofHist (requestMay config (key u t) score) (requestFin config (key u t) score)) [] := by
  simp only [request, Client.incrBy, Client.decrBy, Prog.pure_eq, Prog.await_bind, Prog.ret_bind,
    Prog.follows_await, Protocol.ofHist, List.nil_append]
  refine ⟨Or.inl ⟨rfl, rfl⟩, fun r => ?_⟩
  split
  · rename_i h
    exact ⟨Or.inr ⟨r, rfl, h, rfl⟩, fun r' => ⟨r, r', rfl⟩⟩
  · rename_i h
    exact ⟨r, rfl, not_lt.1 h⟩

theorem prog_follows (x : RateCall) :
    ((algorithm config).prog x).Follows (.ofHist (may config x) (fin config x)) [] := by
  cases x with
  | request u t score limits now =>
    refine Prog.Follows.bind
      (P := .ofHist (requestMay config (key u t) score) (requestFin config (key u t) score))
      (Q := .ofHist (may config _) (fin config _)) rfl rfl ?_ (request_follows score now limits)
    intro h r hr
    exact hr
  | quota u t limits now =>
    simp only [algorithm, RateLimitingAlgorithm.prog, quota, calculateRemaining, Client.get,
      Prog.await_bind, Prog.ret_bind, Prog.follows_await]
    refine ⟨⟨_, rfl⟩, fun r => ?_⟩
    cases r <;> exact trivial
  | timer => exact ⟨⟨rfl, rfl⟩, fun r => List.cons_ne_nil _ _⟩

/-! ## The statement -/

/-- The call has executed its first command: the `INCRBY` of a request, the script of a refill. -/
def begun (p : RateProc) : Bool := !p.hist.isEmpty

/-- The call had executed its first command. -/
def begunIn (w : RateWorld) (pid : ℕ) : Bool :=
  match w.procs.get pid with
  | some p => begun p
  | none => false

/-- A request has charged a score that it has to refund. -/
def owes (p : RateProc) : ℤ := if p.call.isRequest ∧ begun p ∧ p.Running then p.call.score else 0

/-- What the requests in flight have yet to refund. -/
def owed (w : RateWorld) : ℤ := w.tally fun _ p => owes p

/-- The score of an accepted request that was charged after `w₁`. -/
def takes (w₁ : RateWorld) (pid : ℕ) (p : RateProc) : ℤ :=
  if accepted p ∧ begunIn w₁ pid = false then p.call.score else 0

/-- The total score of the accepted requests charged after `w₁`. -/
def acceptedBetween (w₁ w : RateWorld) : ℤ := w.tally (takes w₁)

/-- A refill that ran after `w₁`. -/
def fills (w₁ : RateWorld) (pid : ℕ) (p : RateProc) : ℤ :=
  if p.call.isTimer ∧ begun p ∧ begunIn w₁ pid = false then 1 else 0

/-- The number of refills after `w₁`. -/
def refillsBetween (w₁ w : RateWorld) : ℤ := w.tally (fills w₁)

/-- A request of the key with a score of at least one, or the refill. -/
def OnKey (u t : String) (x : RateCall) : Prop :=
  (∃ score limits now, 1 ≤ score ∧ x = .request u t score limits now) ∨ x = .timer

/-- The runs: calls on one key, and no other event. -/
def OnOneKey (u t : String) (_ : RateWorld) : Ev Unit ℕ RateCall → Prop
  | .call _ x => OnKey u t x
  | .step _ _ => True
  | .env _ => False

/-- A refill that works takes nothing off the key that is only owed. -/
def Calm (config : Config) (u t : String) (w : RateWorld) : Ev Unit ℕ RateCall → Prop
  | .step pid _ => ∀ p, w.procs.get pid = some p → p.call = .timer → begun p = false →
      config.fillRate.den = 1 → (owed w : ℚ) ≤ max 0 (w.st.value (key u t) - config.fillRate)
  | _ => True

/-! ## The invariant -/

/-- What holds of every point `w` after `w₁`: what is stored covers what is owed, the rest is at
most the capacity, and it grows by every accepted score and shrinks by refills only. -/
structure Level (config : Config) (u t : String) (w₁ w : RateWorld) : Prop where
  keeps : w.Keeps (may config) (fin config)
  calls : ∀ pid p, w.procs.get pid = some p → OnKey u t p.call
  later : ∀ pid, begunIn w₁ pid → begunIn w pid
  covered : owed w ≤ w.st.value (key u t)
  top : ((w.st.value (key u t) - owed w : ℤ) : ℚ) ≤ config.capacity
  flow : ((w₁.st.value (key u t) - owed w₁ + acceptedBetween w₁ w : ℤ) : ℚ) ≤
    (w.st.value (key u t) - owed w : ℤ) + config.fillRate * (refillsBetween w₁ w : ℤ)

theorem owes_nonneg (p : RateProc) : 0 ≤ owes p := by
  unfold owes; split <;> omega

theorem owed_nonneg (w : RateWorld) : 0 ≤ owed w := Pool.tally_nonneg fun _ p _ => owes_nonneg p

theorem begun_advance {p : RateProc} {c : Cmd} {r : Resp c} {q : Client RateReply} :
    begun ⟨p.call, p.hist ++ [⟨c, r⟩], q⟩ := by
  simp [begun]

/-- A call that starts has done nothing yet. -/
theorem Level.begin (hI : Level config u t w₁ w) {pid : ℕ} {x : RateCall} (hx : OnKey u t x)
    (hn : w.procs.get pid = none) : Level config u t w₁ ((algorithm config).machine.begin w pid x) := by
  have hO : owed ((algorithm config).machine.begin w pid x) = owed w := by
    rw [owed, Machine.tally_begin hn]
    simp [owes, begun, owed]
  have hA : acceptedBetween w₁ ((algorithm config).machine.begin w pid x) = acceptedBetween w₁ w := by
    rw [acceptedBetween, Machine.tally_begin hn]
    have hrun : accepted ⟨x, [], (algorithm config).machine.prog x⟩ = false := by
      rcases hx with ⟨score, limits, now, -, rfl⟩ | rfl <;> rfl
    simp [takes, hrun, acceptedBetween]
  have hR : refillsBetween w₁ ((algorithm config).machine.begin w pid x) = refillsBetween w₁ w := by
    rw [refillsBetween, Machine.tally_begin hn]
    simp [fills, begun, refillsBetween]
  refine ⟨Machine.begin_obeys hI.keeps pid (prog_follows x), Machine.begin_all hI.calls hx,
    fun q hq => ?_, by rw [hO]; exact hI.covered, by rw [hO]; exact hI.top, by rw [hO, hA, hR]; exact hI.flow⟩
  have hb := hI.later q hq
  have hne : pid ≠ q := by
    rintro rfl
    simp [begunIn, hn] at hb
  unfold begunIn at hb ⊢
  simp only [Machine.begin, OMap.get_set, if_neg hne]
  exact hb

theorem begunIn_of_get {pid : ℕ} {p : RateProc} (hp : w.procs.get pid = some p) :
    begunIn w pid = begun p := by
  simp [begunIn, hp]

theorem not_begunIn (hI : Level config u t w₁ w) {pid : ℕ} {p : RateProc}
    (hp : w.procs.get pid = some p) (hb : begun p = false) : begunIn w₁ pid = false := by
  rw [← Bool.not_eq_true]
  intro h
  have h' := hI.later pid h
  rw [begunIn_of_get hp, hb] at h'
  exact absurd h' (by simp)

/-- **What a command does**: an accepted charge, a charge above the capacity, a refund, or the
refill script. -/
inductive Moves (config : Config) (u t : String) (w₁ w : RateWorld) (pid : ℕ) (p p' : RateProc)
    (s' : Redis) : Prop where
  | take (score : ℕ) (hval : s'.value (key u t) = w.st.value (key u t) + score)
      (hle : ((w.st.value (key u t) + score : ℤ) : ℚ) ≤ config.capacity)
      (ho : owes p = 0) (ho' : owes p' = 0) (ht : takes w₁ pid p = 0) (ht' : takes w₁ pid p' = score)
      (hf : fills w₁ pid p = 0) (hf' : fills w₁ pid p' = 0)
  | charge (score : ℕ) (hval : s'.value (key u t) = w.st.value (key u t) + score)
      (ho : owes p = 0) (ho' : owes p' = score) (ht : takes w₁ pid p = 0) (ht' : takes w₁ pid p' = 0)
      (hf : fills w₁ pid p = 0) (hf' : fills w₁ pid p' = 0)
  | refund (score : ℕ) (hval : s'.value (key u t) = w.st.value (key u t) - score)
      (ho : owes p = score) (ho' : owes p' = 0) (ht : takes w₁ pid p = 0) (ht' : takes w₁ pid p' = 0)
      (hf : fills w₁ pid p = 0) (hf' : fills w₁ pid p' = 0)
  | refill (hcall : p.call = .timer) (hb : begun p = false)
      (hst : s' = (refillKeys config.fillRate (w.st.callKeys keyPrefix) w.st).1)
      (ho : owes p = 0) (ho' : owes p' = 0) (ht : takes w₁ pid p = 0) (ht' : takes w₁ pid p' = 0)
      (hf : fills w₁ pid p = 0) (hf' : fills w₁ pid p' = 1)

section Moves

variable {pid score now : ℕ} {limits : QuotaLimits} {p : RateProc}

/-- A charge; what the request does next tells how it was answered. -/
theorem Level.moves_charge (hI : Level config u t w₁ w) {k : Resp (.incrBy (key u t) score) → Client RateReply}
    (hp : w.procs.get pid = some p) (hr : p.rest = .await (.incrBy (key u t) score) k)
    (hx : p.call = .request u t score limits now) (hh : p.hist = []) :
    Moves config u t w₁ w pid p
      ⟨p.call, p.hist ++ [⟨.incrBy (key u t) score, (exec w.st (.incrBy (key u t) score)).2⟩],
        k (exec w.st (.incrBy (key u t) score)).2⟩ (exec w.st (.incrBy (key u t) score)).1 := by
  have hnew : ((algorithm config).machine.advance w pid () p _ k).Keeps (may config) (fin config) :=
    Machine.advance_obeys hI.keeps () hp hr
  have hget : ((algorithm config).machine.advance w pid () p _ k).procs.get pid =
      some ⟨p.call, p.hist ++ [⟨.incrBy (key u t) score, (exec w.st (.incrBy (key u t) score)).2⟩],
        k (exec w.st (.incrBy (key u t) score)).2⟩ := OMap.get_set_self ..
  have hacc := not_accepted_of_running (Proc.running_of_await hr)
  have hb := not_begunIn hI hp (by simp [begun, hh])
  have hval : (exec w.st (.incrBy (key u t) score)).1.value (key u t) =
      w.st.value (key u t) + score := by simp [exec, Redis.incrBy]
  obtain ⟨x, h, q⟩ := p
  obtain rfl : x = _ := hx
  obtain rfl : h = [] := hh
  cases hk : k (exec w.st (.incrBy (key u t) score)).2 with
  | ret a =>
    rw [hk] at hget
    have hfin := hnew.returned hget rfl
    cases a with
    | requested res =>
      cases res with
      | error e =>
        -- a request fails only after its refund
        obtain ⟨r, r', hh⟩ := hfin
        simp at hh
      | ok sum =>
        obtain ⟨r, hh, hle⟩ := hfin
        have hr : w.st.value (key u t) + score = r := by simpa [exec, Redis.incrBy] using hh
        refine .take score hval (by rw [hr]; exact hle) ?_ ?_ ?_ ?_ ?_ ?_
        · simp [owes, begun]
        · simp [owes, Proc.Running, Proc.result]
        · simp [takes, hacc]
        · simp [takes, accepted, Proc.result, hb, RateCall.score]
        · simp [fills, RateCall.isTimer]
        · simp [fills, RateCall.isTimer]
    | quota sum => exact hfin.elim
    | ticked => exact hfin.elim
  | await c' k' =>
    -- still running, so it will refund
    refine .charge score hval ?_ ?_ ?_ ?_ ?_ ?_
    · simp [owes, begun]
    · simp [owes, begun, RateCall.isRequest, RateCall.score, Proc.Running, Proc.result]
    · simp [takes, hacc]
    · simp [takes, accepted, Proc.result]
    · simp [fills, RateCall.isTimer]
    · simp [fills, RateCall.isTimer]

/-- A refund is the last command of its request. -/
theorem Level.moves_refund (hI : Level config u t w₁ w) {k : Resp (.decrBy (key u t) score) → Client RateReply}
    (hp : w.procs.get pid = some p) (hr : p.rest = .await (.decrBy (key u t) score) k) {r : ℤ}
    (hx : p.call = .request u t score limits now) (hh : p.hist = [⟨.incrBy (key u t) score, r⟩]) :
    Moves config u t w₁ w pid p
      ⟨p.call, p.hist ++ [⟨.decrBy (key u t) score, (exec w.st (.decrBy (key u t) score)).2⟩],
        k (exec w.st (.decrBy (key u t) score)).2⟩ (exec w.st (.decrBy (key u t) score)).1 := by
  have hnew : ((algorithm config).machine.advance w pid () p _ k).Keeps (may config) (fin config) :=
    Machine.advance_obeys hI.keeps () hp hr
  have hget : ((algorithm config).machine.advance w pid () p _ k).procs.get pid =
      some ⟨p.call, p.hist ++ [⟨.decrBy (key u t) score, (exec w.st (.decrBy (key u t) score)).2⟩],
        k (exec w.st (.decrBy (key u t) score)).2⟩ := OMap.get_set_self ..
  have hrun : p.Running := Proc.running_of_await hr
  have hacc := not_accepted_of_running hrun
  have hval : (exec w.st (.decrBy (key u t) score)).1.value (key u t) =
      w.st.value (key u t) - score := by simp [exec, Redis.decrBy]
  obtain ⟨x, h, q⟩ := p
  obtain rfl : x = _ := hx
  obtain rfl : h = _ := hh
  cases hk : k (exec w.st (.decrBy (key u t) score)).2 with
  | ret a =>
    rw [hk] at hget
    have hfin := hnew.returned hget rfl
    cases a with
    | requested res =>
      cases res with
      | ok sum =>
        -- a request succeeds only without a refund
        obtain ⟨r, hh, -⟩ := hfin
        simp at hh
      | error e =>
        refine .refund score hval ?_ ?_ ?_ ?_ ?_ ?_
        · simp [owes, begun, RateCall.isRequest, hrun, RateCall.score]
        · simp [owes, Proc.Running, Proc.result]
        · simp [takes, hacc]
        · simp [takes, accepted, Proc.result]
        · simp [fills, RateCall.isTimer]
        · simp [fills, RateCall.isTimer]
    | quota sum => exact hfin.elim
    | ticked => exact hfin.elim
  | await c' k' =>
    rw [hk] at hget
    rcases hnew.allowed hget rfl with ⟨hh, -⟩ | ⟨r', hh, -⟩
    · simp at hh
    · simp at hh

end Moves

/-- **One command of a call** is one of the four moves. -/
theorem Level.moves (hI : Level config u t w₁ w) {pid : ℕ} {p : RateProc} {c : Cmd}
    {k : Resp c → Client RateReply} (hp : w.procs.get pid = some p) (hr : p.rest = .await c k) :
    Moves config u t w₁ w pid p ⟨p.call, p.hist ++ [⟨c, (exec w.st c).2⟩], k (exec w.st c).2⟩
      (exec w.st c).1 := by
  have hmay := hI.keeps.allowed hp hr
  have hacc := not_accepted_of_running (Proc.running_of_await hr)
  rcases hI.calls pid p hp with ⟨score, limits, now, hs, hx⟩ | hx
  · rw [hx] at hmay
    rcases hmay with ⟨hh, rfl⟩ | ⟨r, hh, hlt, rfl⟩
    · exact hI.moves_charge hp hr hx hh
    · exact hI.moves_refund hp hr hx hh
  · rw [hx] at hmay
    obtain ⟨hh, rfl⟩ := hmay
    have hb : begun p = false := by simp [begun, hh]
    have hb₁ := not_begunIn hI hp hb
    refine .refill hx hb rfl ?_ ?_ ?_ ?_ ?_ ?_
    · simp [owes, hb]
    · simp [owes, hx, RateCall.isRequest]
    · simp [takes, hacc]
    · simp [takes, hx, RateCall.score]
    · simp [fills, hb]
    · simp [fills, begun, hx, RateCall.isTimer, hb₁]

/-- The sums over the calls when one call moves. -/
theorem sums_advance (config : Config) (w₁ : RateWorld) {pid : ℕ} {p : RateProc} {c : Cmd}
    {k : Resp c → Client RateReply} (hp : w.procs.get pid = some p) :
    let p' : RateProc := ⟨p.call, p.hist ++ [⟨c, (exec w.st c).2⟩], k (exec w.st c).2⟩
    let w' := (algorithm config).machine.advance w pid () p c k
    owed w' + owes p = owed w + owes p' ∧
    acceptedBetween w₁ w' + takes w₁ pid p = acceptedBetween w₁ w + takes w₁ pid p' ∧
    refillsBetween w₁ w' + fills w₁ pid p = refillsBetween w₁ w + fills w₁ pid p' :=
  ⟨Machine.tally_advance hp, Machine.tally_advance hp, Machine.tally_advance hp⟩

/-- The three sums and the stored number move together. -/
theorem Level.balance (hf : 0 ≤ config.fillRate) (hI : Level config u t w₁ w) {pid : ℕ}
    {p p' : RateProc} (w' : RateWorld) (hm : Moves config u t w₁ w pid p p' w'.st)
    (hO : owed w' + owes p = owed w + owes p')
    (hA : acceptedBetween w₁ w' + takes w₁ pid p = acceptedBetween w₁ w + takes w₁ pid p')
    (hR : refillsBetween w₁ w' + fills w₁ pid p = refillsBetween w₁ w + fills w₁ pid p')
    (hcalm : p.call = .timer → begun p = false → config.fillRate.den = 1 →
      (owed w : ℚ) ≤ max 0 (w.st.value (key u t) - config.fillRate)) :
    owed w' ≤ w'.st.value (key u t) ∧
    ((w'.st.value (key u t) - owed w' : ℤ) : ℚ) ≤ config.capacity ∧
    ((w₁.st.value (key u t) - owed w₁ + acceptedBetween w₁ w' : ℤ) : ℚ) ≤
      (w'.st.value (key u t) - owed w' : ℤ) + config.fillRate * (refillsBetween w₁ w' : ℤ) := by
  have hcov := hI.covered
  have htop := hI.top
  have hflow := hI.flow
  have h0 := owed_nonneg w
  cases hm with
  | take score hval hle ho ho' ht ht' hf hf' =>
    -- the answer of the charge bounds what is stored
    have hO' : owed w' = owed w := by omega
    have hA' : acceptedBetween w₁ w' = acceptedBetween w₁ w + score := by omega
    have hR' : refillsBetween w₁ w' = refillsBetween w₁ w := by omega
    rw [hval, hO', hA', hR']
    refine ⟨by omega, le_trans (Int.cast_le.2 (by omega)) hle, ?_⟩
    push_cast at hflow ⊢
    linarith
  | charge score hval ho ho' ht ht' hf hf' =>
    -- stored and owed grow alike, and shrink alike with the refund
    have hO' : owed w' = owed w + score := by omega
    have hA' : acceptedBetween w₁ w' = acceptedBetween w₁ w := by omega
    have hR' : refillsBetween w₁ w' = refillsBetween w₁ w := by omega
    have hnet : w.st.value (key u t) + score - (owed w + score) = w.st.value (key u t) - owed w := by ring
    rw [hval, hO', hA', hR', hnet]
    exact ⟨by omega, htop, hflow⟩
  | refund score hval ho ho' ht ht' hf hf' =>
    have hO' : owed w' = owed w - score := by omega
    have hA' : acceptedBetween w₁ w' = acceptedBetween w₁ w := by omega
    have hR' : refillsBetween w₁ w' = refillsBetween w₁ w := by omega
    have hnet : w.st.value (key u t) - score - (owed w - score) = w.st.value (key u t) - owed w := by ring
    rw [hval, hO', hA', hR', hnet]
    exact ⟨by omega, htop, hflow⟩
  | refill hcall hb hst ho ho' ht ht' hn hn' =>
    have hO' : owed w' = owed w := by omega
    have hA' : acceptedBetween w₁ w' = acceptedBetween w₁ w := by omega
    have hR' : refillsBetween w₁ w' = refillsBetween w₁ w + 1 := by omega
    rw [hO', hA', hR', hst]
    -- the script works with whole rates only
    by_cases hden : config.fillRate.den = 1
    · have hnum : ((config.fillRate.num : ℤ) : ℚ) = config.fillRate := Rat.coe_int_num_of_den_eq_one hden
      have hnn : 0 ≤ config.fillRate.num := Rat.num_nonneg.2 hf
      have hcalm : owed w ≤ max 0 (w.st.value (key u t) - config.fillRate.num) := by
        have h := hcalm hcall hb hden
        rw [← hnum] at h
        exact_mod_cast h
      rw [value_refill hf hden (isBucket_key u t)]
      have hge : w.st.value (key u t) - config.fillRate.num ≤
          max 0 (w.st.value (key u t) - config.fillRate.num) := le_max_right _ _
      have hle : max 0 (w.st.value (key u t) - config.fillRate.num) ≤ w.st.value (key u t) :=
        max_le (by omega) (by omega)
      generalize max 0 (w.st.value (key u t) - config.fillRate.num) = v' at *
      refine ⟨hcalm, le_trans (Int.cast_le.2 (by omega)) htop, ?_⟩
      have hge' : ((w.st.value (key u t) : ℤ) : ℚ) - (config.fillRate.num : ℤ) ≤ (v' : ℚ) := by
        exact_mod_cast hge
      rw [hnum] at hge'
      push_cast at hflow ⊢
      linarith
    · -- the script fails and changes nothing
      rw [refillKeys_of_den_ne_one hden]
      refine ⟨hcov, htop, ?_⟩
      push_cast at hflow ⊢
      linarith

/-- **One command** keeps the invariant, as long as a refill finds the key calm. -/
theorem Level.advance (hf : 0 ≤ config.fillRate) (hI : Level config u t w₁ w) {pid : ℕ} {p : RateProc}
    {c : Cmd} {k : Resp c → Client RateReply} (hp : w.procs.get pid = some p) (hr : p.rest = .await c k)
    (hcalm : Calm config u t w (.step pid ())) :
    Level config u t w₁ ((algorithm config).machine.advance w pid () p c k) := by
  obtain ⟨hO, hA, hR⟩ := sums_advance config w₁ (c := c) (k := k) hp
  obtain ⟨h1, h2, h3⟩ := hI.balance hf ((algorithm config).machine.advance w pid () p c k)
    (hI.moves hp hr) hO hA hR (hcalm p hp)
  refine ⟨Machine.advance_obeys hI.keeps () hp hr, Machine.advance_all hI.calls (hI.calls pid p hp),
    fun q hq => ?_, h1, h2, h3⟩
  have h := hI.later q hq
  unfold begunIn at h ⊢
  simp only [Machine.advance, OMap.get_set]
  by_cases hq : pid = q
  · simp only [if_pos hq]; exact begun_advance
  · simp only [if_neg hq]; exact h

/-- An accepted request has charged its score. -/
theorem Level.begun_of_accepted (hI : Level config u t w₁ w) {pid : ℕ} {p : RateProc}
    (hp : w.procs.get pid = some p) (ha : accepted p) : begun p := by
  obtain ⟨sum, hres⟩ := accepted_iff.1 ha
  have hfin := hI.keeps.returned hp hres
  have hx := hI.calls pid p hp
  obtain ⟨x, h, q⟩ := p
  rcases hx with ⟨score, limits, now, hs, rfl⟩ | rfl
  · obtain ⟨r, rfl, -⟩ := hfin
    rfl
  · exact hfin.elim

/-- The invariant at the first of the two points. -/
theorem Level.here (hI : Level config u t w₁ w) : Level config u t w w := by
  have hA : acceptedBetween w w = 0 := by
    refine Pool.tally_eq_zero fun pid p hp => if_neg ?_
    rintro ⟨ha, hb⟩
    rw [begunIn_of_get hp, hI.begun_of_accepted hp ha] at hb
    exact absurd hb (by simp)
  have hR : refillsBetween w w = 0 := by
    refine Pool.tally_eq_zero fun pid p hp => if_neg ?_
    rintro ⟨-, hb, hb'⟩
    rw [begunIn_of_get hp, hb] at hb'
    exact absurd hb' (by simp)
  refine ⟨hI.keeps, hI.calls, fun _ h => h, hI.covered, hI.top, ?_⟩
  rw [hA, hR]
  simp

/-- The invariant at the start of a run. -/
theorem level_init (hc : 0 ≤ config.capacity) {s₀ : Redis} (h₀ : s₀.ints.get (key u t) = none) :
    Level config u t (Pool.init s₀) (Pool.init s₀) := by
  have hv : (Pool.init s₀ : RateWorld).st.value (key u t) = 0 := value_of_none h₀
  have hO : owed (Pool.init s₀ : RateWorld) = 0 := Pool.tally_eq_zero fun _ _ hp => by simp [Pool.init] at hp
  have hA : acceptedBetween (Pool.init s₀) (Pool.init s₀ : RateWorld) = 0 :=
    Pool.tally_eq_zero fun _ _ hp => by simp [Pool.init] at hp
  have hR : refillsBetween (Pool.init s₀) (Pool.init s₀ : RateWorld) = 0 :=
    Pool.tally_eq_zero fun _ _ hp => by simp [Pool.init] at hp
  refine ⟨Pool.obeys_init _ _ _, by simp [Pool.init], fun _ h => h, by rw [hO, hv], ?_, ?_⟩
  · rw [hO, hv]; simpa using hc
  · rw [hO, hv, hA, hR]; simp

/-- **A whole run** keeps the invariant. -/
theorem Level.run (hf : 0 ≤ config.fillRate) (hI : Level config u t w₁ w)
    {es : List (Ev Unit ℕ RateCall)} (hkey : (algorithm config).machine.Along (OnOneKey u t) w es)
    (hcalm : (algorithm config).machine.Along (Calm config u t) w es) :
    Level config u t w₁ ((algorithm config).machine.run w es) :=
  Machine.run_inv (I := Level config u t w₁) (G := fun w e => OnOneKey u t w e ∧ Calm config u t w e)
    (fun _ _ _ hI hG hn => hI.begin hG.1 hn) (fun _ _ _ _ _ _ hI hG hp hr => hI.advance hf hp hr hG.2)
    (fun _ _ _ hG => hG.1.elim) hI (Machine.Along.and hkey hcalm)

/-! ## Results -/

/-- **Burst bound.** Between two points of a run whose refills all find the key calm, the requests
charged and accepted take at most the capacity and what the refills in between brought. -/
theorem burst_bound (hc : 0 ≤ config.capacity) (hf : 0 ≤ config.fillRate) {s₀ : Redis}
    (h₀ : s₀.ints.get (key u t) = none) {es₁ es₂ : List (Ev Unit ℕ RateCall)}
    (hkey : (algorithm config).machine.Along (OnOneKey u t) (Pool.init s₀) (es₁ ++ es₂))
    (hcalm : (algorithm config).machine.Along (Calm config u t) (Pool.init s₀) (es₁ ++ es₂)) :
    let w₁ := (algorithm config).machine.run (Pool.init s₀) es₁
    let w₂ := (algorithm config).machine.run (Pool.init s₀) (es₁ ++ es₂)
    (acceptedBetween w₁ w₂ : ℚ) ≤ config.capacity + config.fillRate * (refillsBetween w₁ w₂ : ℤ) := by
  intro w₁ w₂
  rw [Machine.Along.append] at hkey hcalm
  have h1 : Level config u t w₁ w₁ := ((level_init hc h₀).run hf hkey.1 hcalm.1).here
  have h2 : Level config u t w₁ w₂ := by
    have h := h1.run hf hkey.2 hcalm.2
    rwa [← Machine.run_append] at h
  have hcov : ((owed w₁ : ℤ) : ℚ) ≤ (w₁.st.value (key u t) : ℤ) := Int.cast_le.2 h1.covered
  have htop := h2.top
  have hflow := h2.flow
  push_cast at htop hflow
  linarith

/-! ## A refill between a charge and its refund -/

/-- Ten tokens, three per second. -/
def threeRate : Config := ⟨10, 3⟩

def requestOf (score : ℕ) : RateCall := .request "u" "t" score defaultQuotaLimits 0

/-- A request of eleven charges, a refill leaves eight, and the refund leaves minus three. -/
def race : List (Ev Unit ℕ RateCall) :=
  [.call 0 (requestOf 11), .step 0 (), .call 1 .timer, .step 1 (), .step 0 ()]

/-- A request of thirteen. -/
def burst : List (Ev Unit ℕ RateCall) := [.call 2 (requestOf 13), .step 2 ()]

/-- **After the race thirteen tokens go at once**, from a bucket of ten. -/
theorem race_exceeds :
    let w₁ := (algorithm threeRate).machine.run (Pool.init server) race
    let w₂ := (algorithm threeRate).machine.run (Pool.init server) (race ++ burst)
    (algorithm threeRate).machine.Along (OnOneKey "u" "t") (Pool.init server) (race ++ burst) ∧
    acceptedBetween w₁ w₂ = 13 ∧ refillsBetween w₁ w₂ = 0 ∧
    ¬ (acceptedBetween w₁ w₂ : ℚ) ≤ threeRate.capacity + threeRate.fillRate * (refillsBetween w₁ w₂ : ℤ) := by
  refine ⟨?_, by decide +kernel, by decide +kernel, by decide +kernel⟩
  simp [race, burst, Machine.Along, OnOneKey, OnKey, requestOf]

/-- A request of four; a refill; a request of nine. -/
theorem burst_bound_calm :
    let es₁ : List (Ev Unit ℕ RateCall) := [.call 0 (requestOf 4), .step 0 ()]
    let es₂ : List (Ev Unit ℕ RateCall) := [.call 1 .timer, .step 1 (), .call 2 (requestOf 9), .step 2 ()]
    let w₁ := (algorithm threeRate).machine.run (Pool.init server) es₁
    let w₂ := (algorithm threeRate).machine.run (Pool.init server) (es₁ ++ es₂)
    (acceptedBetween w₁ w₂ : ℚ) ≤ threeRate.capacity + threeRate.fillRate * (refillsBetween w₁ w₂ : ℤ) := by
  refine burst_bound (u := "u") (t := "t") (by decide +kernel) (by decide +kernel) rfl ?_ ?_
  · simp [Machine.Along, OnOneKey, OnKey, requestOf]
  · exact ⟨trivial, fun _ _ _ _ _ => by decide +kernel, trivial, fun _ _ _ _ _ => by decide +kernel,
      trivial, fun _ _ _ _ _ => by decide +kernel, trivial⟩

end NodeToolkit.TokenBucket
