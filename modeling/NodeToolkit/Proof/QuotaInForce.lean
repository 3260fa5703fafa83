import NodeToolkit.Proof.FixedWindow
import NodeToolkit.Proof.RateLimitingManager

/-!
# Quotas in force

The rate-limiting manager over the fixed windows and Redis: calls of all clients, changes of the limits, and a
cache that may drop or keep what it likes, interleaved at every command.

* `prog_follows`: what a call does to the counters, as a protocol over its history.
* `Books`: a counter holds what calls have on it, and what was answered within a bound is within the bound.
* `admitted_in_force`: in one window a client is not admitted more than the largest limit that is granted to
  its user.
-/

namespace NodeToolkit.RateLimiting

open Async FixedWindow

/-! ## The calls over Redis -/

/-- The manager over the fixed windows. -/
abbrev windows : Machine (Resp RedisResp) (QuotaCache.Stores × Redis) (ℕ × ℕ) (String ⊕ ℕ) Call Reply :=
  machine (overRedis FixedWindow.algorithm) execRedis fun t s => s.advance t

abbrev WindowsWorld : Type := Pool (Resp RedisResp) (QuotaCache.Stores × Redis) Call Reply

abbrev WindowsProc : Type := Proc (Resp RedisResp) Call Reply

/-- The commands of a history that went to Redis. -/
def redisPart : (Σ c : Cmd RedisCmd, Resp RedisResp c) → Option (Σ c : Redis.Cmd, Redis.Resp c)
  | ⟨.algorithm (.redis c), r⟩ => some ⟨c, r⟩
  | _ => none

/-- The first reading of the clock. -/
def reading : Hist (Resp RedisResp) → Option ℕ
  | [] => none
  | ⟨.algorithm .now, now⟩ :: _ => some now
  | _ :: h => reading h

def Call.score : Call → ℕ
  | .throttle _ _ score => score
  | _ => 0

/-- What a call may do after its history. -/
def may : Call → Hist (Resp RedisResp) → Cmd RedisCmd → Prop
  | _, _, .stores _ => True
  | _, _, .algorithm .now => True
  | .throttle userId token score, h, .algorithm (.redis c) =>
    ∃ now, requestMay userId token score now (h.filterMap redisPart) c
  | .getQuotaSummary _ _ _, _, .algorithm (.redis c) => ∃ k, c = .get k
  | _, _, .algorithm (.redis _) => False

/-- A call may return anything. -/
def anyReply : Call → Hist (Resp RedisResp) → Reply → Prop := fun _ _ _ => True

variable {x : Call} {h : Hist (Resp RedisResp)}

abbrev Keeping (x : Call) (p : Client RedisResp Reply) (h : Hist (Resp RedisResp)) : Prop :=
  p.Follows (.ofHist (may x) (anyReply x)) h

theorem may_stores (c : QuotaCache.Cmd) : may x h (.stores c) := by
  cases x <;> trivial

/-- Nothing was sent to Redis. -/
def Unsent (h : Hist (Resp RedisResp)) : Prop := h.filterMap redisPart = []

/-- The stores are none of Redis. -/
theorem stores_keeping {α : Type} {p : QuotaCache.Client α} {k : α → Client RedisResp Reply}
    (hk : ∀ a h, Unsent h → Keeping x (k a) h) : ∀ h, Unsent h → Keeping x (Client.stores p >>= k) h := by
  unfold Client.stores
  induction p with
  | ret a => exact hk a
  | await c k ih =>
    intro h hh
    have hmay : may x h (.stores c) := may_stores c
    refine ⟨hmay, fun r => ih r (h ++ [⟨.stores c, r⟩]) ?_⟩
    rw [Unsent, List.filterMap_append, hh]
    rfl

/-- A program over Redis that keeps to a protocol of its own. -/
theorem redis_keeping {α : Type} {p : Redis.Client α} {k : α → Client RedisResp Reply}
    {own : Hist Redis.Resp → Redis.Cmd → Prop} {fin : Hist Redis.Resp → α → Prop}
    (hown : ∀ h c, own (h.filterMap redisPart) c → may x h (.algorithm (.redis c))) (hk : ∀ a h, Keeping x (k a) h) :
    ∀ {h l}, p.Follows (.ofHist own fin) l → h.filterMap redisPart = l →
      Keeping x (Client.algorithm (p.embed .redis fun _ r => r) >>= k) h := by
  unfold Client.algorithm
  induction p with
  | ret a => exact fun {h l} _ _ => hk a h
  | await c k ih =>
    intro h l hp hl
    subst hl
    have hmay : may x h (.algorithm (.redis c)) := hown h c hp.1
    refine ⟨hmay, fun r => ih r (hp.2 r) ?_⟩
    show List.filterMap redisPart (h ++ [⟨.algorithm (.redis c), r⟩]) = _
    rw [List.filterMap_append]
    rfl

/-- The limits are looked up first. -/
theorem getQuotaLimits_keeping {userId : String} {k : QuotaLimits → Client RedisResp Reply} {h : Hist (Resp RedisResp)}
    (hk : ∀ limits h, Unsent h → Keeping x (k limits) h) (hh : Unsent h) :
    Keeping x (getQuotaLimits userId >>= k) h := by
  unfold getQuotaLimits
  rw [Prog.bind_assoc]
  exact stores_keeping (fun _ h hh => hk _ h hh) h hh

theorem authorized_keeping {α : Type} {permission : String} {session : Session}
    {method : Client RedisResp (Except Exception α)} {wrap : Except Exception α → Reply}
    (hmethod : Keeping x (method >>= fun a => .ret (wrap a)) h) :
    Keeping x (authorized permission session method >>= fun a => .ret (wrap a)) h := by
  rw [authorized_eq]
  by_cases hmatch : IsPermissionsMatches permission session.acting
  · rw [if_pos hmatch]
    exact hmethod
  · rw [if_neg hmatch]
    trivial

theorem quota_follows (userId token : String) (limits : QuotaLimits) (now : ℕ) (h : Hist Redis.Resp) :
    (FixedWindow.quota userId token limits now).Follows (.ofHist (fun _ c => ∃ k, c = .get k) fun _ _ => True) h :=
  ⟨⟨_, rfl⟩, fun _ => ⟨⟨_, rfl⟩, fun _ => ⟨⟨_, rfl⟩, fun _ => ⟨⟨_, rfl⟩, fun _ => trivial⟩⟩⟩⟩

/-- **Every call keeps to this**: it charges and refunds the counters of one instant, or only reads. -/
theorem prog_keeping (x : Call) : Keeping x (prog (overRedis FixedWindow.algorithm) x) [] := by
  -- a call that is not going to do anything
  have hend : ∀ {r : Reply} {h : Hist (Resp RedisResp)}, Keeping x (.ret r) h := trivial
  cases x with
  | throttle userId token score =>
    show Keeping _ (throttle _ userId token score >>= _) []
    unfold throttle
    rw [Prog.bind_assoc]
    refine getQuotaLimits_keeping (fun limits h hh => ?_) rfl
    rw [Prog.bind_assoc]
    refine ⟨trivial, fun now => ?_⟩
    have hown : ∀ h c, requestMay userId token score now (h.filterMap redisPart) c →
        may (.throttle userId token score) h (.algorithm (.redis c)) := fun h c hc => ⟨now, hc⟩
    refine redis_keeping hown (fun res h => ?_) (request_follows score now) ?_
    · cases res with
      | error e => exact hend
      | ok summary => exact hend
    · show List.filterMap redisPart (h ++ [⟨.algorithm .now, now⟩]) = []
      rw [List.filterMap_append, hh]
      rfl
  | changeQuotaLimits command =>
    refine authorized_keeping ?_
    unfold changeQuotaLimits
    cases checkLimits command with
    | error e => trivial
    | ok u =>
      show Keeping _ ((Client.stores _ >>= _) >>= _) []
      rw [Prog.bind_assoc]
      exact stores_keeping (fun _ _ _ => hend) [] rfl
  | getQuotaLimits session userId =>
    refine authorized_keeping ?_
    rw [Prog.bind_assoc]
    exact getQuotaLimits_keeping (fun _ _ _ => hend) rfl
  | getQuotaSummary session userId token =>
    refine authorized_keeping ?_
    unfold getQuotaSummary
    rw [Prog.bind_assoc, Prog.bind_assoc]
    refine getQuotaLimits_keeping (fun limits h hh => ⟨trivial, fun now => ?_⟩) rfl
    exact redis_keeping (fun _ _ hc => hc) (fun _ _ => hend) (quota_follows ..) rfl

/-! ## The books of a counter -/

/-- A call as the counters see it. -/
def onRedis (p : WindowsProc) : RateProc :=
  ⟨.request "" "" p.call.score defaultQuotaLimits 0, p.hist.filterMap redisPart, .ret .ticked⟩

/-- What all calls have on the counter. -/
def heldBy (k : String) (w : WindowsWorld) : ℤ := w.tally fun _ p => FixedWindow.held k (onRedis p)

/-- The part of it that was answered within the bound. -/
def passedBy (k : String) (bound : ℚ) (w : WindowsWorld) : ℤ := w.tally fun _ p => passed k bound (onRedis p)

/-- **The books of a counter**: it has what the calls have on it, and what was answered within the bound is
within the bound. -/
structure Books (k : String) (bound : ℚ) (w : WindowsWorld) : Prop where
  keeps : w.Keeps may anyReply
  value : w.st.2.value k = heldBy k w
  bound : (passedBy k bound w : ℚ) ≤ bound

/-- The counter does not expire in this event. -/
def Unexpired (k : String) (w : WindowsWorld) : Ev (ℕ × ℕ) (String ⊕ ℕ) Call → Prop
  | .env (.inr now) => ¬ w.st.2.Expires k now
  | _ => True

/-- **What a command can do to a counter**: charge it, refund it, or nothing. -/
theorem touch_redis (k : String) {c : Redis.Cmd} (hc : may x h (.algorithm (.redis c))) :
    (c = .incrBy k x.score ∧ charged k (h.filterMap redisPart) = false ∧ refunded k (h.filterMap redisPart) = false) ∨
    (c = .decrBy k x.score ∧ charged k (h.filterMap redisPart) ∧ refunded k (h.filterMap redisPart) = false) ∨
    (charges k c = false ∧ refunds k c = false ∧ ∀ s, (Redis.exec s c).1.value k = s.value k) := by
  cases x with
  | throttle userId token score =>
    obtain ⟨now, hc⟩ := hc
    cases c with
    | incrBy j n =>
      obtain ⟨rfl, -, hcharged, hrefunded⟩ := hc
      by_cases hj : j = k
      · subst hj
        exact .inl ⟨rfl, hcharged, hrefunded⟩
      · exact .inr (.inr ⟨by simpa [charges] using hj, rfl, fun s => by simp [Redis.exec, Redis.incrBy, hj]⟩)
    | decrBy j n =>
      obtain ⟨rfl, -, hcharged, hrefunded⟩ := hc
      by_cases hj : j = k
      · subst hj
        exact .inr (.inl ⟨rfl, hcharged, hrefunded⟩)
      · exact .inr (.inr ⟨rfl, by simpa [refunds] using hj, fun s => by simp [Redis.exec, Redis.decrBy, hj]⟩)
    | expire j n => exact .inr (.inr ⟨rfl, rfl, fun s => by simp [Redis.exec]⟩)
    | _ => exact absurd hc (by simp [requestMay])
  | getQuotaSummary session userId token =>
    obtain ⟨j, rfl⟩ := hc
    exact .inr (.inr ⟨rfl, rfl, fun s => rfl⟩)
  | changeQuotaLimits command => exact hc.elim
  | getQuotaLimits session userId => exact hc.elim

section Steps

variable {k : String} {bound : ℚ} {w : WindowsWorld} {pid : ℕ} {p : WindowsProc} {i : ℕ × ℕ}

/-- A call that starts has nothing on any counter. -/
theorem Books.begin (hI : Books k bound w) (hn : w.procs.get pid = none) (x : Call) :
    Books k bound (windows.begin w pid x) where
  keeps := Machine.begin_obeys hI.keeps pid (prog_keeping x)
  value := by
    have hnone : FixedWindow.held k (onRedis ⟨x, [], windows.prog x⟩) = 0 := rfl
    rw [heldBy, Machine.tally_begin hn, hnone, add_zero]
    exact hI.value
  bound := by
    have hnone : passed k bound (onRedis ⟨x, [], windows.prog x⟩) = 0 := rfl
    rw [passedBy, Machine.tally_begin hn, hnone, add_zero]
    exact hI.bound

/-- A command that Redis does not get. -/
theorem Books.elsewhere (hI : Books k bound w) (hp : w.procs.get pid = some p) {c : Cmd RedisCmd}
    {rest : Resp RedisResp c → Client RedisResp Reply} (hr : p.rest = .await c rest)
    (hst : (windows.exec i w.st c).1.2 = w.st.2) (hpart : ∀ r, redisPart ⟨c, r⟩ = none) :
    Books k bound (windows.advance w pid i p c rest) := by
  have hsame : onRedis ⟨p.call, p.hist ++ [⟨c, (windows.exec i w.st c).2⟩], rest (windows.exec i w.st c).2⟩ =
      onRedis p := by
    simp [onRedis, hpart]
  have hheld := Machine.tally_advance (M := windows) (i := i) (c := c) (k := rest)
    (f := fun _ p => FixedWindow.held k (onRedis p)) hp
  have hpassed := Machine.tally_advance (M := windows) (i := i) (c := c) (k := rest)
    (f := fun _ p => passed k bound (onRedis p)) hp
  rw [hsame, add_left_inj] at hheld hpassed
  refine ⟨Machine.advance_obeys hI.keeps i hp hr, ?_, ?_⟩
  · show (windows.exec i w.st c).1.2.value k = heldBy k _
    rw [hst, heldBy, hheld]
    exact hI.value
  · rw [passedBy, hpassed]
    exact hI.bound

/-- **A command of Redis**: a charge that is answered above the bound does not count for it. -/
theorem Books.redis (hI : Books k bound w) (hp : w.procs.get pid = some p) {c : Redis.Cmd}
    {rest : Redis.Resp c → Client RedisResp Reply} (hr : p.rest = .await (.algorithm (.redis c)) rest) :
    Books k bound (windows.advance w pid i p (.algorithm (.redis c)) rest) := by
  obtain ⟨r, hanswer⟩ : ∃ r, r = (Redis.exec w.st.2 c).2 := ⟨_, rfl⟩
  -- the share of the call before and after
  have hnew : onRedis ⟨p.call, p.hist ++ [⟨.algorithm (.redis c), r⟩], rest r⟩ =
      ⟨(onRedis p).call, (onRedis p).hist ++ [⟨c, r⟩], .ret .ticked⟩ := by
    simp [onRedis, redisPart]
  have hheld : heldBy k (windows.advance w pid i p (.algorithm (.redis c)) rest) +
      FixedWindow.held k (onRedis p) = heldBy k w +
        FixedWindow.held k ⟨(onRedis p).call, (onRedis p).hist ++ [⟨c, r⟩], .ret .ticked⟩ := by
    rw [← hnew, hanswer]
    exact Machine.tally_advance (f := fun _ p => FixedWindow.held k (onRedis p)) hp
  have hpassed : passedBy k bound (windows.advance w pid i p (.algorithm (.redis c)) rest) +
      passed k bound (onRedis p) = passedBy k bound w +
        passed k bound ⟨(onRedis p).call, (onRedis p).hist ++ [⟨c, r⟩], .ret .ticked⟩ := by
    rw [← hnew, hanswer]
    exact Machine.tally_advance (f := fun _ p => passed k bound (onRedis p)) hp
  have hle : passedBy k bound w ≤ heldBy k w := Pool.tally_le fun _ p _ => passed_le_held k bound (onRedis p)
  have hpos := passed_nonneg (k := k) (l := bound) (p := onRedis p)
  have hvalue := hI.value
  have hbound := hI.bound
  have hcase := touch_redis k (hI.keeps.allowed hp hr)
  suffices h : (Redis.exec w.st.2 c).1.value k = heldBy k (windows.advance w pid i p (.algorithm (.redis c)) rest) ∧
      (passedBy k bound (windows.advance w pid i p (.algorithm (.redis c)) rest) : ℚ) ≤ bound from
    ⟨Machine.advance_obeys hI.keeps i hp hr, h.1, h.2⟩
  generalize heldBy k (windows.advance w pid i p (.algorithm (.redis c)) rest) = held' at hheld ⊢
  generalize passedBy k bound (windows.advance w pid i p (.algorithm (.redis c)) rest) = passed' at hpassed ⊢
  rcases hcase with ⟨rfl, hc, hf⟩ | ⟨rfl, hc, hf⟩ | ⟨hc, hf, hs⟩
  · -- a charge is answered with the new value of the counter
    have hst : (Redis.exec w.st.2 (.incrBy k p.call.score)).1.value k = w.st.2.value k + p.call.score := by
      simp [Redis.exec, Redis.incrBy]
    obtain rfl : r = w.st.2.value k + p.call.score := hanswer
    have hzero : passed k bound (onRedis p) ≤ 0 :=
      (passed_le_held k bound (onRedis p)).trans (held_of_uncharged (p := onRedis p) hc).le
    rw [held_of_uncharged (p := onRedis p) hc, held_charge (p := onRedis p) hf] at hheld
    have hscore : ((onRedis p).call.score : ℤ) = p.call.score := rfl
    refine ⟨by omega, ?_⟩
    by_cases hover : bound < ((w.st.2.value k + p.call.score : ℤ) : ℚ)
    · rw [passed_charge_over (p := onRedis p) hover] at hpassed
      refine le_trans (Int.cast_le.2 ?_) hbound
      omega
    · have hshare := passed_le_held k bound ⟨(onRedis p).call, (onRedis p).hist ++
        [⟨.incrBy k p.call.score, w.st.2.value k + p.call.score⟩], .ret .ticked⟩
      rw [held_charge (p := onRedis p) hf] at hshare
      refine le_trans (Int.cast_le.2 ?_) (not_lt.1 hover)
      omega
  · -- a refund
    have hst : (Redis.exec w.st.2 (.decrBy k p.call.score)).1.value k = w.st.2.value k - p.call.score := by
      simp [Redis.exec, Redis.decrBy]
    have hshare := passed_le_held k bound ⟨(onRedis p).call, (onRedis p).hist ++
      [⟨.decrBy k p.call.score, r⟩], .ret .ticked⟩
    rw [held_refund] at hshare
    rw [held_of_open (p := onRedis p) hc hf, held_refund] at hheld
    have hscore : ((onRedis p).call.score : ℤ) = p.call.score := rfl
    refine ⟨by omega, le_trans (Int.cast_le.2 ?_) hbound⟩
    omega
  · rw [held_other hc hf] at hheld
    rw [passed_other hc hf] at hpassed
    have hst := hs w.st.2
    have hsame : FixedWindow.held k ⟨(onRedis p).call, (onRedis p).hist, (onRedis p).rest⟩ =
        FixedWindow.held k (onRedis p) := rfl
    refine ⟨by omega, le_trans (Int.cast_le.2 ?_) hbound⟩
    omega

/-- **The books are right** until the counter expires. -/
theorem Books.run (hI : Books k bound w) {es : List (Ev (ℕ × ℕ) (String ⊕ ℕ) Call)}
    (hes : windows.Along (Unexpired k) w es) : Books k bound (windows.run w es) := by
  refine Machine.run_inv ?_ ?_ ?_ hI hes
  · exact fun w pid x hI _ hn => hI.begin hn x
  · intro w pid i p c rest hI _ hp hr
    cases c with
    | stores c => exact hI.elsewhere hp hr rfl fun _ => rfl
    | algorithm c =>
      cases c with
      | now => exact hI.elsewhere hp hr rfl fun _ => rfl
      | redis c => exact hI.redis hp hr
  · intro w e hI hG
    cases e with
    | inl key => exact ⟨hI.keeps, hI.value, hI.bound⟩
    | inr now => exact ⟨hI.keeps, (Redis.value_advance _ _ hG).trans hI.value, hI.bound⟩

end Steps

/-! ## Who is admitted -/

/-- The call has admitted the client, at an instant of the window of this kind with this start. -/
def admitted (u t : String) (v : Span) (start : ℕ) (p : WindowsProc) : Bool :=
  match p.call, p.result, reading p.hist with
  | .throttle userId token _, some (.throttled (.ok _)), some now =>
    userId = u ∧ token = t ∧ windowStart v now = start
  | _, _, _ => false

/-- The total score that was admitted. -/
def admittedScore (u t : String) (v : Span) (start : ℕ) (w : WindowsWorld) : ℤ :=
  w.tally fun _ p => if admitted u t v start p then (p.call.score : ℤ) else 0

variable {u t : String} {v : Span} {start : ℕ}

theorem admitted_iff {p : WindowsProc} : admitted u t v start p ↔ (∃ score, p.call = .throttle u t score) ∧
    (∃ summary, p.result = some (.throttled (.ok summary))) ∧
      ∃ now, reading p.hist = some now ∧ windowStart v now = start := by
  unfold admitted
  constructor
  · intro h
    split at h
    · rename_i userId token score summary now hcall hres hnow
      simp only [decide_eq_true_eq] at h
      obtain ⟨rfl, rfl, rfl⟩ := h
      exact ⟨⟨score, hcall⟩, ⟨summary, hres⟩, now, hnow, rfl⟩
    · cases h
  · rintro ⟨⟨score, hcall⟩, ⟨summary, hres⟩, now, hnow, rfl⟩
    rw [hcall, hres, hnow]
    simp

/-- The commands of the algorithm that went to Redis. -/
def redisOnly : (Σ c : RedisCmd, RedisResp c) → Option (Σ c : Redis.Cmd, Redis.Resp c)
  | ⟨.redis c, r⟩ => some ⟨c, r⟩
  | ⟨.now, _⟩ => none

theorem redisPart_eq (h : Hist (Resp RedisResp)) :
    h.filterMap redisPart = (h.filterMap algorithmPart).filterMap redisOnly := by
  rw [List.filterMap_filterMap]
  refine List.filterMap_congr fun e _ => ?_
  obtain ⟨c, r⟩ := e
  cases c with
  | stores c => rfl
  | algorithm c => cases c <;> rfl

theorem reading_of_part {now : ℕ} {l : Hist RedisResp} : ∀ {h : Hist (Resp RedisResp)},
    h.filterMap algorithmPart = ⟨.now, now⟩ :: l → reading h = some now := by
  intro h
  induction h with
  | nil => exact fun hl => by cases hl
  | cons e h ih =>
    intro hl
    obtain ⟨c, r⟩ := e
    cases c with
    | stores c => exact ih hl
    | algorithm c =>
      have hcons : (⟨c, r⟩ : Σ c : RedisCmd, RedisResp c) :: h.filterMap algorithmPart = ⟨.now, now⟩ :: l := hl
      rw [List.cons.injEq] at hcons
      obtain ⟨rfl, hr⟩ := hcons.1
      rfl

/-- What is within a limit is within a larger one. -/
theorem exceeded_mono {k : String} {limit bound : ℚ} (hle : limit ≤ bound) {h : Hist Redis.Resp}
    (hh : exceeded k limit h = false) : exceeded k bound h = false := by
  induction h with
  | nil => rfl
  | cons e h ih =>
    obtain ⟨c, r⟩ := e
    rw [exceeded, Bool.or_eq_false_iff] at hh ⊢
    refine ⟨?_, ih hh.2⟩
    cases c with
    | incrBy j n =>
      have hno : ¬ (j = k ∧ limit < ((r : ℤ) : ℚ)) := by simpa [exceeds] using hh.1
      have hstill : ¬ (j = k ∧ bound < ((r : ℤ) : ℚ)) := fun h => hno ⟨h.1, lt_of_le_of_lt hle h.2⟩
      simpa [exceeds] using hstill
    | _ => rfl

/-- **An admitted call** has charged the counter of its window within the limits that are granted to its user, and
has not refunded it. -/
theorem admitted_spec {s₀ : Redis} {es : List (Ev (ℕ × ℕ) (String ⊕ ℕ) Call)} {bound : ℚ}
    (hbound : ∀ limits, Granted (fun x => ∃ pid, .call pid x ∈ es) u limits → limits.of v ≤ bound) {pid : ℕ}
    {p : WindowsProc} (hp : (windows.run (Pool.init (.empty, s₀)) es).procs.get pid = some p)
    (ha : admitted u t v start p) : let k := counter (FixedWindow.key u t) v start
    charged k (onRedis p).hist ∧ refunded k (onRedis p).hist = false ∧ exceeded k bound (onRedis p).hist = false := by
  obtain ⟨⟨score, hcall⟩, ⟨summary, hres⟩, now, hnow, rfl⟩ := admitted_iff.1 ha
  have hserves := prog_serves (traces_of_run hp hres) (answers_granted _ _ _ _ hp)
  rw [hcall] at hserves
  obtain ⟨limits, res, hgranted, -, htraces, hreply⟩ := hserves
  -- the algorithm has read the clock, and then gone to Redis
  obtain ⟨now', h', hpart, hrequest⟩ := htraces
  rw [reading_of_part hpart, Option.some.injEq] at hnow
  subst hnow
  obtain ⟨l, rfl, hl⟩ := Prog.traces_embed.1 hrequest
  have hredis : p.hist.filterMap redisPart = l.map fun e => ⟨e.1, e.2⟩ := by
    rw [redisPart_eq, hpart, List.filterMap_cons, List.filterMap_map, ← List.filterMap_eq_map]
    rfl
  have hfin : requestFin u t limits _ ([] ++ _) res := (request_follows score _).traces hl
  have hok : ∃ q, res = .ok q := by
    cases res with
    | error e => cases hreply
    | ok q => exact ⟨q, rfl⟩
  obtain ⟨q, rfl⟩ := hok
  obtain ⟨hcharged, hrefunded, hexceeded⟩ := hfin v
  show charged _ (p.hist.filterMap redisPart) ∧ refunded _ (p.hist.filterMap redisPart) = false ∧
    exceeded _ bound (p.hist.filterMap redisPart) = false
  rw [hredis]
  exact ⟨hcharged, hrefunded, exceeded_mono (hbound limits hgranted) hexceeded⟩

/-- **No client is admitted beyond its quota.** Whatever the other clients do, and however its limits change and are
cached meanwhile: as long as the counter of the window has not expired, the scores that are admitted in it are
together at most the largest limit that is granted to the user, by default or by a change that was permitted. -/
theorem admitted_in_force {s₀ : Redis} (h₀ : s₀.value (counter (FixedWindow.key u t) v start) = 0)
    {es : List (Ev (ℕ × ℕ) (String ⊕ ℕ) Call)} {bound : ℚ}
    (hkept : windows.Along (Unexpired (counter (FixedWindow.key u t) v start)) (Pool.init (.empty, s₀)) es)
    (hbound : ∀ limits, Granted (fun x => ∃ pid, .call pid x ∈ es) u limits → limits.of v ≤ bound) :
    (admittedScore u t v start (windows.run (Pool.init (.empty, s₀)) es) : ℚ) ≤ bound := by
  have hgranted : Granted (fun x => ∃ pid, .call pid x ∈ es) u defaultQuotaLimits := .inl rfl
  have hdefault : 0 ≤ bound := (hgranted.pos v).le.trans (hbound _ hgranted)
  have hstart : Books (counter (FixedWindow.key u t) v start) bound (Pool.init (.empty, s₀)) :=
    ⟨Pool.obeys_init _ _ _, h₀, by simpa [passedBy, Pool.tally, Pool.init] using hdefault⟩
  have hend := hstart.run hkept
  refine le_trans (Int.cast_le.2 ?_) hend.bound
  unfold admittedScore passedBy
  refine Pool.tally_le fun pid p hp => ?_
  by_cases ha : admitted u t v start p
  · obtain ⟨hcharged, hrefunded, hexceeded⟩ := admitted_spec hbound hp ha
    rw [if_pos ha, passed, if_neg (by simp [hexceeded]), held_of_open hcharged hrefunded]
    rfl
  · rw [if_neg ha]
    exact passed_nonneg

/-- The limits of a user are changed, and a client of the user is throttled. -/
def raised : ChangeQuotaLimitsCommand :=
  ⟨⟨⟨"admin", ["rate-limiting/write/*"]⟩, none, none⟩, "u", 7, 60, 600, 14400⟩

def raising : List (Ev (ℕ × ℕ) (String ⊕ ℕ) Call) :=
  .call 0 (.changeQuotaLimits raised) :: .step 0 (0, 0) :: .step 0 (0, 0) ::
    .call 1 (.throttle "u" "t" 6) :: List.replicate 10 (.step 1 (0, 0))

theorem admitted_in_force_raising :
    let admitted := admittedScore "u" "t" .second 0 (windows.run (Pool.init (.empty, .server)) raising)
    admitted = 6 ∧ (admitted : ℚ) ≤ 7 := by
  have hkept : windows.Along (Unexpired (counter (FixedWindow.key "u" "t") .second 0)) (Pool.init (.empty, .server))
      raising := by
    refine .of_mem fun e he w => ?_
    simp only [raising, List.mem_cons, List.mem_replicate] at he
    rcases he with rfl | rfl | rfl | rfl | ⟨-, rfl⟩ <;> trivial
  refine ⟨by decide +kernel, admitted_in_force rfl hkept ?_⟩
  rintro limits (rfl | ⟨command, ⟨pid, hcall⟩, -, -, -, rfl⟩)
  · norm_num [QuotaLimits.of, defaultQuotaLimits]
  · have hcommand : command = raised := And.right (by simpa [raising] using hcall)
    subst hcommand
    norm_num [QuotaLimits.of, ChangeQuotaLimitsCommand.limits, raised]

end NodeToolkit.RateLimiting
