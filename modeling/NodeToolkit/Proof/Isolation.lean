import NodeToolkit.Async.Frame
import NodeToolkit.Proof.Agree
import NodeToolkit.Proof.Calls
import NodeToolkit.Proof.FixedWindow
import NodeToolkit.Proof.SlidingLimits
import NodeToolkit.Proof.TokenBucket

/-!
# Clients that do not interfere: the algorithms over Redis

The keys of a client are made from the text `userId:token`. Calls with different
texts have no key in common, and then `Async/Frame.lean` applies; calls with the
same text share all their keys, also when they are made for different clients.

* `Footprint`: all keys of a client belong to its text.
* `fixedWindow_isolated_iff`, `slidingWindow_isolated_iff`, `tokenBucket_isolated_iff`: the calls
  of one client are isolated from those of another exactly if their texts differ.
-/

namespace NodeToolkit

open Async Redis

/-! ## Clients -/

/-- The text that stands for a client. -/
def clientText (userId token : String) : String := userId ++ ":" ++ token

/-- The client text of a call. -/
def RateCall.text : RateCall → Option String
  | .request u t _ _ _ => some (clientText u t)
  | .quota u t _ _ => some (clientText u t)
  | .timer => none

/-- The call is made for the client. -/
def RateCall.IsFor (u t : String) : RateCall → Prop
  | .request u' t' _ _ _ => u' = u ∧ t' = t
  | .quota u' t' _ _ => u' = u ∧ t' = t
  | .timer => False

instance (u t : String) : DecidablePred (RateCall.IsFor u t)
  | .request u' t' _ _ _ => inferInstanceAs (Decidable (u' = u ∧ t' = t))
  | .quota u' t' _ _ => inferInstanceAs (Decidable (u' = u ∧ t' = t))
  | .timer => inferInstanceAs (Decidable False)

/-- The call is a request of the client. -/
def RateCall.IsRequestFor (u t : String) (x : RateCall) : Prop :=
  x.isRequest = true ∧ x.IsFor u t

theorem RateCall.text_of_isFor {u t : String} {x : RateCall} (h : x.IsFor u t) :
    x.text = some (clientText u t) := by
  cases x with
  | request u' t' => obtain ⟨rfl, rfl⟩ := h; rfl
  | quota u' t' => obtain ⟨rfl, rfl⟩ := h; rfl
  | timer => exact h.elim

/-- The call of a process, if it is made for the client, and what it has returned. -/
def replyTo (u t : String) (w : RateWorld) (pid : ℕ) : Option (RateCall × Option RateReply) :=
  (w.procs.get pid).bind fun p => if p.call.IsFor u t then some (p.call, p.result) else none

/-- **Isolation.** Whatever requests of the second client are left out of a run, every call of the
first gets the same reply. -/
def Isolated (A : RateLimitingAlgorithm) (u t u' t' : String) : Prop :=
  ∀ (s₀ : Redis) (D : ℕ → Bool) (es : List (Ev Unit ℕ RateCall)),
    (∀ pid x, Ev.call pid x ∈ es → D pid = true → x.IsRequestFor u' t') →
    ∀ pid, replyTo u t (A.machine.run (Pool.init s₀) es) pid =
      replyTo u t (A.machine.run (Pool.init s₀) (Ev.without D es)) pid

/-! ## Footprints -/

/-- **The keys of a client text**: the calls of a client use only keys of its text, and texts have
no key in common. -/
structure Footprint (A : RateLimitingAlgorithm) (foot : String → String → Prop) : Prop where
  request : ∀ u t score limits now, (A.request u t score limits now).Uses (Cmd.On (foot (clientText u t)))
  quota : ∀ u t limits now, (A.quota u t limits now).Uses (Cmd.On (foot (clientText u t)))
  timer : ∀ b, A.timer.Respects A.machine.exec (AgreeOn (foot b))
  disjoint : ∀ b b' k, b ≠ b' → foot b' k → ¬ foot b k

section Footprint

variable {A : RateLimitingAlgorithm} {foot : String → String → Prop} {u t u' t' : String}

theorem Footprint.uses (F : Footprint A foot) {x : RateCall} {b : String} (hx : x.text = some b) :
    (A.prog x).Uses (Cmd.On (foot b)) := by
  cases x with
  | request u t score limits now =>
    rw [← Option.some.inj hx]
    unfold RateLimitingAlgorithm.prog
    refine Prog.Uses.bind ?_ (F.request u t score limits now)
    exact fun _ => trivial
  | quota u t limits now =>
    rw [← Option.some.inj hx]
    unfold RateLimitingAlgorithm.prog
    refine Prog.Uses.bind ?_ (F.quota u t limits now)
    exact fun _ => trivial
  | timer => cases hx

/-- The client sees its own calls, and the timer. -/
theorem Footprint.noninterference (F : Footprint A foot) (b : String) :
    Noninterference A.machine (AgreeOn (foot b)) fun x => ∀ b', x.text = some b' → b' = b where
  equiv := agreeOn_equivalence _
  env v _ _ h := h.advance v
  enter _ _ _ _ h := h
  enter_hidden _ _ _ := (agreeOn_equivalence _).refl _
  respects x hx := by
    cases htext : x.text with
    | none =>
      cases x with
      | request u t score limits now => cases htext
      | quota u t limits now => cases htext
      | timer =>
        have hret : ∀ a : Unit, (Prog.ret .ticked : Client RateReply).Respects A.machine.exec
            (AgreeOn (foot b)) := fun _ => trivial
        exact Prog.Respects.bind hret (F.timer b)
    | some b' =>
      rw [hx b' htext] at htext
      refine Prog.Uses.respects ?_ (F.uses htext)
      exact fun c hc _ s s' h => exec_agree hc h
  hides x hx := by
    obtain ⟨b', htext, hne⟩ : ∃ b', x.text = some b' ∧ b' ≠ b := by
      simpa only [not_forall, exists_prop] using hx
    refine (F.uses htext).mono fun c hc _ s => exec_hidden ?_
    have hoff : ∀ k, foot b' k → ¬ foot b k := fun k => F.disjoint b b' k hne.symm
    cases c <;> first | exact hoff _ hc | exact hc

/-- **Different texts are isolated.** -/
theorem Footprint.isolated (F : Footprint A foot) (hne : clientText u t ≠ clientText u' t') :
    Isolated A u t u' t' := by
  intro s₀ D es hD pid
  have hN := F.noninterference (clientText u t)
  have hhid : ∀ pid x, Ev.call pid x ∈ es → D pid = true →
      ¬ ∀ b', x.text = some b' → b' = clientText u t := by
    intro pid x hm hpid hv
    exact hne (hv _ (RateCall.text_of_isFor (hD pid x hm hpid).2)).symm
  have hvis : ∀ x : RateCall, x.IsFor u t → ∀ b', x.text = some b' → b' = clientText u t := by
    intro x hx b' hb
    rw [RateCall.text_of_isFor hx, Option.some.injEq] at hb
    exact hb.symm
  have hw := hN.run hhid (alike_init (D := D) hN s₀)
  generalize A.machine.run (Pool.init s₀) es = w at hw
  generalize A.machine.run (Pool.init s₀) (Ev.without D es) = w' at hw
  unfold replyTo
  cases hpid : D pid with
  | true =>
    -- a call left out of one run is not one of the first client in the other
    rw [hw.gone pid hpid]
    cases hg : w.procs.get pid with
    | none => rfl
    | some p => exact if_neg fun hp => (hw.hidden pid p hpid hg).1 (hvis _ hp)
  | false =>
    cases hg : w.procs.get pid with
    | none => rw [(hw.none_iff pid hpid).1 hg]
    | some p =>
      obtain ⟨p', hg'⟩ : ∃ p', w'.procs.get pid = some p' :=
        Option.ne_none_iff_exists'.1 fun hn => by rw [(hw.none_iff pid hpid).2 hn] at hg; cases hg
      obtain ⟨hcall, hrest, -⟩ := hw.paired pid p p' hpid hg hg'
      rw [hg']
      simp only [Option.bind_some, ← hcall]
      -- the two calls have the same commands left
      split
      · rename_i hp
        unfold Proc.result
        rw [(hrest (hvis _ hp)).1]
      · rfl

end Footprint

/-! ## Interference -/

section Interference

variable {A : RateLimitingAlgorithm} {u t u' t' : String}

theorem get_run_replicate (w : RateWorld) {pid q : ℕ} (h : pid ≠ q) (n : ℕ) :
    (A.machine.run w (List.replicate n (.step pid ()))).procs.get q = w.procs.get q := by
  induction n generalizing w with
  | zero => rfl
  | succ n ih => rw [List.replicate_succ, Machine.run_cons, ih, Machine.get_step_ne h]

/-- Enough steps of `quota` as the only call in motion. -/
theorem replyTo_quota (limits : QuotaLimits) (now : ℕ) {w : RateWorld} (hn : w.procs.get 1 = none) :
    ∃ n, ∀ m, n ≤ m → replyTo u t
      (A.machine.run w (.call 1 (.quota u t limits now) :: List.replicate m (.step 1 ()))) 1 =
        some (.quota u t limits now, some (.quota ((A.quota u t limits now).run exec w.st).2)) := by
  have hstep : A.machine.step w (.call 1 (.quota u t limits now)) =
      A.machine.begin w 1 (.quota u t limits now) := by simp [Machine.step, hn]
  obtain ⟨n, hall⟩ := run_alone A.machine () (A.prog (.quota u t limits now))
    (w := A.machine.begin w 1 (.quota u t limits now)) (OMap.get_set_self ..)
  refine ⟨n, fun m hm => ?_⟩
  obtain ⟨h', hg⟩ := hall m hm
  have hret : ((A.prog (.quota u t limits now)).run exec w.st).2 =
      .quota ((A.quota u t limits now).run exec w.st).2 := by
    unfold RateLimitingAlgorithm.prog
    rw [Prog.run_bind]
    rfl
  rw [Machine.run_cons, hstep]
  unfold replyTo
  rw [hg]
  refine (if_pos ⟨rfl, rfl⟩).trans ?_
  exact congrArg (fun r => some (_, some r)) hret

/-- **Interference**: a request of the second client, with some of its commands, after which `quota`
of the first reports something else. -/
theorem not_isolated {x : RateCall} (hx : x.IsRequestFor u' t') (s₀ : Redis) (n : ℕ) (limits : QuotaLimits)
    (now : ℕ) (hne : ((A.quota u t limits now).run exec
      (A.machine.run (Pool.init s₀) (.call 0 x :: List.replicate n (.step 0 ()))).st).2 ≠
        ((A.quota u t limits now).run exec s₀).2) : ¬ Isolated A u t u' t' := by
  intro hI
  have hnone : (A.machine.run (Pool.init s₀) (.call 0 x :: List.replicate n (.step 0 ()))).procs.get 1 =
      none := by
    rw [Machine.run_cons, get_run_replicate _ (by decide)]
    exact OMap.get_set_ne _ _ (by decide)
  -- `quota` of the first client, after the request and without it
  obtain ⟨n₁, h₁⟩ := replyTo_quota (A := A) (u := u) (t := t) limits now hnone
  obtain ⟨n₂, h₂⟩ := replyTo_quota (A := A) (u := u) (t := t) limits now
    (w := (Pool.init s₀ : RateWorld)) rfl
  have hsame := hI s₀ (fun pid => pid == 0) ((.call 0 x :: List.replicate n (.step 0 ())) ++
    (.call 1 (.quota u t limits now) :: List.replicate (max n₁ n₂) (.step 1 ()))) ?_ 1
  · have hwith : Ev.without (fun pid => pid == 0) ((Ev.call 0 x :: List.replicate n (.step 0 ())) ++
        (.call 1 (.quota u t limits now) :: List.replicate (max n₁ n₂) (.step 1 ())) :
          List (Ev Unit ℕ RateCall)) =
        .call 1 (.quota u t limits now) :: List.replicate (max n₁ n₂) (.step 1 ()) := by
      simp [Ev.without, Ev.ofProc]
    rw [hwith, Machine.run_append, h₁ _ (le_max_left ..), h₂ _ (le_max_right ..)] at hsame
    simp only [Option.some.injEq, Prod.mk.injEq, true_and, RateReply.quota.injEq] at hsame
    exact hne hsame
  · -- the request is the only call left out
    intro pid y hm hD
    simp only [List.cons_append, List.mem_cons, List.mem_append, List.mem_replicate] at hm
    rcases hm with hm | hm
    · obtain ⟨-, rfl⟩ := Ev.call.inj hm
      exact hx
    · rcases hm with ⟨-, hm⟩ | hm | ⟨-, hm⟩
      · cases hm
      · obtain ⟨rfl, -⟩ := Ev.call.inj hm
        cases hD
      · cases hm

end Interference

/-! ## The three algorithms -/

section Algorithms

variable {u t u' t' : String}

/-- The keys of a client text in the fixed-window algorithm. -/
def FixedWindow.keys (b k : String) : Prop :=
  ∃ w start, k = FixedWindow.counter ("rate-limiting:fixed-window:" ++ b) w start

theorem FixedWindow.key_eq (u t : String) :
    FixedWindow.key u t = "rate-limiting:fixed-window:" ++ clientText u t := by
  unfold FixedWindow.key clientText
  rw [← String.append_assoc, ← String.append_assoc]

theorem fixedWindow_footprint : Footprint FixedWindow.algorithm FixedWindow.keys where
  request u t score limits now := by
    have hkey : ∀ w n, FixedWindow.keys (clientText u t) (FixedWindow.counter (FixedWindow.key u t) w n) :=
      fun w n => ⟨w, n, by rw [FixedWindow.key_eq]⟩
    unfold FixedWindow.algorithm FixedWindow.request
    dsimp only
    iterate 4 refine Prog.Uses.bind (fun _ => ?_) (incrBy_uses (hkey _ _) _)
    iterate 4 refine Prog.Uses.bind (fun _ => ?_) (expire_uses (hkey _ _) _)
    split
    · iterate 4 refine Prog.Uses.bind (fun _ => ?_) (decrBy_uses (hkey _ _) _)
      trivial
    · trivial
  quota u t limits now := by
    have hkey : ∀ w n, FixedWindow.keys (clientText u t) (FixedWindow.counter (FixedWindow.key u t) w n) :=
      fun w n => ⟨w, n, by rw [FixedWindow.key_eq]⟩
    unfold FixedWindow.algorithm FixedWindow.quota
    dsimp only
    iterate 4 refine Prog.Uses.bind (fun _ => ?_) (get_uses (hkey _ _))
    trivial
  timer _ := trivial
  disjoint := by
    rintro b b' k hne ⟨w, n, rfl⟩ ⟨w', n', he⟩
    exact hne ((String.append_right_inj _).1 (FixedWindow.counter_eq_iff.1 he).1).symm

/-- **Fixed window.** -/
theorem fixedWindow_isolated_iff : Isolated FixedWindow.algorithm u t u' t' ↔
    clientText u t ≠ clientText u' t' := by
  refine ⟨fun hI he => ?_, fixedWindow_footprint.isolated⟩
  have hkey : FixedWindow.key u' t' = FixedWindow.key u t := by
    rw [FixedWindow.key_eq, FixedWindow.key_eq, he]
  refine not_isolated (x := .request u' t' 1 defaultQuotaLimits 0) ⟨rfl, rfl, rfl⟩ server 1 defaultQuotaLimits 0
    (fun heq => ?_) hI
  -- the first command of the request charges the counter that `quota` reads
  have hst : (FixedWindow.algorithm.machine.run (Pool.init server)
      (.call 0 (.request u' t' 1 defaultQuotaLimits 0) :: List.replicate 1 (.step 0 ()))).st =
        (server.incrBy (FixedWindow.counter (FixedWindow.key u t) .second 0) 1).1 := by
    rw [← hkey]; rfl
  have hq : ∀ s, ((FixedWindow.algorithm.quota u t defaultQuotaLimits 0).run exec s).2.perSecond.remaining =
      5 - FixedWindow.number (s.getInt (FixedWindow.counter (FixedWindow.key u t) .second 0)) := fun s => rfl
  have hrem := congrArg (fun q : QuotaSummary => q.perSecond.remaining) heq
  rw [hst] at hrem
  simp only [hq] at hrem
  simp [incrBy, getInt, value, server, FixedWindow.number, get_setInt] at hrem

/-- The keys of a client text in the sliding-window algorithm. -/
def SlidingWindow.keys (b k : String) : Prop :=
  ∃ w, k = SlidingWindow.setKey ("rate-limiting:sliding-window:" ++ b) w

theorem SlidingWindow.key_eq (u t : String) :
    SlidingWindow.key u t = "rate-limiting:sliding-window:" ++ clientText u t := by
  unfold SlidingWindow.key clientText
  rw [← String.append_assoc, ← String.append_assoc]

theorem SlidingWindow.record_uses {b k : String} {w : Span}
    (hk : SlidingWindow.keys b (SlidingWindow.setKey k w)) (seconds now score : ℕ) :
    (SlidingWindow.record k w seconds now score).Uses (Cmd.On (SlidingWindow.keys b)) := by
  unfold SlidingWindow.record
  refine Prog.Uses.bind (fun _ => ?_) (zRemRangeByScore_uses hk _ _)
  refine Prog.Uses.bind (fun _ => ?_) (zAdd_uses hk _ _)
  refine Prog.Uses.bind (fun _ => ?_) (zRangeByScore_uses hk _ _)
  refine Prog.Uses.bind (fun _ => ?_) (expire_uses hk _)
  trivial

theorem slidingWindow_footprint : Footprint SlidingWindow.algorithm SlidingWindow.keys where
  request u t score limits now := by
    have hkey : ∀ w, SlidingWindow.keys (clientText u t) (SlidingWindow.setKey (SlidingWindow.key u t) w) :=
      fun w => ⟨w, by rw [SlidingWindow.key_eq]⟩
    unfold SlidingWindow.algorithm SlidingWindow.request
    dsimp only
    iterate 4 refine Prog.Uses.bind (fun _ => ?_) (SlidingWindow.record_uses (hkey _) _ _ _)
    split
    · iterate 4 refine Prog.Uses.bind (fun _ => ?_) (zRemRangeByScore_uses (hkey _) _ _)
      trivial
    · trivial
  quota u t limits now := by
    have hkey : ∀ w, SlidingWindow.keys (clientText u t) (SlidingWindow.setKey (SlidingWindow.key u t) w) :=
      fun w => ⟨w, by rw [SlidingWindow.key_eq]⟩
    unfold SlidingWindow.algorithm SlidingWindow.quota
    dsimp only
    iterate 4 refine Prog.Uses.bind (fun _ => ?_) (zRemRangeByScore_uses (hkey _) _ _)
    iterate 4 refine Prog.Uses.bind (fun _ => ?_) (zRangeByScore_uses (hkey _) _ _)
    trivial
  timer _ := trivial
  disjoint := by
    rintro b b' k hne ⟨w, rfl⟩ ⟨w', he⟩
    exact hne ((String.append_right_inj _).1 (SlidingWindow.setKey_inj.1 he).1).symm

/-- **Sliding window.** -/
theorem slidingWindow_isolated_iff : Isolated SlidingWindow.algorithm u t u' t' ↔
    clientText u t ≠ clientText u' t' := by
  refine ⟨fun hI he => ?_, slidingWindow_footprint.isolated⟩
  have hkey : SlidingWindow.key u' t' = SlidingWindow.key u t := by
    rw [SlidingWindow.key_eq, SlidingWindow.key_eq, he]
  refine not_isolated (x := .request u' t' 1 defaultQuotaLimits 1) ⟨rfl, rfl, rfl⟩ server 2 defaultQuotaLimits 1
    (fun heq => ?_) hI
  -- the second command of the request adds an entry that `quota` counts
  have hst : (SlidingWindow.algorithm.machine.run (Pool.init server)
      (.call 0 (.request u' t' 1 defaultQuotaLimits 1) :: List.replicate 2 (.step 0 ()))).st =
        ((server.zRemRangeByScore (SlidingWindow.setKey (SlidingWindow.key u t) .second) .negInf
          (.incl ((1 : ℕ) - Span.second.ms : ℤ))).zAdd (SlidingWindow.setKey (SlidingWindow.key u t) .second)
            (1 : ℕ) (SlidingWindow.member 1 1)) := by
    rw [← hkey]; rfl
  have hq : ∀ s, ((SlidingWindow.algorithm.quota u t defaultQuotaLimits 1).run exec s).2 =
      SlidingWindow.summary defaultQuotaLimits (fun v => SlidingWindow.total parseInt
        ((((s.zset (SlidingWindow.setKey (SlidingWindow.key u t) v)).zRemRangeByScore .negInf
          (.incl ((1 : ℕ) - v.ms : ℤ)))).map Prod.snd)) 1 := by
    intro s
    have hrun : ((SlidingWindow.algorithm.quota u t defaultQuotaLimits 1).run exec s).2 = _ :=
      congrArg Prod.snd SlidingWindow.quota_run
    rw [hrun]
    simp only [SlidingWindow.zset_evictedAll]
  have hrem := congrArg (fun q : QuotaSummary => (q.of .second).remaining) heq
  rw [hst] at hrem
  simp only [hq, SlidingWindow.remaining_summary, SlidingWindow.sub_cast_inj] at hrem
  have hone : SlidingWindow.counted 1 = 1 := SlidingWindow.counted_of_lt (by decide)
  have hserver : ∀ k, server.zset k = [] := fun _ => rfl
  simp only [Redis.zAdd, Redis.zRemRangeByScore, zset_setZSet, if_true, hserver] at hrem
  simp [ZSet.zAdd, ZSet.zRemRangeByScore, Bound.minOK, Bound.maxOK, SlidingWindow.total,
    SlidingWindow.parseInt_member, hone, Span.ms] at hrem

/-- The key of a client text in the token-bucket algorithm. -/
def TokenBucket.keys (b k : String) : Prop := k = TokenBucket.keyPrefix ++ b

theorem TokenBucket.key_eq (u t : String) : TokenBucket.key u t = TokenBucket.keyPrefix ++ clientText u t := by
  unfold TokenBucket.key clientText
  rw [← String.append_assoc, ← String.append_assoc]

theorem tokenBucket_footprint (config : TokenBucket.Config) :
    Footprint (TokenBucket.algorithm config) TokenBucket.keys where
  request u t score limits now := by
    have hkey : TokenBucket.keys (clientText u t) (TokenBucket.key u t) := TokenBucket.key_eq u t
    unfold TokenBucket.algorithm TokenBucket.request
    dsimp only
    refine Prog.Uses.bind (fun _ => ?_) (incrBy_uses hkey _)
    split
    · refine Prog.Uses.bind (fun _ => ?_) (decrBy_uses hkey _)
      trivial
    · trivial
  quota u t limits now := by
    have hkey : TokenBucket.keys (clientText u t) (TokenBucket.key u t) := TokenBucket.key_eq u t
    unfold TokenBucket.algorithm TokenBucket.quota TokenBucket.calculateRemaining
    dsimp only
    refine Prog.Uses.bind (fun _ => ?_) (Prog.Uses.bind (fun value => ?_) (get_uses hkey))
    · trivial
    · cases value <;> trivial
  timer b := ⟨fun _ _ _ h => ⟨h.refill .., rfl⟩, fun _ => trivial⟩
  disjoint := by
    rintro b b' k hne rfl he
    exact hne ((String.append_right_inj _).1 he).symm

/-- **Token bucket.** -/
theorem tokenBucket_isolated_iff (config : TokenBucket.Config) :
    Isolated (TokenBucket.algorithm config) u t u' t' ↔ clientText u t ≠ clientText u' t' := by
  refine ⟨fun hI he => ?_, (tokenBucket_footprint config).isolated⟩
  have hkey : TokenBucket.key u' t' = TokenBucket.key u t := by
    rw [TokenBucket.key_eq, TokenBucket.key_eq, he]
  refine not_isolated (x := .request u' t' 1 defaultQuotaLimits 0) ⟨rfl, rfl, rfl⟩ server 1 defaultQuotaLimits 0
    (fun heq => ?_) hI
  -- the first command of the request takes a token
  have hst : ((TokenBucket.algorithm config).machine.run (Pool.init server)
      (.call 0 (.request u' t' 1 defaultQuotaLimits 0) :: List.replicate 1 (.step 0 ()))).st =
        (server.incrBy (TokenBucket.key u t) 1).1 := by
    rw [← hkey]; rfl
  have hq : ∀ s, (((TokenBucket.algorithm config).quota u t defaultQuotaLimits 0).run exec s).2 =
      TokenBucket.summary defaultQuotaLimits (TokenBucket.tokens config s (TokenBucket.key u t)) 0 := by
    intro s
    have hcall : (TokenBucket.call config (.quota u t defaultQuotaLimits 0) s).2 = _ :=
      congrArg Prod.snd TokenBucket.call_quota
    unfold TokenBucket.call RateLimitingAlgorithm.prog at hcall
    rw [Prog.run_bind] at hcall
    exact RateReply.quota.inj hcall
  have hrem := congrArg (fun q : QuotaSummary => q.perSecond.remaining) heq
  rw [hst] at hrem
  simp only [hq] at hrem
  simp [TokenBucket.summary, TokenBucket.tokens, incrBy, value, server, get_setInt] at hrem

end Algorithms

end NodeToolkit
