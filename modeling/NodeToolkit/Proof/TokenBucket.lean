import NodeToolkit.Base.Bucket
import NodeToolkit.Proof.Redis
import NodeToolkit.Spec.TokenBucket
import Mathlib.Algebra.Order.Ring.Cast
import Mathlib.Algebra.Order.Ring.Rat
import Mathlib.Tactic.Linarith
import Mathlib.Tactic.Ring

/-!
# The token bucket against the reference bucket

The level of a key is the capacity less the number Redis stores for it. Calls run
one after another, over a server that may hold any other keys.

* `call_refines`: for a fill rate that is a whole number every call does what the
  reference bucket does (`Base/Bucket.lean`) and touches nothing else.
* `refines_iff`: for other rates the refill script fails at its first `DECRBY`, so
  the reference is met exactly if no bucket can hold a token (`capacity < 1`).
-/

namespace NodeToolkit.TokenBucket

open Async Redis

variable {config : Config} {s : Redis} {k : String} {u t : String} {score now : ℕ} {limits : QuotaLimits}

/-- The keys of the algorithm. -/
def IsBucket (k : String) : Prop := keyPrefix.toList.isPrefixOf k.toList

theorem isBucket_key (u t : String) : IsBucket (key u t) := by
  simp [IsBucket, key, List.append_assoc]

/-- The tokens left of a key. -/
def tokens (config : Config) (s : Redis) (k : String) : ℚ := config.capacity - s.value k

/-- A call of the algorithm, alone. -/
def call (config : Config) (x : RateCall) (s : Redis) : Redis × RateReply :=
  ((algorithm config).prog x).run exec s

/-- The calls of a run, one after another. -/
def runCalls (config : Config) (s : Redis) (xs : List RateCall) : Redis :=
  xs.foldl (fun s x => (call config x s).1) s

/-! ## The reference -/

/-- What a call asks of the reference bucket. -/
def opOf : RateCall → Bucket.Op String ℚ
  | .request u t score _ _ => .take (key u t) score
  | .quota u t _ _ => .look (key u t)
  | .timer => .fill

/-- How the answer of the reference bucket reads. -/
def replyOf : RateCall → Option ℚ → RateReply
  | .request _ _ _ limits now, some remaining => .requested (.ok (summary limits remaining now))
  | .request _ _ _ _ _, none => .requested (.error tooManyRequests)
  | .quota _ _ limits now, remaining => .quota (summary limits (remaining.getD 0) now)
  | .timer, _ => .ticked

/-- The reference bucket of a configuration, at the levels of `s`. -/
def reference (config : Config) (s : Redis) (x : RateCall) : (String → ℚ) × Option ℚ :=
  Bucket.step config.capacity config.fillRate (tokens config s) (opOf x)

/-- Every level is between zero and the capacity. -/
def Within (config : Config) (s : Redis) : Prop :=
  ∀ k, IsBucket k → 0 ≤ tokens config s k ∧ tokens config s k ≤ config.capacity

/-- The call does in `s` what the reference bucket does, and no more. -/
structure Refines (config : Config) (s : Redis) (x : RateCall) : Prop where
  within : Within config s
  levels : ∀ k, IsBucket k → tokens config (call config x s).1 k = (reference config s x).1 k
  reply : (call config x s).2 = replyOf x (reference config s x).2
  others : ∀ k, ¬ IsBucket k → (call config x s).1.ints.get k = s.ints.get k
  zsets : (call config x s).1.zsets = s.zsets
  reads : ∀ u t limits now, x = .quota u t limits now → (call config x s).1 = s

/-! ## The calls -/

theorem call_quota : call config (.quota u t limits now) s =
    (s, .quota (summary limits (tokens config s (key u t)) now)) := by
  simp only [call, RateLimitingAlgorithm.prog, algorithm, quota, calculateRemaining, Client.get,
    Prog.await_bind, Prog.run_await, exec, getInt, tokens, value]
  cases s.ints.get (key u t) <;> simp

theorem call_timer : call config .timer s =
    ((refillKeys config.fillRate (s.callKeys keyPrefix) s).1, .ticked) := rfl

theorem call_request : call config (.request u t score limits now) s =
    if config.capacity < ((s.value (key u t) + score : ℤ) : ℚ) then
      (((s.incrBy (key u t) score).1.decrBy (key u t) score).1, .requested (.error tooManyRequests))
    else
      ((s.incrBy (key u t) score).1,
        .requested (.ok (summary limits (config.capacity - ((s.value (key u t) + score : ℤ) : ℚ)) now))) := by
  simp only [call, RateLimitingAlgorithm.prog, algorithm, request, Client.incrBy, Prog.await_bind,
    Prog.ret_bind, Prog.run_await]
  by_cases h : config.capacity < ((s.value (key u t) + score : ℤ) : ℚ)
  · have h' : config.capacity < (((exec s (.incrBy (key u t) score)).2 : ℤ) : ℚ) := h
    rw [if_pos h, if_pos h']; rfl
  · have h' : ¬ config.capacity < (((exec s (.incrBy (key u t) score)).2 : ℤ) : ℚ) := h
    rw [if_neg h, if_neg h']; rfl

/-- A request that is refused leaves every value as it was. -/
theorem value_refund (n : ℤ) : ((s.incrBy (key u t) n).1.decrBy (key u t) n).1.value k = s.value k := by
  by_cases hk : key u t = k
  · subst hk; simp [incrBy, decrBy]
  · simp [incrBy, decrBy, hk]

theorem get_setInt_ne {j : String} (s : Redis) (n : ℤ) (h : j ≠ k) :
    (s.setInt j n).ints.get k = s.ints.get k := OMap.get_set_ne _ _ h

/-- **A request** takes its score if the tokens are there. -/
theorem request_refines (hw : Within config s) : Refines config s (.request u t score limits now) := by
  have hiff : ¬ config.capacity < ((s.value (key u t) + score : ℤ) : ℚ) ↔
      (score : ℚ) ≤ tokens config s (key u t) := by
    unfold tokens; push_cast; constructor <;> intro h <;> linarith
  have hother : ∀ k, ¬ IsBucket k → key u t ≠ k := fun k hk he => hk (he ▸ isBucket_key u t)
  by_cases h : config.capacity < ((s.value (key u t) + score : ℤ) : ℚ)
  · -- refused: the charge is refunded
    have href : reference config s (.request u t score limits now) = (tokens config s, none) :=
      if_neg fun hle => (hiff.2 hle) h
    refine ⟨hw, fun k _ => ?_, ?_, fun k hk => ?_, ?_, fun _ _ _ _ hx => by cases hx⟩
    · rw [href, call_request, if_pos h, tokens, value_refund]; rfl
    · rw [href, call_request, if_pos h]; rfl
    · rw [call_request, if_pos h]
      exact (get_setInt_ne _ _ (hother k hk)).trans (get_setInt_ne _ _ (hother k hk))
    · rw [call_request, if_pos h]; rfl
  · -- granted: the charge stands
    have hle := hiff.1 h
    have href : reference config s (.request u t score limits now) =
        (Function.update (tokens config s) (key u t) (tokens config s (key u t) - score),
          some (tokens config s (key u t) - score)) := if_pos hle
    have hleft : config.capacity - ((s.value (key u t) + score : ℤ) : ℚ) =
        tokens config s (key u t) - score := by
      unfold tokens; push_cast; linarith
    refine ⟨hw, fun k _ => ?_, ?_, fun k hk => ?_, ?_, fun _ _ _ _ hx => by cases hx⟩
    · rw [href, call_request, if_neg h]
      simp only [Function.update_apply]
      by_cases hk : k = key u t
      · subst hk
        rw [if_pos rfl, ← hleft, tokens, incrBy, value_setInt, if_pos rfl]
      · rw [if_neg hk, tokens, incrBy, value_setInt, if_neg (Ne.symm hk)]; rfl
    · rw [href, call_request, if_neg h, hleft]; rfl
    · rw [call_request, if_neg h]; exact get_setInt_ne _ _ (hother k hk)
    · rw [call_request, if_neg h]; rfl

theorem quota_refines (hw : Within config s) : Refines config s (.quota u t limits now) :=
  ⟨hw, fun _ _ => by rw [call_quota]; rfl, by rw [call_quota]; rfl, fun _ _ => by rw [call_quota],
    by rw [call_quota], fun _ _ _ _ _ => by rw [call_quota]⟩

/-- **A refill** is right as soon as it is right about the levels. -/
theorem timer_refines (hw : Within config s)
    (hfill : ∀ k, IsBucket k → tokens config (refillKeys config.fillRate (s.callKeys keyPrefix) s).1 k =
      min config.capacity (tokens config s k + config.fillRate)) : Refines config s .timer := by
  have hother : ∀ k, ¬ IsBucket k → k ∉ s.callKeys keyPrefix := fun k hk hm => hk (mem_callKeys.1 hm).2
  exact ⟨hw, hfill, rfl, fun k hk => get_refillKeys (hother k hk), zsets_refillKeys,
    fun _ _ _ _ hx => by cases hx⟩

theorem value_of_not_mem (hk : IsBucket k) (h : k ∉ s.callKeys keyPrefix) : s.value k = 0 :=
  value_of_none (OMap.get_eq_none.2 fun hm => h (mem_callKeys.2 ⟨hm, hk⟩))

/-- **A whole rate comes off every bucket**, down to zero. -/
theorem value_refill (hf : 0 ≤ config.fillRate) (hden : config.fillRate.den = 1) (hk : IsBucket k) :
    (refillKeys config.fillRate (s.callKeys keyPrefix) s).1.value k =
      max 0 (s.value k - config.fillRate.num) := by
  rw [value_refillKeys hden (callKeys_nodup s keyPrefix)]
  by_cases hm : k ∈ s.callKeys keyPrefix
  · exact if_pos hm
  · have h0 := value_of_not_mem hk hm
    have hn : 0 ≤ config.fillRate.num := Rat.num_nonneg.2 hf
    rw [if_neg hm, h0]
    omega

theorem tokens_refill_of_whole (hf : 0 ≤ config.fillRate) (hden : config.fillRate.den = 1)
    (hk : IsBucket k) : tokens config (refillKeys config.fillRate (s.callKeys keyPrefix) s).1 k =
      min config.capacity (tokens config s k + config.fillRate) := by
  have hnum : ((config.fillRate.num : ℤ) : ℚ) = config.fillRate := Rat.coe_int_num_of_den_eq_one hden
  unfold tokens
  rw [value_refill hf hden hk, Int.cast_max, Int.cast_sub, hnum, Int.cast_zero]
  rcases le_total (s.value k : ℚ) config.fillRate with hle | hle
  · rw [max_eq_left (by linarith), min_eq_left (by linarith)]; ring
  · rw [max_eq_right (by linarith), min_eq_right (by linarith)]; ring

/-- Where no bucket can hold a token, every bucket is empty of charges. -/
theorem value_eq_zero (hw : Within config s) (hc : config.capacity < 1) (hk : IsBucket k) :
    s.value k = 0 := by
  obtain ⟨h1, h2⟩ := hw k hk
  unfold tokens at h1 h2
  have h3 : (0 : ℚ) ≤ (s.value k : ℚ) := by linarith
  have h4 : (s.value k : ℚ) < 1 := by linarith
  have h3 : 0 ≤ s.value k := by exact_mod_cast h3
  have h4 : s.value k < 1 := by exact_mod_cast h4
  omega

theorem tokens_refill_of_small (hf : 0 ≤ config.fillRate) (hden : config.fillRate.den ≠ 1)
    (hc : config.capacity < 1) (hw : Within config s) (hk : IsBucket k) :
    tokens config (refillKeys config.fillRate (s.callKeys keyPrefix) s).1 k =
      min config.capacity (tokens config s k + config.fillRate) := by
  rw [refillKeys_of_den_ne_one hden]
  unfold tokens
  rw [value_eq_zero hw hc hk, Int.cast_zero, min_eq_left (by linarith)]
  ring

/-! ## Whole runs -/

/-- The configurations under which the code is a token bucket. -/
def Config.Fills (config : Config) : Prop := config.fillRate.den = 1 ∨ config.capacity < 1

/-- **One call** refines the reference bucket. -/
theorem call_refines (hf : 0 ≤ config.fillRate) (hfill : config.Fills) (hw : Within config s)
    (x : RateCall) : Refines config s x := by
  cases x with
  | request u t score limits now => exact request_refines hw
  | quota u t limits now => exact quota_refines hw
  | timer =>
    refine timer_refines hw fun k hk => ?_
    by_cases hden : config.fillRate.den = 1
    · exact tokens_refill_of_whole hf hden hk
    · exact tokens_refill_of_small hf hden (hfill.resolve_left hden) hw hk

/-- The levels after a call that refines the reference are within the bucket. -/
theorem Refines.within_next {x : RateCall} (h : Refines config s x) (hc : 0 ≤ config.capacity)
    (hf : 0 ≤ config.fillRate) : Within config (call config x s).1 := by
  intro k hk
  rw [h.levels k hk]
  refine Bucket.step_bounded hc hf (h.within k hk) ?_
  cases x with
  | request u t score limits now => exact Nat.cast_nonneg score
  | quota u t limits now => trivial
  | timer => trivial

/-- **Every run** refines the reference bucket. -/
theorem run_refines (hc : 0 ≤ config.capacity) (hf : 0 ≤ config.fillRate) (hfill : config.Fills)
    (xs : List RateCall) : ∀ {s : Redis}, Within config s → Within config (runCalls config s xs) := by
  induction xs with
  | nil => exact fun hw => hw
  | cons x xs ih => exact fun hw => ih ((call_refines hf hfill hw x).within_next hc hf)

/-! ## A fractional fill rate -/

theorem within_server (hc : 0 ≤ config.capacity) : Within config server := by
  intro k _
  simp [tokens, server, value, hc]

/-- One token is taken. -/
def takeOne : RateCall := .request "u" "t" 1 defaultQuotaLimits 0

/-- With a fractional rate a refill does not give the token back. -/
theorem refill_fails (hf : 0 ≤ config.fillRate) (hden : config.fillRate.den ≠ 1) (hc : 1 ≤ config.capacity) :
    ¬ Refines config (runCalls config server [takeOne]) .timer := by
  intro h
  have hs : runCalls config server [takeOne] = (server.incrBy (key "u" "t") 1).1 := by
    have hno : ¬ config.capacity < ((server.value (key "u" "t") + (1 : ℕ) : ℤ) : ℚ) := by
      simpa [server, value] using hc
    change (call config takeOne server).1 = _
    rw [takeOne, call_request, if_neg hno]; rfl
  have hlev := h.levels (key "u" "t") (isBucket_key "u" "t")
  rw [hs, call_timer, refillKeys_of_den_ne_one hden] at hlev
  have htok : tokens config (server.incrBy (key "u" "t") 1).1 (key "u" "t") = config.capacity - 1 := by
    have h0 : server.value (key "u" "t") = 0 := rfl
    simp [tokens, incrBy, h0]
  have hpos : 0 < config.fillRate := by
    refine lt_of_le_of_ne hf fun h0 => hden ?_
    rw [← h0]; rfl
  simp only [reference, opOf, Bucket.step, htok] at hlev
  have hlt : config.capacity - 1 < min config.capacity (config.capacity - 1 + config.fillRate) :=
    lt_min (by linarith) (by linarith)
  linarith

/-- **When the code is a token bucket.** Every call of every run refines the reference bucket
exactly if the fill rate is a whole number or no bucket can hold a token. -/
theorem refines_iff (hc : 0 ≤ config.capacity) (hf : 0 ≤ config.fillRate) :
    (∀ s, Within config s → ∀ xs x, Refines config (runCalls config s xs) x) ↔ config.Fills := by
  constructor
  · intro h
    by_contra hno
    unfold Config.Fills at hno
    push Not at hno
    exact refill_fails hf hno.1 hno.2 (h server (within_server hc) [takeOne] .timer)
  · exact fun hfill s hw xs x => call_refines hf hfill (run_refines hc hf hfill xs hw) x

/-- Ten tokens and half a token per second. -/
def halfRate : Config := ⟨10, 1 / 2⟩

theorem refines_halfRate_fails : ¬ ∀ s, Within halfRate s → ∀ xs x,
    Refines halfRate (runCalls halfRate s xs) x := fun h =>
  refill_fails (by decide +kernel) (by decide +kernel) (by decide +kernel)
    (h server (within_server (by decide +kernel)) [takeOne] .timer)

/-- Ten tokens and two tokens per second. -/
theorem refines_iff_whole : (⟨10, 2⟩ : Config).Fills ∧
    ∀ s, Within ⟨10, 2⟩ s → ∀ xs x, Refines ⟨10, 2⟩ (runCalls ⟨10, 2⟩ s xs) x :=
  ⟨Or.inl rfl, (refines_iff (by decide +kernel) (by decide +kernel)).2 (Or.inl rfl)⟩

end NodeToolkit.TokenBucket
