import NodeToolkit.Proof.SlidingWindow
import Mathlib.Algebra.Order.Ring.Rat
import Mathlib.Data.Nat.Cast.Order.Ring

/-!
# The sliding window: admission and reports

Main results, about runs of `request` on a server that starts empty:

* `never_overadmits`: as long as no two requests share both time and score, the
  accepted scores of a window never pass its limit. Six requests of one
  millisecond do (`burst_overadmits`): they are one member of each set.
* `quota_agrees_iff`: `quota` adds up the times where `request` adds up the
  scores, so the two agree exactly where these sums happen to.
-/

namespace NodeToolkit.SlidingWindow

open Async Redis

/-- The request stays within its limits, everything recorded so far counted in. -/
def Fits (h : List Request) (r : Request) : Prop :=
  ∀ v, (consumed (h ++ [r]) r.key v r.now : ℚ) ≤ r.limits.of v

section Answers

variable {h rs : List Request} {r : Request} {s : Redis}

theorem fits_iff : Fits h r ↔ ¬ Exceeds r.limits fun v => consumed (h ++ [r]) r.key v r.now := by
  rw [exceeds_iff, not_exists]
  exact forall_congr' fun v => not_lt.symm

/-- **A request is accepted** if it fits. -/
theorem answer_isOk : (answer h r).isOk ↔ Fits h r := by
  rw [fits_iff]
  unfold answer
  split
  · rename_i hex
    exact ⟨fun hok => (Bool.false_ne_true hok).elim, fun hno => absurd hex hno⟩
  · rename_i hno
    exact ⟨fun _ => hno, fun _ => rfl⟩

theorem answers_snoc : answers s (rs ++ [r]) = answers s rs ++ [(r, (serve (serveAll s rs) r).2)] := by
  induction rs generalizing s with
  | nil => rfl
  | cons r' rs ih =>
    rw [List.cons_append]
    simp only [answers, ih, List.cons_append]
    rfl

theorem map_fst_answers (s : Redis) (rs : List Request) : (answers s rs).map Prod.fst = rs := by
  induction rs generalizing s with
  | nil => rfl
  | cons r rs ih => rw [answers, List.map_cons, ih]

end Answers

/-! ## Admission -/

/-- The score of the accepted requests in the window that ends at `now`. -/
def admitted (as : List (Request × RequestResult)) (v : Span) (now : ℕ) : ℕ :=
  ((as.filter fun a => a.2.isOk ∧ a.1.now ≤ now ∧ now < a.1.now + v.ms).map fun a => a.1.score).sum

/-- The score of all requests from the window on. -/
def requested (rs : List Request) (v : Span) (now : ℕ) : ℕ :=
  ((rs.filter fun r => now < r.now + v.ms).map Request.score).sum

section Admission

variable {rs : List Request} {r : Request} {s : Redis} {v : Span} {now : ℕ} {u t : String}
  {limits : QuotaLimits}

theorem admitted_snoc (as : List (Request × RequestResult)) (a : Request × RequestResult) :
    admitted (as ++ [a]) v now = admitted as v now +
      if a.2.isOk ∧ a.1.now ≤ now ∧ now < a.1.now + v.ms then a.1.score else 0 := by
  unfold admitted
  rw [List.filter_append, List.map_append, List.sum_append]
  split <;> simp_all

theorem requested_snoc (rs : List Request) (r : Request) : requested (rs ++ [r]) v now =
    requested rs v now + if now < r.now + v.ms then r.score else 0 := by
  unfold requested
  rw [List.filter_append, List.map_append, List.sum_append]
  split <;> simp_all

theorem admitted_le_requested : admitted (answers s rs) v now ≤ requested rs v now := by
  induction rs using List.reverseRecOn with
  | nil => exact Nat.zero_le _
  | append_singleton rs r ih =>
    rw [answers_snoc, admitted_snoc, requested_snoc]
    refine Nat.add_le_add ih ?_
    split
    · rename_i hin
      rw [if_pos hin.2.2]
    · exact Nat.zero_le _

/-- **Distinct requests are distinct entries**, so all of them are counted. -/
theorem requested_eq_consumed {k : String} (hkey : ∀ r ∈ rs, r.key = k)
    (hnew : (rs.map fun r => (r.now, r.score)).Nodup) (hsmall : ∀ r ∈ rs, r.score < 10 ^ 21) :
    requested rs v now = consumed rs k v now := by
  have hset : inWindow rs k v now =
      ((rs.filter fun r => now < r.now + v.ms).map fun r => (r.now, r.score)).toFinset := by
    ext e
    rw [mem_inWindow, mem_entries, List.mem_toFinset, List.mem_map]
    constructor
    · rintro ⟨⟨r, hr, -, rfl⟩, hin⟩
      exact ⟨r, List.mem_filter.2 ⟨hr, by simpa using hin⟩, rfl⟩
    · rintro ⟨r, hr, rfl⟩
      obtain ⟨hr, hin⟩ := List.mem_filter.1 hr
      exact ⟨⟨r, hr, hkey r hr, rfl⟩, by simpa using hin⟩
  have hnd : ((rs.filter fun r => now < r.now + v.ms).map fun r => (r.now, r.score)).Nodup :=
    hnew.sublist (List.filter_sublist.map _)
  have hsum : consumed rs k v now = ∑ e ∈ inWindow rs k v now, e.2 := by
    refine Finset.sum_congr rfl fun e he => ?_
    obtain ⟨r, hr, -, rfl⟩ := mem_entries.1 (mem_inWindow.1 he).1
    exact counted_of_lt (hsmall r hr)
  rw [hsum, hset, List.sum_toFinset _ hnd, List.map_map]
  rfl

/-- **The sliding window never over-admits**, when no two requests of the run share both their
clock reading and their score. -/
theorem never_overadmits (hone : ∀ r ∈ rs, r.userId = u ∧ r.token = t ∧ r.limits = limits)
    (hclock : rs.Pairwise fun r r' => r.now ≤ r'.now)
    (hnew : (rs.map fun r => (r.now, r.score)).Nodup) (hsmall : ∀ r ∈ rs, r.score < 10 ^ 21) :
    ∀ a ∈ answers server rs, a.2.isOk → ∀ v,
      (admitted (answers server rs) v a.1.now : ℚ) ≤ limits.of v := by
  induction rs using List.reverseRecOn with
  | nil => simp [answers]
  | append_singleton rs r ih =>
    have hle : ∀ r' ∈ rs, r'.now ≤ r.now := fun r' hr' =>
      (List.pairwise_append.1 hclock).2.2 r' hr' r (List.mem_singleton_self r)
    have hkey : ∀ r' ∈ rs ++ [r], r'.key = r.key := by
      intro r' hr'
      obtain ⟨h1, h2, -⟩ := hone r' hr'
      obtain ⟨h3, h4, -⟩ := hone r (by simp)
      simp only [Request.key, h1, h2, h3, h4]
    have hbefore := ih (fun r' hr' => hone r' (by simp [hr'])) (List.pairwise_append.1 hclock).1
      (by rw [List.map_append] at hnew; exact (List.nodup_append.1 hnew).1)
      (fun r' hr' => hsmall r' (by simp [hr']))
    -- the total at the reading of `r`, once `r` is accepted
    have hlast : (answer rs r).isOk → ∀ v,
        (admitted (answers server (rs ++ [r])) v r.now : ℚ) ≤ limits.of v := by
      intro hok v
      have hfits := answer_isOk.1 hok v
      rw [← requested_eq_consumed hkey hnew hsmall, (hone r (by simp)).2.2] at hfits
      exact (Nat.cast_le.2 admitted_le_requested).trans hfits
    intro a ha hok v
    rw [answers_snoc, serve_answer_eq hle] at ha ⊢
    rw [answers_snoc, serve_answer_eq hle] at hlast
    rcases List.mem_append.1 ha with ha | ha
    · have hin : a.1 ∈ rs := map_fst_answers server rs ▸ List.mem_map_of_mem ha
      by_cases hr : (answer rs r).isOk ∧ a.1.now = r.now
      · rw [hr.2]
        exact hlast hr.1 v
      · -- `r` is rejected, or made after the window
        have hout : ¬ ((answer rs r).isOk ∧ r.now ≤ a.1.now ∧ a.1.now < r.now + v.ms) :=
          fun hc => hr ⟨hc.1, le_antisymm (hle _ hin) hc.2.1⟩
        rw [admitted_snoc, if_neg hout, Nat.add_zero]
        exact hbefore a ha hok v
    · rw [List.mem_singleton.1 ha] at hok ⊢
      exact hlast hok v

/-- A request of the client `u`, `t` under the default limits. -/
def requestAt (now score : ℕ) : Request := ⟨"u", "t", score, defaultQuotaLimits, now⟩

/-- Three requests under the default limits; the last is rejected. -/
theorem never_overadmits_three :
    (answers server [requestAt 1000 2, requestAt 1000 3, requestAt 1500 1]).map (fun a => a.2.isOk) =
      [true, true, false] ∧
    ∀ a ∈ answers server [requestAt 1000 2, requestAt 1000 3, requestAt 1500 1], a.2.isOk → ∀ v,
      (admitted (answers server [requestAt 1000 2, requestAt 1000 3, requestAt 1500 1]) v a.1.now : ℚ) ≤
        defaultQuotaLimits.of v :=
  ⟨by decide +kernel, never_overadmits (u := "u") (t := "t") (by simp [requestAt]) (by simp [requestAt])
    (by simp [requestAt]) (by simp [requestAt])⟩

/-- Six requests of one millisecond. -/
def burst : List Request := List.replicate 6 (requestAt 1000 1)

/-- **A burst over-admits**: the limit of a second is five, and all six are accepted. -/
theorem burst_overadmits :
    (∀ r ∈ burst, r.userId = "u" ∧ r.token = "t" ∧ r.limits = defaultQuotaLimits ∧ 0 < r.score) ∧
    burst.Pairwise (fun r r' => r.now ≤ r'.now) ∧ (∀ a ∈ answers server burst, a.2.isOk) ∧
    admitted (answers server burst) .second 1000 = 6 ∧
    ¬ (admitted (answers server burst) .second 1000 : ℚ) ≤ defaultQuotaLimits.of .second := by
  refine ⟨by decide, by decide, by decide +kernel, by decide +kernel, by decide +kernel⟩

end Admission

/-! ## Reports -/

section Reports

variable {h : List Request} {u t : String} {limits : QuotaLimits} {now : ℕ}

@[simp] theorem remaining_summary (consumed : Span → ℕ) (v : Span) :
    ((summary limits consumed now).of v).remaining = limits.of v - consumed v := by
  cases v <;> rfl

theorem sub_cast_inj {q : ℚ} {m n : ℕ} : q - (m : ℚ) = q - (n : ℚ) ↔ m = n := by
  rw [sub_right_inj, Nat.cast_inj]

/-- **Where `quota` and `request` agree.** The report of `quota` is right exactly if, in each
window, `parseInt` of the times adds up to the scores; it is what a request just accepted
returned exactly if it adds up to `parseInt` of the scores. -/
theorem quota_agrees_iff (hpast : ∀ r ∈ h, r.now ≤ now) :
    ((∀ v, ((quotaAt (serveAll server h) u t limits now).of v).remaining =
        limits.of v - (∑ e ∈ inWindow h (key u t) v now, e.2 : ℕ)) ↔
      ∀ v, ∑ e ∈ inWindow h (key u t) v now, counted e.1 = ∑ e ∈ inWindow h (key u t) v now, e.2) ∧
    ∀ (score : ℕ) (q : QuotaSummary),
      (serve (serveAll server h) ⟨u, t, score, limits, now⟩).2 = .ok q →
      let h' := h ++ [⟨u, t, score, limits, now⟩]
      ((∀ v, ((quotaAt (serveAll server h') u t limits now).of v).remaining = (q.of v).remaining) ↔
        ∀ v, ∑ e ∈ inWindow h' (key u t) v now, counted e.1 =
          ∑ e ∈ inWindow h' (key u t) v now, counted e.2) := by
  refine ⟨?_, ?_⟩
  · rw [quota_eq hpast]
    refine forall_congr' fun v => ?_
    rw [remaining_summary, sub_cast_inj]
  · intro score q hok h'
    have hpast' : ∀ r ∈ h', r.now ≤ now := by
      intro r hr
      rcases List.mem_append.1 hr with hr | hr
      · exact hpast r hr
      · rw [List.mem_singleton.1 hr]
    have hq : q = summary limits (fun v => consumed h' (key u t) v now) now := by
      rw [serve_answer_eq hpast] at hok
      unfold answer at hok
      split at hok
      · cases hok
      · exact (Except.ok.inj hok).symm
    rw [quota_eq hpast', hq]
    refine forall_congr' fun v => ?_
    rw [remaining_summary, remaining_summary, sub_cast_inj]
    rfl

/-- A request of score five at the instant five. -/
theorem quota_agrees_five :
    (quotaAt (serveAll server [requestAt 5 5]) "u" "t" defaultQuotaLimits 5).perSecond.remaining = 0 ∧
    ∀ v, ((quotaAt (serveAll server [requestAt 5 5]) "u" "t" defaultQuotaLimits 5).of v).remaining =
      defaultQuotaLimits.of v - (∑ e ∈ inWindow [requestAt 5 5] (key "u" "t") v 5, e.2 : ℕ) := by
  refine ⟨by decide +kernel, (quota_agrees_iff (by simp [requestAt])).1.2 fun v => ?_⟩
  cases v <;> decide +kernel

/-- **A request of score one** at the instant 1000 leaves four of five; `quota` reports -995. -/
theorem quota_reports_time :
    ((serve server (requestAt 1000 1)).2.toOption.map fun q => q.perSecond.remaining) = some 4 ∧
    (quotaAt (serveAll server [requestAt 1000 1]) "u" "t" defaultQuotaLimits 1000).perSecond.remaining = -995 ∧
    ∑ e ∈ inWindow [requestAt 1000 1] (key "u" "t") .second 1000, e.2 = 1 := by
  refine ⟨by decide +kernel, by decide +kernel, by decide +kernel⟩

end Reports

end NodeToolkit.SlidingWindow
