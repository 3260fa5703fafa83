import NodeToolkit.Proof.SlidingLimits

/-!
# The sliding window: what a rejected request leaves behind

A rejected request stays in the sets of its key until its windows have passed, and
counts against every later request there. Main results:

* `noTrace_iff`: a run can do without its rejected requests exactly if no request
  that fits comes within a day of one of its key that did not; and the sets are
  what they were before a rejected request exactly if there is none.
* `rejected_leaves_trace`: a run where both fail.

The runs start on an empty server and have increasing clock readings.
-/

namespace NodeToolkit.SlidingWindow

open Async Redis

/-- The requests of a run that are accepted. -/
def accepted (rs : List Request) : List Request :=
  ((answers server rs).filter fun a => a.2.isOk).map Prod.fst

/-- Rejecting `r` takes nothing from its sets but what had left the window, and adds nothing. -/
def LeavesNoTrace (s : Redis) (r : Request) : Prop :=
  ∀ v x, (x ∈ (serve s r).1.zset (setKey r.key v) → x ∈ s.zset (setKey r.key v)) ∧
    (x ∈ s.zset (setKey r.key v) → (r.now : ℤ) < x.1 + v.ms → x ∈ (serve s r).1.zset (setKey r.key v))

/-- The requests of the key that did not fit have left the window of length `v` at `now`. -/
def Rested (rs : List Request) (k : String) (v : Span) (now : ℕ) : Prop :=
  ∀ h r, h ++ [r] <+: rs → r.key = k → ¬ Fits h r → r.now + v.ms ≤ now

/-- No request that fits comes within a day of one of its key that did not. -/
def Spaced (rs : List Request) : Prop :=
  ∀ h r, h ++ [r] <+: rs → Fits h r → Rested h r.key .day r.now

section Snoc

variable {rs h : List Request} {r : Request} {k : String} {v : Span} {now : ℕ}

theorem rested_snoc : Rested (rs ++ [r]) k v now ↔
    Rested rs k v now ∧ (r.key = k → ¬ Fits rs r → r.now + v.ms ≤ now) := by
  constructor
  · intro hr
    exact ⟨fun h r' hp => hr h r' (hp.trans (List.prefix_append ..)), hr rs r List.prefix_rfl⟩
  · rintro ⟨hr, hlast⟩ h r' hp
    rcases List.prefix_concat_iff.1 hp with he | hp
    · obtain ⟨rfl, rfl⟩ := List.append_singleton_inj.1 he
      exact hlast
    · exact hr h r' hp

theorem spaced_snoc : Spaced (rs ++ [r]) ↔ Spaced rs ∧ (Fits rs r → Rested rs r.key .day r.now) := by
  constructor
  · intro hs
    exact ⟨fun h r' hp => hs h r' (hp.trans (List.prefix_append ..)), hs rs r List.prefix_rfl⟩
  · rintro ⟨hs, hlast⟩ h r' hp
    rcases List.prefix_concat_iff.1 hp with he | hp
    · obtain ⟨rfl, rfl⟩ := List.append_singleton_inj.1 he
      exact hlast
    · exact hs h r' hp

/-- The longest window decides. -/
theorem rested_day : Rested rs k .day now ↔ ∀ v, Rested rs k v now := by
  refine ⟨fun hr v h r hp hk hno => ?_, fun hr => hr .day⟩
  have h1 := hr h r hp hk hno
  have h2 := v.ms_le_day
  omega

end Snoc

/-! ## What the accepted requests count for -/

/-- The clock readings of a run increase. -/
abbrev Increasing (rs : List Request) : Prop := rs.Pairwise fun r r' => r.now < r'.now

section Accepted

variable {rs h : List Request} {r : Request} {k : String} {v : Span} {now : ℕ}

theorem Increasing.snoc (hc : Increasing (rs ++ [r])) : Increasing rs ∧ ∀ r' ∈ rs, r'.now < r.now :=
  ⟨(List.pairwise_append.1 hc).1, fun r' hr' =>
    (List.pairwise_append.1 hc).2.2 r' hr' r (List.mem_singleton_self r)⟩

/-- A request with a later reading is a new entry. -/
theorem consumed_snoc (hlater : ∀ r' ∈ h, r'.now < r.now) : consumed (h ++ [r]) k v now =
    consumed h k v now + if r.key = k ∧ now < r.now + v.ms then counted r.score else 0 := by
  unfold consumed inWindow
  rw [entries_snoc]
  by_cases hk : r.key = k
  · have hnew : (r.now, r.score) ∉ entries h k := by
      intro hm
      obtain ⟨r', hr', -, he⟩ := mem_entries.1 hm
      exact absurd (hlater r' hr') (by rw [(Prod.mk.inj he).1]; exact lt_irrefl _)
    rw [if_pos hk, Finset.filter_insert]
    by_cases hin : now < r.now + v.ms
    · rw [if_pos hin, if_pos ⟨hk, hin⟩, Finset.sum_insert fun hm => hnew (Finset.mem_filter.1 hm).1,
        Nat.add_comm]
    · rw [if_neg hin, if_neg fun hc => hin hc.2, Nat.add_zero]
  · rw [if_neg hk, if_neg fun hc => hk hc.1, Nat.add_zero]

theorem accepted_snoc (hlater : ∀ r' ∈ rs, r'.now < r.now) [Decidable (Fits rs r)] :
    accepted (rs ++ [r]) = if Fits rs r then accepted rs ++ [r] else accepted rs := by
  unfold accepted
  rw [answers_snoc, serve_answer_eq fun r' hr' => (hlater r' hr').le, List.filter_append, List.map_append]
  split
  · rename_i hf
    have hok := answer_isOk.2 hf
    simp [hok]
  · rename_i hf
    have hno : (answer rs r).isOk = false := Bool.eq_false_iff.2 fun hok => hf (answer_isOk.1 hok)
    simp [hno]

theorem mem_of_accepted (hr : r ∈ accepted rs) : r ∈ rs := by
  obtain ⟨a, ha, rfl⟩ := List.mem_map.1 hr
  rw [← map_fst_answers server rs]
  exact List.mem_map_of_mem (List.mem_filter.1 ha).1

/-- **The accepted requests count for less** than all of them, unless those that did not fit have
left the window. -/
theorem consumed_accepted (hclock : Increasing rs) (hpos : ∀ r ∈ rs, 0 < r.score) (k : String) (v : Span)
    (now : ℕ) :
    consumed (accepted rs) k v now ≤ consumed rs k v now ∧
    (consumed (accepted rs) k v now = consumed rs k v now ↔ Rested rs k v now) := by
  classical
  induction rs using List.reverseRecOn with
  | nil =>
    have hnil : Rested [] k v now := fun h r hp => by simp at hp
    exact ⟨le_rfl, iff_of_true rfl hnil⟩
  | append_singleton rs r ih =>
    obtain ⟨hbefore, hlater⟩ := hclock.snoc
    obtain ⟨hle, hiff⟩ := ih hbefore fun r' hr' => hpos r' (by simp [hr'])
    rw [accepted_snoc hlater, consumed_snoc hlater, rested_snoc, ← hiff]
    split
    · -- accepted: it counts on both sides
      rename_i hf
      rw [consumed_snoc fun r' hr' => hlater r' (mem_of_accepted hr'), Nat.add_right_cancel_iff]
      exact ⟨Nat.add_le_add_right hle _, ⟨fun he => ⟨he, fun _ hno => absurd hf hno⟩, And.left⟩⟩
    · -- rejected: it counts among all requests only
      rename_i hf
      have hscore : 0 < counted r.score := counted_pos (hpos r (by simp))
      by_cases hin : r.key = k ∧ now < r.now + v.ms
      · rw [if_pos hin]
        have hnot : ¬ (r.key = k → ¬ Fits rs r → r.now + v.ms ≤ now) := fun hc => by
          have := hc hin.1 hf
          omega
        refine ⟨by omega, iff_of_false (by omega) fun hc => hnot hc.2⟩
      · rw [if_neg hin, Nat.add_zero]
        refine ⟨hle, ⟨fun he => ⟨he, fun hk _ => ?_⟩, And.left⟩⟩
        exact not_lt.1 fun hlt => hin ⟨hk, hlt⟩

/-- The answers to an accepted request agree if it consumes the same in every window. -/
theorem answer_eq_iff {h' : List Request} (hf : Fits h r) (hf' : Fits h' r) : answer h' r = answer h r ↔
    ∀ v, consumed (h' ++ [r]) r.key v r.now = consumed (h ++ [r]) r.key v r.now := by
  unfold answer
  rw [if_neg (fits_iff.1 hf), if_neg (fits_iff.1 hf'), Except.ok.injEq]
  constructor
  · intro he v
    have hrem := congrArg (fun q : QuotaSummary => (q.of v).remaining) he
    simp only [remaining_summary] at hrem
    exact sub_cast_inj.1 hrem
  · intro he
    rw [funext he]

/-- **One more request that fits** gets the answer it gets without the rejected ones exactly if
a day has passed since them. -/
theorem answer_accepted_iff (hclock : Increasing (rs ++ [r])) (hpos : ∀ r ∈ rs, 0 < r.score)
    (hf : Fits rs r) : answer (accepted rs) r = answer rs r ↔ Rested rs r.key .day r.now := by
  obtain ⟨hbefore, hlater⟩ := hclock.snoc
  have hlater' : ∀ r' ∈ accepted rs, r'.now < r.now := fun r' hr' => hlater r' (mem_of_accepted hr')
  have hall := fun v => consumed_accepted hbefore hpos r.key v r.now
  have hf' : Fits (accepted rs) r := by
    intro v
    refine le_trans (Nat.cast_le.2 ?_) (hf v)
    rw [consumed_snoc hlater, consumed_snoc hlater']
    exact Nat.add_le_add_right (hall v).1 _
  rw [answer_eq_iff hf hf', rested_day]
  refine forall_congr' fun v => ?_
  rw [consumed_snoc hlater, consumed_snoc hlater', Nat.add_right_cancel_iff]
  exact (hall v).2

end Accepted

/-! ## Results -/

section Results

variable {rs h : List Request} {r : Request}

/-- **Every request leaves an entry** that was not there. -/
theorem not_leavesNoTrace (hlater : ∀ r' ∈ h, r'.now < r.now) : ¬ LeavesNoTrace (serveAll server h) r := by
  intro hno
  have hin : entry (r.now, r.score) ∈ (serve (serveAll server h) r).1.zset (setKey r.key .second) := by
    rw [zset_serve, if_pos rfl]
    exact mem_recordedSet.2 (Or.inl rfl)
  obtain ⟨e, he, hee⟩ := (holds_serveAll h).real _ _ _ ((hno .second _).1 hin)
  obtain ⟨r', hr', -, rfl⟩ := mem_entries.1 he
  have hnow := (Prod.mk.inj (entry_injective hee)).1
  have := hlater r' hr'
  omega

theorem answers_accepted_iff (hclock : Increasing rs) (hpos : ∀ r ∈ rs, 0 < r.score) :
    answers server (accepted rs) = (answers server rs).filter (fun a => a.2.isOk) ↔ Spaced rs := by
  classical
  induction rs using List.reverseRecOn with
  | nil => exact iff_of_true rfl fun h r hp => by simp at hp
  | append_singleton rs r ih =>
    obtain ⟨hbefore, hlater⟩ := hclock.snoc
    have hpos' : ∀ r' ∈ rs, 0 < r'.score := fun r' hr' => hpos r' (by simp [hr'])
    have hle : ∀ r' ∈ rs, r'.now ≤ r.now := fun r' hr' => (hlater r' hr').le
    rw [accepted_snoc hlater, spaced_snoc, ← ih hbefore hpos', answers_snoc, serve_answer_eq hle,
      List.filter_append]
    split
    · rename_i hf
      have hok := answer_isOk.2 hf
      rw [answers_snoc, serve_answer_eq fun r' hr' => hle r' (mem_of_accepted hr'),
        ← answer_accepted_iff hclock hpos' hf]
      simp [hok, hf]
    · rename_i hf
      have hno : (answer rs r).isOk = false := Bool.eq_false_iff.2 fun hok => hf (answer_isOk.1 hok)
      simp [hno, hf]

theorem Increasing.of_prefix (hclock : Increasing rs) (hp : h ++ [r] <+: rs) : Increasing (h ++ [r]) :=
  hclock.sublist hp.sublist

/-- **When a rejected request leaves no trace.** The answers of a run are the same without its
rejected requests exactly if no request that fits comes within a day of one of its key that did
not; and every rejected request leaves its sets as they were exactly if there is none. -/
theorem noTrace_iff (hclock : Increasing rs) (hpos : ∀ r ∈ rs, 0 < r.score) :
    (answers server (accepted rs) = (answers server rs).filter (fun a => a.2.isOk) ↔ Spaced rs) ∧
    ((∀ h r, h ++ [r] <+: rs → ¬ (serve (serveAll server h) r).2.isOk →
        LeavesNoTrace (serveAll server h) r) ↔ ∀ h r, h ++ [r] <+: rs → Fits h r) := by
  refine ⟨answers_accepted_iff hclock hpos, ?_⟩
  refine forall_congr' fun h => forall_congr' fun r => forall_congr' fun hp => ?_
  have hlater := (hclock.of_prefix hp).snoc.2
  rw [serve_answer_eq fun r' hr' => (hlater r' hr').le, answer_isOk]
  exact ⟨fun hno => by_contra fun hf => not_leavesNoTrace hlater (hno hf), fun hf hno => absurd hf hno⟩

/-- Three are taken, six are refused, and later one more is taken. -/
def refusedSix : List Request := [requestAt 1000 3, requestAt 1100 6, requestAt 3000 1]

theorem refusedSix_not_spaced : ¬ Spaced refusedSix := by
  intro hs
  have hinc : Increasing refusedSix := by decide
  have hpos : ∀ r ∈ refusedSix, 0 < r.score := by decide
  have hsame := (noTrace_iff hinc hpos).1.2 hs
  exact absurd hsame (by decide +kernel)

/-- **A rejected request leaves a trace**: the last request finds less left in its minute than
without it, and the sets hold an entry they did not. -/
theorem rejected_leaves_trace :
    (answers server refusedSix).map (fun a => a.2.isOk) = [true, false, true] ∧
    answers server (accepted refusedSix) ≠ (answers server refusedSix).filter (fun a => a.2.isOk) ∧
    ¬ LeavesNoTrace (serveAll server [requestAt 1000 3]) (requestAt 1100 6) :=
  ⟨by decide +kernel, by decide +kernel, not_leavesNoTrace (by decide)⟩

end Results

end NodeToolkit.SlidingWindow
