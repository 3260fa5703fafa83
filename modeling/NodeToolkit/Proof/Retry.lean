import NodeToolkit.Spec.Retry

/-!
# How long `retry` goes on

`retry` counts down and stops at 1 exactly, with numbers of double precision.

* `retry_course`: a run calls the function until its first success, or stops before.
* `Endless`, `retry_endless`: from most numbers 1 is never met, and only a success ends the run.
* `retry_countdown`: from an integer that counts down exactly, the run ends in time.
* `Settles`, `settles_iff`: when a run keeps to its budget.
-/

namespace NodeToolkit.Retrying

variable {ε α β : Type} {fn : ℕ → Except ε α} {fuel k n : ℕ} {options : Option Options} {run : Run ε α}

/-! ## One call -/

/-- The number to count down from. -/
def count (options : Option Options) : Double := (options.getD ⟨none, none⟩).retries.getD (.nearest 3)

def delayOf (options : Option Options) : Double := (options.getD ⟨none, none⟩).delay.getD (.nearest 1000)

/-- The options after a failure. -/
def again (options : Option Options) : Option Options := some ⟨some (count options - .nearest 1), some (delayOf options)⟩

theorem count_again : count (again options) = count options - .nearest 1 := rfl

theorem one_val : (Double.nearest 1).val = .finite 1 := by
  have hone : Representable ((1 : ℤ) : ℚ) := representable_intCast (by norm_num)
  rw [Int.cast_one] at hone
  exact Double.nearest_of_representable hone

theorem last_iff : (count options).val.strictEqual (.finite 1) = true ↔ (count options).val = .finite 1 := by
  simp only [Number.strictEqual, decide_eq_true_eq, and_iff_right_iff_imp]
  intro h
  rw [h]
  simp

/-- The last call, or one that succeeds. -/
theorem retry_ends (h : (count options).val = .finite 1 ∨ ∃ a, fn k = .ok a) :
    retry fn (fuel + 1) k options = some ⟨[.call], fn k⟩ := by
  rw [retry]
  split
  · rfl
  · rename_i hlast
    obtain ⟨a, ha⟩ := h.resolve_left (mt last_iff.2 hlast)
    rw [ha]

/-- Any other call. -/
theorem retry_again (hcount : (count options).val ≠ .finite 1) {e : ε} (he : fn k = .error e) :
    retry fn (fuel + 1) k options = (retry fn fuel (k + 1) (again options)).map fun run =>
      ⟨.call :: .wait (delayOf options) :: run.actions, run.result⟩ := by
  rw [retry]
  split
  · rename_i hlast
    exact absurd (last_iff.1 hlast) hcount
  · rw [he]
    rfl

/-- One of the two. -/
theorem ends_or_again (fn : ℕ → Except ε α) (k : ℕ) (options : Option Options) :
    ((count options).val = .finite 1 ∨ ∃ a, fn k = .ok a) ∨
      (count options).val ≠ .finite 1 ∧ ∃ e, fn k = .error e := by
  by_cases hlast : (count options).val = .finite 1
  · exact .inl (.inl hlast)
  · cases hfn : fn k with
    | ok a => exact .inl (.inr ⟨a, rfl⟩)
    | error e => exact .inr ⟨hlast, e, rfl⟩

/-! ## The calls of a run -/

def Action.isCall : Action → Bool
  | call => true
  | wait _ => false

/-- The number of calls. -/
def Run.calls (run : Run ε α) : ℕ := run.actions.countP Action.isCall

theorem calls_again (milliseconds : Double) : (⟨.call :: .wait milliseconds :: run.actions, run.result⟩ :
    Run ε α).calls = run.calls + 1 := by
  rw [Run.calls, List.countP_cons_of_pos rfl, List.countP_cons_of_neg Bool.false_ne_true, Run.calls]

/-- **The course of a run**: it makes `n + 1` calls, of which all but the last fail, and settles as the last
one does. -/
def Course (fn : ℕ → Except ε α) (k n : ℕ) (run : Run ε α) : Prop :=
  run.calls = n + 1 ∧ run.result = fn (k + n) ∧ ∀ i < n, ∃ e, fn (k + i) = .error e

/-- **Every run** that comes to an end has such a course. -/
theorem retry_course (h : retry fn fuel k options = some run) : ∃ n < fuel, Course fn k n run := by
  induction fuel generalizing k options run with
  | zero => cases h
  | succ fuel ih =>
    rcases ends_or_again fn k options with hends | ⟨hcount, e, he⟩
    · rw [retry_ends hends, Option.some.injEq] at h
      rw [← h]
      exact ⟨0, by omega, rfl, rfl, by omega⟩
    · rw [retry_again hcount he] at h
      obtain ⟨rest, hrest, rfl⟩ := Option.map_eq_some_iff.1 h
      obtain ⟨n, hlt, hcalls, hresult, hfail⟩ := ih hrest
      -- the course of the rest, with the failure before it
      refine ⟨n + 1, by omega, ?_, ?_, fun i hi => ?_⟩
      · rw [calls_again, hcalls]
      · rw [hresult, Nat.add_right_comm, Nat.add_assoc]
      · cases i with
        | zero => exact ⟨e, he⟩
        | succ i =>
          obtain ⟨e', he'⟩ := hfail i (by omega)
          exact ⟨e', by rw [← he', Nat.add_right_comm, Nat.add_assoc]⟩

/-- A success ends the run. -/
theorem retry_success {a : α} (h : fn (k + n) = .ok a) : ∃ run, retry fn (n + 1) k options = some run := by
  induction n generalizing k options with
  | zero => exact ⟨_, retry_ends (.inr ⟨a, h⟩)⟩
  | succ n ih =>
    rcases ends_or_again fn k options with hends | ⟨hcount, e, he⟩
    · exact ⟨_, retry_ends hends⟩
    · have hnext : fn (k + 1 + n) = .ok a := by rw [← h, Nat.add_right_comm, Nat.add_assoc]
      obtain ⟨run, hrun⟩ := @ih (k + 1) (again options) hnext
      rw [retry_again hcount he, hrun]
      exact ⟨_, rfl⟩

/-! ## Counting down -/

/-- An integer up to `2^53` counts down exactly. -/
theorem sub_one_integer {x : Double} (hx : x.val = .finite (n + 1 : ℕ)) (hn : n + 1 ≤ 2 ^ 53) :
    (x - .nearest 1).val = .finite (n : ℕ) := by
  have hdiff : ((n + 1 : ℕ) : ℚ) - 1 = ((n : ℤ) : ℚ) := by
    push_cast
    ring
  have hrep : Representable (((n + 1 : ℕ) : ℚ) - 1) := by
    rw [hdiff]
    apply representable_intCast
    rw [abs_of_nonneg (by omega)]
    omega
  rw [Double.sub_exact hx one_val hrep, hdiff]
  simp

/-- **From an integer** up to `2^53`, the run ends after as many calls. -/
theorem retry_countdown (hn : n + 1 ≤ 2 ^ 53) (hcount : (count options).val = .finite (n + 1 : ℕ)) :
    ∃ run, retry fn (n + 1) k options = some run := by
  induction n generalizing k options with
  | zero =>
    refine ⟨_, retry_ends (.inl ?_)⟩
    rw [hcount]
    norm_num
  | succ n ih =>
    rcases ends_or_again fn k options with hends | ⟨hlast, e, he⟩
    · exact ⟨_, retry_ends hends⟩
    · have hnext : (count (again options)).val = .finite (n + 1 : ℕ) := sub_one_integer hcount hn
      obtain ⟨run, hrun⟩ := @ih (k + 1) (again options) (by omega) hnext
      rw [retry_again hlast he, hrun]
      exact ⟨_, rfl⟩

/-- Above, there is one number that comes to `2^53`. -/
theorem retry_countdown_succ (hcount : (count options).val = .finite (2 ^ 53 + 2 : ℕ)) :
    ∃ run, retry fn (2 ^ 53 + 1) k options = some run := by
  rcases ends_or_again fn k options with hends | ⟨hlast, e, he⟩
  · exact ⟨_, retry_ends hends⟩
  · have hdiff : ((2 ^ 53 + 2 : ℕ) : ℚ) - 1 = 2 ^ 53 + 1 := by norm_num
    have hfits : |rounded (2 ^ 53 + 1)| < 2 ^ 1024 := by
      rw [rounded_succ, abs_of_pos (by positivity)]
      exact pow_lt_pow_right₀ one_lt_two (by norm_num)
    have hnext : (count (again options)).val = .finite (2 ^ 53 : ℕ) := by
      rw [count_again, Double.sub_finite hcount one_val, hdiff, Double.nearest_of_lt hfits, rounded_succ]
      norm_num
    have hpred : 2 ^ 53 = 2 ^ 53 - 1 + 1 := by norm_num
    rw [hpred] at hnext ⊢
    obtain ⟨run, hrun⟩ := @retry_countdown _ _ fn (k + 1) (2 ^ 53 - 1) (again options) (by norm_num) hnext
    rw [retry_again hlast he, hrun]
    exact ⟨_, rfl⟩

/-! ## Missing 1 -/

/-- **Numbers that never come to 1.** -/
def Endless : Number → Prop
  | .finite x => x < 1 ∨ (∀ n : ℤ, x ≠ n) ∨ 2 ^ 53 + 4 ≤ x
  | _ => True

theorem ne_one_of_endless {x : Number} (h : Endless x) : x ≠ .finite 1 := by
  rintro rfl
  rcases h with h | h | h
  · exact lt_irrefl _ h
  · exact h 1 (by norm_num)
  · norm_num at h

/-- Below 1, the difference is not positive. -/
theorem endless_of_lt_one {x : Double} {a : ℚ} (ha : x.val = .finite a) (hlow : a < 1) :
    Endless (x - .nearest 1).val := by
  have hneg : a - 1 ≤ 0 := by linarith
  rw [Double.sub_finite ha one_val]
  rcases Double.nearest_cases (a - 1) with hval | ⟨hpos, -⟩ | ⟨-, hval⟩
  · have hround := rounded_nonpos hneg
    rw [hval]
    exact .inl (by linarith)
  · linarith
  · rw [hval]
    trivial

/-- **They stay such numbers.** -/
theorem endless_sub_one {x : Double} (h : Endless x.val) : Endless (x - .nearest 1).val := by
  by_cases hfinite : ∃ a, x.val = .finite a
  · obtain ⟨a, ha⟩ := hfinite
    rw [ha] at h
    rcases h with hlow | hfraction | hlarge
    · exact endless_of_lt_one ha hlow
    · rcases lt_or_ge a 1 with hlow | hone
      · exact endless_of_lt_one ha hlow
      · -- a fraction stays one: the difference is exact
        have hrep := representable_sub_one (x.representable a ha) hone hfraction
        rw [Double.sub_exact ha one_val hrep]
        refine .inr (.inl fun n hn => hfraction (n + 1) ?_)
        push_cast
        linarith
    · -- a large number does not come below 2^53 + 4
      rw [Double.sub_finite ha one_val]
      rcases Double.nearest_cases (a - 1) with hval | ⟨-, hval⟩ | ⟨hneg, -⟩
      · rw [hval]
        exact .inr (.inr (le_rounded_sub_one hlarge))
      · rw [hval]
        trivial
      · linarith
  · rw [Double.sub_val_of_not_finite (fun a ha => hfinite ⟨a, ha⟩) one_val]
    exact h

/-- Then only a success ends the run. -/
theorem retry_endless (hcount : Endless (count options).val) (h : retry fn fuel k options = some run) :
    ∃ a, run.result = .ok a := by
  induction fuel generalizing k options run with
  | zero => cases h
  | succ fuel ih =>
    rcases ends_or_again fn k options with (hlast | ⟨a, ha⟩) | ⟨hlast, e, he⟩
    · exact absurd hlast (ne_one_of_endless hcount)
    · rw [retry_ends (.inr ⟨a, ha⟩), Option.some.injEq] at h
      rw [← h]
      exact ⟨a, ha⟩
    · rw [retry_again hlast he] at h
      obtain ⟨rest, hrest, rfl⟩ := Option.map_eq_some_iff.1 h
      exact @ih (k + 1) (again options) rest (endless_sub_one hcount) hrest

/-! ## The budget -/

/-- The integers that count down to 1: those up to `2^53`, and one above. -/
def CountsDown (x : Number) : Prop := ∃ n : ℕ, x = .finite n ∧ 1 ≤ n ∧ (n ≤ 2 ^ 53 ∨ n = 2 ^ 53 + 2)

/-- **Each number does the one or the other.** -/
theorem endless_of_not_countsDown {x : Double} (h : ¬ CountsDown x.val) : Endless x.val := by
  cases hval : x.val with
  | finite a =>
    by_contra hno
    simp only [Endless, not_or, not_lt, not_forall, not_not, not_le] at hno
    obtain ⟨hone, ⟨n, rfl⟩, hlarge⟩ := hno
    have hn : 1 ≤ n := by exact_mod_cast hone
    have hlt : n < 2 ^ 53 + 4 := by exact_mod_cast hlarge
    refine h ⟨n.toNat, ?_, by omega, ?_⟩
    · have hcast : ((n.toNat : ℕ) : ℚ) = n := by exact_mod_cast Int.toNat_of_nonneg (by omega : 0 ≤ n)
      rw [hval, hcast]
    · by_cases hle : n ≤ 2 ^ 53
      · exact .inl (by omega)
      · -- above 2^53 there are even numbers only
        have heven := even_of_representable (by omega) (x.representable n hval)
        obtain ⟨m, hm⟩ := heven
        exact .inr (by omega)
  | nan => trivial
  | infinity => trivial
  | negInfinity => trivial

/-- `n` calls are at most `max(1, retries)`. -/
def Within (n : ℕ) : Number → Prop
  | .finite x => n ≤ 1 ∨ (n : ℚ) ≤ x
  | .infinity => True
  | .nan | .negInfinity => n ≤ 1

theorem Within.mono {m : ℕ} {x : Number} (hle : m ≤ n) (h : Within n x) : Within m x := by
  cases x with
  | finite x =>
    have hcast : (m : ℚ) ≤ n := by exact_mod_cast hle
    exact h.imp (fun h => by omega) fun h => by linarith
  | infinity => trivial
  | nan => exact hle.trans h
  | negInfinity => exact hle.trans h

/-- **What is asked of `retry`**: it stops after calls within the budget, resolves with the first success,
and otherwise rejects with the error of the last call. -/
def Settles (runs : ℕ → Option (Run ε α)) (fn : ℕ → Except ε α) (retries : Number) : Prop :=
  ∃ fuel run n, runs fuel = some run ∧ Course fn 0 n run ∧ Within (n + 1) retries

theorem retry_settles_iff (fn : ℕ → Except ε α) (options : Option Options) :
    Settles (fun fuel => retry fn fuel 0 options) fn (count options).val ↔
      CountsDown (count options).val ∨ ∃ k a, Within (k + 1) (count options).val ∧ fn k = .ok a := by
  constructor
  · rintro ⟨fuel, run, n, hrun, ⟨-, hresult, -⟩, hwithin⟩
    by_cases hcounts : CountsDown (count options).val
    · exact .inl hcounts
    · -- the run has ended with a success, its last call
      obtain ⟨a, ha⟩ := retry_endless (endless_of_not_countsDown hcounts) hrun
      refine .inr ⟨n, a, hwithin, ?_⟩
      rw [← ha, hresult, Nat.zero_add]
  · rintro (⟨n, hn, hone, hle⟩ | ⟨k, a, hwithin, ha⟩)
    · obtain ⟨fuel, run, hfuel, hrun⟩ : ∃ fuel run, fuel ≤ n ∧ retry fn fuel 0 options = some run := by
        rcases hle with hle | rfl
        · obtain ⟨m, rfl⟩ : ∃ m, n = m + 1 := ⟨n - 1, by omega⟩
          obtain ⟨run, hrun⟩ := @retry_countdown _ _ fn 0 m options hle hn
          exact ⟨m + 1, run, le_rfl, hrun⟩
        · obtain ⟨run, hrun⟩ := @retry_countdown_succ _ _ fn 0 options hn
          exact ⟨2 ^ 53 + 1, run, by omega, hrun⟩
      obtain ⟨m, hlt, hcourse⟩ := retry_course hrun
      refine ⟨fuel, run, m, hrun, hcourse, ?_⟩
      rw [hn]
      exact .inr (by exact_mod_cast (by omega : m + 1 ≤ n))
    · obtain ⟨run, hrun⟩ := @retry_success _ _ fn 0 k options a (by rwa [Nat.zero_add])
      obtain ⟨m, hlt, hcourse⟩ := retry_course hrun
      exact ⟨k + 1, run, m, hrun, hcourse, hwithin.mono (by omega)⟩

/-- **When `retry` keeps to its budget**, and the decorator in the same way. -/
theorem settles_iff (retries : Double) (delay : Option Double) :
    (∀ fn : ℕ → Except ε α, Settles (fun fuel => retry fn fuel 0 (some ⟨some retries, delay⟩)) fn retries.val ↔
      CountsDown retries.val ∨ ∃ k a, Within (k + 1) retries.val ∧ fn k = .ok a) ∧
    ∀ (originalMethod : β → ℕ → Invocation ε α) (args : β),
      Settles (Retry (some ⟨some retries, delay⟩) originalMethod args)
        (fun k => (originalMethod args k).settled) retries.val ↔
      CountsDown retries.val ∨ ∃ k a, Within (k + 1) retries.val ∧ (originalMethod args k).settled = .ok a :=
  ⟨fun fn => retry_settles_iff fn (some ⟨some retries, delay⟩),
    fun originalMethod args => retry_settles_iff (fun k => (originalMethod args k).settled)
      (some ⟨some retries, delay⟩)⟩

/-- **No retries**: a function that always fails is called for ever. -/
theorem zero_retries : ¬ Settles (fun fuel => retry (fun _ => (.error "failed" : Except String Unit)) fuel 0
    (some ⟨some (.nearest 0), none⟩)) (fun _ => .error "failed") (Double.nearest 0).val := by
  have hzero : (Double.nearest 0).val = .finite 0 :=
    Double.nearest_of_representable ⟨0, 0, by norm_num, by norm_num, by norm_num, by norm_num⟩
  rintro ⟨fuel, run, n, hrun, ⟨-, hresult, -⟩, -⟩
  have hendless : Endless (count (some ⟨some (.nearest 0), none⟩)).val := by
    show Endless (Double.nearest 0).val
    rw [hzero]
    exact .inl one_pos
  obtain ⟨a, ha⟩ := retry_endless hendless hrun
  rw [hresult] at ha
  cases ha

end NodeToolkit.Retrying
