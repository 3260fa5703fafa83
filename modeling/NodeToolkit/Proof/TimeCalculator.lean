import NodeToolkit.Spec.TimeCalculator
import Mathlib.Tactic.Linarith
import Mathlib.Tactic.Ring

/-!
# Whether the units of the time calculator agree

A chain of calls leaves in each field the sum of the amounts of its unit (`chain_eq`), so the order of the
calls does not matter. Milliseconds, seconds and minutes are multiples of each other for every chain. Hours
are not: `inHours` counts a year as the minutes of its formula (`inMilliseconds_sub_inHours`).

* `agree_iff`: the units agree if and only if the amounts of years sum to zero.
-/

namespace NodeToolkit.TimeCalculator

variable {calls calls' : List UnitCall} (t : TimeCalculator)

/-- The sum of the amounts of a unit. -/
def total (unit : TimeUnit) (calls : List UnitCall) : ℚ :=
  ((calls.filter fun call => call.unit = unit).map UnitCall.val).sum

theorem total_cons (unit : TimeUnit) (call : UnitCall) (calls : List UnitCall) :
    total unit (call :: calls) = (if call.unit = unit then call.val else 0) + total unit calls := by
  unfold total
  by_cases h : call.unit = unit
  · simp [h]
  · simp [h]

theorem total_perm (h : calls'.Perm calls) (unit : TimeUnit) : total unit calls' = total unit calls :=
  ((h.filter _).map _).sum_eq

theorem foldl_run (calls : List UnitCall) : ∀ t : TimeCalculator, calls.foldl UnitCall.run t =
    { _years := t._years + total .years calls
      _months := t._months + total .months calls
      _weeks := t._weeks + total .weeks calls
      _days := t._days + total .days calls
      _hours := t._hours + total .hours calls
      _minutes := t._minutes + total .minutes calls
      _seconds := t._seconds + total .seconds calls
      _milliseconds := t._milliseconds + total .milliseconds calls } := by
  induction calls with
  | nil => simp [total]
  | cons call calls ih =>
    intro t
    obtain ⟨unit, val⟩ := call
    rw [List.foldl_cons, ih]
    cases unit <;>
      simp [UnitCall.run, total_cons, years, months, weeks, days, hours, minutes, seconds, milliseconds, add_assoc]

/-- **What a chain of calls leaves**: the sum of the amounts of each unit. -/
theorem chain_eq (calls : List UnitCall) : chain calls =
    ⟨total .years calls, total .months calls, total .weeks calls, total .days calls, total .hours calls,
      total .minutes calls, total .seconds calls, total .milliseconds calls⟩ := by
  rw [chain, foldl_run]
  simp [Instance]

/-- **The order of the calls does not matter.** -/
theorem chain_perm (h : calls'.Perm calls) : chain calls' = chain calls := by
  simp only [chain_eq, total_perm h]

theorem inMilliseconds_eq_inSeconds : t.inMilliseconds none = 1000 * t.inSeconds none := by
  unfold inMilliseconds inSeconds rounded
  ring

theorem inMilliseconds_eq_inMinutes : t.inMilliseconds none = 60000 * t.inMinutes none := by
  unfold inMilliseconds inMinutes rounded
  ring

/-- **The slip**: to `inHours`, a year has 60 times its hours. -/
theorem inMilliseconds_sub_inHours :
    t.inMilliseconds none - 3600000 * t.inHours none = -(59 * 12 * 30 * 24 * 3600000) * t._years := by
  unfold inMilliseconds inHours rounded
  ring

/-- **What is asked of a chain of calls.** -/
structure Agree (calls : List UnitCall) : Prop where
  seconds : (chain calls).inMilliseconds none = 1000 * (chain calls).inSeconds none
  minutes : (chain calls).inMilliseconds none = 60000 * (chain calls).inMinutes none
  hours : (chain calls).inMilliseconds none = 3600000 * (chain calls).inHours none
  order : ∀ calls' : List UnitCall, calls'.Perm calls →
    (chain calls').inMilliseconds none = (chain calls).inMilliseconds none ∧
      (chain calls').inSeconds none = (chain calls).inSeconds none ∧
      (chain calls').inMinutes none = (chain calls).inMinutes none ∧
      (chain calls').inHours none = (chain calls).inHours none

/-- **When the units agree.** -/
theorem agree_iff (calls : List UnitCall) : Agree calls ↔ total .years calls = 0 := by
  have hslip := inMilliseconds_sub_inHours (chain calls)
  have hyears : (chain calls)._years = total .years calls := by rw [chain_eq]
  rw [hyears] at hslip
  constructor
  · intro h
    have hhours := h.hours
    linarith
  · intro hzero
    refine ⟨inMilliseconds_eq_inSeconds _, inMilliseconds_eq_inMinutes _, ?_, fun calls' hperm => ?_⟩
    · rw [hzero] at hslip
      linarith
    · rw [chain_perm hperm]
      exact ⟨rfl, rfl, rfl, rfl⟩

/-- A year is 518400 hours to `inHours`, and 360 days to the others. -/
theorem one_year : ¬ Agree [⟨.years, 1⟩] ∧ (chain [⟨.years, 1⟩]).inHours none = 518400 ∧
    (chain [⟨.years, 1⟩]).inMinutes none = 518400 := by
  have hinHours : (chain [⟨.years, 1⟩]).inHours none = 518400 := by decide +kernel
  have hinMinutes : (chain [⟨.years, 1⟩]).inMinutes none = 518400 := by decide +kernel
  refine ⟨fun h => ?_, hinHours, hinMinutes⟩
  have heq := h.minutes.symm.trans h.hours
  rw [hinHours, hinMinutes] at heq
  norm_num at heq

end NodeToolkit.TimeCalculator
