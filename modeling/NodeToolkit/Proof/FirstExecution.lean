import NodeToolkit.Spec.JobsScheduler

/-!
# The first execution of a job

What the timeout of a weekly moment comes to.

* `Earliest`: the first instant, not before now, that falls on a weekday at a time.
* `moment_earliest`: the moment that is built from the fields of today, unless it has passed today.
* `first_execution_iff`: the timeout leads to the earliest such instant if and only if it has not
  passed today, apart from two limits of dates. Otherwise the job is due a day later, which is not that
  weekday (`passed_today`).
-/

namespace NodeToolkit.JobsScheduler

open Date

/-- `HH:MM`. -/
def clock (hours minutes : ℕ) : String :=
  String.ofList (digits 2 hours) ++ ':'.toString ++ String.ofList (digits 2 minutes)

/-- The instant falls on the weekday at the time. -/
def Falls (zone : ℤ) (weekday : Day) (hours minutes : ℕ) (t : ℤ) : Prop :=
  weekDay (t + zone) = dayIndex weekday ∧ timeWithinDay (t + zone) = makeTime hours minutes 0 0

/-- **The earliest instant** not before now that does. -/
structure Earliest (zone : ℤ) (weekday : Day) (hours minutes : ℕ) (now t : ℤ) : Prop where
  falls : Falls zone weekday hours minutes t
  notBefore : now ≤ t
  least : ∀ u, Falls zone weekday hours minutes u → now ≤ u → t ≤ u

/-- The time has passed today, and today is the weekday. -/
def PassedToday (zone : ℤ) (weekday : Day) (hours minutes : ℕ) (now : ℤ) : Prop :=
  weekDay (now + zone) = dayIndex weekday ∧ makeTime hours minutes 0 0 < timeWithinDay (now + zone)

/-- The days from today to the next such weekday. -/
def wait (zone : ℤ) (weekday : Day) (now : ℤ) : ℤ := (dayIndex weekday - weekDay (now + zone)) % 7

/-- The weekday and time, in the week that starts today. -/
def moment (zone : ℤ) (weekday : Day) (hours minutes : ℕ) (now : ℤ) : ℤ :=
  makeDate (day (now + zone) + wait zone weekday now) (makeTime hours minutes 0 0) - zone

section Moment

variable {zone now t u : ℤ} {weekday : Day} {hours minutes : ℕ}

theorem dayIndex_bounds (weekday : Day) : 0 ≤ dayIndex weekday ∧ dayIndex weekday < 7 := by
  cases weekday <;> decide

theorem moment_falls (hh : hours < 24) (hm : minutes < 60) :
    Falls zone weekday hours minutes (moment zone weekday hours minutes now) := by
  have hindex := dayIndex_bounds weekday
  unfold Falls moment wait weekDay day timeWithinDay makeDate makeTime msPerDay
  omega

/-- **The moment** is the earliest, unless it has passed today. -/
theorem moment_earliest (hh : hours < 24) (hm : minutes < 60) (hnot : ¬ PassedToday zone weekday hours minutes now) :
    Earliest zone weekday hours minutes now (moment zone weekday hours minutes now) := by
  have hindex := dayIndex_bounds weekday
  refine ⟨moment_falls hh hm, ?_, fun u hu hnow => ?_⟩
  · unfold PassedToday at hnot
    unfold moment wait weekDay day timeWithinDay makeDate makeTime msPerDay at *
    omega
  · unfold Falls at hu
    unfold moment wait weekDay day timeWithinDay makeDate makeTime msPerDay at *
    omega

theorem Earliest.unique (ht : Earliest zone weekday hours minutes now t)
    (hu : Earliest zone weekday hours minutes now u) : t = u :=
  le_antisymm (ht.least u hu.falls hu.notBefore) (hu.least t ht.falls ht.notBefore)

theorem moment_lt (hh : hours < 24) (hm : minutes < 60) :
    moment zone weekday hours minutes now - now < 7 * msPerDay := by
  unfold moment wait weekDay day makeDate makeTime msPerDay
  omega

/-- Whole weeks later it is the same weekday and time. -/
theorem Falls.weekly (h : Falls zone weekday hours minutes t) (k : ℕ) :
    Falls zone weekday hours minutes (t + k * 604800000) := by
  unfold Falls weekDay day timeWithinDay makeTime msPerDay at *
  omega

end Moment

/-! ## What the code computes -/

theorem parseInteger_digits : ∀ n < 60, parseInteger (String.ofList (digits 2 n)) = some (n : ℤ) := by
  decide +kernel

theorem colon_notMem_digits : ∀ n < 60, ':' ∉ digits 2 n := by decide +kernel

section Timeout

variable {zone : ℤ} {now : Time} {frequency : Frequency} {weekday : Day} {hours minutes : ℕ}

theorem parseFirstExecutionTime_clock (hh : hours < 24) (hm : minutes < 60) :
    parseFirstExecutionTime ⟨frequency, some (clock hours minutes), some weekday⟩ =
      some (some (hours : ℤ), some (minutes : ℤ)) := by
  have hparts : split (clock hours minutes) ':' = [String.ofList (digits 2 hours), String.ofList (digits 2 minutes)] := by
    unfold clock
    rw [split_append, split_self]
    · rw [String.toList_ofList]
      exact colon_notMem_digits minutes hm
    · rw [String.toList_ofList]
      exact colon_notMem_digits hours (by omega)
  have hne : clock hours minutes ≠ "" := by
    intro h
    rw [h] at hparts
    simp [split] at hparts
  simp only [parseFirstExecutionTime, if_neg hne, hparts]
  simp [parseInteger_digits hours (by omega), parseInteger_digits minutes hm]

theorem parseFirstExecutionDay_eq (time : Option String) :
    parseFirstExecutionDay zone now ⟨frequency, time, some weekday⟩ = some (wait zone weekday now.val) := by
  have hindex := dayIndex_bounds weekday
  have hday : 0 ≤ getDay zone now ∧ getDay zone now < 7 := by
    unfold getDay weekDay
    omega
  unfold parseFirstExecutionDay wait
  dsimp only
  unfold getDay at *
  split
  · congr 1
    omega
  · split
    · congr 1
      omega
    · congr 1
      omega

/-- The date that the code builds first. -/
def built (zone : ℤ) (weekday : Day) (hours minutes : ℕ) (now : Time) : Option Time :=
  newDate zone (yearFromDay (day (now.val + zone))) (monthFromDay (day (now.val + zone)))
    (dateFromDay (day (now.val + zone)) + wait zone weekday now.val) hours minutes

/-- The timeout, from that date on. -/
theorem timeout_eq (hh : hours < 24) (hm : minutes < 60) :
    calculateFirstExecutionTimeout zone now now ⟨frequency, some (clock hours minutes), some weekday⟩ =
      (built zone weekday hours minutes now).bind fun first =>
        if first.val - now.val < 0 then
          (setHours zone first (hourFromTime (first.val + zone) + 24)).map fun first => first.val - now.val
        else some (first.val - now.val) := by
  unfold calculateFirstExecutionTimeout
  rw [parseFirstExecutionTime_clock hh hm, parseFirstExecutionDay_eq]
  have hdate : (if wait zone weekday now.val ≠ 0 then dateFromDay (day (now.val + zone)) + wait zone weekday now.val
      else dateFromDay (day (now.val + zone))) = dateFromDay (day (now.val + zone)) + wait zone weekday now.val := by
    split
    · rfl
    · omega
  simp only [hdate]
  rw [if_neg (by simp)]
  unfold built
  cases newDate zone (yearFromDay (day (now.val + zone))) (monthFromDay (day (now.val + zone)))
    (dateFromDay (day (now.val + zone)) + wait zone weekday now.val) hours minutes with
  | none => rfl
  | some first => rfl

theorem built_eq (hyear : ¬ (0 ≤ yearFromDay (day (now.val + zone)) ∧ yearFromDay (day (now.val + zone)) ≤ 99)) :
    built zone weekday hours minutes now = timeClip (moment zone weekday hours minutes now.val) := by
  unfold built newDate moment
  rw [if_neg hyear]
  dsimp only
  rw [makeDay_add]

/-- In the years 0 to 99 the date is in another century. -/
theorem built_of_early (hyear : 0 ≤ yearFromDay (day (now.val + zone)) ∧ yearFromDay (day (now.val + zone)) ≤ 99)
    {first : Time} (h : built zone weekday hours minutes now = some first) : 7 * msPerDay ≤ first.val - now.val := by
  unfold built newDate at h
  rw [if_pos hyear, timeClip_eq_some] at h
  have hlt := lt_dayFromYear (day (now.val + zone))
  have hdate := dateFromDay_bounds (day (now.val + zone))
  have hnear := dayFromYear_near (yearFromDay (day (now.val + zone)) + 1)
  have hnear' := dayFromYear_near (1900 + yearFromDay (day (now.val + zone)))
  have hmake := le_makeDay (1900 + yearFromDay (day (now.val + zone))) (monthFromDay_lt (day (now.val + zone)))
    (dateFromDay (day (now.val + zone)) + wait zone weekday now.val)
  have hwait : 0 ≤ wait zone weekday now.val := by
    unfold wait
    omega
  have hwhole := makeDate_fields (now.val + zone)
  have htime : timeWithinDay (now.val + zone) < msPerDay := by
    unfold timeWithinDay msPerDay
    omega
  unfold makeDate makeTime msPerDay at *
  omega

/-- `setHours(getHours() + 24)`. -/
theorem setHours_next_day (date : Time) :
    setHours zone date (hourFromTime (date.val + zone) + 24) = timeClip (date.val + msPerDay) := by
  unfold setHours
  dsimp only
  congr 1
  have hfields := makeTime_fields (date.val + zone)
  have hwhole := makeDate_fields (date.val + zone)
  unfold makeDate makeTime msPerDay at *
  omega

/-- What a timeout leads to is an instant that a date can hold. -/
theorem timeout_valid (hh : hours < 24) (hm : minutes < 60) {delay : ℤ}
    (h : calculateFirstExecutionTimeout zone now now ⟨frequency, some (clock hours minutes), some weekday⟩ =
      some delay) : ∃ t : Time, now.val + delay = t.val := by
  rw [timeout_eq hh hm] at h
  obtain ⟨first, -, h⟩ := Option.bind_eq_some_iff.1 h
  split at h
  · obtain ⟨later, -, rfl⟩ := Option.map_eq_some_iff.1 h
    exact ⟨later, by ring⟩
  · obtain rfl := Option.some.inj h
    exact ⟨first, by ring⟩

/-- **What the timeout of a rhythm should be**: the delay to the earliest moment, less than a week; and
with a weekly frequency every run falls on the weekday at the time. -/
def Punctual (zone : ℤ) (now : Time) (frequency : Frequency) (weekday : Day) (hours minutes : ℕ) : Prop :=
  ∃ delay, calculateFirstExecutionTimeout zone now now ⟨frequency, some (clock hours minutes), some weekday⟩ =
      some delay ∧
    Earliest zone weekday hours minutes now.val (now.val + delay) ∧ 0 ≤ delay ∧ delay < 7 * msPerDay ∧
    (frequency = .everyWeek → ∀ k, ∃ t,
      (parseRhythm zone now now ⟨frequency, some (clock hours minutes), some weekday⟩).run now k = some t ∧
      Falls zone weekday hours minutes t)

theorem punctual_of_timeout {delay : ℤ} (hdelay : delay < 7 * msPerDay)
    (h : calculateFirstExecutionTimeout zone now now ⟨frequency, some (clock hours minutes), some weekday⟩ =
      some delay) (he : Earliest zone weekday hours minutes now.val (now.val + delay)) :
    Punctual zone now frequency weekday hours minutes := by
  have hnow := he.notBefore
  refine ⟨delay, h, he, by omega, hdelay, ?_⟩
  rintro rfl k
  exact ⟨now.val + delay + k * 604800000, by simp only [Timers.run, parseRhythm, h]; rfl, he.falls.weekly k⟩

/-- **The first execution** is the earliest matching moment if and only if that moment has not passed
today (and today is not in the years 0 to 99, and a date can hold the moment). -/
theorem first_execution_iff (zone : ℤ) (now : Time) (frequency : Frequency) (weekday : Day) (hh : hours < 24)
    (hm : minutes < 60) : Punctual zone now frequency weekday hours minutes ↔
      ¬ PassedToday zone weekday hours minutes now.val ∧
      ¬ (0 ≤ yearFromDay (day (now.val + zone)) ∧ yearFromDay (day (now.val + zone)) ≤ 99) ∧
      ∃ t : Time, Earliest zone weekday hours minutes now.val t.val := by
  constructor
  · rintro ⟨delay, htimeout, hearliest, -, hweek, -⟩
    obtain ⟨t, ht⟩ := timeout_valid hh hm htimeout
    rw [timeout_eq hh hm] at htimeout
    obtain ⟨first, hbuilt, hrest⟩ := Option.bind_eq_some_iff.1 htimeout
    have hyear : ¬ (0 ≤ yearFromDay (day (now.val + zone)) ∧ yearFromDay (day (now.val + zone)) ≤ 99) := by
      intro hearly
      have hfar := built_of_early hearly hbuilt
      unfold msPerDay at *
      rw [if_neg (by omega)] at hrest
      obtain rfl := Option.some.inj hrest
      omega
    refine ⟨fun hpassed => ?_, hyear, t, ht ▸ hearliest⟩
    -- a day after today, which is the weekday, it is another one
    rw [built_eq hyear, timeClip_eq_some] at hbuilt
    have hbefore : first.val - now.val < 0 := by
      rw [← hbuilt]
      unfold PassedToday moment wait weekDay day timeWithinDay makeDate makeTime msPerDay at *
      omega
    rw [if_pos hbefore, setHours_next_day] at hrest
    obtain ⟨later, hlater, rfl⟩ := Option.map_eq_some_iff.1 hrest
    rw [timeClip_eq_some] at hlater
    have hfalls := hearliest.falls.1
    have hmoment : Falls zone weekday hours minutes (moment zone weekday hours minutes now.val) := moment_falls hh hm
    have htoday := hmoment.1
    rw [hbuilt] at htoday
    unfold weekDay day msPerDay at *
    omega
  · rintro ⟨hnot, hyear, t, ht⟩
    have hmoment := moment_earliest hh hm hnot
    have hbuilt : built zone weekday hours minutes now = some t := by
      rw [built_eq hyear, timeClip_eq_some]
      exact hmoment.unique ht
    have htimeout : calculateFirstExecutionTimeout zone now now
        ⟨frequency, some (clock hours minutes), some weekday⟩ = some (t.val - now.val) := by
      have hnow := ht.notBefore
      rw [timeout_eq hh hm, hbuilt, Option.bind_some, if_neg (by omega)]
    refine punctual_of_timeout ?_ htimeout ?_
    · rw [← hmoment.unique ht]
      exact moment_lt hh hm
    · rw [add_sub_cancel]
      exact ht

/-- A Thursday at noon. -/
def thursday : Time := ⟨1709208000000, by decide, by decide⟩

theorem first_execution_thursday : Punctual 0 thursday .everyWeek .friday 1 0 ∧
    calculateFirstExecutionTimeout 0 thursday thursday BackupScheduledJob.rhythm = some 46800000 :=
  ⟨(first_execution_iff 0 thursday .everyWeek .friday (by decide) (by decide)).2
    ⟨by unfold PassedToday; decide, by decide, ⟨1709254800000, by decide, by decide⟩,
      moment_earliest (by decide) (by decide) (by unfold PassedToday; decide)⟩, by decide +kernel⟩

/-- **On a Friday at noon** the backup is due at one o'clock on Saturday, and every week then. -/
theorem passed_today :
    let friday : Time := ⟨1709294400000, by decide, by decide⟩
    calculateFirstExecutionTimeout 0 friday friday BackupScheduledJob.rhythm = some 46800000 ∧
    Falls 0 .saturday 1 0 (friday.val + 46800000) ∧ ¬ Falls 0 .friday 1 0 (friday.val + 46800000) ∧
    ((parseRhythm 0 friday friday BackupScheduledJob.rhythm).run friday 1).map (fun t => weekDay t) = some 6 := by
  intro friday
  refine ⟨by decide +kernel, by unfold Falls; decide +kernel, by unfold Falls; decide +kernel, by decide +kernel⟩

end Timeout

end NodeToolkit.JobsScheduler
