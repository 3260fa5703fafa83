import Mathlib.Data.Nat.Notation
import Mathlib.Tactic.Ring

/-!
# Dates

Time values, the fields of the Gregorian calendar, and the text of an instant, as ECMAScript
defines them. Instants are whole milliseconds since 1970, days whole days.

* `Time`: the instants that a `Date` can hold; a `Date` is an `Option Time`, with `none` for an invalid one.
* `dayFromYear_le`, `lt_dayFromYear`: the year of a day.
* `makeDay_add`: the day made from the fields of another, some days later.
* `ofISOString_toISOString`: the text of an instant is read back as that instant.
-/

namespace NodeToolkit.Date

/-! ## Time values -/

/-- The last instant that a `Date` can hold; the first is its opposite. -/
def maxTime : ℤ := 8640000000000000

/-- **A time value** that a `Date` can hold. -/
structure Time where
  val : ℤ
  lower : -maxTime ≤ val
  upper : val ≤ maxTime
deriving DecidableEq

/-- `TimeClip`. -/
def timeClip (t : ℤ) : Option Time := if h : -maxTime ≤ t ∧ t ≤ maxTime then some ⟨t, h.1, h.2⟩ else none

theorem timeClip_eq_some {t : ℤ} {u : Time} : timeClip t = some u ↔ t = u.val := by
  unfold timeClip
  constructor
  · intro h
    split at h
    · rw [← Option.some.inj h]
    · cases h
  · rintro rfl
    rw [dif_pos ⟨u.lower, u.upper⟩]

def msPerDay : ℤ := 86400000

/-- `Day(t)`. -/
def day (t : ℤ) : ℤ := t / msPerDay

def timeWithinDay (t : ℤ) : ℤ := t % msPerDay

/-- `WeekDay(t)`: 0 is Sunday. -/
def weekDay (t : ℤ) : ℤ := (day t + 4) % 7

def hourFromTime (t : ℤ) : ℤ := t / 3600000 % 24
def minFromTime (t : ℤ) : ℤ := t / 60000 % 60
def secFromTime (t : ℤ) : ℤ := t / 1000 % 60
def msFromTime (t : ℤ) : ℤ := t % 1000

def makeTime (hour min sec ms : ℤ) : ℤ := hour * 3600000 + min * 60000 + sec * 1000 + ms

def makeDate (day time : ℤ) : ℤ := day * msPerDay + time

/-- The time within a day, made from its fields. -/
theorem makeTime_fields (t : ℤ) :
    makeTime (hourFromTime t) (minFromTime t) (secFromTime t) (msFromTime t) = timeWithinDay t := by
  unfold makeTime hourFromTime minFromTime secFromTime msFromTime timeWithinDay msPerDay
  omega

/-- An instant, made from its day and its time. -/
theorem makeDate_fields (t : ℤ) : makeDate (day t) (timeWithinDay t) = t := by
  unfold makeDate day timeWithinDay msPerDay
  omega

/-! ## The calendar -/

/-- The first day of a year. -/
def dayFromYear (y : ℤ) : ℤ := 365 * (y - 1970) + (y - 1969) / 4 - (y - 1901) / 100 + (y - 1601) / 400

/-- The year of a day: the mean length of a year leads to it or to a neighbour. -/
def yearFromDay (d : ℤ) : ℤ :=
  let y := 1970 + 400 * d / 146097
  if d < dayFromYear y then y - 1 else if dayFromYear (y + 1) ≤ d then y + 1 else y

/-- One in a leap year. -/
def leapDay (y : ℤ) : ℤ := dayFromYear (y + 1) - dayFromYear y - 365

/-- The first day of a month of the year, counted from the first of January. -/
def monthStart (y : ℤ) : ℕ → ℤ
  | 0 => 0
  | 1 => 31
  | 2 => 59 + leapDay y
  | 3 => 90 + leapDay y
  | 4 => 120 + leapDay y
  | 5 => 151 + leapDay y
  | 6 => 181 + leapDay y
  | 7 => 212 + leapDay y
  | 8 => 243 + leapDay y
  | 9 => 273 + leapDay y
  | 10 => 304 + leapDay y
  | 11 => 334 + leapDay y
  | _ => 365 + leapDay y

/-- The last month, of those up to `m`, that has started on a day of the year. -/
def lastStarted (y dayOfYear : ℤ) : ℕ → ℕ
  | 0 => 0
  | m + 1 => if monthStart y (m + 1) ≤ dayOfYear then m + 1 else lastStarted y dayOfYear m

/-- The month of a day: 0 is January. -/
def monthFromDay (d : ℤ) : ℕ := lastStarted (yearFromDay d) (d - dayFromYear (yearFromDay d)) 11

/-- The day of the month: 1 is its first. -/
def dateFromDay (d : ℤ) : ℤ :=
  d - dayFromYear (yearFromDay d) - monthStart (yearFromDay d) (monthFromDay d) + 1

/-- `MakeDay`: months and dates beyond their bounds go on into the next year or month. -/
def makeDay (year month date : ℤ) : ℤ :=
  dayFromYear (year + month / 12) + monthStart (year + month / 12) (month % 12).toNat + date - 1

section Calendar

variable {d y : ℤ}

/-- A year has 365 days, or one more. -/
theorem leapDay_cases (y : ℤ) : leapDay y = 0 ∨ leapDay y = 1 := by
  unfold leapDay dayFromYear
  omega

/-- A year starts within three days of where the mean length of a year puts it. -/
theorem dayFromYear_near (y : ℤ) :
    400 * dayFromYear y ≤ 146097 * (y - 1970) + 1200 ∧ 146097 * (y - 1970) ≤ 400 * dayFromYear y + 1200 := by
  unfold dayFromYear
  omega

/-- The year of a day has started. -/
theorem dayFromYear_le (d : ℤ) : dayFromYear (yearFromDay d) ≤ d := by
  unfold yearFromDay
  dsimp only
  split
  · have hnear := dayFromYear_near (1970 + 400 * d / 146097 - 1)
    omega
  · split
    · assumption
    · exact not_lt.1 ‹_›

/-- The year after that has not. -/
theorem lt_dayFromYear (d : ℤ) : d < dayFromYear (yearFromDay d + 1) := by
  unfold yearFromDay
  dsimp only
  split
  · rw [sub_add_cancel]
    assumption
  · split
    · have hnear := dayFromYear_near (1970 + 400 * d / 146097 + 1 + 1)
      omega
    · exact not_le.1 ‹_›

theorem lastStarted_le (y dayOfYear : ℤ) (m : ℕ) : lastStarted y dayOfYear m ≤ m := by
  induction m with
  | zero => exact Nat.le_refl _
  | succ m ih =>
    unfold lastStarted
    split
    · exact Nat.le_refl _
    · exact Nat.le_succ_of_le ih

theorem monthFromDay_lt (d : ℤ) : monthFromDay d < 12 := Nat.lt_succ_of_le (lastStarted_le _ _ 11)

/-- The month has started, and the next one has not. -/
theorem lastStarted_spec {y dayOfYear : ℤ} (h0 : 0 ≤ dayOfYear) : ∀ m, dayOfYear < monthStart y (m + 1) →
    monthStart y (lastStarted y dayOfYear m) ≤ dayOfYear ∧
      dayOfYear < monthStart y (lastStarted y dayOfYear m + 1) := by
  intro m
  induction m with
  | zero => exact fun h => ⟨h0, h⟩
  | succ m ih =>
    intro h
    unfold lastStarted
    split
    · rename_i hstarted
      exact ⟨hstarted, h⟩
    · rename_i hnot
      exact ih (not_le.1 hnot)

/-- A month has at most 31 days. -/
theorem monthStart_succ (y : ℤ) {m : ℕ} (hm : m < 12) : monthStart y (m + 1) ≤ monthStart y m + 31 := by
  have hleap := leapDay_cases y
  match m, hm with
  | 0, _ | 1, _ | 2, _ | 3, _ | 4, _ | 5, _ | 6, _ | 7, _ | 8, _ | 9, _ | 10, _ | 11, _ =>
    simp only [monthStart]
    omega

/-- No month starts before its year. -/
theorem monthStart_nonneg (y : ℤ) {m : ℕ} (hm : m < 12) : 0 ≤ monthStart y m := by
  have hleap := leapDay_cases y
  match m, hm with
  | 0, _ | 1, _ | 2, _ | 3, _ | 4, _ | 5, _ | 6, _ | 7, _ | 8, _ | 9, _ | 10, _ | 11, _ =>
    simp only [monthStart]
    omega

/-- The day of the month is one from 1 to 31. -/
theorem dateFromDay_bounds (d : ℤ) : 1 ≤ dateFromDay d ∧ dateFromDay d ≤ 31 := by
  have hle := dayFromYear_le d
  have hlt := lt_dayFromYear d
  have hyear : d - dayFromYear (yearFromDay d) < monthStart (yearFromDay d) 12 := by
    simp only [monthStart, leapDay]
    omega
  obtain ⟨hstarted, hnext⟩ := lastStarted_spec (y := yearFromDay d) (by omega) 11 hyear
  have hlength := monthStart_succ (yearFromDay d) (monthFromDay_lt d)
  unfold dateFromDay monthFromDay at *
  omega

/-- **The day made from the fields of a day**, some days later. -/
theorem makeDay_add (d k : ℤ) : makeDay (yearFromDay d) (monthFromDay d) (dateFromDay d + k) = d + k := by
  have hm := monthFromDay_lt d
  have hdiv : (monthFromDay d : ℤ) / 12 = 0 := by omega
  have hmod : (monthFromDay d : ℤ) % 12 = monthFromDay d := by omega
  unfold makeDay
  rw [hdiv, hmod, Int.toNat_natCast, add_zero]
  unfold dateFromDay
  ring

/-- No month starts before its year. -/
theorem le_makeDay (y : ℤ) {m : ℕ} (hm : m < 12) (date : ℤ) : dayFromYear y + date - 1 ≤ makeDay y m date := by
  have hstart := monthStart_nonneg y hm
  have hdiv : (m : ℤ) / 12 = 0 := by omega
  have hmod : (m : ℤ) % 12 = m := by omega
  unfold makeDay
  rw [hdiv, hmod, Int.toNat_natCast, add_zero]
  omega

end Calendar

/-! ## The text of an instant -/

/-- The last `width` decimal digits of a number. -/
def digits : ℕ → ℕ → List Char
  | 0, _ => []
  | width + 1, n => Nat.digitChar (n / 10 ^ width % 10) :: digits width n

/-- The number that the next `width` characters write after the digits of `n`, and what follows. -/
def readDigits : ℕ → ℕ → List Char → Option (ℕ × List Char)
  | 0, n, cs => some (n, cs)
  | _ + 1, _, [] => none
  | width + 1, n, c :: cs => if c.isDigit then readDigits width (n * 10 + (c.toNat - 48)) cs else none

/-- Four digits, or a sign and six. -/
def yearText (y : ℤ) : List Char :=
  if 0 ≤ y ∧ y < 10000 then digits 4 y.toNat else (if y < 0 then '-' else '+') :: digits 6 y.natAbs

/-- The fields of an instant, as the format writes them. -/
def isoText (t : ℤ) : String :=
  let d := day t
  String.ofList (yearText (yearFromDay d) ++
    '-' :: (digits 2 (monthFromDay d + 1) ++
    '-' :: (digits 2 (dateFromDay d).toNat ++
    'T' :: (digits 2 (hourFromTime t).toNat ++
    ':' :: (digits 2 (minFromTime t).toNat ++
    ':' :: (digits 2 (secFromTime t).toNat ++
    '.' :: (digits 3 (msFromTime t).toNat ++ ['Z'])))))))

/-- `Date.prototype.toISOString`. -/
def toISOString (t : Time) : String := isoText t.val

example : toISOString ⟨-62167219200001, by decide, by decide⟩ = "-000001-12-31T23:59:59.999Z" := by decide +kernel

def readYear : List Char → Option (ℤ × List Char)
  | '+' :: cs => (readDigits 6 0 cs).map fun r => ((r.1 : ℤ), r.2)
  | '-' :: cs => (readDigits 6 0 cs).bind fun r => if r.1 = 0 then none else some (-(r.1 : ℤ), r.2)
  | cs => (readDigits 4 0 cs).map fun r => ((r.1 : ℤ), r.2)

/-- A separator and a number. -/
def readField (sep : Char) (width : ℕ) : List Char → Option (ℕ × List Char)
  | [] => none
  | c :: cs => if c = sep then readDigits width 0 cs else none

/-- `new Date(text)` of a text in the format of `toISOString`. -/
def ofISOString (text : String) : Option Time := do
  let (year, cs) ← readYear text.toList
  let (month, cs) ← readField '-' 2 cs
  let (date, cs) ← readField '-' 2 cs
  let (hour, cs) ← readField 'T' 2 cs
  let (min, cs) ← readField ':' 2 cs
  let (sec, cs) ← readField ':' 2 cs
  let (ms, cs) ← readField '.' 3 cs
  if cs = ['Z'] ∧ 1 ≤ month ∧ month ≤ 12 ∧ 1 ≤ date ∧ date ≤ 31 ∧ min < 60 ∧ sec < 60 ∧
      (hour < 24 ∨ hour = 24 ∧ min = 0 ∧ sec = 0 ∧ ms = 0) then
    timeClip (makeDate (makeDay year (month - 1) date) (makeTime hour min sec ms))
  else none

section Text

variable {n width : ℕ} {rest : List Char}

theorem digitChar_isDigit : ∀ k < 10, (Nat.digitChar k).isDigit = true ∧ (Nat.digitChar k).toNat - 48 = k := by
  decide

/-- The digits of a number are read back, after what was read before. -/
theorem readDigits_digits (m : ℕ) :
    readDigits width m (digits width n ++ rest) = some (m * 10 ^ width + n % 10 ^ width, rest) := by
  induction width generalizing m with
  | zero => simp [digits, readDigits, Nat.mod_one]
  | succ width ih =>
    obtain ⟨hdigit, hvalue⟩ := digitChar_isDigit (n / 10 ^ width % 10) (Nat.mod_lt _ (by decide))
    rw [digits, List.cons_append, readDigits, if_pos hdigit, hvalue, ih, Nat.mod_pow_succ, pow_succ]
    congr 2
    ring

/-- A field is read back. -/
theorem readField_digits (sep : Char) (hn : n < 10 ^ width) :
    readField sep width (sep :: (digits width n ++ rest)) = some (n, rest) := by
  rw [readField, if_pos rfl, readDigits_digits, Nat.mod_eq_of_lt hn, zero_mul, zero_add]

/-- A year begins with a digit or a sign. -/
theorem readYear_yearText {y : ℤ} (hy : y.natAbs < 10 ^ 6) : readYear (yearText y ++ rest) = some (y, rest) := by
  unfold yearText
  by_cases hplain : 0 ≤ y ∧ y < 10000
  · rw [if_pos hplain]
    have hread : readDigits 4 0 (digits 4 y.toNat ++ rest) = some (0 * 10 ^ 4 + y.toNat % 10 ^ 4, rest) :=
      readDigits_digits 0
    rw [Nat.mod_eq_of_lt (by omega)] at hread
    have hfour : readYear (digits 4 y.toNat ++ rest) =
        (readDigits 4 0 (digits 4 y.toNat ++ rest)).map fun r => ((r.1 : ℤ), r.2) := by
      have hhead := (digitChar_isDigit (y.toNat / 10 ^ 3 % 10) (Nat.mod_lt _ (by decide))).1
      rw [digits, List.cons_append]
      generalize Nat.digitChar (y.toNat / 10 ^ 3 % 10) = c at hhead
      unfold readYear
      split
      · rename_i heq
        rw [(List.cons.inj heq).1] at hhead
        exact absurd hhead (by decide)
      · rename_i heq
        rw [(List.cons.inj heq).1] at hhead
        exact absurd hhead (by decide)
      · rfl
    rw [hfour, hread]
    simp [hplain.1]
  · rw [if_neg hplain, List.cons_append]
    have hread : readDigits 6 0 (digits 6 y.natAbs ++ rest) = some (0 * 10 ^ 6 + y.natAbs % 10 ^ 6, rest) :=
      readDigits_digits 0
    rw [Nat.mod_eq_of_lt hy, zero_mul, zero_add] at hread
    by_cases hneg : y < 0
    · rw [if_pos hneg, readYear, hread, Option.bind_some, if_neg (by omega)]
      congr 2
      omega
    · rw [if_neg hneg, readYear, hread, Option.map_some]
      congr 2
      omega

/-- A `Date` has a year of six digits at most. -/
theorem yearFromDay_natAbs (t : Time) : (yearFromDay (day t.val)).natAbs < 10 ^ 6 := by
  have hnear := dayFromYear_near (yearFromDay (day t.val))
  have hnear' := dayFromYear_near (yearFromDay (day t.val) + 1)
  have hle := dayFromYear_le (day t.val)
  have hlt := lt_dayFromYear (day t.val)
  have hlower := t.lower
  have hupper := t.upper
  generalize yearFromDay (day t.val) = y at *
  generalize dayFromYear y = a at *
  generalize dayFromYear (y + 1) = b at *
  unfold day msPerDay maxTime at *
  omega

/-- **The text of an instant** is read back as that instant. -/
theorem ofISOString_toISOString (t : Time) : ofISOString (toISOString t) = some t := by
  have hmonth := monthFromDay_lt (day t.val)
  obtain ⟨hdate1, hdate31⟩ := dateFromDay_bounds (day t.val)
  have hhour : 0 ≤ hourFromTime t.val ∧ hourFromTime t.val < 24 := by unfold hourFromTime; omega
  have hmin : 0 ≤ minFromTime t.val ∧ minFromTime t.val < 60 := by unfold minFromTime; omega
  have hsec : 0 ≤ secFromTime t.val ∧ secFromTime t.val < 60 := by unfold secFromTime; omega
  have hms : 0 ≤ msFromTime t.val ∧ msFromTime t.val < 1000 := by unfold msFromTime; omega
  unfold ofISOString toISOString isoText
  simp only [String.toList_ofList, readYear_yearText (yearFromDay_natAbs t), Option.bind_eq_bind, Option.bind_some]
  rw [readField_digits '-' (by omega), Option.bind_some, readField_digits '-' (by omega), Option.bind_some,
    readField_digits 'T' (by omega), Option.bind_some, readField_digits ':' (by omega), Option.bind_some,
    readField_digits ':' (by omega), Option.bind_some, readField_digits '.' (by omega), Option.bind_some]
  rw [if_pos ⟨rfl, by omega, by omega, by omega, by omega, by omega, by omega, Or.inl (by omega)⟩, timeClip_eq_some]
  have hday := makeDay_add (day t.val) 0
  rw [add_zero, add_zero] at hday
  rw [Int.toNat_of_nonneg hhour.1, Int.toNat_of_nonneg hmin.1, Int.toNat_of_nonneg hsec.1, Int.toNat_of_nonneg hms.1,
    Int.toNat_of_nonneg (by omega), Nat.cast_succ, add_sub_cancel_right, hday, makeTime_fields, makeDate_fields]

end Text

end NodeToolkit.Date
