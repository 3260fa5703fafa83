import NodeToolkit.Base.Date
import NodeToolkit.Base.JsonParse
import NodeToolkit.Base.Text

/-!
# The jobs scheduler in memory

`InMemoryJobsScheduler`: when the runs of a job are due. Days are taken to have 24 hours, so local
time is always `zone` milliseconds ahead of UTC. A number that is `NaN` is `none`.
-/

namespace NodeToolkit.JobsScheduler

open Date

inductive Day where
  | saturday
  | sunday
  | monday
  | tuesday
  | wednesday
  | thursday
  | friday
deriving DecidableEq

inductive Frequency where
  | everyMinute
  | everyHour
  | everyDay
  | everyWeek
  | custom (interval : String)
deriving DecidableEq

structure Rhythm where
  frequency : Frequency
  firstExecutionTime : Option String
  firstExecutionDay : Option Day
deriving DecidableEq

/-! ## `parseInt` -/

def decimalValue (c : Char) : Option ℕ := if c.isDigit then some (c.toNat - 48) else none

/-- The number that the leading digits write, after those of `n`. -/
def leadingNumber (value : Char → Option ℕ) (radix : ℕ) : Option ℕ → List Char → Option ℕ
  | n, [] => n
  | n, c :: cs =>
    match value c with
    | none => n
    | some digit => leadingNumber value radix (some (n.getD 0 * radix + digit)) cs

def unsignedNumber : List Char → Option ℕ
  | '0' :: 'x' :: cs => leadingNumber Json.hexValue 16 none cs
  | '0' :: 'X' :: cs => leadingNumber Json.hexValue 16 none cs
  | cs => leadingNumber decimalValue 10 none cs

/-- `parseInt(text)`. -/
def parseInteger (text : String) : Option ℤ :=
  match text.toList.dropWhile Char.isWhitespace with
  | '-' :: cs => (unsignedNumber cs).map fun n => -(n : ℤ)
  | '+' :: cs => (unsignedNumber cs).map fun n => (n : ℤ)
  | cs => (unsignedNumber cs).map fun n => (n : ℤ)

/-! ## Dates in local time -/

/-- `date.getDay()`. -/
def getDay (zone : ℤ) (date : Time) : ℤ := weekDay (date.val + zone)

/-- `new Date(year, month, date, hours, minutes)`: the years 0 to 99 stand for 1900 to 1999. -/
def newDate (zone year month date hours minutes : ℤ) : Option Time :=
  let year := if 0 ≤ year ∧ year ≤ 99 then 1900 + year else year
  timeClip (makeDate (makeDay year month date) (makeTime hours minutes 0 0) - zone)

/-- `date.setHours(hours)`. -/
def setHours (zone : ℤ) (date : Time) (hours : ℤ) : Option Time :=
  let t := date.val + zone
  timeClip (makeDate (day t) (makeTime hours (minFromTime t) (secFromTime t) (msFromTime t)) - zone)

/-! ## The first execution -/

/-- The hours and the minutes. -/
def parseFirstExecutionTime (rhythm : Rhythm) : Option (Option ℤ × Option ℤ) :=
  match rhythm.firstExecutionTime with
  | none => none
  | some time =>
    if time = "" then none
    else
      let parts := split time ':'
      some (parts[0]?.bind parseInteger, parts[1]?.bind parseInteger)

def dayIndex : Day → ℤ
  | .sunday => 0
  | .monday => 1
  | .tuesday => 2
  | .wednesday => 3
  | .thursday => 4
  | .friday => 5
  | .saturday => 6

/-- The days to wait, where `today` is the clock reading that this function makes. -/
def parseFirstExecutionDay (zone : ℤ) (today : Time) (rhythm : Rhythm) : Option ℤ :=
  match rhythm.firstExecutionDay with
  | none => none
  | some firstExecutionDay =>
    let diff := dayIndex firstExecutionDay - getDay zone today
    some (if 0 < diff then diff else if diff < 0 then diff + 7 else 0)

def calculateFirstExecutionTimeout (zone : ℤ) (today now : Time) (rhythm : Rhythm) : Option ℤ :=
  let executionTime := parseFirstExecutionTime rhythm
  let daysToExecute := parseFirstExecutionDay zone today rhythm
  -- no days to wait count as false, like a missing day
  if executionTime = none ∧ (daysToExecute = none ∨ daysToExecute = some 0) then some 0
  else
    let d := day (now.val + zone)
    let date :=
      match daysToExecute with
      | none => dateFromDay d
      | some days => if days ≠ 0 then dateFromDay d + days else dateFromDay d
    let firstExecutionDate :=
      match executionTime with
      | none => newDate zone (yearFromDay d) (monthFromDay d) date 0 0
      | some (some hours, some minutes) => newDate zone (yearFromDay d) (monthFromDay d) date hours minutes
      | some _ => none
    match firstExecutionDate with
    | none => none
    | some first =>
      if first.val - now.val < 0 then
        (setHours zone first (hourFromTime (first.val + zone) + 24)).map fun first => first.val - now.val
      else some (first.val - now.val)

/-! ## The rhythm -/

/-- `text.replace(pattern, '')`: the first occurrence goes. -/
def remove (pattern : List Char) : List Char → List Char
  | [] => []
  | c :: cs => if pattern.isPrefixOf (c :: cs) then (c :: cs).drop pattern.length else c :: remove pattern cs

structure ExecutionFrequency where
  hours : Option ℤ
  minutes : Option ℤ
  seconds : Option ℤ

/-- One round of `intervalElements.forEach`. -/
def ExecutionFrequency.element (f : ExecutionFrequency) (value : String) : ExecutionFrequency :=
  let number (unit : Char) := parseInteger (String.ofList (remove [unit] value.toList))
  let f := if 's' ∈ value.toList then { f with seconds := number 's' } else f
  let f := if 'm' ∈ value.toList then { f with minutes := number 'm' } else f
  if 'h' ∈ value.toList then { f with hours := number 'h' } else f

def parseExecutionFrequency (rhythm : Rhythm) : ExecutionFrequency :=
  match rhythm.frequency with
  | .everyMinute => ⟨some 0, some 1, some 0⟩
  | .everyHour => ⟨some 1, some 0, some 0⟩
  | .everyDay => ⟨some 24, some 0, some 0⟩
  | .everyWeek => ⟨some (24 * 7), some 0, some 0⟩
  | .custom interval =>
    let intervalElements := split (String.ofList (remove "every ".toList interval.toList)) ' '
    intervalElements.foldl ExecutionFrequency.element ⟨some 0, some 0, some 0⟩

def toMilliseconds (f : ExecutionFrequency) : Option ℤ := do
  return ((← f.hours) * 60 * 60 + (← f.minutes) * 60 + (← f.seconds)) * 1000

structure Timers where
  interval : Option ℤ
  executeAfter : Option ℤ

def parseRhythm (zone : ℤ) (today now : Time) (rhythm : Rhythm) : Timers where
  executeAfter := calculateFirstExecutionTimeout zone today now rhythm
  interval := toMilliseconds (parseExecutionFrequency rhythm)

/-- When the `k`-th run of a job registered at `now` is due: the first is at the end of the timeout, the
others after one interval each. -/
def Timers.run (timers : Timers) (now : Time) (k : ℕ) : Option ℤ := do
  return now.val + (← timers.executeAfter) + k * (← timers.interval)

structure Config where
  disabled : Bool

/-- `register(job)`: the timers that are set, if any. -/
def register (config : Config) (zone : ℤ) (today now : Time) (rhythm : Rhythm) : Option Timers :=
  if config.disabled then none else some (parseRhythm zone today now rhythm)

/-- The longest delay of a timer, `2^31 - 1` milliseconds. -/
def timeoutMax : ℤ := 2147483647

/-- The period that `setInterval` gives a delay. -/
def setInterval (delay : Option ℤ) : ℤ :=
  match delay with
  | none => 1
  | some delay => if 1 ≤ delay ∧ delay ≤ timeoutMax then delay else 1

example : toMilliseconds (parseExecutionFrequency ⟨.custom "every 1h 30m 5s", none, none⟩) = some 5405000 := by
  decide +kernel

/-- The rhythm of the backup job. -/
def BackupScheduledJob.rhythm : Rhythm where
  frequency := .everyWeek
  firstExecutionTime := some "01:00"
  firstExecutionDay := some .friday

end NodeToolkit.JobsScheduler
