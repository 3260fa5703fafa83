import Mathlib.Algebra.Order.Floor.Defs
import Mathlib.Data.Rat.Floor

/-!
# The time calculator

`TimeCalculator` of `time-calculator.ts`, in exact arithmetic. A precision is a whole number.
-/

namespace NodeToolkit

structure TimeCalculator where
  _years : ℚ
  _months : ℚ
  _weeks : ℚ
  _days : ℚ
  _hours : ℚ
  _minutes : ℚ
  _seconds : ℚ
  _milliseconds : ℚ
deriving DecidableEq

namespace TimeCalculator

/-- `TimeCalculator.Instance()`. -/
def Instance : TimeCalculator := ⟨0, 0, 0, 0, 0, 0, 0, 0⟩

section Units

variable (t : TimeCalculator) (val : ℚ)

def years : TimeCalculator := { t with _years := t._years + val }

def months : TimeCalculator := { t with _months := t._months + val }

def weeks : TimeCalculator := { t with _weeks := t._weeks + val }

def days : TimeCalculator := { t with _days := t._days + val }

def hours : TimeCalculator := { t with _hours := t._hours + val }

def minutes : TimeCalculator := { t with _minutes := t._minutes + val }

def seconds : TimeCalculator := { t with _seconds := t._seconds + val }

def milliseconds : TimeCalculator := { t with _milliseconds := t._milliseconds + val }

end Units

/-- `Math.round(x)`. -/
def mathRound (x : ℚ) : ℤ := ⌊x + 1 / 2⌋

def roundToDecimalPlaces (num : ℚ) (decimalPlaces : ℤ) : ℚ :=
  let factor := (10 : ℚ) ^ decimalPlaces
  mathRound (num * factor) / factor

/-- The last two lines of each result. -/
def rounded (result : ℚ) (precision : Option ℤ) : ℚ :=
  match precision with
  | none => result
  -- a precision of `0` is no precision
  | some precision => if precision ≠ 0 then roundToDecimalPlaces result precision else result

section Results

variable (t : TimeCalculator) (precision : Option ℤ)

def inHours : ℚ :=
  let result :=
    t._milliseconds / (60 * 60 * 1000) +
    t._seconds / (60 * 60) +
    t._minutes / 60 +
    t._hours +
    t._days * 24 +
    t._weeks * 7 * 24 +
    t._months * 30 * 24 +
    t._years * 12 * 30 * 24 * 60
  rounded result precision

def inMinutes : ℚ :=
  let result :=
    t._milliseconds / (60 * 1000) +
    t._seconds / 60 +
    t._minutes +
    t._hours * 60 +
    t._days * 24 * 60 +
    t._weeks * 7 * 24 * 60 +
    t._months * 30 * 24 * 60 +
    t._years * 12 * 30 * 24 * 60
  rounded result precision

def inSeconds : ℚ :=
  let result :=
    t._milliseconds / 1000 +
    t._seconds +
    t._minutes * 60 +
    t._hours * 60 * 60 +
    t._days * 24 * 60 * 60 +
    t._weeks * 7 * 24 * 60 * 60 +
    t._months * 30 * 24 * 60 * 60 +
    t._years * 12 * 30 * 24 * 60 * 60
  rounded result precision

def inMilliseconds : ℚ :=
  let result :=
    t._milliseconds +
    t._seconds * 1000 +
    t._minutes * 60 * 1000 +
    t._hours * 60 * 60 * 1000 +
    t._days * 24 * 60 * 60 * 1000 +
    t._weeks * 7 * 24 * 60 * 60 * 1000 +
    t._months * 30 * 24 * 60 * 60 * 1000 +
    t._years * 12 * 30 * 24 * 60 * 60 * 1000
  rounded result precision

end Results

/-! ## Chains of calls -/

inductive TimeUnit where
  | years
  | months
  | weeks
  | days
  | hours
  | minutes
  | seconds
  | milliseconds
deriving DecidableEq

/-- A call of the method of a unit. -/
structure UnitCall where
  unit : TimeUnit
  val : ℚ

def UnitCall.run (t : TimeCalculator) (call : UnitCall) : TimeCalculator :=
  match call.unit with
  | .years => t.years call.val
  | .months => t.months call.val
  | .weeks => t.weeks call.val
  | .days => t.days call.val
  | .hours => t.hours call.val
  | .minutes => t.minutes call.val
  | .seconds => t.seconds call.val
  | .milliseconds => t.milliseconds call.val

/-- A chain of calls on a new calculator. -/
def chain (calls : List UnitCall) : TimeCalculator := calls.foldl UnitCall.run Instance

end TimeCalculator

end NodeToolkit
