import Mathlib.Data.Rat.Defs

/-!
# Numbers

The numbers of JavaScript: rationals, the two infinities and `NaN`. The two zeros are one number
here, as they are for `===`.
-/

namespace NodeToolkit

inductive Number where
  | nan
  | negInfinity
  | finite (x : ℚ)
  | infinity
deriving DecidableEq

namespace Number

/-- `x === y`. -/
def strictEqual (x y : Number) : Bool := x ≠ nan ∧ x = y

/-- The number is no zero and no `NaN`. -/
def truthy (x : Number) : Bool := x ≠ nan ∧ x ≠ finite 0

theorem strictEqual_iff {x y : Number} (hx : x ≠ nan) : x.strictEqual y = true ↔ x = y := by
  simp [strictEqual, hx]

end Number

end NodeToolkit
