import Mathlib.Algebra.Order.Floor.Ring
import Mathlib.Data.Int.Log
import Mathlib.Data.Rat.Floor
import Mathlib.Tactic.Linarith
import Mathlib.Tactic.NormNum
import Mathlib.Tactic.Positivity
import NodeToolkit.Base.Number

/-!
# Double precision

The numbers that a JavaScript number can be, and their subtraction: the exact difference, rounded to the
nearest of them, ties to even.

* `representable_rounded`: rounding gives such a number, or overflows.
* `rounded_of_representable`: it leaves them as they are.
* `le_rounded`, `rounded_le`: it stays on its side of an integer multiple of the last place.
-/

namespace NodeToolkit

/-! ## Integers, ties to even -/

def roundEven (q : ℚ) : ℤ :=
  if q - ⌊q⌋ < 1 / 2 then ⌊q⌋
  else if 1 / 2 < q - ⌊q⌋ then ⌊q⌋ + 1
  else if Even ⌊q⌋ then ⌊q⌋ else ⌊q⌋ + 1

theorem floor_le_roundEven (q : ℚ) : ⌊q⌋ ≤ roundEven q := by
  unfold roundEven
  split_ifs <;> omega

theorem roundEven_le_floor (q : ℚ) : roundEven q ≤ ⌊q⌋ + 1 := by
  unfold roundEven
  split_ifs <;> omega

@[simp] theorem roundEven_intCast (n : ℤ) : roundEven n = n := by
  unfold roundEven
  rw [Int.floor_intCast, if_pos (by norm_num)]

theorem le_roundEven {q : ℚ} {n : ℤ} (h : (n : ℚ) ≤ q) : n ≤ roundEven q :=
  (Int.le_floor.2 h).trans (floor_le_roundEven q)

theorem roundEven_le {q : ℚ} {n : ℤ} (h : q ≤ n) : roundEven q ≤ n := by
  by_cases heq : q = n
  · rw [heq, roundEven_intCast]
  · have hlt : ⌊q⌋ < n := Int.floor_lt.2 (lt_of_le_of_ne h heq)
    have hle := roundEven_le_floor q
    omega

/-- From a half on, an odd number is rounded up. -/
theorem lt_roundEven_of_odd {q : ℚ} {n : ℤ} (hodd : Odd n) (h : (n : ℚ) + 1 / 2 ≤ q) : n < roundEven q := by
  have hfloor : n ≤ ⌊q⌋ := Int.le_floor.2 (by linarith)
  rcases hfloor.eq_or_lt with heq | hlt
  · have hhalf : ¬ q - ⌊q⌋ < 1 / 2 := by
      rw [← heq]
      linarith
    have hnot : ¬ Even ⌊q⌋ := by
      rw [← heq]
      exact Int.not_even_iff_odd.2 hodd
    unfold roundEven
    rw [if_neg hhalf]
    split_ifs <;> omega
  · have hle := floor_le_roundEven q
    omega

/-- Up to a half, an even number is rounded down. -/
theorem roundEven_le_of_even {q : ℚ} {n : ℤ} (heven : Even n) (h : q ≤ n + 1 / 2) : roundEven q ≤ n := by
  rcases lt_or_ge q n with hlt | hge
  · exact roundEven_le hlt.le
  · have hfloor : ⌊q⌋ = n := by
      rw [Int.floor_eq_iff]
      exact ⟨hge, by linarith⟩
    have hhalf : ¬ 1 / 2 < q - ⌊q⌋ := by
      rw [hfloor]
      linarith
    unfold roundEven
    rw [hfloor] at hhalf ⊢
    rw [if_neg hhalf, if_pos heven]
    split_ifs <;> omega

/-! ## The numbers -/

/-- An integer of 53 bits times a power of two in the range of the exponents. -/
def Representable (x : ℚ) : Prop := ∃ m e : ℤ, |m| < 2 ^ 53 ∧ -1074 ≤ e ∧ e ≤ 971 ∧ x = m * 2 ^ e

/-- The exponent of the last place of `x`. -/
def quantum (x : ℚ) : ℤ := max (Int.log 2 |x| - 52) (-1074)

/-- The nearest multiple of the last place. -/
def rounded (x : ℚ) : ℚ := roundEven (x / 2 ^ quantum x) * 2 ^ quantum x

theorem abs_lt_quantum (x : ℚ) : |x| < 2 ^ (quantum x + 53) := by
  have hlog : |x| < ((2 : ℕ) : ℚ) ^ (Int.log 2 |x| + 1) := Int.lt_zpow_succ_log_self one_lt_two |x|
  refine hlog.trans_le ?_
  rw [Nat.cast_ofNat]
  exact zpow_le_zpow_right₀ one_le_two (by unfold quantum; omega)

theorem rounded_zero : rounded 0 = 0 := by
  have hzero : roundEven 0 = 0 := roundEven_intCast 0
  rw [rounded, zero_div, hzero]
  simp

/-- The last place of `x`. -/
theorem place_pos (x : ℚ) : (0 : ℚ) < 2 ^ quantum x := zpow_pos two_pos _

/-- **Rounding keeps to its side** of a multiple of the last place. -/
theorem le_rounded {x : ℚ} {n : ℤ} (h : n * 2 ^ quantum x ≤ x) : n * 2 ^ quantum x ≤ rounded x := by
  have hscaled : (n : ℚ) ≤ x / 2 ^ quantum x := (le_div_iff₀ (place_pos x)).2 h
  have hround : (n : ℚ) ≤ roundEven (x / 2 ^ quantum x) := by exact_mod_cast le_roundEven hscaled
  exact mul_le_mul_of_nonneg_right hround (place_pos x).le

theorem rounded_le {x : ℚ} {n : ℤ} (h : x ≤ n * 2 ^ quantum x) : rounded x ≤ n * 2 ^ quantum x := by
  have hscaled : x / 2 ^ quantum x ≤ n := (div_le_iff₀ (place_pos x)).2 h
  have hround : (roundEven (x / 2 ^ quantum x) : ℚ) ≤ n := by exact_mod_cast roundEven_le hscaled
  exact mul_le_mul_of_nonneg_right hround (place_pos x).le

theorem rounded_nonpos {x : ℚ} (h : x ≤ 0) : rounded x ≤ 0 := by
  have hzero := @rounded_le x 0 (by rwa [Int.cast_zero, zero_mul])
  rwa [Int.cast_zero, zero_mul] at hzero

/-- The scaled number has at most 53 bits. -/
theorem abs_roundEven_le (x : ℚ) : |roundEven (x / 2 ^ quantum x)| ≤ 2 ^ 53 := by
  have hlt : |x / 2 ^ quantum x| < ((2 ^ 53 : ℤ) : ℚ) := by
    rw [abs_div, abs_of_pos (place_pos x), div_lt_iff₀ (place_pos x)]
    have hx := abs_lt_quantum x
    rw [zpow_add₀ two_ne_zero, mul_comm] at hx
    exact_mod_cast hx
  obtain ⟨hlow, hhigh⟩ := abs_lt.1 hlt
  refine abs_le.2 ⟨le_roundEven ?_, roundEven_le hhigh.le⟩
  rw [Int.cast_neg]
  exact hlow.le

/-- Unless it is tiny, it has that many. -/
theorem le_abs_roundEven {x : ℚ} (hx : x ≠ 0) (hq : -1074 < quantum x) :
    2 ^ 52 ≤ |roundEven (x / 2 ^ quantum x)| := by
  have hlog : quantum x + 52 = Int.log 2 |x| := by
    unfold quantum at hq ⊢
    omega
  have hle : ((2 ^ 52 : ℤ) : ℚ) ≤ |x / 2 ^ quantum x| := by
    have hself : ((2 : ℕ) : ℚ) ^ Int.log 2 |x| ≤ |x| := Int.zpow_log_le_self one_lt_two (abs_pos.2 hx)
    rw [Nat.cast_ofNat, ← hlog, zpow_add₀ two_ne_zero, mul_comm] at hself
    rw [abs_div, abs_of_pos (place_pos x), le_div_iff₀ (place_pos x)]
    exact_mod_cast hself
  rcases le_abs.1 hle with h | h
  · exact le_abs.2 (.inl (le_roundEven h))
  · refine le_abs.2 (.inr ?_)
    have hneg : roundEven (x / 2 ^ quantum x) ≤ -2 ^ 52 := by
      apply roundEven_le
      rw [Int.cast_neg]
      linarith
    omega

/-- Below the overflow, the exponent of the last place is bounded. -/
theorem add_lt_of_place {k : ℕ} {m q : ℤ} (hm : 2 ^ k ≤ |m|) (h : |(m : ℚ) * 2 ^ q| < 2 ^ 1024) : k + q < 1024 := by
  have hplace : (0 : ℚ) < 2 ^ q := zpow_pos two_pos q
  have hle : (2 : ℚ) ^ k ≤ |(m : ℚ)| := by exact_mod_cast hm
  have hlt : (2 : ℚ) ^ (k + q) < 2 ^ (1024 : ℤ) :=
    calc (2 : ℚ) ^ (k + q) = 2 ^ k * 2 ^ q := by rw [zpow_add₀ two_ne_zero, zpow_natCast]
      _ ≤ |(m : ℚ)| * 2 ^ q := mul_le_mul_of_nonneg_right hle hplace.le
      _ = |(m : ℚ) * 2 ^ q| := by rw [abs_mul, abs_of_pos hplace]
      _ < 2 ^ (1024 : ℤ) := h
  exact (zpow_lt_zpow_iff_right₀ one_lt_two).1 hlt

/-- **Rounding gives a number**, or overflows. -/
theorem representable_rounded {x : ℚ} (h : |rounded x| < 2 ^ 1024) : Representable (rounded x) := by
  by_cases hx : x = 0
  · rw [hx, rounded_zero]
    exact ⟨0, 0, by norm_num, by norm_num, by norm_num, by norm_num⟩
  have hlow : -1074 ≤ quantum x := le_max_right _ _
  have hhigh : quantum x ≤ 971 := by
    by_contra hgt
    have hlt := add_lt_of_place (le_abs_roundEven hx (by omega)) h
    omega
  rcases (abs_roundEven_le x).lt_or_eq with hlt | heq
  · exact ⟨_, quantum x, hlt, hlow, hhigh, rfl⟩
  · -- the next power of two: 52 bits at the next exponent
    have hlt := add_lt_of_place heq.ge h
    obtain ⟨m, hm⟩ : ∃ m, roundEven (x / 2 ^ quantum x) = m * 2 := by
      rcases abs_choice (roundEven (x / 2 ^ quantum x)) with h' | h'
      · exact ⟨2 ^ 52, by omega⟩
      · exact ⟨-2 ^ 52, by omega⟩
    rw [hm, abs_mul] at heq
    refine ⟨m, quantum x + 1, by norm_num at heq; omega, by omega, by omega, ?_⟩
    rw [rounded, hm, Int.cast_mul, zpow_add₀ two_ne_zero, zpow_one]
    push_cast
    ring

/-- The last place of a number is not above its exponent. -/
theorem quantum_le {x : ℚ} {m e : ℤ} (hx : x ≠ 0) (hm : |m| < 2 ^ 53) (he : -1074 ≤ e) (heq : x = m * 2 ^ e) :
    quantum x ≤ e := by
  have hplace : (0 : ℚ) < 2 ^ e := zpow_pos two_pos e
  have hlt : |x| < ((2 : ℕ) : ℚ) ^ (53 + e) := by
    have hcast : |(m : ℚ)| < 2 ^ (53 : ℤ) := by exact_mod_cast hm
    rw [heq, abs_mul, abs_of_pos hplace, Nat.cast_ofNat, zpow_add₀ two_ne_zero]
    exact mul_lt_mul_of_pos_right hcast hplace
  have hlog := (Int.lt_zpow_iff_log_lt one_lt_two (abs_pos.2 hx)).1 hlt
  unfold quantum
  omega

/-- **The numbers stay as they are.** -/
theorem rounded_of_representable {x : ℚ} (h : Representable x) : rounded x = x := by
  obtain ⟨m, e, hm, he, -, heq⟩ := h
  by_cases hx : x = 0
  · rw [hx, rounded_zero]
  obtain ⟨d, hd⟩ := Int.le.dest (quantum_le hx hm he heq)
  have hscaled : x = ((m * 2 ^ d : ℤ) : ℚ) * 2 ^ quantum x :=
    calc x = m * 2 ^ (quantum x + d) := by rw [hd, heq]
      _ = ((m * 2 ^ d : ℤ) : ℚ) * 2 ^ quantum x := by
        rw [zpow_add₀ two_ne_zero, zpow_natCast]
        push_cast
        ring
  apply le_antisymm
  · exact (rounded_le hscaled.le).trans hscaled.ge
  · exact hscaled.le.trans (le_rounded hscaled.ge)

theorem Representable.abs_lt {x : ℚ} (h : Representable x) : |x| < 2 ^ 1024 := by
  obtain ⟨m, e, hm, -, he, rfl⟩ := h
  have hplace : (0 : ℚ) < 2 ^ e := zpow_pos two_pos e
  have hcast : |(m : ℚ)| < 2 ^ (53 : ℤ) := by exact_mod_cast hm
  rw [abs_mul, abs_of_pos hplace]
  calc |(m : ℚ)| * 2 ^ e < 2 ^ (53 : ℤ) * 2 ^ e := mul_lt_mul_of_pos_right hcast hplace
    _ = 2 ^ (53 + e) := (zpow_add₀ two_ne_zero _ _).symm
    _ ≤ 2 ^ (1024 : ℤ) := zpow_le_zpow_right₀ one_le_two (by omega)

/-! ## Rounding and subtracting -/

/-- A JavaScript number: a number of double precision, an infinity, or `NaN`. -/
structure Double where
  val : Number
  representable : ∀ x, val = .finite x → Representable x

namespace Double

/-- The nearest number. -/
def nearest (x : ℚ) : Double :=
  if h : |rounded x| < 2 ^ 1024 then ⟨.finite (rounded x), by rintro _ ⟨⟩; exact representable_rounded h⟩
  else if 0 < x then ⟨.infinity, by rintro _ ⟨⟩⟩
  else ⟨.negInfinity, by rintro _ ⟨⟩⟩

/-- `x - y`. -/
def sub (x y : Double) : Double :=
  match x.val, y.val with
  | .finite x, .finite y => nearest (x - y)
  | .finite _, .negInfinity => ⟨.infinity, by rintro _ ⟨⟩⟩
  | .finite _, .infinity => ⟨.negInfinity, by rintro _ ⟨⟩⟩
  | .infinity, .finite _ => x
  | .infinity, .negInfinity => x
  | .negInfinity, .finite _ => x
  | .negInfinity, .infinity => x
  | _, _ => ⟨.nan, by rintro _ ⟨⟩⟩

instance : Sub Double := ⟨sub⟩

variable {x y : Double}

theorem nearest_of_lt {x : ℚ} (h : |rounded x| < 2 ^ 1024) : (nearest x).val = .finite (rounded x) := by
  rw [nearest, dif_pos h]

theorem nearest_of_representable {x : ℚ} (h : Representable x) : (nearest x).val = .finite x := by
  have hrounded := rounded_of_representable h
  rw [nearest_of_lt (by rw [hrounded]; exact h.abs_lt), hrounded]

theorem sub_finite {a b : ℚ} (hx : x.val = .finite a) (hy : y.val = .finite b) : x - y = nearest (a - b) := by
  show sub x y = _
  unfold sub
  rw [hx, hy]

/-- An infinity and `NaN` stay what they are. -/
theorem sub_val_of_not_finite {b : ℚ} (hx : ∀ a, x.val ≠ .finite a) (hy : y.val = .finite b) :
    (x - y).val = x.val := by
  have hsub : x - y = sub x y := rfl
  unfold sub at hsub
  rw [hsub, hy]
  cases hval : x.val with
  | finite a => exact absurd hval (hx a)
  | nan => rfl
  | infinity => exact hval
  | negInfinity => exact hval

/-- **Exact differences.** -/
theorem sub_exact {a b : ℚ} (hx : x.val = .finite a) (hy : y.val = .finite b) (h : Representable (a - b)) :
    (x - y).val = .finite (a - b) := by
  rw [sub_finite hx hy, nearest_of_representable h]

/-- The difference is rounded, or overflows to the infinity of its sign. -/
theorem nearest_cases (x : ℚ) : (nearest x).val = .finite (rounded x) ∨ 0 < x ∧ (nearest x).val = .infinity ∨
    x ≤ 0 ∧ (nearest x).val = .negInfinity := by
  unfold nearest
  split_ifs with hfits hpos
  · exact .inl rfl
  · exact .inr (.inl ⟨hpos, rfl⟩)
  · exact .inr (.inr ⟨not_lt.1 hpos, rfl⟩)

end Double

/-! ## Integers, and subtracting one -/

theorem representable_intCast {n : ℤ} (h : |n| < 2 ^ 53) : Representable n :=
  ⟨n, 0, h, by norm_num, by norm_num, by simp⟩

/-- **Above `2^53`**, only even numbers are left. -/
theorem even_of_representable {n : ℤ} (hn : 2 ^ 53 ≤ n) (h : Representable n) : Even n := by
  obtain ⟨m, e, hm, -, -, heq⟩ := h
  have hpos : 0 < e := by
    by_contra hle
    have hplace : (2 : ℚ) ^ e ≤ 1 := zpow_le_one_of_nonpos₀ one_le_two (not_lt.1 hle)
    have hm' : (m : ℚ) < 2 ^ 53 := by exact_mod_cast (abs_lt.1 hm).2
    have hn' : (2 : ℚ) ^ 53 ≤ n := by exact_mod_cast hn
    have hplace' : (0 : ℚ) < 2 ^ e := zpow_pos two_pos e
    nlinarith
  obtain ⟨d, rfl⟩ : ∃ d : ℕ, e = d + 1 := ⟨(e - 1).toNat, by omega⟩
  refine ⟨m * 2 ^ d, ?_⟩
  have hcast : (n : ℚ) = ((m * 2 ^ d + m * 2 ^ d : ℤ) : ℚ) := by
    rw [heq, zpow_add₀ two_ne_zero, zpow_natCast, zpow_one]
    push_cast
    ring
  exact_mod_cast hcast

/-- **Fractions** have room for the difference. -/
theorem representable_sub_one {x : ℚ} (h : Representable x) (hone : 1 ≤ x) (hfraction : ∀ n : ℤ, x ≠ n) :
    Representable (x - 1) := by
  obtain ⟨m, e, hm, hlow, hhigh, heq⟩ := h
  have hneg : e < 0 := by
    by_contra hle
    obtain ⟨d, rfl⟩ := Int.eq_ofNat_of_zero_le (not_lt.1 hle)
    refine hfraction (m * 2 ^ d) ?_
    rw [heq, zpow_natCast]
    push_cast
    ring
  obtain ⟨d, rfl⟩ : ∃ d : ℕ, e = -(d : ℤ) := ⟨(-e).toNat, by omega⟩
  have hplace : (0 : ℚ) < 2 ^ d := by positivity
  have hx : x * 2 ^ d = m := by
    rw [heq, zpow_neg, zpow_natCast, mul_assoc, inv_mul_cancel₀ hplace.ne', mul_one]
  have hle : (2 : ℤ) ^ d ≤ m := by
    have hle' : (2 : ℚ) ^ d ≤ m := by
      rw [← hx]
      exact le_mul_of_one_le_left hplace.le hone
    exact_mod_cast hle'
  have hbits : |m - 2 ^ d| < 2 ^ 53 := by
    have hm' := (abs_lt.1 hm).2
    have hd : (0 : ℤ) < 2 ^ d := by positivity
    rw [abs_lt]
    omega
  refine ⟨m - 2 ^ d, -(d : ℤ), hbits, hlow, hhigh, ?_⟩
  rw [heq, zpow_neg, zpow_natCast]
  push_cast
  rw [sub_mul, mul_inv_cancel₀ hplace.ne']

theorem log_eq_of_large {x : ℚ} (h : 2 ^ 53 ≤ x) : quantum x + 52 = Int.log 2 x ∧ 1 ≤ quantum x := by
  have hpos : 0 < x := lt_of_lt_of_le (by norm_num) h
  have hlog : (53 : ℤ) ≤ Int.log 2 x := by
    refine (Int.zpow_le_iff_le_log one_lt_two hpos).1 ?_
    rw [Nat.cast_ofNat]
    exact_mod_cast h
  unfold quantum
  rw [abs_of_pos hpos]
  omega

/-- **From `2^53 + 4` on**, subtracting one does not come below it. -/
theorem le_rounded_sub_one {x : ℚ} (h : 2 ^ 53 + 4 ≤ x) : 2 ^ 53 + 4 ≤ rounded (x - 1) := by
  obtain ⟨hlog, hone⟩ := log_eq_of_large (x := x - 1) (by linarith)
  rcases hone.eq_or_lt with heq | hlt
  · -- the last place is 2, and half of the difference is rounded up
    have hhalf : ((2 ^ 52 + 1 : ℤ) : ℚ) + 1 / 2 ≤ (x - 1) / 2 ^ quantum (x - 1) := by
      rw [← heq]
      push_cast
      linarith
    have hround : ((2 ^ 52 + 2 : ℤ) : ℚ) ≤ roundEven ((x - 1) / 2 ^ quantum (x - 1)) := by
      exact_mod_cast lt_roundEven_of_odd (by decide) hhalf
    unfold rounded
    rw [← heq] at hround ⊢
    push_cast at hround
    linarith
  · -- the difference has a higher power of two below it
    have hself : ((2 ^ 52 : ℤ) : ℚ) * 2 ^ quantum (x - 1) ≤ x - 1 := by
      have hle : ((2 : ℕ) : ℚ) ^ Int.log 2 (x - 1) ≤ x - 1 := Int.zpow_log_le_self one_lt_two (by linarith)
      rw [← hlog, Nat.cast_ofNat, zpow_add₀ two_ne_zero, mul_comm] at hle
      exact_mod_cast hle
    have hplace : (2 : ℚ) ^ (2 : ℤ) ≤ 2 ^ quantum (x - 1) := zpow_le_zpow_right₀ one_le_two hlt
    have hround := le_rounded hself
    norm_num at hplace hround ⊢
    linarith

/-- **At `2^53 + 2`** it comes to `2^53`. -/
theorem rounded_succ : rounded (2 ^ 53 + 1) = 2 ^ 53 := by
  obtain ⟨hlog, -⟩ := @log_eq_of_large (2 ^ 53 + 1) (by norm_num)
  have hquantum : quantum (2 ^ 53 + 1) = 1 := by
    have hcast : (2 ^ 53 + 1 : ℚ) = ((2 ^ 53 + 1 : ℕ) : ℚ) := by norm_num
    have hnat : Nat.log 2 (2 ^ 53 + 1) = 53 := Nat.log_eq_of_pow_le_of_lt_pow (by norm_num) (by norm_num)
    rw [hcast, Int.log_natCast, hnat, ← hcast] at hlog
    omega
  -- a tie, and the number below it is even
  have hround : roundEven ((2 ^ 53 + 1) / 2 ^ quantum (2 ^ 53 + 1)) = 2 ^ 52 := by
    rw [hquantum]
    apply le_antisymm
    · exact roundEven_le_of_even (by decide) (by norm_num)
    · exact le_roundEven (by norm_num)
  rw [rounded, hround, hquantum]
  norm_num

end NodeToolkit
