import NodeToolkit.Spec.JobsScheduler
import Mathlib.Algebra.Field.Rat
import Mathlib.Tactic.NormNum

/-!
# The intervals of jobs

An `Interval` is one of the five forms that the type of a rhythm allows, with decimal literals for the
numbers. The scheduler reads the digits before the point or the exponent.

* `parse_interval`: what is read of an interval.
* `period_iff`: the period is what the interval says if and only if the digits that are read make up
  the same duration, which a timer can hold.
* `hour_and_a_half`: an hour and a half is an hour.
-/

namespace NodeToolkit.JobsScheduler

open Date

/-! ## The statement -/

abbrev Digits : Type := List (Fin 10)

namespace Digits

def value (ds : Digits) : ℕ := ds.foldl (fun n (d : Fin 10) => n * 10 + d.val) 0

def text (ds : Digits) : List Char := ds.map fun d : Fin 10 => Nat.digitChar d.val

end Digits

inductive Sign where
  | none
  | plus
  | minus

def Sign.text : Sign → List Char
  | none => []
  | plus => ['+']
  | minus => ['-']

/-- `e5`, `E+5`, `e-5`. -/
structure Exponent where
  capital : Bool
  sign : Sign
  digits : Digits
  nonempty : digits ≠ []

/-- A decimal literal: digits, digits after a point, and an exponent. -/
structure Literal where
  whole : Digits
  fraction : Option Digits
  exponent : Option Exponent
  nonempty : whole ≠ [] ∨ ∃ ds ∈ fraction, ds ≠ []

namespace Exponent

def text (e : Exponent) : List Char := (if e.capital then 'E' else 'e') :: (e.sign.text ++ e.digits.text)

def scale (e : Exponent) : ℚ :=
  match e.sign with
  | .minus => 1 / 10 ^ e.digits.value
  | _ => 10 ^ e.digits.value

end Exponent

namespace Literal

def text (x : Literal) : List Char :=
  x.whole.text ++ (x.fraction.elim [] fun ds => '.' :: Digits.text ds) ++ x.exponent.elim [] Exponent.text

/-- The number. -/
def value (x : Literal) : ℚ :=
  Digits.value (x.whole ++ x.fraction.getD []) / 10 ^ (x.fraction.getD []).length * x.exponent.elim 1 Exponent.scale

/-- The number that the digits before the point and the exponent write. -/
def leading (x : Literal) : Option ℤ := if x.whole = [] then none else some x.whole.value

end Literal

/-- `every Xs`, `every Xm`, `every Xh`, `every Xh Ym`, `every Xh Ym Zs`. -/
inductive Interval where
  | seconds (s : Literal)
  | minutes (m : Literal)
  | hours (h : Literal)
  | hoursMinutes (h m : Literal)
  | hoursMinutesSeconds (h m s : Literal)

namespace Interval

/-- A number with its unit. -/
def element (x : Literal) (unit : Char) : String := String.ofList (x.text ++ [unit])

def text : Interval → String
  | seconds s => "every " ++ element s 's'
  | minutes m => "every " ++ element m 'm'
  | hours h => "every " ++ element h 'h'
  | hoursMinutes h m => "every " ++ (element h 'h' ++ " " ++ element m 'm')
  | hoursMinutesSeconds h m s => "every " ++ (element h 'h' ++ " " ++ (element m 'm' ++ " " ++ element s 's'))

/-- The milliseconds of the interval. -/
def milliseconds : Interval → ℚ
  | seconds s => s.value * 1000
  | minutes m => m.value * 60 * 1000
  | hours h => h.value * 3600 * 1000
  | hoursMinutes h m => (h.value * 3600 + m.value * 60) * 1000
  | hoursMinutesSeconds h m s => (h.value * 3600 + m.value * 60 + s.value) * 1000

/-- The hours, minutes and seconds that the leading digits write. -/
def leading : Interval → ExecutionFrequency
  | seconds s => ⟨some 0, some 0, s.leading⟩
  | minutes m => ⟨some 0, m.leading, some 0⟩
  | hours h => ⟨h.leading, some 0, some 0⟩
  | hoursMinutes h m => ⟨h.leading, m.leading, some 0⟩
  | hoursMinutesSeconds h m s => ⟨h.leading, m.leading, s.leading⟩

end Interval

/-! ## Texts of numbers -/

theorem decimalValue_digitChar (d : Fin 10) : decimalValue (Nat.digitChar d) = some d.val := by
  revert d
  decide

/-- What is not a digit ends the number. -/
theorem leadingNumber_digits (ds : Digits) (n : Option ℕ) {rest : List Char}
    (hrest : ∀ c ∈ rest.head?, decimalValue c = none) :
    leadingNumber decimalValue 10 n (Digits.text ds ++ rest) =
      if ds = [] then n else some (ds.foldl (fun n (d : Fin 10) => n * 10 + d.val) (n.getD 0)) := by
  induction ds generalizing n with
  | nil =>
    cases rest with
    | nil => rfl
    | cons c rest =>
      have hc := hrest c rfl
      simp [Digits.text, leadingNumber, hc]
  | cons d ds ih =>
    have hcons : leadingNumber decimalValue 10 n (Digits.text (d :: ds) ++ rest) =
        leadingNumber decimalValue 10 (some (n.getD 0 * 10 + d.val)) (Digits.text ds ++ rest) := by
      simp [Digits.text, leadingNumber, decimalValue_digitChar]
    rw [hcons, ih, if_neg (List.cons_ne_nil d ds)]
    split
    · rename_i h
      subst h
      rfl
    · rfl

/-- The characters of a literal. -/
def literalCharacters : List Char := ['0', '1', '2', '3', '4', '5', '6', '7', '8', '9', '.', 'e', 'E', '+', '-']

theorem mem_digits {ds : Digits} {c : Char} (h : c ∈ Digits.text ds) : c ∈ literalCharacters := by
  have hall : ∀ d : Fin 10, Nat.digitChar d.val ∈ literalCharacters := by decide
  obtain ⟨d, -, rfl⟩ := List.mem_map.1 h
  exact hall d

theorem mem_text {x : Literal} {c : Char} (h : c ∈ x.text) : c ∈ literalCharacters := by
  obtain ⟨whole, fraction, exponent, hne⟩ := x
  simp only [Literal.text, List.mem_append] at h
  rcases h with (h | h) | h
  · exact mem_digits h
  · cases fraction with
    | none => exact absurd h List.not_mem_nil
    | some ds =>
      rcases List.mem_cons.1 h with rfl | h
      · decide
      · exact mem_digits h
  · cases exponent with
    | none => exact absurd h List.not_mem_nil
    | some e =>
      obtain ⟨capital, sign, digits, hne⟩ := e
      simp only [Option.elim_some, Exponent.text, List.mem_cons, List.mem_append] at h
      rcases h with rfl | h | h
      · cases capital
        · rw [if_neg Bool.false_ne_true]
          decide
        · rw [if_pos rfl]
          decide
      · cases sign <;> simp [Sign.text] at h <;> subst h <;> decide
      · exact mem_digits h

theorem notMem_text {x : Literal} {c : Char} (h : c ∉ literalCharacters) : c ∉ x.text := fun hc => h (mem_text hc)

/-- Without blanks, signs and `0x`, `parseInt` reads the leading digits. -/
theorem parseInteger_unsigned {cs : List Char} (hhead : ∀ c ∈ cs.head?, ¬ c.isWhitespace ∧ c ≠ '-' ∧ c ≠ '+')
    (hx : 'x' ∉ cs) (hx' : 'X' ∉ cs) :
    parseInteger (String.ofList cs) = (leadingNumber decimalValue 10 none cs).map fun n => (n : ℤ) := by
  have hunsigned : unsignedNumber cs = leadingNumber decimalValue 10 none cs := by
    unfold unsignedNumber
    split
    · exact absurd (List.mem_cons_of_mem _ List.mem_cons_self) hx
    · exact absurd (List.mem_cons_of_mem _ List.mem_cons_self) hx'
    · rfl
  have hdrop : cs.dropWhile Char.isWhitespace = cs := by
    cases cs with
    | nil => rfl
    | cons c cs => exact List.dropWhile_cons_of_neg (hhead c rfl).1
  unfold parseInteger
  rw [String.toList_ofList, hdrop, ← hunsigned]
  split
  · exact absurd rfl (hhead '-' rfl).2.1
  · exact absurd rfl (hhead '+' rfl).2.2
  · rfl

/-- **The leading digits are what is read** of a literal. -/
theorem parseInteger_text (x : Literal) : parseInteger (String.ofList x.text) = x.leading := by
  have hrest : ∀ c ∈ ((x.fraction.elim [] fun ds => '.' :: Digits.text ds) ++
      x.exponent.elim [] Exponent.text).head?, decimalValue c = none ∧ (x.fraction ≠ none → c = '.') := by
    intro c hc
    cases hf : x.fraction with
    | none =>
      cases he : x.exponent with
      | none => simp [hf, he] at hc
      | some e =>
        obtain rfl : (if e.capital then 'E' else 'e') = c := by simpa [hf, he, Exponent.text] using hc
        refine ⟨?_, fun h => absurd rfl h⟩
        split <;> decide
    | some ds =>
      obtain rfl : '.' = c := by simpa [hf] using hc
      exact ⟨by decide, fun _ => rfl⟩
  have hdigit : ∀ d : Fin 10, ¬ (Nat.digitChar d.val).isWhitespace ∧ Nat.digitChar d.val ≠ '-' ∧
      Nat.digitChar d.val ≠ '+' := by decide
  have hhead : ∀ c ∈ x.text.head?, ¬ c.isWhitespace ∧ c ≠ '-' ∧ c ≠ '+' := by
    intro c hc
    rw [Literal.text, List.append_assoc] at hc
    cases hw : x.whole with
    | nil =>
      have hfraction : x.fraction ≠ none := by
        rintro hnone
        rcases x.nonempty with h | ⟨ds, h, -⟩
        · exact h hw
        · rw [hnone] at h
          exact absurd h (by simp)
      rw [hw] at hc
      obtain rfl := (hrest c hc).2 hfraction
      decide
    | cons d ds =>
      rw [hw] at hc
      obtain rfl : Nat.digitChar d.val = c := by simpa [Digits.text] using hc
      exact hdigit d
  rw [parseInteger_unsigned hhead (notMem_text (by decide)) (notMem_text (by decide)), Literal.text, List.append_assoc,
    leadingNumber_digits _ _ fun c hc => (hrest c hc).1, Literal.leading]
  split
  · rfl
  · rfl

/-! ## What is read of an interval -/

/-- The unit at the end goes. -/
theorem remove_unit {cs : List Char} {unit : Char} (h : unit ∉ cs) : remove [unit] (cs ++ [unit]) = cs := by
  induction cs with
  | nil => simp [remove]
  | cons c cs ih =>
    have hc : (unit == c) = false := by
      simp only [beq_eq_false_iff_ne]
      rintro rfl
      exact h List.mem_cons_self
    rw [List.cons_append, remove, ih fun hmem => h (List.mem_cons_of_mem _ hmem)]
    simp [List.isPrefixOf, hc]

/-- The word at the start goes. -/
theorem remove_every (text : String) : String.ofList (remove "every ".toList ("every " ++ text).toList) = text := by
  rw [String.toList_append]
  have hremoved : remove "every ".toList ("every ".toList ++ text.toList) = text.toList := by
    simp [remove]
  rw [hremoved, String.ofList_toList]

section Element

variable (f : ExecutionFrequency) (x : Literal)

/-- What is left of an element is its number. -/
theorem number_element {unit : Char} (h : unit ∉ literalCharacters) :
    parseInteger (String.ofList (remove [unit] (Interval.element x unit).toList)) = x.leading := by
  rw [Interval.element, String.toList_ofList, remove_unit (notMem_text h), parseInteger_text]

/-- An element contains its own unit and no other. -/
theorem mem_element {unit c : Char} (hc : c ∉ literalCharacters) : c ∈ (Interval.element x unit).toList ↔ c = unit := by
  simp [Interval.element, notMem_text hc]

theorem element_seconds : f.element (Interval.element x 's') = { f with seconds := x.leading } := by
  simp only [ExecutionFrequency.element, mem_element x (show 's' ∉ literalCharacters by decide),
    mem_element x (show 'm' ∉ literalCharacters by decide), mem_element x (show 'h' ∉ literalCharacters by decide),
    number_element x (show 's' ∉ literalCharacters by decide)]
  simp

theorem element_minutes : f.element (Interval.element x 'm') = { f with minutes := x.leading } := by
  simp only [ExecutionFrequency.element, mem_element x (show 's' ∉ literalCharacters by decide),
    mem_element x (show 'm' ∉ literalCharacters by decide), mem_element x (show 'h' ∉ literalCharacters by decide),
    number_element x (show 'm' ∉ literalCharacters by decide)]
  simp

theorem element_hours : f.element (Interval.element x 'h') = { f with hours := x.leading } := by
  simp only [ExecutionFrequency.element, mem_element x (show 's' ∉ literalCharacters by decide),
    mem_element x (show 'm' ∉ literalCharacters by decide), mem_element x (show 'h' ∉ literalCharacters by decide),
    number_element x (show 'h' ∉ literalCharacters by decide)]
  simp

theorem blank_notMem_element {unit : Char} (h : unit ≠ ' ') : ' ' ∉ (Interval.element x unit).toList :=
  fun hmem => h ((mem_element x (by decide)).1 hmem).symm

end Element

/-- **What is read of an interval.** -/
theorem parse_interval (interval : Interval) (time : Option String) (day : Option Day) :
    parseExecutionFrequency ⟨.custom interval.text, time, day⟩ = interval.leading := by
  have hs (x : Literal) : ' ' ∉ (Interval.element x 's').toList := blank_notMem_element x (by decide)
  have hm (x : Literal) : ' ' ∉ (Interval.element x 'm').toList := blank_notMem_element x (by decide)
  have hh (x : Literal) : ' ' ∉ (Interval.element x 'h').toList := blank_notMem_element x (by decide)
  have hblank : " " = ' '.toString := rfl
  unfold parseExecutionFrequency
  cases interval with
  | seconds s => simp only [Interval.text, remove_every, split_self (hs s), List.foldl_cons, List.foldl_nil,
      element_seconds, Interval.leading]
  | minutes m => simp only [Interval.text, remove_every, split_self (hm m), List.foldl_cons, List.foldl_nil,
      element_minutes, Interval.leading]
  | hours h => simp only [Interval.text, remove_every, split_self (hh h), List.foldl_cons, List.foldl_nil,
      element_hours, Interval.leading]
  | hoursMinutes h m => simp only [Interval.text, remove_every, hblank, split_append (hh h), split_self (hm m),
      List.foldl_cons, List.foldl_nil, element_hours, element_minutes, Interval.leading]
  | hoursMinutesSeconds h m s => simp only [Interval.text, remove_every, hblank, split_append (hh h),
      split_append (hm m), split_self (hs s), List.foldl_cons, List.foldl_nil, element_hours, element_minutes,
      element_seconds, Interval.leading]

/-! ## Periods -/

/-- **The period of a job** that is registered with an interval, in milliseconds. -/
def period (config : Config) (zone : ℤ) (today now : Time) (interval : Interval) (time : Option String)
    (day : Option Day) : Option ℤ :=
  (register config zone today now ⟨.custom interval.text, time, day⟩).map fun timers => setInterval timers.interval

/-- The job is run again after the time that the interval says. -/
def Kept (config : Config) (zone : ℤ) (today now : Time) (interval : Interval) (time : Option String)
    (day : Option Day) : Prop :=
  ∃ p, period config zone today now interval time day = some p ∧ (p : ℚ) = interval.milliseconds

/-- **The period is what the interval says** if and only if the scheduler is enabled and the digits that are read make
up the same duration, which a timer can hold, or the duration is one millisecond and they make up none
that a timer can hold. -/
theorem period_iff (config : Config) (zone : ℤ) (today now : Time) (interval : Interval) (time : Option String)
    (day : Option Day) (hwhole : ∃ n : ℕ, 1 ≤ n ∧ interval.milliseconds = n) :
    Kept config zone today now interval time day ↔ config.disabled = false ∧
      ((∃ n ∈ toMilliseconds interval.leading, (n : ℚ) = interval.milliseconds ∧ n ≤ timeoutMax) ∨
        interval.milliseconds = 1 ∧ ∀ n ∈ toMilliseconds interval.leading, n < 1 ∨ timeoutMax < n) := by
  obtain ⟨total, hpos, htotal⟩ := hwhole
  have hcast (n : ℤ) : (n : ℚ) = interval.milliseconds ↔ n = total := by
    rw [htotal]
    exact_mod_cast Iff.rfl
  have hone : interval.milliseconds = 1 ↔ total = 1 := by
    rw [htotal]
    exact_mod_cast Iff.rfl
  unfold Kept period register
  simp only [hcast, hone]
  cases config.disabled with
  | true => simp
  | false =>
    simp only [Bool.false_eq_true, if_false, Option.map_some, Option.some.injEq, true_and, parseRhythm, parse_interval,
      exists_eq_left']
    cases toMilliseconds interval.leading with
    | none =>
      simp only [setInterval, Option.not_mem_none, false_and, exists_false, false_or, false_imp_iff, implies_true, and_true]
      omega
    | some n =>
      simp only [setInterval, Option.mem_some_iff, exists_eq_left', forall_eq']
      by_cases hn : 1 ≤ n ∧ n ≤ timeoutMax
      · rw [if_pos hn]
        omega
      · rw [if_neg hn]
        omega

/-- Every five seconds. -/
theorem period_seconds : Kept ⟨false⟩ 0 ⟨0, by decide, by decide⟩ ⟨0, by decide, by decide⟩
    (.seconds ⟨[5], none, none, .inl (List.cons_ne_nil _ _)⟩) none none := by
  have hfive : Digits.value [5] = 5 := rfl
  have htotal : (Interval.seconds ⟨[5], none, none, .inl (List.cons_ne_nil _ _)⟩).milliseconds = 5000 := by
    norm_num [Interval.milliseconds, Literal.value, hfive]
  refine (period_iff _ _ _ _ _ _ _ ⟨5000, by decide, ?_⟩).2 ⟨rfl, .inl ⟨5000, rfl, ?_, by decide⟩⟩
  · exact_mod_cast htotal
  · exact_mod_cast htotal.symm

/-- One hour and a half. -/
def hourAndHalf : Interval := .hours ⟨[1], some [5], none, .inl (List.cons_ne_nil _ _)⟩

example : hourAndHalf.text = "every 1.5h" := by decide +kernel

/-- **An hour and a half is an hour.** -/
theorem hour_and_a_half : ¬ ∀ (config : Config) (zone : ℤ) (today now : Time) (interval : Interval)
    (time : Option String) (day : Option Day), (∃ n : ℕ, 1 ≤ n ∧ interval.milliseconds = n) →
      Kept config zone today now interval time day := by
  intro h
  have hfifteen : Digits.value [1, 5] = 15 := rfl
  have htotal : hourAndHalf.milliseconds = 5400000 := by
    norm_num [hourAndHalf, Interval.milliseconds, Literal.value, hfifteen]
  obtain ⟨p, hp, heq⟩ := h ⟨false⟩ 0 ⟨0, by decide, by decide⟩ ⟨0, by decide, by decide⟩ hourAndHalf none none
    ⟨5400000, by decide, by exact_mod_cast htotal⟩
  have hperiod : period ⟨false⟩ 0 ⟨0, by decide, by decide⟩ ⟨0, by decide, by decide⟩ hourAndHalf none none =
      some 3600000 := by decide +kernel
  obtain rfl := Option.some.inj (hperiod.symm.trans hp)
  rw [htotal] at heq
  norm_num at heq

end NodeToolkit.JobsScheduler
