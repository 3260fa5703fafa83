import Mathlib.Data.List.Basic
import Mathlib.Data.List.Infix

/-!
# Regular expressions

A strict pattern language: every metacharacter has its one meaning or stands behind a backslash, and
a backslash stands before a metacharacter. What is a pattern here is one for PCRE and for ECMAScript,
and they read it alike. Classes like `\d`, lookaround and back references are left out.

* `parse`: patterns to syntax trees, by way of tokens.
* `Regex.Matches`: what a tree matches between the text before and the text after, under options.
* `parse_escape`, `escape_injective`, `finds_literal`: a text with its metacharacters escaped is a pattern of its
  own, which finds this text.
-/

namespace NodeToolkit

inductive Regex where
  | empty
  | char (c : Char)
  /-- `.` -/
  | any
  /-- `^` -/
  | start
  /-- `$` -/
  | stop
  | set (negated : Bool) (ranges : List (Char × Char))
  | seq (r s : Regex)
  | alt (r s : Regex)
  | times (r : Regex) (least : ℕ) (most : Option ℕ)

namespace Regex

/-! ## Patterns -/

inductive Token where
  | char (c : Char)
  | any
  | start
  | stop
  | set (negated : Bool) (ranges : List (Char × Char))
  | opening
  | closing
  | bar
  | times (least : ℕ) (most : Option ℕ)

def metacharacters : List Char := ['.', '*', '+', '?', '^', '$', '{', '}', '(', ')', '|', '[', ']', '\\']

/-- Where the scanner is. -/
inductive Mode where
  | plain
  /-- After a backslash. -/
  | escape
  /-- After `[`. -/
  | opened
  /-- Inside of brackets. -/
  | members (negated : Bool) (ranges : List (Char × Char))
  /-- After `first-` inside of brackets. -/
  | dash (negated : Bool) (ranges : List (Char × Char)) (first : Char)
  /-- After `{` and the digits of the first number. -/
  | least (n : Option ℕ)
  /-- After the comma and the digits of the second number. -/
  | most (least : ℕ) (n : Option ℕ)

/-- A digit more. -/
def addDigit (n : Option ℕ) (c : Char) : Option ℕ := some (10 * n.getD 0 + (c.toNat - '0'.toNat))

/-- The scanner. -/
def scan : Mode → List Char → Option (List Token)
  | .plain, [] => some []
  | _, [] => none
  | .plain, c :: cs =>
    if c ∉ metacharacters then (scan .plain cs).map (.char c :: ·)
    else match c with
      | '\\' => scan .escape cs
      | '.' => (scan .plain cs).map (.any :: ·)
      | '^' => (scan .plain cs).map (.start :: ·)
      | '$' => (scan .plain cs).map (.stop :: ·)
      | '(' => (scan .plain cs).map (.opening :: ·)
      | ')' => (scan .plain cs).map (.closing :: ·)
      | '|' => (scan .plain cs).map (.bar :: ·)
      | '*' => (scan .plain cs).map (.times 0 none :: ·)
      | '+' => (scan .plain cs).map (.times 1 none :: ·)
      | '?' => (scan .plain cs).map (.times 0 (some 1) :: ·)
      | '[' => scan .opened cs
      | '{' => scan (.least none) cs
      | _ => none
  | .escape, c :: cs => if c ∈ metacharacters then (scan .plain cs).map (.char c :: ·) else none
  | .opened, c :: cs =>
    if c = '^' then scan (.members true []) cs
    else if c ∈ metacharacters ∨ c = '-' then none
    else scan (.members false [(c, c)]) cs
  | .members negated ranges, c :: cs =>
    if c = ']' ∧ ranges ≠ [] then (scan .plain cs).map (.set negated ranges :: ·)
    else if c = '-' then
      match ranges with
      | [] => none
      | (first, last) :: ranges => if first = last then scan (.dash negated ranges first) cs else none
    else if c ∈ metacharacters then none
    else scan (.members negated ((c, c) :: ranges)) cs
  | .dash negated ranges first, c :: cs =>
    if c ∈ metacharacters ∨ c = '-' ∨ c < first then none
    else scan (.members negated ((first, c) :: ranges)) cs
  | .least n, c :: cs =>
    if c.isDigit then scan (.least (addDigit n c)) cs
    else match n with
      | none => none
      | some n =>
        if c = '}' then (scan .plain cs).map (.times n (some n) :: ·)
        else if c = ',' then scan (.most n none) cs
        else none
  | .most least n, c :: cs =>
    if c.isDigit then scan (.most least (addDigit n c)) cs
    else if c = '}' then (scan .plain cs).map (.times least n :: ·)
    else none

/-- What has been read since the last open parenthesis: the finished branches, and in the branch at hand
what comes before the last atom, and this atom unless a quantifier followed it. -/
structure Level where
  branches : Option Regex := none
  before : Regex := .empty
  last : Option Regex := none

namespace Level

def branch (level : Level) : Regex :=
  match level.last with
  | none => level.before
  | some r => .seq level.before r

/-- An atom. -/
def push (level : Level) (r : Regex) : Level := { level with before := level.branch, last := some r }

/-- Something that takes no quantifier. -/
def append (level : Level) (r : Regex) : Level := { level with before := .seq level.branch r, last := none }

def close (level : Level) : Regex :=
  match level.branches with
  | none => level.branch
  | some r => .alt r level.branch

end Level

/-- The levels around the one that is read. -/
def assemble : List Level → Level → List Token → Option Regex
  | [], level, [] => some level.close
  | _ :: _, _, [] => none
  | stack, level, .char c :: ts => assemble stack (level.push (.char c)) ts
  | stack, level, .any :: ts => assemble stack (level.push .any) ts
  | stack, level, .set negated ranges :: ts => assemble stack (level.push (.set negated ranges)) ts
  | stack, level, .start :: ts => assemble stack (level.append .start) ts
  | stack, level, .stop :: ts => assemble stack (level.append .stop) ts
  | stack, level, .bar :: ts => assemble stack { branches := some level.close } ts
  | stack, level, .opening :: ts => assemble (level :: stack) {} ts
  | [], _, .closing :: _ => none
  | outer :: stack, level, .closing :: ts => assemble stack (outer.push level.close) ts
  | stack, level, .times least most :: ts =>
    match level.last with
    | none => none
    | some r =>
      if most.all fun most => least ≤ most then
        assemble stack { level with before := .seq level.before (.times r least most), last := none } ts
      else none

/-- The reader of patterns. -/
def parse (pattern : List Char) : Option Regex := (scan .plain pattern).bind (assemble [] {})

/-! ## Matching -/

/-- The options `i`, `m` and `s`. -/
structure Options where
  ignoreCase : Bool
  multiline : Bool
  dotAll : Bool
deriving DecidableEq

/-- The options that their letters name. -/
def Options.ofLetters (letters : List Char) : Option Options :=
  if letters.all (· ∈ ['i', 'm', 's']) then
    some { ignoreCase := 'i' ∈ letters, multiline := 'm' ∈ letters, dotAll := 's' ∈ letters }
  else none

variable (options : Options) (fold : Char → Char)

/-- Two characters are the same, up to letter case (the same after `fold`) if that is ignored. -/
def Same (c d : Char) : Prop := if options.ignoreCase then fold c = fold d else c = d

/-- `mid` matches, after `pre` and before `post`. -/
def Matches : Regex → List Char → List Char → List Char → Prop
  | .empty, _, mid, _ => mid = []
  | .char c, _, mid, _ => ∃ d, mid = [d] ∧ Same options fold c d
  | .any, _, mid, _ => ∃ d, mid = [d] ∧ (options.dotAll ∨ d ≠ '\n')
  | .start, pre, mid, _ => mid = [] ∧ (pre = [] ∨ options.multiline ∧ pre.getLast? = some '\n')
  | .stop, _, mid, post => mid = [] ∧ (post = [] ∨ options.multiline ∧ post.head? = some '\n')
  | .set negated ranges, _, mid, _ => ∃ d, mid = [d] ∧
      (negated ↔ ¬ ∃ c, Same options fold c d ∧ ∃ range ∈ ranges, range.1 ≤ c ∧ c ≤ range.2)
  | .seq r s, pre, mid, post => ∃ left right, mid = left ++ right ∧
      r.Matches pre left (right ++ post) ∧ s.Matches (pre ++ left) right post
  | .alt r s, pre, mid, post => r.Matches pre mid post ∨ s.Matches pre mid post
  | .times r least most, pre, mid, post => ∃ parts : List (List Char), mid = parts.flatten ∧
      least ≤ parts.length ∧ (∀ n ∈ most, parts.length ≤ n) ∧
      ∀ i (h : i < parts.length),
        r.Matches (pre ++ (parts.take i).flatten) parts[i] ((parts.drop (i + 1)).flatten ++ post)

/-- There is a match in the text. -/
def Finds (r : Regex) (text : List Char) : Prop :=
  ∃ pre mid post, text = pre ++ mid ++ post ∧ r.Matches options fold pre mid post

/-! ## Literal texts -/

/-- The text with a backslash before each metacharacter. -/
def escape (text : List Char) : List Char :=
  text.flatMap fun c => if c ∈ metacharacters then ['\\', c] else [c]

theorem scan_plain {c : Char} (h : c ∉ metacharacters) (cs : List Char) :
    scan .plain (c :: cs) = (scan .plain cs).map (.char c :: ·) := by
  rw [scan.eq_def]
  exact if_pos h

theorem scan_escaped {c : Char} (h : c ∈ metacharacters) (cs : List Char) :
    scan .plain ('\\' :: c :: cs) = (scan .plain cs).map (.char c :: ·) := by
  have hbackslash : scan .plain ('\\' :: c :: cs) = scan .escape (c :: cs) := by
    rw [scan, if_neg (by decide)]
  rw [hbackslash, scan, if_pos h]

/-- **An escaped text is read as its characters.** -/
theorem scan_escape (text : List Char) : scan .plain (escape text) = some (text.map .char) := by
  induction text with
  | nil => rfl
  | cons c text ih =>
    have hcons : escape (c :: text) = (if c ∈ metacharacters then ['\\', c] else [c]) ++ escape text :=
      List.flatMap_cons
    by_cases h : c ∈ metacharacters
    · rw [hcons, if_pos h, List.cons_append, List.cons_append, List.nil_append, scan_escaped h, ih]
      rfl
    · rw [hcons, if_neg h, List.cons_append, List.nil_append, scan_plain h, ih]
      rfl

/-- Different texts are different when escaped. -/
theorem escape_injective : Function.Injective escape := by
  intro text text' h
  have hscan := congrArg (scan .plain) h
  rw [scan_escape, scan_escape] at hscan
  exact List.map_injective_iff.2 (fun c d hcd => Token.char.inj hcd) (Option.some.inj hscan)

/-- The level after the characters of a text. -/
def Level.pushAll (level : Level) (text : List Char) : Level := text.foldl (fun level c => level.push (.char c)) level

theorem assemble_chars (text : List Char) (level : Level) :
    assemble [] level (text.map .char) = some (level.pushAll text).close := by
  induction text generalizing level with
  | nil => rfl
  | cons c text ih => exact ih (level.push (.char c))

theorem matches_branch_push (level : Level) (c : Char) (pre mid post : List Char) :
    (level.push (.char c)).branch.Matches options fold pre mid post ↔ ∃ left d, mid = left ++ [d] ∧
      level.branch.Matches options fold pre left (d :: post) ∧ Same options fold c d := by
  constructor
  · rintro ⟨left, right, rfl, hleft, d, rfl, hsame⟩
    exact ⟨left, d, rfl, hleft, hsame⟩
  · rintro ⟨left, d, rfl, hleft, hsame⟩
    exact ⟨left, [d], rfl, hleft, d, rfl, hsame⟩

theorem branches_pushAll (level : Level) (text : List Char) : (level.pushAll text).branches = level.branches := by
  induction text generalizing level with
  | nil => rfl
  | cons c text ih => exact ih (level.push (.char c))

/-- **A literal text matches itself.** -/
theorem matches_pushAll (level : Level) (text pre mid post : List Char) :
    (level.pushAll text).branch.Matches options fold pre mid post ↔ ∃ left right, mid = left ++ right ∧
      level.branch.Matches options fold pre left (right ++ post) ∧
      List.Forall₂ (Same options fold) text right := by
  induction text generalizing level pre mid post with
  | nil =>
    constructor
    · intro h
      exact ⟨mid, [], (List.append_nil mid).symm, h, .nil⟩
    · rintro ⟨left, right, rfl, hleft, hright⟩
      cases hright
      rw [List.append_nil]
      exact hleft
  | cons c text ih =>
    have hpush : level.pushAll (c :: text) = (level.push (.char c)).pushAll text := rfl
    rw [hpush, ih]
    constructor
    · rintro ⟨left, right, rfl, hleft, hright⟩
      obtain ⟨left, d, rfl, hmatch, hsame⟩ := (matches_branch_push options fold level c pre left _).1 hleft
      exact ⟨left, d :: right, by simp, hmatch, .cons hsame hright⟩
    · rintro ⟨left, right, rfl, hleft, hright⟩
      cases hright with
      | @cons _ d _ right hsame hright =>
        refine ⟨left ++ [d], right, by simp, ?_, hright⟩
        exact (matches_branch_push options fold level c pre _ _).2 ⟨left, d, rfl, hleft, hsame⟩

/-- The tree of a literal text. -/
def literal (text : List Char) : Regex := (Level.pushAll {} text).close

theorem parse_escape (text : List Char) : parse (escape text) = some (literal text) := by
  rw [parse, scan_escape]
  exact assemble_chars text {}

/-- **A literal text finds what is the same, character by character.** -/
theorem finds_literal (text t : List Char) :
    (literal text).Finds options fold t ↔ ∃ mid, mid <:+: t ∧ List.Forall₂ (Same options fold) text mid := by
  have hclose : literal text = (Level.pushAll {} text).branch := by
    rw [literal, Level.close, branches_pushAll]
  have hmatches (pre mid post : List Char) : (literal text).Matches options fold pre mid post ↔
      List.Forall₂ (Same options fold) text mid := by
    rw [hclose, matches_pushAll]
    constructor
    · rintro ⟨left, right, rfl, hleft, hright⟩
      obtain rfl : left = [] := hleft
      exact hright
    · intro h
      exact ⟨[], mid, rfl, rfl, h⟩
  constructor
  · rintro ⟨pre, mid, post, rfl, h⟩
    exact ⟨mid, ⟨pre, post, rfl⟩, (hmatches pre mid post).1 h⟩
  · rintro ⟨mid, ⟨pre, post, rfl⟩, h⟩
    exact ⟨pre, mid, post, rfl, (hmatches pre mid post).2 h⟩

end Regex

end NodeToolkit
