import NodeToolkit.Base.Json
import NodeToolkit.Base.OMap

/-!
# Reading JSON texts

`JSON.parse`, as a recursive descent over the characters of a text. `fuel` bounds the depth of
the recursion; the length of the text is always enough.

* `Json.Valid`: a value that a text can stand for: its numbers are written by the grammar, and
  the properties of an object have different names.
* `parse_stringify`: what `JSON.stringify` writes of a valid value is read back as that value.
-/

namespace NodeToolkit.Json

def isSpace (c : Char) : Bool := c = ' ' || c = '\t' || c = '\n' || c = '\r'

def skipSpace (cs : List Char) : List Char := cs.dropWhile isSpace

/-! ## Strings -/

def hexValue (c : Char) : Option ℕ :=
  if c.isDigit then some (c.toNat - 48)
  else if 97 ≤ c.toNat ∧ c.toNat ≤ 102 then some (c.toNat - 87)
  else if 65 ≤ c.toNat ∧ c.toNat ≤ 70 then some (c.toNat - 55)
  else none

/-- The number written by four hexadecimal digits. -/
def hex4 (a b c d : Char) : Option ℕ :=
  match hexValue a, hexValue b, hexValue c, hexValue d with
  | some a, some b, some c, some d => some (((a * 16 + b) * 16 + c) * 16 + d)
  | _, _, _, _ => none

/-- What a backslash and one more character stand for. -/
def unescape (c : Char) : Option Char :=
  if c = '"' ∨ c = '\\' ∨ c = '/' then some c
  else if c = 'b' then some (Char.ofNat 8)
  else if c = 't' then some (Char.ofNat 9)
  else if c = 'n' then some (Char.ofNat 10)
  else if c = 'f' then some (Char.ofNat 12)
  else if c = 'r' then some (Char.ofNat 13)
  else none

/-- Put a character that has been read before what is read after it. -/
def prepend (c : Char) (r : Option (List Char × List Char)) : Option (List Char × List Char) :=
  r.map fun p => (c :: p.1, p.2)

/-- The characters of a string up to its closing quote, and what follows. A character outside the
basic plane may be written as two halves; half a character is not a text. -/
def parseChars : List Char → Option (List Char × List Char)
  | [] => none
  | '"' :: rest => some ([], rest)
  | '\\' :: 'u' :: a :: b :: c :: d :: rest =>
    match hex4 a b c d with
    | none => none
    | some n =>
      if n < 0xD800 ∨ 0xDFFF < n then prepend (Char.ofNat n) (parseChars rest)
      else
        match rest with
        | '\\' :: 'u' :: e :: f :: g :: h :: rest =>
          match hex4 e f g h with
          | none => none
          | some m =>
            if n < 0xDC00 ∧ 0xDC00 ≤ m ∧ m ≤ 0xDFFF then
              prepend (Char.ofNat (0x10000 + (n - 0xD800) * 0x400 + (m - 0xDC00))) (parseChars rest)
            else none
        | _ => none
  | '\\' :: c :: rest =>
    match unescape c with
    | none => none
    | some c => prepend c (parseChars rest)
  | c :: rest => if c.toNat < 32 ∨ c = '\\' then none else prepend c (parseChars rest)

theorem parseChars_plain {c : Char} (rest : List Char) (hq : c ≠ '"') (hb : c ≠ '\\') (hc : 32 ≤ c.toNat) :
    parseChars (c :: rest) = prepend c (parseChars rest) := by
  have hnot : ¬ (c.toNat < 32 ∨ c = '\\') := by
    rintro (h | h)
    · omega
    · exact hb h
  rw [parseChars.eq_def]
  split
  · simp_all
  · simp_all
  · simp_all
  · simp_all
  · rename_i heq
    obtain ⟨rfl, rfl⟩ := List.cons.inj heq
    rw [if_neg hnot]

theorem hexValue_hexDigit : ∀ n < 16, hexValue (hexDigit n) = some n := by decide

/-- A control character, written by its number. -/
theorem hex4_control {n : ℕ} (hn : n < 32) : hex4 '0' '0' (hexDigit (n / 16)) (hexDigit (n % 16)) = some n := by
  have h0 : hexValue '0' = some 0 := by decide
  have hhi := hexValue_hexDigit (n / 16) (by omega)
  have hlo := hexValue_hexDigit (n % 16) (by omega)
  simp only [hex4, h0, hhi, hlo, Option.some.injEq]
  omega

theorem eq_ofNat {c : Char} {n : ℕ} (h : c.toNat = n) : c = Char.ofNat n := by
  rw [← h, Char.ofNat_toNat]

/-- **An escaped character** is read back. -/
theorem parseChars_escape (c : Char) (rest : List Char) :
    parseChars (escape c ++ rest) = prepend c (parseChars rest) := by
  unfold escape
  split
  · rename_i h
    rw [h]
    rfl
  rename_i hquote
  split
  · rename_i h
    rw [h]
    rfl
  rename_i hback
  split
  · rename_i h
    rw [eq_ofNat h]
    rfl
  split
  · rename_i h
    rw [eq_ofNat h]
    rfl
  split
  · rename_i h
    rw [eq_ofNat h]
    rfl
  split
  · rename_i h
    rw [eq_ofNat h]
    rfl
  split
  · rename_i h
    rw [eq_ofNat h]
    rfl
  split
  · rename_i hn
    have hu : parseChars ('\\' :: 'u' :: '0' :: '0' :: hexDigit (c.toNat / 16) :: hexDigit (c.toNat % 16) :: rest) =
        prepend (Char.ofNat c.toNat) (parseChars rest) := by
      rw [parseChars, hex4_control hn]
      dsimp only
      rw [if_pos (by omega)]
    rw [Char.ofNat_toNat] at hu
    exact hu
  · rename_i hn
    exact parseChars_plain rest hquote hback (by omega)

/-- **A quoted string** is read back. -/
theorem parseChars_quote (cs rest : List Char) :
    parseChars (cs.flatMap escape ++ '"' :: rest) = some (cs, rest) := by
  induction cs with
  | nil => rfl
  | cons c cs ih =>
    rw [List.flatMap_cons, List.append_assoc, parseChars_escape, ih]
    rfl

/-! ## Numbers -/

/-- The characters of a number. -/
def isNumberChar (c : Char) : Bool := c.isDigit || c = '-' || c = '+' || c = '.' || c = 'e' || c = 'E'

/-- At least one digit, and nothing else. -/
def isDigits (cs : List Char) : Bool := !cs.isEmpty && cs.all Char.isDigit

/-- Nothing, or an exponent. -/
def isExponent : List Char → Bool
  | [] => true
  | c :: rest => (c = 'e' || c = 'E') &&
    match rest with
    | '+' :: digits => isDigits digits
    | '-' :: digits => isDigits digits
    | digits => isDigits digits

/-- What may follow the whole part of a number. -/
def isFraction : List Char → Bool
  | '.' :: rest => isDigits (rest.takeWhile Char.isDigit) && isExponent (rest.dropWhile Char.isDigit)
  | rest => isExponent rest

/-- A number without its sign: no digit follows a leading zero. -/
def isUnsigned : List Char → Bool
  | [] => false
  | '0' :: rest => isFraction rest
  | c :: rest => c.isDigit && isFraction (rest.dropWhile Char.isDigit)

/-- A number of the grammar of JSON. -/
def isNumber (cs : List Char) : Bool :=
  cs.all isNumberChar &&
    match cs with
    | '-' :: rest => isUnsigned rest
    | rest => isUnsigned rest

example : ["0", "-12.50", "1e+21", "5e-324", "1.2E7"].all (isNumber ·.toList) = true := by decide

example : ["", "-", "01", "1.", ".5", "+1", "1e", "1e+", "NaN"].any (isNumber ·.toList) = false := by decide

/-- A number and what follows it. The value of a number is kept as its text. -/
def parseNumber (cs : List Char) : Option (Json × List Char) :=
  if isNumber (cs.takeWhile isNumberChar) then
    some (.number (String.ofList (cs.takeWhile isNumberChar)), cs.dropWhile isNumberChar)
  else none

/-! ## Values -/

/-- A word that stands for a value. -/
def parseWord (word : List Char) (x : Json) (cs : List Char) : Option (Json × List Char) :=
  if word.isPrefixOf cs then some (x, cs.drop word.length) else none

/-- The object with the given properties, of which a later one replaces an earlier one of its name. -/
def properties (fields : List (String × Json)) : List (String × Json) :=
  fields.foldl (fun l e => OMap.assign l e.1 e.2) []

def openBrace : Char := Char.ofNat 123

def closeBrace : Char := Char.ofNat 125

mutual

/-- A value and what follows it. -/
def parseValue : ℕ → List Char → Option (Json × List Char)
  | 0, _ => none
  | fuel + 1, cs =>
    match skipSpace cs with
    | [] => none
    | c :: rest =>
      if c = '"' then (parseChars rest).map fun p => (.string (String.ofList p.1), p.2)
      else if c = '[' then
        match skipSpace rest with
        | ']' :: rest => some (.array [], rest)
        | rest => (parseItems fuel rest).map fun p => (.array p.1, p.2)
      else if c = openBrace then
        match skipSpace rest with
        | [] => none
        | d :: rest =>
          if d = closeBrace then some (.object [], rest)
          else (parseFields fuel (d :: rest)).map fun p => (.object (properties p.1), p.2)
      else if c = 'n' then parseWord ['n', 'u', 'l', 'l'] .null (c :: rest)
      else if c = 't' then parseWord ['t', 'r', 'u', 'e'] (.bool true) (c :: rest)
      else if c = 'f' then parseWord ['f', 'a', 'l', 's', 'e'] (.bool false) (c :: rest)
      else parseNumber (c :: rest)

/-- The items of an array, up to its end. -/
def parseItems : ℕ → List Char → Option (List Json × List Char)
  | 0, _ => none
  | fuel + 1, cs =>
    match parseValue fuel cs with
    | none => none
    | some (x, rest) =>
      match skipSpace rest with
      | ',' :: rest => (parseItems fuel rest).map fun p => (x :: p.1, p.2)
      | ']' :: rest => some ([x], rest)
      | _ => none

/-- The properties of an object, up to its end. -/
def parseFields : ℕ → List Char → Option (List (String × Json) × List Char)
  | 0, _ => none
  | fuel + 1, cs =>
    match skipSpace cs with
    | '"' :: rest =>
      match parseChars rest with
      | none => none
      | some (key, rest) =>
        match skipSpace rest with
        | ':' :: rest =>
          match parseValue fuel rest with
          | none => none
          | some (x, rest) =>
            match skipSpace rest with
            | [] => none
            | c :: rest =>
              if c = ',' then (parseFields fuel rest).map fun p => ((String.ofList key, x) :: p.1, p.2)
              else if c = closeBrace then some ([(String.ofList key, x)], rest)
              else none
        | _ => none
    | _ => none

end

/-- `JSON.parse`; `none` is a `SyntaxError`. -/
def parse (s : String) : Option Json :=
  match parseValue (s.toList.length + 1) s.toList with
  | none => none
  | some (x, rest) => if skipSpace rest = [] then some x else none

/-! ## Reading back -/

mutual

/-- A value that a text can stand for. -/
def Valid : Json → Prop
  | null => True
  | bool _ => True
  | number text => isNumber text.toList
  | string _ => True
  | array items => ValidItems items
  | object fields => (fields.map Prod.fst).Nodup ∧ ValidFields fields

def ValidItems : List Json → Prop
  | [] => True
  | x :: items => x.Valid ∧ ValidItems items

def ValidFields : List (String × Json) → Prop
  | [] => True
  | (_, x) :: fields => x.Valid ∧ ValidFields fields

end

/-- What may follow a value inside a text. -/
def Ends (rest : List Char) : Prop := ∀ c ∈ rest.head?, c = ',' ∨ c = ']' ∨ c = closeBrace

theorem skipSpace_cons {c : Char} (h : isSpace c = false) (cs : List Char) : skipSpace (c :: cs) = c :: cs := by
  rw [skipSpace, List.dropWhile_cons_of_neg (by simp [h])]

theorem numberChar_ne {c : Char} (h : isNumberChar c = true) :
    c ≠ '"' ∧ c ≠ '[' ∧ c ≠ openBrace ∧ c ≠ 'n' ∧ c ≠ 't' ∧ c ≠ 'f' ∧ isSpace c = false := by
  refine ⟨?_, ?_, ?_, ?_, ?_, ?_, ?_⟩
  · rintro rfl; revert h; decide
  · rintro rfl; revert h; decide
  · rintro rfl; revert h; decide
  · rintro rfl; revert h; decide
  · rintro rfl; revert h; decide
  · rintro rfl; revert h; decide
  · cases hs : isSpace c with
    | false => rfl
    | true =>
      simp only [isSpace, Bool.or_eq_true, decide_eq_true_eq] at hs
      rcases hs with ((rfl | rfl) | rfl) | rfl <;> revert h <;> decide

theorem isNumber_all {cs : List Char} (h : isNumber cs = true) : ∀ c ∈ cs, isNumberChar c = true := by
  unfold isNumber at h
  rw [Bool.and_eq_true, List.all_eq_true] at h
  exact h.1

theorem parseNumber_append {cs rest : List Char} (h : isNumber cs = true) (hrest : Ends rest) :
    parseNumber (cs ++ rest) = some (.number (String.ofList cs), rest) := by
  have hall := isNumber_all h
  -- the number ends where the rest begins
  have hstop : rest.takeWhile isNumberChar = [] ∧ rest.dropWhile isNumberChar = rest := by
    cases rest with
    | nil => exact ⟨rfl, rfl⟩
    | cons c rest =>
      have hc : isNumberChar c = false := by
        rcases hrest c rfl with rfl | rfl | rfl <;> decide
      exact ⟨List.takeWhile_cons_of_neg (by simp [hc]), List.dropWhile_cons_of_neg (by simp [hc])⟩
  have htake : (cs ++ rest).takeWhile isNumberChar = cs := by
    rw [List.takeWhile_append_of_pos hall, hstop.1, List.append_nil]
  have hdrop : (cs ++ rest).dropWhile isNumberChar = rest := by
    rw [List.dropWhile_append_of_pos hall, hstop.2]
  rw [parseNumber, htake, hdrop, if_pos h]

theorem toList_quote (s : String) : (quote s).toList = '"' :: (s.toList.flatMap escape ++ ['"']) :=
  String.toList_ofList

theorem toList_enclose (l r : Char) (s : String) : (enclose l r s).toList = l :: (s.toList ++ [r]) :=
  String.toList_ofList

theorem toList_object (fields : List (String × Json)) :
    (object fields).stringify.toList = openBrace :: ((stringifyFields fields).toList ++ [closeBrace]) := by
  rw [stringify, toList_enclose]
  rfl

theorem parseWord_append (word rest : List Char) (x : Json) : parseWord word x (word ++ rest) = some (x, rest) := by
  have hprefix : word.isPrefixOf (word ++ rest) = true := List.isPrefixOf_iff_prefix.2 (List.prefix_append word rest)
  rw [parseWord, if_pos hprefix, List.drop_left]

/-- A number, by itself. -/
theorem parseValue_number {cs rest : List Char} (fuel : ℕ) (h : isNumber cs = true) (hrest : Ends rest) :
    parseValue (fuel + 1) (cs ++ rest) = some (.number (String.ofList cs), rest) := by
  cases cs with
  | nil => exact absurd h (by decide)
  | cons c cs =>
    have hc : isNumberChar c = true := isNumber_all h c List.mem_cons_self
    obtain ⟨h1, h2, h3, h4, h5, h6, hspace⟩ := numberChar_ne hc
    have hnumber := parseNumber_append h hrest
    rw [List.cons_append] at hnumber ⊢
    rw [parseValue, skipSpace_cons hspace]
    dsimp only
    rw [if_neg h1, if_neg h2, if_neg h3, if_neg h4, if_neg h5, if_neg h6, hnumber]

/-- A string, by itself. -/
theorem parseValue_string (s : String) (rest : List Char) (fuel : ℕ) :
    parseValue (fuel + 1) ((quote s).toList ++ rest) = some (.string s, rest) := by
  have hchars := parseChars_quote s.toList rest
  rw [toList_quote, List.cons_append, List.append_assoc, List.singleton_append, parseValue,
    skipSpace_cons (by decide)]
  dsimp only
  rw [if_pos rfl, hchars, Option.map_some, String.ofList_toList]

/-- Different names make an object with the same properties. -/
theorem properties_of_nodup {fields : List (String × Json)} (h : (fields.map Prod.fst).Nodup) :
    properties fields = fields := by
  have key : ∀ l : List (String × Json), ((l ++ fields).map Prod.fst).Nodup →
      fields.foldl (fun l e => OMap.assign l e.1 e.2) l = l ++ fields := by
    induction fields with
    | nil => intro l _; simp
    | cons e fields ih =>
      intro l hl
      have hnew : e.1 ∉ l.map Prod.fst := by
        rw [List.map_append, List.map_cons, List.nodup_append] at hl
        exact fun hmem => hl.2.2 e.1 hmem e.1 (by simp) rfl
      rw [List.foldl_cons, OMap.assign_of_notMem hnew]
      have hl' : ((l ++ [e] ++ fields).map Prod.fst).Nodup := by
        rw [List.append_assoc]
        exact hl
      rw [ih (by rw [List.map_cons] at h; exact h.of_cons) (l ++ [e]) hl', List.append_assoc]
      rfl
  exact key [] h

theorem ends_comma (rest : List Char) : Ends (',' :: rest) := fun _ h => Or.inl (Option.some.inj h).symm

theorem ends_bracket (rest : List Char) : Ends (']' :: rest) := fun _ h => Or.inr (Or.inl (Option.some.inj h).symm)

theorem ends_brace (rest : List Char) : Ends (closeBrace :: rest) :=
  fun _ h => Or.inr (Or.inr (Option.some.inj h).symm)

/-- A text begins with neither a space nor a closing bracket. -/
theorem head_stringify (x : Json) (hx : x.Valid) :
    ∃ c cs, x.stringify.toList = c :: cs ∧ isSpace c = false ∧ c ≠ ']' := by
  cases x with
  | null => exact ⟨'n', _, rfl, by decide, by decide⟩
  | bool b =>
    cases b with
    | false => exact ⟨'f', _, rfl, by decide, by decide⟩
    | true => exact ⟨'t', _, rfl, by decide, by decide⟩
  | number text =>
    rw [Valid] at hx
    cases htext : text.toList with
    | nil => rw [htext] at hx; exact absurd hx (by decide)
    | cons c cs =>
      have hc : isNumberChar c = true := isNumber_all hx c (by rw [htext]; exact List.mem_cons_self)
      refine ⟨c, cs, by rw [stringify, htext], (numberChar_ne hc).2.2.2.2.2.2, ?_⟩
      rintro rfl
      revert hc
      decide
  | string s => exact ⟨'"', _, by rw [stringify, toList_quote], by decide, by decide⟩
  | array items => exact ⟨'[', _, by rw [stringify, toList_enclose], by decide, by decide⟩
  | object fields => exact ⟨openBrace, _, by rw [stringify, toList_enclose]; rfl, by decide, by decide⟩

theorem toList_items_cons (x y : Json) (items : List Json) : (stringifyItems (x :: y :: items)).toList =
    x.stringify.toList ++ ',' :: (stringifyItems (y :: items)).toList := by
  simp [stringifyItems]

theorem toList_fields_one (key : String) (x : Json) : (stringifyFields [(key, x)]).toList =
    '"' :: (key.toList.flatMap escape ++ '"' :: ':' :: x.stringify.toList) := by
  simp [stringifyFields, toList_quote]

theorem toList_fields_cons (key : String) (x : Json) (e : String × Json) (fields : List (String × Json)) :
    (stringifyFields ((key, x) :: e :: fields)).toList = '"' :: (key.toList.flatMap escape ++
      '"' :: ':' :: (x.stringify.toList ++ ',' :: (stringifyFields (e :: fields)).toList)) := by
  simp [stringifyFields, toList_quote]

theorem head_stringifyItems (x : Json) (items : List Json) (hx : ValidItems (x :: items)) :
    ∃ c cs, (stringifyItems (x :: items)).toList = c :: cs ∧ isSpace c = false ∧ c ≠ ']' := by
  rw [ValidItems] at hx
  obtain ⟨c, cs, h, hspace, hne⟩ := head_stringify x hx.1
  cases items with
  | nil => exact ⟨c, cs, by rw [stringifyItems, h], hspace, hne⟩
  | cons y items => exact ⟨c, _, by rw [toList_items_cons, h, List.cons_append], hspace, hne⟩

theorem head_stringifyFields (key : String) (x : Json) (fields : List (String × Json)) :
    ∃ cs, (stringifyFields ((key, x) :: fields)).toList = '"' :: cs := by
  cases fields with
  | nil => exact ⟨_, toList_fields_one key x⟩
  | cons e fields => exact ⟨_, toList_fields_cons key x e fields⟩

/-- Values are read back with this much fuel for their texts. -/
def ReadsValues (fuel : ℕ) : Prop := ∀ (x : Json) (rest : List Char), x.Valid → x.stringify.toList.length ≤ fuel →
  Ends rest → parseValue fuel (x.stringify.toList ++ rest) = some (x, rest)

def ReadsItems (fuel : ℕ) : Prop := ∀ (x : Json) (items : List Json) (rest : List Char), ValidItems (x :: items) →
  (stringifyItems (x :: items)).toList.length < fuel →
  parseItems fuel ((stringifyItems (x :: items)).toList ++ ']' :: rest) = some (x :: items, rest)

def ReadsFields (fuel : ℕ) : Prop := ∀ (key : String) (x : Json) (fields : List (String × Json)) (rest : List Char),
  ValidFields ((key, x) :: fields) → (stringifyFields ((key, x) :: fields)).toList.length < fuel →
  parseFields fuel ((stringifyFields ((key, x) :: fields)).toList ++ closeBrace :: rest) =
    some ((key, x) :: fields, rest)

section Reads

variable {fuel : ℕ}

/-- **A value** is read back if its items and properties are. -/
theorem readsValues_succ (hitems : ReadsItems fuel) (hfields : ReadsFields fuel) : ReadsValues (fuel + 1) := by
  intro x rest hx hfuel hrest
  cases x with
  | null => exact parseWord_append ['n', 'u', 'l', 'l'] rest .null
  | bool b =>
    cases b with
    | false => exact parseWord_append ['f', 'a', 'l', 's', 'e'] rest (.bool false)
    | true => exact parseWord_append ['t', 'r', 'u', 'e'] rest (.bool true)
  | number text =>
    rw [Valid] at hx
    have h := parseValue_number fuel hx hrest
    rw [String.ofList_toList] at h
    exact h
  | string s => exact parseValue_string s rest fuel
  | array items =>
    rw [Valid] at hx
    rw [stringify, toList_enclose] at hfuel ⊢
    rw [List.length_cons, List.length_append, List.length_singleton] at hfuel
    rw [List.cons_append, List.append_assoc, List.singleton_append, parseValue, skipSpace_cons (by decide)]
    dsimp only
    rw [if_neg (by decide), if_pos rfl]
    cases items with
    | nil => rfl
    | cons x items =>
      have h := hitems x items rest hx (by omega)
      obtain ⟨c, cs, hhead, hspace, hne⟩ := head_stringifyItems x items hx
      rw [hhead, List.cons_append] at h ⊢
      rw [skipSpace_cons hspace]
      split
      · rename_i heq
        exact absurd (List.cons.inj heq).1 hne
      · rw [h]
        rfl
  | object fields =>
    rw [Valid] at hx
    rw [toList_object] at hfuel ⊢
    rw [List.length_cons, List.length_append, List.length_singleton] at hfuel
    rw [List.cons_append, List.append_assoc, List.singleton_append, parseValue, skipSpace_cons (by decide)]
    dsimp only
    rw [if_neg (by decide), if_neg (by decide), if_pos rfl]
    cases fields with
    | nil => rfl
    | cons e fields =>
      obtain ⟨key, x⟩ := e
      have h := hfields key x fields rest hx.2 (by omega)
      obtain ⟨cs, hhead⟩ := head_stringifyFields key x fields
      rw [hhead, List.cons_append] at h ⊢
      rw [skipSpace_cons (by decide)]
      dsimp only
      rw [if_neg (by decide)]
      refine (congrArg _ h).trans ?_
      rw [Option.map_some, properties_of_nodup hx.1]

/-- **Items** are read back if each is. -/
theorem readsItems_succ (hvalues : ReadsValues fuel) (hitems : ReadsItems fuel) : ReadsItems (fuel + 1) := by
  intro x items rest hx hfuel
  rw [ValidItems] at hx
  cases items with
  | nil =>
    rw [stringifyItems] at hfuel ⊢
    have hvalue := hvalues x (']' :: rest) hx.1 (by omega) (ends_bracket rest)
    rw [parseItems, hvalue]
    rfl
  | cons y items =>
    rw [toList_items_cons] at hfuel ⊢
    rw [List.length_append, List.length_cons] at hfuel
    have hvalue := hvalues x (',' :: ((stringifyItems (y :: items)).toList ++ ']' :: rest)) hx.1 (by omega)
      (ends_comma _)
    have hmore := hitems y items rest hx.2 (by omega)
    rw [List.append_assoc, List.cons_append, parseItems, hvalue]
    simp only [skipSpace_cons (show isSpace ',' = false by decide), hmore]
    rfl

/-- **Properties** are read back if the value of each is. -/
theorem readsFields_succ (hvalues : ReadsValues fuel) (hfields : ReadsFields fuel) : ReadsFields (fuel + 1) := by
  intro key x fields rest hx hfuel
  rw [ValidFields] at hx
  have hcolon : isSpace ':' = false := by decide
  cases fields with
  | nil =>
    rw [toList_fields_one] at hfuel ⊢
    simp only [List.length_cons, List.length_append] at hfuel
    have hkey := parseChars_quote key.toList (':' :: (x.stringify.toList ++ closeBrace :: rest))
    have hvalue := hvalues x (closeBrace :: rest) hx.1 (by omega) (ends_brace rest)
    simp only [List.cons_append, List.append_assoc] at hkey ⊢
    rw [parseFields, skipSpace_cons (by decide)]
    simp only [hkey, skipSpace_cons hcolon, hvalue]
    rw [skipSpace_cons (by decide)]
    dsimp only
    rw [if_neg (by decide), if_pos rfl, String.ofList_toList]
  | cons e fields =>
    obtain ⟨key', x'⟩ := e
    rw [toList_fields_cons] at hfuel ⊢
    simp only [List.length_cons, List.length_append] at hfuel
    have hkey := parseChars_quote key.toList
      (':' :: (x.stringify.toList ++
        ',' :: ((stringifyFields ((key', x') :: fields)).toList ++ closeBrace :: rest)))
    have hvalue := hvalues x (',' :: ((stringifyFields ((key', x') :: fields)).toList ++ closeBrace :: rest)) hx.1
      (by omega) (ends_comma _)
    have hmore := hfields key' x' fields rest hx.2 (by omega)
    simp only [List.cons_append, List.append_assoc] at hkey ⊢
    rw [parseFields, skipSpace_cons (by decide)]
    simp only [hkey, skipSpace_cons hcolon, hvalue]
    rw [skipSpace_cons (by decide)]
    dsimp only
    rw [if_pos rfl, hmore, String.ofList_toList]
    rfl

end Reads

/-- **Every text is read back** with fuel for its length. -/
theorem reads (fuel : ℕ) : ReadsValues fuel ∧ ReadsItems fuel ∧ ReadsFields fuel := by
  induction fuel with
  | zero =>
    refine ⟨fun x rest hx hfuel _ => ?_, fun x items rest _ hfuel => ?_, fun key x fields rest _ hfuel => ?_⟩
    · obtain ⟨c, cs, h, -, -⟩ := head_stringify x hx
      rw [h, List.length_cons] at hfuel
      omega
    · omega
    · omega
  | succ fuel ih =>
    obtain ⟨hvalues, hitems, hfields⟩ := ih
    exact ⟨readsValues_succ hitems hfields, readsItems_succ hvalues hitems, readsFields_succ hvalues hfields⟩

/-- **Round trip.** -/
theorem parse_stringify {x : Json} (hx : x.Valid) : parse x.stringify = some x := by
  have h := (reads (x.stringify.toList.length + 1)).1 x [] hx (by omega) (fun _ h => by simp at h)
  rw [List.append_nil] at h
  rw [parse, h]
  rfl

/-- A text is not empty. -/
theorem stringify_ne_empty {x : Json} (hx : x.Valid) : x.stringify ≠ "" := by
  obtain ⟨c, cs, h, -, -⟩ := head_stringify x hx
  intro hempty
  rw [hempty] at h
  simp at h

end NodeToolkit.Json
