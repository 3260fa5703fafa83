import NodeToolkit.Base.Date

/-!
# JSON texts

`JSON.stringify` of the values this program passes around, and the text of a `Date`
in it. A number is kept as the text JavaScript prints it as.
-/

namespace NodeToolkit

inductive Json where
  | null
  | bool (b : Bool)
  | number (text : String)
  | string (s : String)
  | array (items : List Json)
  | object (fields : List (String × Json))

namespace Json

/-- The digit for a number below sixteen. -/
def hexDigit (n : ℕ) : Char := if n < 10 then Char.ofNat (48 + n) else Char.ofNat (87 + n)

/-- A character inside a quoted text: quotes, backslashes and control characters are escaped. -/
def escape (c : Char) : List Char :=
  if c = '"' then ['\\', '"']
  else if c = '\\' then ['\\', '\\']
  else if c.toNat = 8 then ['\\', 'b']
  else if c.toNat = 9 then ['\\', 't']
  else if c.toNat = 10 then ['\\', 'n']
  else if c.toNat = 12 then ['\\', 'f']
  else if c.toNat = 13 then ['\\', 'r']
  else if c.toNat < 32 then ['\\', 'u', '0', '0', hexDigit (c.toNat / 16), hexDigit (c.toNat % 16)]
  else [c]

def quote (s : String) : String := String.ofList ('"' :: (s.toList.flatMap escape ++ ['"']))

/-- A text between two brackets. -/
def enclose (l r : Char) (s : String) : String := String.ofList (l :: (s.toList ++ [r]))

mutual

/-- `JSON.stringify`. -/
def stringify : Json → String
  | null => "null"
  | bool b => if b then "true" else "false"
  | number text => text
  | string s => quote s
  | array items => enclose '[' ']' (stringifyItems items)
  | object fields => enclose (Char.ofNat 123) (Char.ofNat 125) (stringifyFields fields)

def stringifyItems : List Json → String
  | [] => ""
  | [x] => x.stringify
  | x :: items => x.stringify ++ "," ++ stringifyItems items

def stringifyFields : List (String × Json) → String
  | [] => ""
  | [(k, x)] => quote k ++ ":" ++ x.stringify
  | (k, x) :: fields => quote k ++ ":" ++ x.stringify ++ "," ++ stringifyFields fields

end

end Json

/-! ## Dates -/

/-- `new Date().toISOString()`, of a clock that reads milliseconds since 1970. -/
def toISOString (instant : ℕ) : String := Date.isoText instant

example : toISOString 1709210096789 = "2024-02-29T12:34:56.789Z" := by decide +kernel

end NodeToolkit
