import NodeToolkit.Base.Number
import NodeToolkit.Spec.Exceptions

/-!
# Removing duplicates

`RemoveDuplicates` of `remove-duplicates.ts`, for elements of any type: `typeOf` is what `typeof` answers
for them, and equal elements are those that are the same to a `Set`.
-/

namespace NodeToolkit.Duplicates

/-- `string | number | boolean | null | undefined`. -/
inductive Primitive where
  | string (s : String)
  | number (x : Number)
  | boolean (b : Bool)
  | null
  | undefined
deriving DecidableEq

def Primitive.typeOf : Primitive → String
  | string _ => "string"
  | number _ => "number"
  | boolean _ => "boolean"
  | null => "object"
  | undefined => "undefined"

variable {α : Type} [DecidableEq α]

/-- `set.add(item)`, where a set is the list of its items, in the order in which they were added. -/
def add (set : List α) (item : α) : List α := if item ∈ set then set else set ++ [item]

/-- The keys met so far, and the elements kept. -/
structure Unique (α : Type) where
  uniqueKeys : List String
  result : List α

/-- A round of the loop over objects. -/
def Unique.round (uniqueKeyExtractor : α → String) (u : Unique α) (item : α) : Unique α :=
  if uniqueKeyExtractor item ∈ u.uniqueKeys then u
  else ⟨add u.uniqueKeys (uniqueKeyExtractor item), u.result ++ [item]⟩

def wrongUsage : DeveloperException :=
  .make "WRONG_USAGE_OF_REMOVE_DUPLICATES"
    "should pass the unique key extractor function when passing an array of objects"

/-- `RemoveDuplicates(array, uniqueKeyExtractor)`. -/
def RemoveDuplicates (typeOf : α → String) (array : List α) (uniqueKeyExtractor : Option (α → String)) :
    Except DeveloperException (List α) :=
  match array.head? with
  | none => .ok array
  | some first =>
    if typeOf first ≠ "object" then .ok (array.foldl add [])
    else
      match uniqueKeyExtractor with
      | none => .error wrongUsage
      | some uniqueKeyExtractor => .ok (array.foldl (Unique.round uniqueKeyExtractor) ⟨[], []⟩).result

end NodeToolkit.Duplicates
