import NodeToolkit.Base.OMap

/-!
# Cartesian products

`CartesianOfRecord` and the functions under it. A record has its keys in the order in which JavaScript
enumerates them.
-/

namespace NodeToolkit.CartesianProducts

/-- A value, where anything that is no array is a scalar. -/
inductive Value (α : Type) where
  | undefined
  | null
  | scalar (a : α)
  | array (items : List (Value α))

variable {α : Type}

/-- `Array.isArray(value)`. -/
def Value.isArray : Value α → Bool
  | array _ => true
  | _ => false

/-- An array as it is, and any other value in an array of its own. -/
def Value.wrapped : Value α → List (Value α)
  | array items => items
  | value => [value]

def CartesianProduct (first second : List (Value α)) : List (List (Value α)) :=
  first.flatMap fun x => second.map fun y => x.wrapped ++ [y]

/-- With several arrays the loop starts from the elements of the first one, as if they were tuples. -/
def CartesianOf : List (List (Value α)) → List (List (Value α))
  | [] => [[]]
  | [array] => array.map fun x => [x]
  | first :: second :: arrays =>
    arrays.foldl (fun result array => CartesianProduct (result.map .array) array) (CartesianProduct first second)

/-- `result[key] = value`. The assignment to `__proto__` makes no property. -/
def assign (result : OMap String (Value α)) (key : String) (value : Value α) : OMap String (Value α) :=
  if key = "__proto__" then result else result.set key value

/-- A value that is neither `null` nor `undefined`. -/
def Value.present : Value α → Bool
  | undefined => false
  | null => false
  | _ => true

def cleanupRecord (record : OMap String (Value α)) : OMap String (Value α) :=
  record.entries.foldl (fun result e => if e.2.present then assign result e.1 e.2 else result) .empty

/-- The record of one tuple. -/
def recordOf (keys : List String) (tuple : List (Value α)) : OMap String (Value α) :=
  keys.zipIdx.foldl (fun temp e => assign temp e.1 (tuple.getD e.2 .undefined)) .empty

def CartesianOfRecord (record : OMap String (Value α)) : List (OMap String (Value α)) :=
  let record := cleanupRecord record
  let cartesianProduct := CartesianOf (record.values.map Value.wrapped)
  cartesianProduct.map (recordOf record.keys)

end NodeToolkit.CartesianProducts
