import NodeToolkit.Base.Date
import NodeToolkit.Base.Number
import Mathlib.Data.Finset.Lattice.Basic
import Mathlib.Data.Finset.Filter

/-!
# Deep merging

`DeepMerge` of `deep-merge.ts`. The keys of an object have no order here: the rounds of the loop over
the keys of a source concern different properties of the target, so they are taken at once. An object
also has the properties it inherits, which are all functions.

A value is a tree: no object is reached in two ways. The source merges into the objects nested in the
target itself, so a target of the program that shares one of them elsewhere changes there too.
-/

namespace NodeToolkit.Merging

open Date

/-- A key that is no accessor of the prototype. -/
abbrev Key : Type := {key : String // key ≠ "__proto__"}

/-- A value. A date is an object that may have properties of its own. -/
inductive Value where
  | undefined
  | null
  | boolean (b : Bool)
  | number (x : Number)
  | string (s : String)
  | array (length : ℕ) (items : Fin length → Value)
  | date (time : Option Time) (keys : Finset Key) (get : {k // k ∈ keys} → Value)
  | record (keys : Finset Key) (get : {k // k ∈ keys} → Value)

/-- The methods of `Object.prototype`. -/
def objectPrototype : List String :=
  ["constructor", "hasOwnProperty", "isPrototypeOf", "propertyIsEnumerable", "toLocaleString", "toString",
    "valueOf", "__defineGetter__", "__defineSetter__", "__lookupGetter__", "__lookupSetter__"]

/-- The methods of `Date.prototype`. -/
def datePrototype : List String :=
  ["getDate", "getDay", "getFullYear", "getHours", "getMilliseconds", "getMinutes", "getMonth", "getSeconds",
    "getTime", "getTimezoneOffset", "getUTCDate", "getUTCDay", "getUTCFullYear", "getUTCHours",
    "getUTCMilliseconds", "getUTCMinutes", "getUTCMonth", "getUTCSeconds", "getYear", "setDate", "setFullYear",
    "setHours", "setMilliseconds", "setMinutes", "setMonth", "setSeconds", "setTime", "setUTCDate",
    "setUTCFullYear", "setUTCHours", "setUTCMilliseconds", "setUTCMinutes", "setUTCMonth", "setUTCSeconds",
    "setYear", "toDateString", "toGMTString", "toISOString", "toJSON", "toLocaleDateString",
    "toLocaleTimeString", "toTimeString", "toUTCString"]

namespace Value

/-- `{}`. -/
def empty : Value := .record ∅ fun key => absurd key.2 (Finset.notMem_empty _)

def truthy : Value → Bool
  | undefined => false
  | null => false
  | boolean b => b
  | number x => x.truthy
  | string s => s ≠ ""
  | _ => true

def isRecord : Value → Bool
  | record _ _ => true
  | _ => false

def isDate : Value → Bool
  | date _ _ _ => true
  | _ => false

/-- `isObject(item)`. -/
def isObject (item : Value) : Bool := item.isRecord || item.isDate

/-- A property that the object has itself. -/
def own (object : Value) (key : Key) : Option Value :=
  match object with
  | date _ keys get => if h : key ∈ keys then some (get ⟨key, h⟩) else none
  | record keys get => if h : key ∈ keys then some (get ⟨key, h⟩) else none
  | _ => none

/-- The object has a property by this name from its prototype. -/
def inherits (object : Value) (key : Key) : Bool :=
  key.1 ∈ objectPrototype || object.isDate && key.1 ∈ datePrototype

/-- The keys of an object after some of them got new values, or none. -/
def keysAfter (old : Key → Option Value) (ks keys : Finset Key) (new : {k // k ∈ keys} → Option Value) :
    Finset Key :=
  (ks ∪ keys).filter fun key => (if h : key ∈ keys then new ⟨key, h⟩ else old key).isSome

/-- The object with new values for some of its keys. -/
def assign (object : Value) (keys : Finset Key) (new : {k // k ∈ keys} → Option Value) : Value :=
  match object with
  | date time ks _ => .date time (keysAfter object.own ks keys new) fun key =>
      (if h : key.1 ∈ keys then new ⟨key, h⟩ else object.own key).get (Finset.mem_filter.1 key.2).2
  | record ks _ => .record (keysAfter object.own ks keys new) fun key =>
      (if h : key.1 ∈ keys then new ⟨key, h⟩ else object.own key).get (Finset.mem_filter.1 key.2).2
  | object => object

end Value

open Value

/-- One round of the loop: the property of the target that comes of `source[key]`, which `merge` merges
into another value. -/
def round (target : Value) (key : Key) (value : Value) (merge : Value → Value) : Option Value :=
  if value.isObject then
    match target.own key with
    | some current => some (merge (if current.truthy then current else empty))
    | none => if target.inherits key then none else some (merge empty)
  else some value

/-- `DeepMerge(target, source)`. -/
def mergeSource : Value → Value → Value
  | target, .record keys get | target, .date _ keys get =>
    if target.isObject then
      target.assign keys fun key => round target key (get key) fun current => mergeSource current (get key)
    else target
  | target, _ => target

/-- `DeepMerge(target, ...sources)`. -/
def DeepMerge (target : Value) : List Value → Value
  | [] => target
  | source :: sources => DeepMerge (mergeSource target source) sources

end NodeToolkit.Merging
