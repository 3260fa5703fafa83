import NodeToolkit.Base.Date
import NodeToolkit.Base.Number
import Mathlib.Data.Finset.Card
import Mathlib.Data.Finset.Insert
import Mathlib.Data.Fintype.Basic

/-!
# Deep equality

`DeepEqual` of `deep-equal.ts`, with `ValueObject.equals`. A record is a finite set of keys with a
value for each: no key occurs twice, and keys have no order, which `DeepEqual` does not look at.
-/

namespace NodeToolkit

open Date

inductive Param where
  | string (s : String)
  | number (x : Number)
  | boolean (b : Bool)
  | null
  | undefined
  | date (time : Option Time)
  | valueObject (value : Param)
  | record (keys : Finset String) (get : {k // k ∈ keys} → Param)

/-- What `typeof` answers. -/
inductive TypeOf where
  | string
  | number
  | boolean
  | undefined
  | object
deriving DecidableEq

namespace Param

/-- The empty record. -/
def empty : Param := .record ∅ fun k => absurd k.2 (Finset.notMem_empty _)

/-- The record with one property. -/
def single (key : String) (value : Param) : Param := .record {key} fun _ => value

def typeOf : Param → TypeOf
  | string _ => .string
  | number _ => .number
  | boolean _ => .boolean
  | undefined => .undefined
  | null => .object
  | date _ => .object
  | valueObject _ => .object
  | record _ _ => .object

def isBasePrimitive : Param → Bool
  | string _ => true
  | number _ => true
  | boolean _ => true
  | null => true
  | undefined => true
  | _ => false

/-- `first === second`, where at least one of them is a base primitive. -/
def strictEqual : Param → Param → Bool
  | string s, string t => s = t
  | number x, number y => x.strictEqual y
  | boolean b, boolean c => b = c
  | null, null => true
  | undefined, undefined => true
  | _, _ => false

/-- `Object.keys(param)`: a value object has its `_value`, a date nothing. -/
def keys : Param → Finset String
  | valueObject _ => {"_value"}
  | record keys _ => keys
  | _ => ∅

/-- `param[key]`, where the key is one of its own. -/
def property (param : Param) (key : String) : Param :=
  match param with
  | valueObject value => if key = "_value" then value else undefined
  | record keys get => if h : key ∈ keys then get ⟨key, h⟩ else undefined
  | _ => undefined

end Param

open Param in
def DeepEqual (first second : Param) : Bool :=
  if first.typeOf ≠ second.typeOf then false
  else if first.isBasePrimitive ∨ second.isBasePrimitive then first.strictEqual second
  else
    match first, second with
    -- `first.equals(second)`
    | valueObject value, valueObject another => DeepEqual value another
    | date none, date _ => false
    | date time, date another => time = another
    | valueObject value, second =>
      if second.keys.card ≠ 1 then false
      else "_value" ∈ second.keys ∧ DeepEqual value (second.property "_value")
    | record keys get, second =>
      if keys.card ≠ second.keys.card then false
      else ∀ key : {k // k ∈ keys}, key.1 ∈ second.keys ∧ DeepEqual (get key) (second.property key)
    -- a date has no keys to compare
    | _, second => second.keys.card = 0

end NodeToolkit
