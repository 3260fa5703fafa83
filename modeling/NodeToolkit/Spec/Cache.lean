import Mathlib.Algebra.Order.Ring.Rat
import NodeToolkit.Async.Alone
import NodeToolkit.Base.JsonParse
import NodeToolkit.Spec.Redis

/-!
# The caches

The interface `Cache` and its two implementations, each as async functions over the
store behind it: a map in memory, and the strings of a Redis server. Every command of
a store is atomic and comes with the clock reading at which it executes. A `ttl` is any
number but NaN and the infinities, in milliseconds; sums of times are exact.
-/

namespace NodeToolkit

open Async

/-- What the code asks of a value: which one is `null`, and which ones count as true. -/
class JsValue (V : Type) where
  null : V
  truthy : V → Bool
  truthy_null : truthy null = false

instance : JsValue Json where
  null := .null
  truthy
    | .null => false
    | .bool b => b
    | .number text => text ≠ "0"
    | .string s => s ≠ ""
    | .array _ => true
    | .object _ => true
  truthy_null := rfl

/-- A call of a cache; `ttl` is the one of `CacheOptions`. -/
inductive CacheCall (V : Type) where
  | get (key : String)
  | set (key : String) (value : V) (ttl : Option ℚ)
  | setNx (key : String) (value : V) (ttl : Option ℚ)
  | invalidate (key : String)
  | clear

/-- What a call returns, the `SyntaxError` it throws, or the error of the server that it passes on. -/
inductive CacheReply (V : Type) where
  | value (v : V)
  | ok (b : Bool)
  | void
  | syntaxError
  | rejected (message : String)

/-! ## InMemoryCache -/

structure CacheEntry (V : Type) where
  value : V
  createdAt : ℕ
  ttl : Option ℚ

namespace InMemoryCache

variable {V : Type}

abbrev Store (V : Type) : Type := OMap String (CacheEntry V)

/-- The time of an entry has passed; a `ttl` of zero counts as none. -/
def expired (now : ℕ) (entry : CacheEntry V) : Bool :=
  match entry.ttl with
  | none => false
  | some ttl => ttl ≠ 0 && decide ((entry.createdAt : ℚ) + ttl < now)

inductive Cmd (V : Type) where
  | get (key : String)
  | set (key : String) (value : V) (ttl : Option ℚ)
  | invalidate (key : String)
  | clear

@[reducible] def Resp : Cmd V → Type
  | .get _ => V
  | .set _ _ _ => Unit
  | .invalidate _ => Unit
  | .clear => Unit

def exec [JsValue V] (now : ℕ) (s : Store V) : (c : Cmd V) → Store V × Resp c
  | .get key =>
    match s.get key with
    | none => (s, JsValue.null)
    | some entry => if expired now entry then (s.erase key, JsValue.null) else (s, entry.value)
  | .set key value ttl => (s.set key ⟨value, now, ttl⟩, ())
  | .invalidate key => (s.erase key, ())
  | .clear => (.empty, ())

abbrev Client (V α : Type) : Type := Prog (@Resp V) α

def get (key : String) : Client V V := .await (.get key) .ret

def set (key : String) (value : V) (ttl : Option ℚ) : Client V Unit := .await (.set key value ttl) .ret

def invalidate (key : String) : Client V Unit := .await (.invalidate key) .ret

def clear : Client V Unit := .await .clear .ret

def setNx [JsValue V] (key : String) (value : V) (ttl : Option ℚ) : Client V Bool := do
  let entry ← get key
  if JsValue.truthy entry then return false
  else do
    set key value ttl
    return true

def prog [JsValue V] : CacheCall V → Client V (CacheReply V)
  | .get key => do
    let value ← get key
    return .value value
  | .set key value ttl => do
    set key value ttl
    return .void
  | .setNx key value ttl => do
    let b ← setNx key value ttl
    return .ok b
  | .invalidate key => do
    invalidate key
    return .void
  | .clear => do
    clear
    return .void

/-- Any number of calls of one cache. -/
def machine (V : Type) [JsValue V] : Machine (@Resp V) (Store V) ℕ Empty (CacheCall V) (CacheReply V) where
  exec := exec
  env := fun e _ => e.elim
  enter := fun _ s => s
  prog := prog

end InMemoryCache

/-! ## RedisCache -/

namespace RedisCache

/-- The strings of a server. -/
abbrev Strings : Type := OMap String (Timed String)

/-- What `GET` finds: a key is readable up to and including its last millisecond. -/
def lookup (now : ℕ) (s : Strings) (key : String) : Option String :=
  ((s.get key).filter (Timed.alive now)).map Timed.val

/-- `SET` has the options `PX`, a time to live in milliseconds, and `NX`. -/
inductive Cmd where
  | get (key : String)
  | set (key value : String) (px : Option ℚ) (nx : Bool)
  | del (key : String)
  | flushAll

@[reducible] def Resp : Cmd → Type
  | .get _ => Option String
  | .set _ _ _ _ => Except String (Option String)
  | .del _ => Unit
  | .flushAll => Unit

def notAnInteger : String := "ERR value is not an integer or out of range"

def invalidExpireTime : String := "ERR invalid expire time in 'set' command"

/-- The last millisecond of a key that is set now. `PX` is to be a positive integer, and times are
integers of 64 bits. -/
def expiry (now : ℕ) : Option ℚ → Except String (Option ℕ)
  | none => .ok none
  | some px =>
    if px.den ≠ 1 ∨ px < -2 ^ 63 ∨ 2 ^ 63 ≤ px then .error notAnInteger
    else if px ≤ 0 ∨ 2 ^ 63 ≤ (now : ℚ) + px then .error invalidExpireTime
    else .ok (some (now + px.num.toNat))

def exec (now : ℕ) (s : Strings) : (c : Cmd) → Strings × Resp c
  | .get key => (s, lookup now s key)
  | .set key value px nx =>
    match expiry now px with
    | .error message => (s, .error message)
    | .ok expireAt =>
      if nx && (lookup now s key).isSome then (s, .ok none) else (s.set key ⟨value, expireAt⟩, .ok (some "OK"))
  | .del key => (s.erase key, ())
  | .flushAll => (.empty, ())

abbrev Client (α : Type) : Type := Prog Resp α

/-- What `get` makes of the answer. -/
def readText : Option String → CacheReply Json
  | none => .value .null
  | some value =>
    if value = "" then .value .null
    else
      match Json.parse value with
      | none => .syntaxError
      | some value => .value value

def get (key : String) : Client (CacheReply Json) := .await (.get key) fun value => .ret (readText value)

def set (key : String) (value : Json) (ttl : Option ℚ) : Client (Except String Unit) :=
  .await (.set key value.stringify ttl false) fun answer => .ret (answer.map fun _ => ())

def setNx (key : String) (value : Json) (ttl : Option ℚ) : Client (Except String Bool) :=
  .await (.set key value.stringify ttl true) fun answer => .ret (answer.map fun result => result = some "OK")

def invalidate (key : String) : Client Unit := .await (.del key) .ret

def clear : Client Unit := .await .flushAll .ret

def prog : CacheCall Json → Client (CacheReply Json)
  | .get key => get key
  | .set key value ttl => do
    match ← set key value ttl with
    | .ok _ => return .void
    | .error message => return .rejected message
  | .setNx key value ttl => do
    match ← setNx key value ttl with
    | .ok b => return .ok b
    | .error message => return .rejected message
  | .invalidate key => do
    invalidate key
    return .void
  | .clear => do
    clear
    return .void

def machine : Machine Resp Strings ℕ Empty (CacheCall Json) (CacheReply Json) where
  exec := exec
  env := fun e _ => e.elim
  enter := fun _ s => s
  prog := prog

end RedisCache

end NodeToolkit
