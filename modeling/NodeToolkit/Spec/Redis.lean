import NodeToolkit.Async.Pool
import NodeToolkit.Base.Text
import Mathlib.Data.Rat.Defs
import Mathlib.Data.List.Sort

/-!
# Redis

The part of Redis the rate limiters use: integer keys, sorted sets, expiry, and
the one Lua script of the program. Every command is atomic. Integers are
unbounded, where the server's have 64 bits (`INCRBY` refuses to go beyond) and its
scores are doubles: what is said of them holds of values in that range. The integer
keys and the sorted sets have separate name spaces (the program never uses one
name for both).

Expiry follows the server's clock. The clock moves by `advance`, which also drops
the keys whose time has passed; a key is readable up to and including its last
millisecond.
-/

namespace NodeToolkit

open Async

/-- A value with the instant it expires, if `EXPIRE` gave it one. -/
structure Timed (α : Type) where
  val : α
  expireAt : Option ℕ
deriving DecidableEq

/-- Whether a value is still there at the instant `t`. -/
def Timed.alive {α : Type} (t : ℕ) (v : Timed α) : Bool :=
  match v.expireAt with
  | none => true
  | some d => t ≤ d

/-- A bound of a score range: `-inf`, `+inf`, `x` or `(x`. -/
inductive Bound where
  | negInf
  | posInf
  | incl (x : ℤ)
  | excl (x : ℤ)
deriving DecidableEq

/-- The score `s` is not below the minimum `b`. -/
def Bound.minOK (b : Bound) (s : ℤ) : Bool :=
  match b with
  | negInf => true
  | posInf => false
  | incl x => x ≤ s
  | excl x => x < s

/-- The score `s` is not above the maximum `b`. -/
def Bound.maxOK (b : Bound) (s : ℤ) : Bool :=
  match b with
  | negInf => false
  | posInf => true
  | incl x => s ≤ x
  | excl x => s < x

/-- A sorted set: its members with their scores, by score, then by member. -/
abbrev ZSet : Type := List (ℤ × String)

namespace ZSet

/-- The order of a sorted set. -/
def before (a b : ℤ × String) : Prop := a.1 < b.1 ∨ a.1 = b.1 ∧ ¬ b.2.toList < a.2.toList

instance (a b : ℤ × String) : Decidable (before a b) := by unfold before; infer_instance

/-- `ZADD`: a member that is present only has its score updated. -/
def zAdd (z : ZSet) (score : ℤ) (value : String) : ZSet :=
  (z.filter fun e => e.2 ≠ value).orderedInsert before (score, value)

def zRemRangeByScore (z : ZSet) (min max : Bound) : ZSet :=
  z.filter fun e => !(min.minOK e.1 && max.maxOK e.1)

def zRangeByScore (z : ZSet) (min max : Bound) : List String :=
  (z.filter fun e => min.minOK e.1 && max.maxOK e.1).map Prod.snd

end ZSet

/-- The state of the server. -/
structure Redis where
  ints : OMap String (Timed ℤ)
  zsets : OMap String (Timed ZSet)
  clock : ℕ

namespace Redis

/-- A server that holds nothing. -/
def server : Redis := ⟨.empty, .empty, 0⟩

/-- The number a key holds; an absent key counts as `0`. -/
def value (s : Redis) (key : String) : ℤ := ((s.ints.get key).map Timed.val).getD 0

/-- The sorted set a key holds; an absent key is the empty set. -/
def zset (s : Redis) (key : String) : ZSet := ((s.zsets.get key).map Timed.val).getD []

/-- Store a number and keep the expiry of the key. -/
def setInt (s : Redis) (key : String) (n : ℤ) : Redis :=
  { s with ints := s.ints.set key ⟨n, (s.ints.get key).bind Timed.expireAt⟩ }

def incrBy (s : Redis) (key : String) (n : ℤ) : Redis × ℤ :=
  (s.setInt key (s.value key + n), s.value key + n)

def decrBy (s : Redis) (key : String) (n : ℤ) : Redis × ℤ :=
  (s.setInt key (s.value key - n), s.value key - n)

/-- `GET` of an integer key. -/
def getInt (s : Redis) (key : String) : Option ℤ := (s.ints.get key).map Timed.val

/-- Store a sorted set and keep the expiry of the key; an empty set removes the key. -/
def setZSet (s : Redis) (key : String) (z : ZSet) : Redis :=
  if z = [] then { s with zsets := s.zsets.erase key }
  else { s with zsets := s.zsets.set key ⟨z, (s.zsets.get key).bind Timed.expireAt⟩ }

def zAdd (s : Redis) (key : String) (score : ℤ) (value : String) : Redis :=
  s.setZSet key ((s.zset key).zAdd score value)

def zRemRangeByScore (s : Redis) (key : String) (min max : Bound) : Redis :=
  s.setZSet key ((s.zset key).zRemRangeByScore min max)

/-- Give a key that exists a time to live, in seconds. -/
def expire (s : Redis) (key : String) (seconds : ℕ) : Redis :=
  let d := some (s.clock + seconds * 1000)
  { s with
    ints := match s.ints.get key with
      | none => s.ints
      | some v => s.ints.set key { v with expireAt := d }
    zsets := match s.zsets.get key with
      | none => s.zsets
      | some v => s.zsets.set key { v with expireAt := d } }

/-- The server's clock moves on, and keys expire. -/
def advance (s : Redis) (t : ℕ) : Redis :=
  let now := max s.clock t
  ⟨s.ints.keep fun _ => Timed.alive now, s.zsets.keep fun _ => Timed.alive now, now⟩

/-! ## The Lua script of the token bucket -/

/-- `redis.call('DECRBY', key, amount)`: an amount that is no integer is an error. -/
def callDecrBy (s : Redis) (key : String) (amount : ℚ) : Except String (Redis × ℤ) :=
  if amount.den = 1 then .ok (s.decrBy key amount.num)
  else .error "ERR value is not an integer or out of range"

/-- `redis.call('SET', key, n)`: the expiry of the key goes. -/
def callSet (s : Redis) (key : String) (n : ℤ) : Redis :=
  { s with ints := s.ints.set key ⟨n, none⟩ }

/-- `redis.call('KEYS', pattern)`, for a pattern that is a literal text and a final `*`. -/
def callKeys (s : Redis) (text : String) : List String :=
  s.ints.keys.filter fun k => text.toList.isPrefixOf k.toList

/-- The loop of the script: an error stops it, with what it has done so far. -/
def refillKeys (fillRate : ℚ) : List String → Redis → Redis × Except String Unit
  | [], s => (s, .ok ())
  | key :: keys, s =>
    match s.callDecrBy key fillRate with
    | .error e => (s, .error e)
    | .ok (s, newValue) =>
      refillKeys fillRate keys (if newValue < 0 then s.callSet key 0 else s)

/-! ## Commands -/

/-- The commands of the client. `evalRefill` is `EVAL` of the script of
`TokenBucketAlgorithm.resetRates`, whose loop is `refillKeys`. -/
inductive Cmd where
  | incrBy (key : String) (n : ℤ)
  | decrBy (key : String) (n : ℤ)
  | get (key : String)
  | expire (key : String) (seconds : ℕ)
  | zAdd (key : String) (score : ℤ) (value : String)
  | zRemRangeByScore (key : String) (min max : Bound)
  | zRangeByScore (key : String) (min max : Bound)
  | evalRefill (text : String) (fillRate : ℚ)
deriving DecidableEq

/-- The answers. -/
@[reducible] def Resp : Cmd → Type
  | .incrBy _ _ => ℤ
  | .decrBy _ _ => ℤ
  | .get _ => Option ℤ
  | .expire _ _ => Unit
  | .zAdd _ _ _ => Unit
  | .zRemRangeByScore _ _ _ => Unit
  | .zRangeByScore _ _ _ => List String
  | .evalRefill _ _ => Except String Unit

def exec (s : Redis) : (c : Cmd) → Redis × Resp c
  | .incrBy key n => s.incrBy key n
  | .decrBy key n => s.decrBy key n
  | .get key => (s, s.getInt key)
  | .expire key seconds => (s.expire key seconds, ())
  | .zAdd key score value => (s.zAdd key score value, ())
  | .zRemRangeByScore key min max => (s.zRemRangeByScore key min max, ())
  | .zRangeByScore key min max => (s, (s.zset key).zRangeByScore min max)
  | .evalRefill text fillRate => refillKeys fillRate (s.callKeys text) s

/-- An async function of a client of the server. -/
abbrev Client (α : Type) : Type := Prog Resp α

namespace Client

def incrBy (key : String) (n : ℤ) : Client ℤ := .await (.incrBy key n) .ret

def decrBy (key : String) (n : ℤ) : Client ℤ := .await (.decrBy key n) .ret

def get (key : String) : Client (Option ℤ) := .await (.get key) .ret

def expire (key : String) (seconds : ℕ) : Client Unit := .await (.expire key seconds) .ret

def zAdd (key : String) (score : ℤ) (value : String) : Client Unit :=
  .await (.zAdd key score value) .ret

def zRemRangeByScore (key : String) (min max : Bound) : Client Unit :=
  .await (.zRemRangeByScore key min max) .ret

def zRangeByScore (key : String) (min max : Bound) : Client (List String) :=
  .await (.zRangeByScore key min max) .ret

def evalRefill (text : String) (fillRate : ℚ) : Client (Except String Unit) :=
  .await (.evalRefill text fillRate) .ret

end Client

end Redis

end NodeToolkit
