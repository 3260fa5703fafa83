import NodeToolkit.Spec.Cache
import NodeToolkit.Spec.Quota

/-!
# Quota limits behind a cache

`QuotaLimitsRepositoryCacheDecorator` over `InMemoryQuotaLimitsRepository` and the cache
in memory. The environment can drop an entry of the cache at any time.
-/

namespace NodeToolkit

open Async

/-- `QuotaLimits | null`. -/
instance : JsValue (Option QuotaLimits) where
  null := none
  truthy := Option.isSome
  truthy_null := rfl

namespace QuotaCache

structure Stores where
  limits : OMap String QuotaLimits
  cache : InMemoryCache.Store (Option QuotaLimits)

def Stores.empty : Stores := ⟨.empty, .empty⟩

inductive Cmd where
  | cache (c : InMemoryCache.Cmd (Option QuotaLimits))
  | ofUser (userId : String)
  | update (userId : String) (limits : QuotaLimits)

@[reducible] def Resp : Cmd → Type
  | .cache c => InMemoryCache.Resp c
  | .ofUser _ => Option QuotaLimits
  | .update _ _ => Unit

def exec (now : ℕ) (s : Stores) : (c : Cmd) → Stores × Resp c
  | .cache c => ({ s with cache := (InMemoryCache.exec now s.cache c).1 }, (InMemoryCache.exec now s.cache c).2)
  | .ofUser userId => (s, s.limits.get userId)
  | .update userId limits => ({ s with limits := s.limits.set userId limits }, ())

abbrev Client (α : Type) : Type := Prog Resp α

namespace Client

/-- A function of the cache. -/
def cache {α : Type} (p : InMemoryCache.Client (Option QuotaLimits) α) : Client α := p.embed .cache fun _ r => r

def ofUser (userId : String) : Client (Option QuotaLimits) := .await (.ofUser userId) .ret

def update (userId : String) (limits : QuotaLimits) : Client Unit := .await (.update userId limits) .ret

end Client

def key (userId : String) : String := "quota-limits:" ++ userId

/-- One day in milliseconds. -/
def ONE_DAY : ℕ := 1 * 24 * 60 * 60 * 1000

def ofUser (userId : String) : Client (Option QuotaLimits) := do
  let cached ← Client.cache (InMemoryCache.get (key userId))
  if JsValue.truthy cached then return cached
  else do
    let limits ← Client.ofUser userId
    match limits with
    | none => return none
    | some limits => do
      Client.cache (InMemoryCache.set (key userId) (some limits) (some ONE_DAY))
      return some limits

def update (userId : String) (limits : QuotaLimits) : Client Unit := do
  Client.update userId limits
  Client.cache (InMemoryCache.set (key userId) (some limits) (some ONE_DAY))

inductive Call where
  | ofUser (userId : String)
  | update (userId : String) (limits : QuotaLimits)
deriving DecidableEq

inductive Reply where
  | limits (r : Option QuotaLimits)
  | updated
deriving DecidableEq

def prog : Call → Client Reply
  | .ofUser userId => do
    let r ← ofUser userId
    return .limits r
  | .update userId limits => do
    update userId limits
    return .updated

/-- Any number of calls; a move of the environment drops the entry of a key. -/
def machine : Machine Resp Stores ℕ String Call Reply where
  exec := exec
  env := fun key s => { s with cache := s.cache.erase key }
  enter := fun _ s => s
  prog := prog

end QuotaCache

end NodeToolkit
