import Mathlib.Data.Nat.Cast.Order.Basic
import NodeToolkit.Spec.Cache

/-!
# The cache in memory

What is live at an instant, and what reading and writing make of it.
-/

namespace NodeToolkit

open Async

namespace InMemoryCache

variable {V : Type} {now now' : ℕ} {s : Store V} {key k : String} {value : V} {ttl : Option ℚ}

/-- The value that a key has at an instant. -/
def live (now : ℕ) (s : Store V) (key : String) : Option V :=
  ((s.get key).filter fun entry => !expired now entry).map CacheEntry.value

/-- Time does not bring an entry back. -/
theorem expired_mono {entry : CacheEntry V} (h : now ≤ now') (hexp : expired now entry = true) :
    expired now' entry = true := by
  unfold expired at hexp ⊢
  cases httl : entry.ttl with
  | none => rw [httl] at hexp; exact hexp
  | some ttl =>
    rw [httl] at hexp
    simp only [Bool.and_eq_true, decide_eq_true_eq] at hexp ⊢
    have hle : (now : ℚ) ≤ (now' : ℚ) := Nat.cast_le.2 h
    exact ⟨hexp.1, hexp.2.trans_le hle⟩

theorem live_set : live now (s.set key ⟨value, now', ttl⟩) k =
    if key = k then (if expired now ⟨value, now', ttl⟩ then none else some value) else live now s k := by
  unfold live
  rw [OMap.get_set]
  by_cases hk : key = k
  · rw [if_pos hk, if_pos hk]
    cases hexp : expired now ⟨value, now', ttl⟩ with
    | false => simp [Option.filter, hexp]
    | true => simp [Option.filter, hexp]
  · rw [if_neg hk, if_neg hk]

theorem live_erase : live now (s.erase key) k = if key = k then none else live now s k := by
  unfold live
  rw [OMap.get_erase]
  split
  · rfl
  · rfl

theorem exec_get_none [JsValue V] (h : s.get key = none) : exec now s (.get key) = (s, JsValue.null) := by
  simp only [exec]
  rw [h]

theorem exec_get_some [JsValue V] {entry : CacheEntry V} (h : s.get key = some entry) :
    exec now s (.get key) = if expired now entry then (s.erase key, JsValue.null) else (s, entry.value) := by
  simp only [exec]
  rw [h]

/-- A read returns the live value, or `null`. -/
theorem get_reply [JsValue V] : (exec now s (.get key)).2 = (live now s key).getD JsValue.null := by
  unfold live
  cases hget : s.get key with
  | none =>
    rw [exec_get_none hget]
    rfl
  | some entry =>
    rw [exec_get_some hget]
    cases hexp : expired now entry <;> simp [Option.filter, hexp]

/-- What a read leaves: all entries, or all but an expired one. -/
theorem get_state [JsValue V] (now : ℕ) (s : Store V) (key : String) : (exec now s (.get key)).1 = s ∨
    (exec now s (.get key)).1 = s.erase key ∧ ∃ entry, s.get key = some entry ∧ expired now entry = true := by
  cases hget : s.get key with
  | none =>
    rw [exec_get_none hget]
    exact Or.inl rfl
  | some entry =>
    rw [exec_get_some hget]
    cases hexp : expired now entry with
    | false => exact Or.inl (by simp)
    | true => exact Or.inr ⟨by simp, entry, rfl, hexp⟩

/-- **A read** changes nothing that is live from then on. -/
theorem live_get [JsValue V] (h : now ≤ now') : live now' (exec now s (.get key)).1 k = live now' s k := by
  rcases get_state now s key with hs | ⟨hs, entry, hget, hexp⟩
  · rw [hs]
  · rw [hs, live_erase]
    split
    · rename_i hk
      have hexp' := expired_mono h hexp
      rw [← hk, live, hget]
      simp [Option.filter, hexp']
    · rfl

/-- `setNx` reads, and then writes if what it has read does not count as true. -/
theorem prog_setNx [JsValue V] (key : String) (value : V) (ttl : Option ℚ) :
    prog (.setNx key value ttl) = .await (.get key) fun entry =>
      if JsValue.truthy entry then .ret (.ok false)
      else .await (.set key value ttl) fun _ => .ret (.ok true) := by
  simp only [prog, setNx, get, Prog.await_bind, Prog.ret_bind]
  congr 1
  funext entry
  split
  · rfl
  · rfl

end InMemoryCache

end NodeToolkit
