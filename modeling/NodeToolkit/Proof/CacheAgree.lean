import Mathlib.Data.Rat.Lemmas
import Mathlib.Tactic.Linarith
import NodeToolkit.Proof.InMemoryCache

/-!
# The two caches

The same calls, one after another, on the cache in memory and on the one in Redis.

* `expiry_ok`, `expiry_error`: the server takes a positive time to live if it is a whole number of milliseconds
  that ends before its last instant.
* `Matching`: at every later instant the server has the texts of the entries in memory that are
  not expired; an operation keeps it (`Matching.step`).
* `caches_agree_iff`: the replies are the same if and only if the server takes every time to live, and no `setNx`
  finds a value that does not count as true.
-/

namespace NodeToolkit

open Async

/-! ## Reading and writing Redis -/

namespace RedisCache

variable {now now' : ℕ} {r : Strings} {key k text : String} {px : Option ℕ}

theorem lookup_set : lookup now (r.set key ⟨text, px⟩) k =
    if key = k then (if Timed.alive now ⟨text, px⟩ then some text else none) else lookup now r k := by
  unfold lookup
  rw [OMap.get_set]
  by_cases hk : key = k
  · rw [if_pos hk, if_pos hk]
    cases halive : Timed.alive now ⟨text, px⟩ with
    | false => simp [Option.filter, halive]
    | true => simp [Option.filter, halive]
  · rw [if_neg hk, if_neg hk]

theorem lookup_erase : lookup now (r.erase key) k = if key = k then none else lookup now r k := by
  unfold lookup
  rw [OMap.get_erase]
  split
  · rfl
  · rfl

end RedisCache

/-! ## Times to live -/

section Expiry

variable {now now' : ℕ} {ttl : Option ℚ} {expireAt : Option ℕ}

/-- A positive whole number is that of its milliseconds. -/
theorem natCast_toNat {t : ℚ} (hwhole : t.den = 1) (hpos : 0 < t) : ((t.num.toNat : ℕ) : ℚ) = t := by
  have hnum : 0 ≤ t.num := (Rat.num_pos.2 hpos).le
  have hcast : ((t.num.toNat : ℕ) : ℤ) = t.num := Int.toNat_of_nonneg hnum
  rw [← Int.cast_natCast, hcast]
  exact Rat.coe_int_num_of_den_eq_one hwhole

theorem expiry_ok (hpos : ∀ t ∈ ttl, 0 < t) (htaken : ∀ t ∈ ttl, t.den = 1 ∧ (now : ℚ) + t < 2 ^ 63) :
    ∃ expireAt, RedisCache.expiry now ttl = .ok expireAt := by
  cases ttl with
  | none => exact ⟨none, rfl⟩
  | some t =>
    obtain ⟨hden, hend⟩ := htaken t rfl
    have ht := hpos t rfl
    have hnow : (0 : ℚ) ≤ (now : ℚ) := Nat.cast_nonneg now
    have hrange : ¬ (t.den ≠ 1 ∨ t < -2 ^ 63 ∨ 2 ^ 63 ≤ t) := by
      rintro (h | h | h)
      · exact h hden
      · linarith
      · linarith
    have htime : ¬ (t ≤ 0 ∨ 2 ^ 63 ≤ (now : ℚ) + t) := by
      rintro (h | h)
      · linarith
      · linarith
    exact ⟨some (now + t.num.toNat), by rw [RedisCache.expiry, if_neg hrange, if_neg htime]⟩

/-- **Any other time to live** is refused. -/
theorem expiry_error (hnot : ¬ ∀ t ∈ ttl, t.den = 1 ∧ (now : ℚ) + t < 2 ^ 63) :
    ∃ message, RedisCache.expiry now ttl = .error message := by
  cases ttl with
  | none => exact absurd (fun t ht => by cases ht) hnot
  | some t =>
    rw [RedisCache.expiry]
    split
    · exact ⟨_, rfl⟩
    · rename_i hrange
      rw [not_or, not_ne_iff] at hrange
      have hend : 2 ^ 63 ≤ (now : ℚ) + t := by
        by_contra hlt
        refine hnot fun t' ht' => ?_
        cases ht'
        exact ⟨hrange.1, not_le.1 hlt⟩
      rw [if_pos (Or.inr hend)]
      exact ⟨_, rfl⟩

/-- An entry expires in memory when its text expires in Redis. -/
theorem expired_iff_not_alive {V : Type} (value : V) (text : String) (now' : ℕ)
    (hok : RedisCache.expiry now ttl = .ok expireAt) :
    InMemoryCache.expired now' ⟨value, now, ttl⟩ = !Timed.alive now' ⟨text, expireAt⟩ := by
  cases ttl with
  | none =>
    cases hok
    rfl
  | some t =>
    rw [RedisCache.expiry] at hok
    split at hok
    · cases hok
    · rename_i hrange
      split at hok
      · cases hok
      · rename_i htime
        cases hok
        have hden : t.den = 1 := not_ne_iff.1 (not_or.1 hrange).1
        have hpos : 0 < t := not_le.1 (not_or.1 htime).1
        have hne : t ≠ 0 := hpos.ne'
        have hlt : decide ((now : ℚ) + t < (now' : ℚ)) = !decide (now' ≤ now + t.num.toNat) := by
          rw [Bool.eq_iff_iff, Bool.not_eq_true', decide_eq_false_iff_not, decide_eq_true_eq, not_le]
          conv_lhs => rw [← natCast_toNat hden hpos]
          rw [← Nat.cast_add, Nat.cast_lt]
        simp [InMemoryCache.expired, Timed.alive, hne, hlt]

end Expiry

/-! ## Calls executed alone -/

section Calls

variable {now now' t : ℕ} {s : InMemoryCache.Store Json} {r : RedisCache.Strings} {key k text : String} {value : Json}
  {ttl : Option ℚ} {expireAt : Option ℕ}

/-- One instant for all that a call does. -/
def instant (now : ℕ) : ℕ → ℕ := fun _ => now

/-- **The server matches the memory** from the instant `now` on. -/
structure Matching (now : ℕ) (s : InMemoryCache.Store Json) (r : RedisCache.Strings) : Prop where
  same : ∀ now', now ≤ now' → ∀ key,
    RedisCache.lookup now' r key = (InMemoryCache.live now' s key).map Json.stringify
  valid : ∀ key entry, s.get key = some entry → entry.value.Valid

theorem matching_empty : Matching 0 .empty .empty where
  same := fun _ _ _ => rfl
  valid := fun _ _ h => by simp at h

theorem Matching.mono (h : Matching now s r) (hle : now ≤ now') : Matching now' s r :=
  ⟨fun t ht => h.same t (by omega), h.valid⟩

theorem Matching.live_valid (h : Matching now s r) {v : Json} (hv : InMemoryCache.live now' s key = some v) :
    v.Valid := by
  obtain ⟨entry, hentry, rfl⟩ := Option.map_eq_some_iff.1 hv
  exact h.valid key entry (Option.filter_eq_some_iff.1 hentry).1

/-- Reading in memory may drop an expired entry. -/
theorem Matching.get (h : Matching now s r) : Matching now (InMemoryCache.exec now s (.get key)).1 r := by
  refine ⟨fun now' hnow k => ?_, fun k entry hget => ?_⟩
  · rw [InMemoryCache.live_get hnow]
    exact h.same now' hnow k
  · rcases InMemoryCache.get_state now s key with hs | ⟨hs, -⟩
    · rw [hs] at hget
      exact h.valid k entry hget
    · rw [hs, OMap.get_erase] at hget
      split at hget
      · simp at hget
      · exact h.valid k entry hget

/-- Both store a value under a key. -/
theorem Matching.set (h : Matching now s r) (hvalue : value.Valid) (hok : RedisCache.expiry now ttl = .ok expireAt) :
    Matching now (s.set key ⟨value, now, ttl⟩) (r.set key ⟨value.stringify, expireAt⟩) := by
  refine ⟨fun now' hnow k => ?_, fun k entry hget => ?_⟩
  · have hexp := expired_iff_not_alive value value.stringify now' hok
    rw [RedisCache.lookup_set, InMemoryCache.live_set, hexp]
    split
    · cases Timed.alive now' ⟨value.stringify, expireAt⟩ <;> rfl
    · exact h.same now' hnow k
  · rw [OMap.get_set] at hget
    split at hget
    · rw [← Option.some.inj hget]
      exact hvalue
    · exact h.valid k entry hget

theorem Matching.erase (h : Matching now s r) : Matching now (s.erase key) (r.erase key) := by
  refine ⟨fun now' hnow k => ?_, fun k entry hget => ?_⟩
  · rw [RedisCache.lookup_erase, InMemoryCache.live_erase]
    split
    · rfl
    · exact h.same now' hnow k
  · rw [OMap.get_erase] at hget
    split at hget
    · simp at hget
    · exact h.valid k entry hget

/-- `setNx` in memory: a value that counts as true stays, anything else is replaced. -/
theorem memory_setNx : (InMemoryCache.machine Json).alone s (.setNx key value ttl) (instant now) =
    if JsValue.truthy ((InMemoryCache.live now s key).getD JsValue.null) then
      ((InMemoryCache.exec now s (.get key)).1, .ok false)
    else ((InMemoryCache.exec now s (.get key)).1.set key ⟨value, now, ttl⟩, .ok true) := by
  rw [← InMemoryCache.get_reply, Machine.alone]
  have hprog := InMemoryCache.prog_setNx (V := Json) key value ttl
  simp only [InMemoryCache.machine, hprog, Prog.run_await]
  have hdrive : drive InMemoryCache.exec (s, instant now) (.get key) =
      (((InMemoryCache.exec now s (.get key)).1, instant now), (InMemoryCache.exec now s (.get key)).2) := rfl
  rw [hdrive]
  dsimp only
  split
  · rfl
  · rfl

/-- What `set` makes of the answer of the server. -/
def written : Except String (Option String) → CacheReply Json
  | .ok _ => .void
  | .error message => .rejected message

/-- What `setNx` makes of it. -/
def writtenNx : Except String (Option String) → CacheReply Json
  | .ok result => .ok (result = some "OK")
  | .error message => .rejected message

theorem redis_set : RedisCache.machine.alone r (.set key value ttl) (instant now) =
    ((RedisCache.exec now r (.set key value.stringify ttl false)).1,
      written (RedisCache.exec now r (.set key value.stringify ttl false)).2) := by
  have hprog : RedisCache.prog (.set key value ttl) =
      .await (.set key value.stringify ttl false) fun answer => .ret (written answer) := by
    simp only [RedisCache.prog, RedisCache.set, Prog.await_bind, Prog.ret_bind]
    congr 1
    funext answer
    cases answer with
    | ok result => rfl
    | error message => rfl
  rw [Machine.alone, show RedisCache.machine.prog (.set key value ttl) = _ from hprog]
  rfl

theorem redis_setNx : RedisCache.machine.alone r (.setNx key value ttl) (instant now) =
    ((RedisCache.exec now r (.set key value.stringify ttl true)).1,
      writtenNx (RedisCache.exec now r (.set key value.stringify ttl true)).2) := by
  have hprog : RedisCache.prog (.setNx key value ttl) =
      .await (.set key value.stringify ttl true) fun answer => .ret (writtenNx answer) := by
    simp only [RedisCache.prog, RedisCache.setNx, Prog.await_bind, Prog.ret_bind]
    congr 1
    funext answer
    cases answer with
    | ok result => rfl
    | error message => rfl
  rw [Machine.alone, show RedisCache.machine.prog (.setNx key value ttl) = _ from hprog]
  rfl

/-- `SET` with a time to live that the server takes. -/
theorem exec_set_ok (hok : RedisCache.expiry now ttl = .ok expireAt) :
    RedisCache.exec now r (.set key text ttl false) = (r.set key ⟨text, expireAt⟩, .ok (some "OK")) := by
  simp [RedisCache.exec, hok]

/-- `SET NX`: a value stays, whatever it is. -/
theorem exec_setNx_ok (hok : RedisCache.expiry now ttl = .ok expireAt) :
    RedisCache.exec now r (.set key text ttl true) = if (RedisCache.lookup now r key).isSome then (r, .ok none)
      else (r.set key ⟨text, expireAt⟩, .ok (some "OK")) := by
  simp [RedisCache.exec, hok]

/-- A time to live that the server refuses: nothing is set. -/
theorem exec_set_error {message : String} {nx : Bool} (herror : RedisCache.expiry now ttl = .error message) :
    RedisCache.exec now r (.set key text ttl nx) = (r, .error message) := by
  simp [RedisCache.exec, herror]

/-- A read in Redis finds the value of the text. -/
theorem redis_get (h : Matching now s r) : RedisCache.machine.alone r (.get key) (instant now) =
    (r, .value ((InMemoryCache.live now s key).getD .null)) := by
  have hlookup := h.same now (Nat.le_refl now) key
  have hrun : RedisCache.machine.alone r (.get key) (instant now) =
      (r, RedisCache.readText (RedisCache.lookup now r key)) := rfl
  rw [hrun, hlookup]
  cases hv : InMemoryCache.live now s key with
  | none => rfl
  | some v =>
    have hvalid := h.live_valid hv
    have hempty := Json.stringify_ne_empty hvalid
    have hparse := Json.parse_stringify hvalid
    rw [Option.map_some, RedisCache.readText, if_neg hempty, hparse]
    rfl

/-! ## One call -/

variable {x : CacheCall Json}

/-- The value is one that a text can stand for, and the time to live is positive. -/
def CacheCall.Proper : CacheCall Json → Prop
  | .set _ value ttl => value.Valid ∧ ∀ t ∈ ttl, 0 < t
  | .setNx _ value ttl => value.Valid ∧ ∀ t ∈ ttl, 0 < t
  | _ => True

/-- **The server takes the time to live**: a whole number of milliseconds, at an instant from which it ends
before the last one. -/
def CacheCall.Taken (now : ℕ) : CacheCall Json → Prop
  | .set _ _ ttl => ∀ t ∈ ttl, t.den = 1 ∧ (now : ℚ) + t < 2 ^ 63
  | .setNx _ _ ttl => ∀ t ∈ ttl, t.den = 1 ∧ (now : ℚ) + t < 2 ^ 63
  | _ => True

instance (now : ℕ) : ∀ x : CacheCall Json, Decidable (x.Taken now)
  | .set _ _ ttl | .setNx _ _ ttl => inferInstanceAs (Decidable (∀ t ∈ ttl, t.den = 1 ∧ (now : ℚ) + t < 2 ^ 63))
  | .get _ | .invalidate _ | .clear => inferInstanceAs (Decidable True)

/-- **A `setNx` does not find** a value that counts as false. -/
def CacheCall.Unambiguous (now : ℕ) (s : InMemoryCache.Store Json) : CacheCall Json → Prop
  | .setNx key _ _ => ∀ v ∈ InMemoryCache.live now s key, JsValue.truthy v = true
  | _ => True

/-- An unambiguous `setNx` writes in both caches, or in neither. -/
theorem Matching.setNx (h : Matching now s r) (hvalue : value.Valid) (hok : RedisCache.expiry now ttl = .ok expireAt)
    (hu : ∀ v ∈ InMemoryCache.live now s key, JsValue.truthy v = true) :
    ((InMemoryCache.machine Json).alone s (.setNx key value ttl) (instant now)).2 =
      (RedisCache.machine.alone r (.setNx key value ttl) (instant now)).2 ∧
    Matching now ((InMemoryCache.machine Json).alone s (.setNx key value ttl) (instant now)).1
      (RedisCache.machine.alone r (.setNx key value ttl) (instant now)).1 := by
  have hlookup := h.same now (Nat.le_refl now) key
  have hread : Matching now (InMemoryCache.exec now s (.get key)).1 r := h.get
  rw [memory_setNx, redis_setNx, exec_setNx_ok hok, hlookup]
  cases hv : InMemoryCache.live now s key with
  | none =>
    simp only [Option.getD_none, JsValue.truthy_null, Bool.false_eq_true, if_false, Option.map_none, Option.isSome_none]
    exact ⟨by simp [writtenNx], hread.set hvalue hok⟩
  | some v =>
    have htruthy := hu v hv
    simp only [Option.getD_some, htruthy, if_true, Option.map_some, Option.isSome_some]
    exact ⟨by simp [writtenNx], hread⟩

/-- **One call** returns the same from both caches and keeps them matching, if its time to live is taken and it
is unambiguous. -/
theorem Matching.step (h : Matching now s r) (hx : x.Proper) (htaken : x.Taken now) (hu : x.Unambiguous now s) :
    ((InMemoryCache.machine Json).alone s x (instant now)).2 = (RedisCache.machine.alone r x (instant now)).2 ∧
    Matching now ((InMemoryCache.machine Json).alone s x (instant now)).1
      (RedisCache.machine.alone r x (instant now)).1 := by
  cases x with
  | get key =>
    have hreply : ((InMemoryCache.machine Json).alone s (.get key) (instant now)) =
        ((InMemoryCache.exec now s (.get key)).1, .value (InMemoryCache.exec now s (.get key)).2) := rfl
    rw [hreply, redis_get h, InMemoryCache.get_reply]
    exact ⟨rfl, h.get⟩
  | set key value ttl =>
    obtain ⟨expireAt, hok⟩ : ∃ expireAt, RedisCache.expiry now ttl = .ok expireAt := expiry_ok hx.2 htaken
    rw [redis_set, exec_set_ok hok]
    exact ⟨rfl, h.set hx.1 hok⟩
  | setNx key value ttl =>
    obtain ⟨expireAt, hok⟩ : ∃ expireAt, RedisCache.expiry now ttl = .ok expireAt := expiry_ok hx.2 htaken
    exact h.setNx hx.1 hok hu
  | invalidate key => exact ⟨rfl, h.erase⟩
  | clear => exact ⟨rfl, matching_empty.mono (Nat.zero_le now)⟩

/-- **A time to live that is not taken** is refused by Redis, and the cache in memory goes by it. -/
theorem refused (hnot : ¬ x.Taken now) :
    ((InMemoryCache.machine Json).alone s x (instant now)).2 ≠ (RedisCache.machine.alone r x (instant now)).2 := by
  cases x with
  | set key value ttl =>
    obtain ⟨message, herror⟩ := expiry_error hnot
    rw [redis_set, exec_set_error herror]
    exact nofun
  | setNx key value ttl =>
    obtain ⟨message, herror⟩ := expiry_error hnot
    rw [memory_setNx, redis_setNx, exec_set_error herror]
    split
    · exact nofun
    · exact nofun
  | get key => exact absurd trivial hnot
  | invalidate key => exact absurd trivial hnot
  | clear => exact absurd trivial hnot

example : ¬ (CacheCall.set "k" (.number "1") (some (1 / 2))).Taken 1 := by decide +kernel

/-- **An ambiguous call** returns `true` from the cache in memory and `false` from the other. -/
theorem Matching.differ (h : Matching now s r) (hx : x.Proper) (htaken : x.Taken now) (hu : ¬ x.Unambiguous now s) :
    ((InMemoryCache.machine Json).alone s x (instant now)).2 ≠ (RedisCache.machine.alone r x (instant now)).2 := by
  cases x with
  | setNx key value ttl =>
    have hlookup := h.same now (Nat.le_refl now) key
    obtain ⟨expireAt, hok⟩ : ∃ expireAt, RedisCache.expiry now ttl = .ok expireAt := expiry_ok hx.2 htaken
    simp only [CacheCall.Unambiguous, not_forall, Bool.not_eq_true] at hu
    obtain ⟨v, hv, hfalsy⟩ := hu
    have hlive : InMemoryCache.live now s key = some v := hv
    rw [memory_setNx, redis_setNx, exec_setNx_ok hok, hlookup, hlive]
    simp [hfalsy, writtenNx]
  | get key => exact absurd trivial hu
  | set key value ttl => exact absurd trivial hu
  | invalidate key => exact absurd trivial hu
  | clear => exact absurd trivial hu

/-! ## Every run -/

variable {xs : List (CacheCall Json × ℕ)}

/-- Calls, each at its instant. -/
def timed (xs : List (CacheCall Json × ℕ)) : List (CacheCall Json × (ℕ → ℕ)) := xs.map fun x => (x.1, instant x.2)

/-- Every call is unambiguous for the cache in memory that it meets. -/
def Unambiguous : InMemoryCache.Store Json → List (CacheCall Json × ℕ) → Prop
  | _, [] => True
  | s, (x, now) :: xs => x.Unambiguous now s ∧
      Unambiguous ((InMemoryCache.machine Json).alone s x (instant now)).1 xs

/-- From matching stores, at instants from `now` on, the replies are the same just when every time to live is
taken and every call unambiguous. -/
theorem replies_eq_iff (hx : ∀ x ∈ xs, x.1.Proper) : ∀ {now s r}, Matching now s r → (∀ x ∈ xs, now ≤ x.2) →
    (xs.map Prod.snd).Pairwise (· ≤ ·) →
    ((InMemoryCache.machine Json).replies s (timed xs) = RedisCache.machine.replies r (timed xs) ↔
      (∀ x ∈ xs, x.1.Taken x.2) ∧ Unambiguous s xs) := by
  induction xs with
  | nil => exact fun _ _ _ => iff_of_true rfl ⟨nofun, trivial⟩
  | cons x xs ih =>
    intro now s r h hnow hclock
    obtain ⟨x, t⟩ := x
    rw [List.map_cons, List.pairwise_cons] at hclock
    have ht : Matching t s r := h.mono (hnow (x, t) (by simp))
    have hlater : ∀ y ∈ xs, t ≤ y.2 := fun y hy => hclock.1 y.2 (List.mem_map_of_mem hy)
    have hproper : x.Proper := hx (x, t) (by simp)
    rw [List.forall_mem_cons]
    show (_ :: _ = _ :: _) ↔ _
    rw [List.cons.injEq]
    by_cases htaken : x.Taken t
    · by_cases hu : x.Unambiguous t s
      · obtain ⟨hreply, hnext⟩ := ht.step hproper htaken hu
        have hrest := ih (fun y hy => hx y (by simp [hy])) hnext hlater hclock.2
        constructor
        · rintro ⟨-, heq⟩
          obtain ⟨hall, hun⟩ := hrest.1 heq
          exact ⟨⟨htaken, hall⟩, hu, hun⟩
        · rintro ⟨⟨-, hall⟩, -, hun⟩
          exact ⟨hreply, hrest.2 ⟨hall, hun⟩⟩
      · exact ⟨fun heq => absurd heq.1 (ht.differ hproper htaken hu), fun hall => absurd hall.2.1 hu⟩
    · exact ⟨fun heq => absurd heq.1 (refused htaken), fun hall => absurd hall.1.1 htaken⟩

/-- **The caches agree** on a run of calls at non-decreasing instants if and only if the server takes every time
to live in it, and no `setNx` finds a value that counts as false. -/
theorem caches_agree_iff (hx : ∀ x ∈ xs, x.1.Proper) (hclock : (xs.map Prod.snd).Pairwise (· ≤ ·)) :
    (InMemoryCache.machine Json).replies .empty (timed xs) = RedisCache.machine.replies .empty (timed xs) ↔
      (∀ x ∈ xs, x.1.Taken x.2) ∧ Unambiguous .empty xs :=
  replies_eq_iff hx matching_empty (fun _ _ => Nat.zero_le _) hclock

instance (now : ℕ) (s : InMemoryCache.Store Json) : ∀ x : CacheCall Json, Decidable (x.Unambiguous now s)
  | .setNx key _ _ =>
    inferInstanceAs (Decidable (∀ v ∈ InMemoryCache.live now s key, JsValue.truthy v = true))
  | .get _ | .set _ _ _ | .invalidate _ | .clear => inferInstanceAs (Decidable True)

instance Unambiguous.decidable : ∀ (s : InMemoryCache.Store Json) (xs : List (CacheCall Json × ℕ)),
    Decidable (Unambiguous s xs)
  | _, [] => inferInstanceAs (Decidable True)
  | s, (x, now) :: xs =>
    have : Decidable (Unambiguous ((InMemoryCache.machine Json).alone s x (instant now)).1 xs) :=
      Unambiguous.decidable _ xs
    inferInstanceAs (Decidable (x.Unambiguous now s ∧ _))

/-- A zero is stored and read; a text is stored for ten milliseconds, kept, and replaced when it has expired. -/
def fiveCalls : List (CacheCall Json × ℕ) :=
  [(.set "zero" (.number "0") none, 1), (.get "zero", 1), (.setNx "text" (.string "a") (some 10), 2),
    (.setNx "text" (.string "b") none, 12), (.setNx "text" (.string "c") none, 13)]

theorem caches_agree_fiveCalls : (InMemoryCache.machine Json).replies .empty (timed fiveCalls) =
    RedisCache.machine.replies .empty (timed fiveCalls) := by
  refine (caches_agree_iff ?_ ?_).2 ⟨?_, ?_⟩
  · intro x hx
    simp only [fiveCalls, List.mem_cons, List.not_mem_nil, or_false] at hx
    rcases hx with rfl | rfl | rfl | rfl | rfl
    · exact ⟨by rw [Json.Valid]; decide, fun t ht => by simp at ht⟩
    · trivial
    · exact ⟨by rw [Json.Valid]; trivial, by decide⟩
    · exact ⟨by rw [Json.Valid]; trivial, fun t ht => by simp at ht⟩
    · exact ⟨by rw [Json.Valid]; trivial, fun t ht => by simp at ht⟩
  · decide
  · decide +kernel
  · decide +kernel

/-- **A stored zero** is replaced by `setNx` in memory and kept in Redis. -/
theorem caches_differ_zero :
    (InMemoryCache.machine Json).replies .empty
      (timed [(.set "k" (.number "0") none, 1), (.setNx "k" (.number "1") none, 2)]) = [.void, .ok true] ∧
    RedisCache.machine.replies .empty
      (timed [(.set "k" (.number "0") none, 1), (.setNx "k" (.number "1") none, 2)]) = [.void, .ok false] :=
  ⟨rfl, rfl⟩

end Calls

end NodeToolkit
