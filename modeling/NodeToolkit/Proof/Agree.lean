import NodeToolkit.Proof.Redis

/-!
# States of Redis that agree on some keys

* `exec_agree`: a command on keys where two states agree gets the same answer from
  both and leaves them in agreement.
* `exec_hidden`: a command on other keys changes nothing there.
* `AgreeOn.refill`: the refill script keeps states in agreement, on any keys; only
  its answer may differ.
-/

namespace NodeToolkit.Redis

open Async

/-- The states agree on the clock and on the keys in `K`. -/
def AgreeOn (K : String → Prop) (s s' : Redis) : Prop :=
  s.clock = s'.clock ∧ ∀ k, K k → s.ints.get k = s'.ints.get k ∧ s.zsets.get k = s'.zsets.get k

/-- The command names a key in `K`, and no other. -/
def Cmd.On (K : String → Prop) : Cmd → Prop
  | .incrBy key _ => K key
  | .decrBy key _ => K key
  | .get key => K key
  | .expire key _ => K key
  | .zAdd key _ _ => K key
  | .zRemRangeByScore key _ _ => K key
  | .zRangeByScore key _ _ => K key
  | .evalRefill _ _ => False

section Agree

variable {K : String → Prop} {s s' : Redis} {key : String}

theorem agreeOn_equivalence (K : String → Prop) : Equivalence (AgreeOn K) where
  refl _ := ⟨rfl, fun _ _ => ⟨rfl, rfl⟩⟩
  symm h := ⟨h.1.symm, fun k hk => ⟨(h.2 k hk).1.symm, (h.2 k hk).2.symm⟩⟩
  trans h h' := ⟨h.1.trans h'.1, fun k hk =>
    ⟨(h.2 k hk).1.trans (h'.2 k hk).1, (h.2 k hk).2.trans (h'.2 k hk).2⟩⟩

/-- The counters of `K` read the same. -/
theorem AgreeOn.value (h : AgreeOn K s s') (hk : K key) : s.value key = s'.value key := by
  unfold Redis.value; rw [(h.2 key hk).1]

/-- The sorted sets of `K` hold the same. -/
theorem AgreeOn.zset (h : AgreeOn K s s') (hk : K key) : s.zset key = s'.zset key := by
  unfold Redis.zset; rw [(h.2 key hk).2]

/-- A counter that is set keeps its expiry, and no other changes. -/
theorem get_setInt (s : Redis) (key : String) (n : ℤ) (k : String) : (s.setInt key n).ints.get k =
    if key = k then some ⟨n, (s.ints.get k).bind Timed.expireAt⟩ else s.ints.get k := by
  unfold setInt
  rw [OMap.get_set]
  split
  · rename_i h; rw [h]
  · rfl

/-- A sorted set that is stored keeps its expiry, an empty one is dropped, and no other changes. -/
theorem zsets_get_setZSet_cases (s : Redis) (key : String) (z : ZSet) (k : String) :
    (s.setZSet key z).zsets.get k = if key = k then
      (if z = [] then none else some ⟨z, (s.zsets.get k).bind Timed.expireAt⟩) else s.zsets.get k := by
  by_cases hk : key = k
  · subst hk
    rw [if_pos rfl]
    by_cases hz : z = []
    · rw [if_pos hz, setZSet, if_pos hz]
      simp [OMap.get_erase]
    · rw [if_neg hz, zsets_get_setZSet _ _ hz]
  · rw [if_neg hk, zsets_get_setZSet_ne _ _ hk]

theorem ints_setZSet (s : Redis) (key : String) (z : ZSet) : (s.setZSet key z).ints = s.ints := by
  unfold setZSet; split <;> rfl

/-- `EXPIRE` gives an expiry to a counter that is there. -/
theorem ints_get_expire (s : Redis) (key : String) (seconds : ℕ) (k : String) :
    (s.expire key seconds).ints.get k = if key = k then
      (s.ints.get k).map fun v => ⟨v.val, some (s.clock + seconds * 1000)⟩ else s.ints.get k := by
  simp only [expire]
  cases h : s.ints.get key with
  | none =>
    by_cases hk : key = k
    · subst hk; simp [h]
    · simp [hk]
  | some v =>
    by_cases hk : key = k
    · subst hk; simp [h]
    · simp [hk, OMap.get_set]

/-- Setting a counter, of `K` or not, to the same value on both sides. -/
theorem AgreeOn.setInt (h : AgreeOn K s s') (key : String) (n : ℤ) :
    AgreeOn K (s.setInt key n) (s'.setInt key n) := by
  refine ⟨h.1, fun k hk => ⟨?_, (h.2 k hk).2⟩⟩
  rw [get_setInt, get_setInt, (h.2 k hk).1]

/-- Storing a sorted set, of `K` or not, on both sides. -/
theorem AgreeOn.setZSet (h : AgreeOn K s s') (key : String) (z : ZSet) :
    AgreeOn K (s.setZSet key z) (s'.setZSet key z) := by
  refine ⟨by rw [clock_setZSet, clock_setZSet, h.1], fun k hk => ⟨?_, ?_⟩⟩
  · rw [ints_setZSet, ints_setZSet, (h.2 k hk).1]
  · rw [zsets_get_setZSet_cases, zsets_get_setZSet_cases, (h.2 k hk).2]

/-- An `EXPIRE` on both sides: the clocks agree, and so do the instants. -/
theorem AgreeOn.expire (h : AgreeOn K s s') (key : String) (seconds : ℕ) :
    AgreeOn K (s.expire key seconds) (s'.expire key seconds) := by
  refine ⟨h.1, fun k hk => ⟨?_, ?_⟩⟩
  · rw [ints_get_expire, ints_get_expire, (h.2 k hk).1, h.1]
  · rw [zsets_get_expire, zsets_get_expire, (h.2 k hk).2, h.1]

theorem ne_of_not {k : String} (hk : ¬ K key) (hK : K k) : key ≠ k := by
  rintro rfl
  exact hk hK

/-- Setting another counter is not seen on `K`. -/
theorem agreeOn_setInt (hk : ¬ K key) (n : ℤ) : AgreeOn K (s.setInt key n) s :=
  ⟨rfl, fun k hK => ⟨by rw [get_setInt, if_neg (ne_of_not hk hK)], rfl⟩⟩

/-- Storing another sorted set is not seen on `K`. -/
theorem agreeOn_setZSet (hk : ¬ K key) (z : ZSet) : AgreeOn K (s.setZSet key z) s := by
  refine ⟨clock_setZSet .., fun k hK => ⟨by rw [ints_setZSet], ?_⟩⟩
  rw [zsets_get_setZSet_cases, if_neg (ne_of_not hk hK)]

/-- An `EXPIRE` of another key is not seen on `K`. -/
theorem agreeOn_expire (hk : ¬ K key) (seconds : ℕ) : AgreeOn K (s.expire key seconds) s := by
  refine ⟨rfl, fun k hK => ⟨?_, ?_⟩⟩
  · rw [ints_get_expire, if_neg (ne_of_not hk hK)]
  · rw [zsets_get_expire, if_neg (ne_of_not hk hK)]

section Uses

variable (h : K key) (n : ℤ) (min max : Bound)
include h

theorem incrBy_uses : (Client.incrBy key n).Uses (Cmd.On K) := ⟨h, fun _ => trivial⟩

theorem decrBy_uses : (Client.decrBy key n).Uses (Cmd.On K) := ⟨h, fun _ => trivial⟩

theorem get_uses : (Client.get key).Uses (Cmd.On K) := ⟨h, fun _ => trivial⟩

theorem expire_uses (seconds : ℕ) : (Client.expire key seconds).Uses (Cmd.On K) := ⟨h, fun _ => trivial⟩

theorem zAdd_uses (value : String) : (Client.zAdd key n value).Uses (Cmd.On K) := ⟨h, fun _ => trivial⟩

theorem zRemRangeByScore_uses : (Client.zRemRangeByScore key min max).Uses (Cmd.On K) :=
  ⟨h, fun _ => trivial⟩

theorem zRangeByScore_uses : (Client.zRangeByScore key min max).Uses (Cmd.On K) := ⟨h, fun _ => trivial⟩

end Uses

/-- **A command on keys in `K`** does the same to states that agree on `K`. -/
theorem exec_agree {c : Cmd} (hc : c.On K) (h : AgreeOn K s s') :
    AgreeOn K (exec s c).1 (exec s' c).1 ∧ (exec s c).2 = (exec s' c).2 := by
  cases c with
  | incrBy key n =>
    have hv := h.value hc
    simp only [exec, incrBy, hv]
    exact ⟨h.setInt key _, trivial⟩
  | decrBy key n =>
    have hv := h.value hc
    simp only [exec, decrBy, hv]
    exact ⟨h.setInt key _, trivial⟩
  | get key => exact ⟨h, by simp only [exec, getInt, (h.2 key hc).1]⟩
  | expire key seconds => exact ⟨h.expire key seconds, rfl⟩
  | zAdd key score value =>
    have hz := h.zset hc
    simp only [exec, zAdd, hz]
    exact ⟨h.setZSet key _, trivial⟩
  | zRemRangeByScore key min max =>
    have hz := h.zset hc
    simp only [exec, zRemRangeByScore, hz]
    exact ⟨h.setZSet key _, trivial⟩
  | zRangeByScore key min max => exact ⟨h, by simp only [exec, h.zset hc]⟩
  | evalRefill text fillRate => exact hc.elim

/-- **A command on other keys** changes nothing on `K`. -/
theorem exec_hidden {c : Cmd} (hc : c.On fun k => ¬ K k) : AgreeOn K (exec s c).1 s := by
  cases c with
  | incrBy key n => exact agreeOn_setInt hc _
  | decrBy key n => exact agreeOn_setInt hc _
  | get key => exact (agreeOn_equivalence K).refl s
  | expire key seconds => exact agreeOn_expire hc _
  | zAdd key score value => exact agreeOn_setZSet hc _
  | zRemRangeByScore key min max => exact agreeOn_setZSet hc _
  | zRangeByScore key min max => exact (agreeOn_equivalence K).refl s
  | evalRefill text fillRate => exact hc.elim

/-- The clock moves on both sides: the same keys of `K` are dropped. -/
theorem AgreeOn.advance (h : AgreeOn K s s') (t : ℕ) : AgreeOn K (s.advance t) (s'.advance t) := by
  refine ⟨by simp only [Redis.advance, h.1], fun k hk => ⟨?_, ?_⟩⟩
  · simp only [Redis.advance, OMap.get_keep, (h.2 k hk).1, h.1]
  · simp only [Redis.advance, OMap.get_keep, (h.2 k hk).2, h.1]

/-! ## The refill script -/

variable {fillRate : ℚ} {k : String}

/-- The script takes no time. -/
theorem clock_refillKeys {keys : List String} : ∀ {s : Redis}, (refillKeys fillRate keys s).1.clock = s.clock := by
  induction keys with
  | nil => intro s; rfl
  | cons key keys ih =>
    intro s
    by_cases hf : fillRate.den = 1
    · rw [refillKeys_cons hf, ih]
      unfold refillKey
      split <;> rfl
    · rw [refillKeys_of_den_ne_one hf]

/-- What a round of the script makes of its key depends on nothing else. -/
theorem refillKey_congr (h : s.ints.get k = s'.ints.get k) :
    (refillKey fillRate s k).ints.get k = (refillKey fillRate s' k).ints.get k := by
  have hv : s.value k = s'.value k := by unfold Redis.value; rw [h]
  unfold refillKey
  rw [hv]
  split
  · simp [callSet]
  · simp only [decrBy, get_setInt, hv, h]

/-- The script serves each of its keys once. -/
theorem ints_get_refillKeys (hf : fillRate.den = 1) {keys : List String} (hnd : keys.Nodup) :
    ∀ {s : Redis}, (refillKeys fillRate keys s).1.ints.get k =
      if k ∈ keys then (refillKey fillRate s k).ints.get k else s.ints.get k := by
  induction keys with
  | nil => intro s; rfl
  | cons key keys ih =>
    intro s
    obtain ⟨hkey, hnd⟩ := List.nodup_cons.1 hnd
    rw [refillKeys_cons hf, ih hnd]
    by_cases h : key = k
    · subst h
      rw [if_neg hkey, if_pos (List.mem_cons_self ..)]
    · have hother : (refillKey fillRate s key).ints.get k = s.ints.get k := get_refillKey h
      rw [refillKey_congr hother, hother]
      simp only [List.mem_cons, Ne.symm h, false_or]

/-- **The refill script** keeps states in agreement, whatever other keys it finds in each. -/
theorem AgreeOn.refill (h : AgreeOn K s s') (fillRate : ℚ) (text : String) :
    AgreeOn K (refillKeys fillRate (s.callKeys text) s).1 (refillKeys fillRate (s'.callKeys text) s').1 := by
  by_cases hf : fillRate.den = 1
  · refine ⟨by rw [clock_refillKeys, clock_refillKeys, h.1], fun k hk => ⟨?_, ?_⟩⟩
    · have hmem : k ∈ s.callKeys text ↔ k ∈ s'.callKeys text := by
        rw [mem_callKeys, mem_callKeys, OMap.mem_keys, OMap.mem_keys, (h.2 k hk).1]
      rw [ints_get_refillKeys hf (callKeys_nodup ..), ints_get_refillKeys hf (callKeys_nodup ..),
        refillKey_congr (h.2 k hk).1, (h.2 k hk).1]
      simp only [hmem]
    · rw [zsets_refillKeys, zsets_refillKeys, (h.2 k hk).2]
  · rwa [refillKeys_of_den_ne_one hf, refillKeys_of_den_ne_one hf]

end Agree

end NodeToolkit.Redis
