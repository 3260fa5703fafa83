import NodeToolkit.Spec.Redis

/-!
# What the commands do to the integer keys

`value` is the observation the counting arguments use: `INCRBY` and `DECRBY`
change it at their own key, `EXPIRE` and the sorted-set commands nowhere, and the
clock only at the keys that expire (`Expires`).
-/

namespace NodeToolkit.Redis

variable (s : Redis) (key k : String) (n : ℤ)

@[simp] theorem value_setInt : (s.setInt key n).value k = if key = k then n else s.value k := by
  simp only [value, setInt, OMap.get_set]
  split <;> rfl

/-- `EXPIRE` changes no count. -/
@[simp] theorem value_expire (seconds : ℕ) : (s.expire key seconds).value k = s.value k := by
  simp only [value, expire]
  cases h : s.ints.get key with
  | none => rfl
  | some v =>
    simp only [OMap.get_set]
    split
    · rename_i hk; subst hk; simp [h]
    · rfl

/-- The key expires when the server's clock moves to `t`. -/
def Expires (t : ℕ) : Prop := ∃ v, s.ints.get key = some v ∧ v.alive (max s.clock t) = false

/-- A key that does not expire keeps its value. -/
theorem value_advance {t : ℕ} (h : ¬ s.Expires k t) : (s.advance t).value k = s.value k := by
  simp only [value, advance, OMap.get_keep]
  cases hg : s.ints.get k with
  | none => rfl
  | some v =>
    have hv : v.alive (max s.clock t) = true := by
      by_contra hv; exact h ⟨v, hg, by simpa using hv⟩
    simp [Option.filter, hv]

/-- A key that expires is gone. -/
theorem value_advance_of_expires {t : ℕ} (h : s.Expires k t) : (s.advance t).value k = 0 := by
  obtain ⟨v, hg, hv⟩ := h
  simp [value, advance, OMap.get_keep, hg, Option.filter, hv]

theorem value_of_none {s : Redis} {k : String} (h : s.ints.get k = none) : s.value k = 0 := by
  simp [value, h]

/-! ## The refill script -/

section Refill

variable {s : Redis} {key k text : String} {fillRate : ℚ}

/-- `KEYS` finds the counters whose names start with the text. -/
theorem mem_callKeys : k ∈ s.callKeys text ↔
    k ∈ s.ints.keys ∧ text.toList.isPrefixOf k.toList := by
  simp [callKeys]

theorem callKeys_nodup (s : Redis) (text : String) : (s.callKeys text).Nodup :=
  s.ints.keys_nodup.filter _

/-- A rate that is no integer stops the script at its first key. -/
theorem refillKeys_of_den_ne_one (hf : fillRate.den ≠ 1) (keys : List String) :
    (refillKeys fillRate keys s).1 = s := by
  cases keys with
  | nil => rfl
  | cons key keys => simp [refillKeys, callDecrBy, hf]

/-- One round of the script, for an integer rate. -/
def refillKey (fillRate : ℚ) (s : Redis) (key : String) : Redis :=
  if s.value key - fillRate.num < 0 then (s.decrBy key fillRate.num).1.callSet key 0
  else (s.decrBy key fillRate.num).1

/-- A fill rate that is whole serves key by key. -/
theorem refillKeys_cons (hf : fillRate.den = 1) (key : String) (keys : List String) :
    refillKeys fillRate (key :: keys) s = refillKeys fillRate keys (refillKey fillRate s key) := by
  simp [refillKeys, callDecrBy, hf, refillKey, decrBy]

/-- A round takes the fill rate off its counter, down to zero. -/
theorem value_refillKey : (refillKey fillRate s key).value k =
    if key = k then max 0 (s.value k - fillRate.num) else s.value k := by
  have hset : ∀ s : Redis, (s.callSet key 0).value k = if key = k then 0 else s.value k := by
    intro s
    simp only [value, callSet, OMap.get_set]
    split <;> rfl
  unfold refillKey
  by_cases h : s.value key - fillRate.num < 0
  · rw [if_pos h, hset]
    by_cases hk : key = k
    · subst hk; simp only [if_true]; omega
    · simp [hk, decrBy]
  · rw [if_neg h]
    by_cases hk : key = k
    · subst hk; simp only [decrBy, value_setInt, if_true]; omega
    · simp [hk, decrBy]

/-- **The script, for an integer rate**: every key it is given loses the rate, down to zero. -/
theorem value_refillKeys (hf : fillRate.den = 1) {keys : List String} (hnd : keys.Nodup) :
    ∀ {s : Redis}, (refillKeys fillRate keys s).1.value k =
      if k ∈ keys then max 0 (s.value k - fillRate.num) else s.value k := by
  induction keys with
  | nil => intro s; simp [refillKeys]
  | cons key keys ih =>
    intro s
    obtain ⟨hk, hnd⟩ := List.nodup_cons.1 hnd
    rw [refillKeys_cons hf, ih hnd, value_refillKey]
    by_cases h : key = k
    · subst h; simp [hk]
    · simp [h, Ne.symm h]

theorem get_refillKey (h : key ≠ k) : (refillKey fillRate s key).ints.get k = s.ints.get k := by
  unfold refillKey
  split <;> simp [callSet, decrBy, setInt, OMap.get_set, h]

/-- The script changes no key it is not given. -/
theorem get_refillKeys {keys : List String} (hk : k ∉ keys) : ∀ {s : Redis},
    (refillKeys fillRate keys s).1.ints.get k = s.ints.get k := by
  induction keys with
  | nil => intro s; rfl
  | cons key keys ih =>
    intro s
    simp only [List.mem_cons, not_or] at hk
    by_cases hf : fillRate.den = 1
    · rw [refillKeys_cons hf, ih hk.2, get_refillKey (Ne.symm hk.1)]
    · rw [refillKeys_of_den_ne_one hf]

/-- The script changes no sorted set. -/
theorem zsets_refillKeys {keys : List String} : ∀ {s : Redis},
    (refillKeys fillRate keys s).1.zsets = s.zsets := by
  induction keys with
  | nil => intro s; rfl
  | cons key keys ih =>
    intro s
    by_cases hf : fillRate.den = 1
    · rw [refillKeys_cons hf, ih]
      unfold refillKey
      split <;> rfl
    · rw [refillKeys_of_den_ne_one hf]

end Refill

/-! ## Sorted sets -/

section ZSets

variable (s : Redis) (key k : String) (z : ZSet)

@[simp] theorem zset_setZSet : (s.setZSet key z).zset k = if key = k then z else s.zset k := by
  unfold setZSet zset
  by_cases hz : z = []
  · subst hz
    simp only [if_true, OMap.get_erase]
    split <;> rfl
  · simp only [if_neg hz, OMap.get_set]
    split <;> rfl

theorem zsets_get_setZSet_ne {key k : String} (h : key ≠ k) :
    (s.setZSet key z).zsets.get k = s.zsets.get k := by
  unfold setZSet
  split
  · simp [OMap.get_erase, h]
  · simp [OMap.get_set, h]

/-- Storing a set that is not empty keeps the expiry of the key. -/
theorem zsets_get_setZSet {z : ZSet} (hz : z ≠ []) : (s.setZSet key z).zsets.get key =
    some ⟨z, (s.zsets.get key).bind Timed.expireAt⟩ := by
  unfold setZSet
  rw [if_neg hz]
  exact OMap.get_set_self ..

@[simp] theorem clock_setZSet : (s.setZSet key z).clock = s.clock := by
  unfold setZSet; split <;> rfl

@[simp] theorem zset_expire (seconds : ℕ) : (s.expire key seconds).zset k = s.zset k := by
  simp only [zset, expire]
  cases h : s.zsets.get key with
  | none => rfl
  | some v =>
    simp only [OMap.get_set]
    split
    · rename_i hk; subst hk; simp [h]
    · rfl

/-- `EXPIRE` gives an expiry to a sorted set that is there. -/
theorem zsets_get_expire (seconds : ℕ) : (s.expire key seconds).zsets.get k =
    if key = k then (s.zsets.get k).map fun v => ⟨v.val, some (s.clock + seconds * 1000)⟩
    else s.zsets.get k := by
  simp only [expire]
  cases h : s.zsets.get key with
  | none =>
    by_cases hk : key = k
    · subst hk; simp [h]
    · simp [hk]
  | some v =>
    by_cases hk : key = k
    · subst hk; simp [h]
    · simp [hk, OMap.get_set]

/-- The sorted set of a key is dropped as a whole when it expires, and else stays. -/
theorem zset_advance (t : ℕ) : (s.advance t).zset k = s.zset k ∨
    ((s.advance t).zset k = [] ∧ ∃ v d, s.zsets.get k = some v ∧ v.expireAt = some d ∧ d < max s.clock t) := by
  simp only [zset, advance, OMap.get_keep]
  cases hg : s.zsets.get k with
  | none => exact Or.inl rfl
  | some v =>
    by_cases ha : v.alive (max s.clock t)
    · left; simp [Option.filter, ha]
    · right
      refine ⟨by simp [Option.filter, ha], v, ?_⟩
      unfold Timed.alive at ha
      split at ha
      · exact absurd rfl ha
      · rename_i d hd
        exact ⟨d, rfl, hd, not_le.1 (by simpa using ha)⟩

end ZSets

/-- A member is stored once: adding it again moves it. -/
theorem ZSet.mem_zAdd {z : ZSet} {score : ℤ} {value : String} {x : ℤ × String} :
    x ∈ z.zAdd score value ↔ x = (score, value) ∨ x ∈ z ∧ x.2 ≠ value := by
  unfold ZSet.zAdd
  rw [List.mem_orderedInsert]
  simp

theorem ZSet.nodup_zAdd {z : ZSet} (h : z.Nodup) (score : ℤ) (value : String) :
    (z.zAdd score value).Nodup := by
  unfold ZSet.zAdd
  refine (List.perm_orderedInsert _ _ _).nodup_iff.2 (List.nodup_cons.2 ⟨by simp, h.filter _⟩)

theorem ZSet.zAdd_ne_nil {z : ZSet} {score : ℤ} {value : String} : z.zAdd score value ≠ [] :=
  List.ne_nil_of_mem (ZSet.mem_zAdd.2 (Or.inl rfl))

/-- What is left is outside the range. -/
theorem ZSet.mem_zRemRangeByScore {z : ZSet} {min max : Bound} {x : ℤ × String} :
    x ∈ z.zRemRangeByScore min max ↔ x ∈ z ∧ ¬ (min.minOK x.1 ∧ max.maxOK x.1) := by
  unfold ZSet.zRemRangeByScore
  rw [List.mem_filter]
  cases min.minOK x.1 <;> cases max.maxOK x.1 <;> simp

theorem ZSet.nodup_zRemRangeByScore {z : ZSet} (h : z.Nodup) (min max : Bound) :
    (z.zRemRangeByScore min max).Nodup := h.filter _

/-- The range from `-inf` to `+inf` is the whole set. -/
theorem ZSet.zRangeByScore_all (z : ZSet) : z.zRangeByScore .negInf .posInf = z.map Prod.snd := by
  simp [ZSet.zRangeByScore, Bound.minOK, Bound.maxOK]

/-- No score is at least `x` and below `x`. -/
theorem ZSet.zRemRangeByScore_void (z : ZSet) (x : ℤ) : z.zRemRangeByScore (.incl x) (.excl x) = z := by
  refine List.filter_eq_self.2 fun e _ => ?_
  simp only [Bound.minOK, Bound.maxOK, Bool.not_eq_true', Bool.and_eq_false_iff, decide_eq_false_iff_not]
  omega

end NodeToolkit.Redis
