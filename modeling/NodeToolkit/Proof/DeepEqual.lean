import NodeToolkit.Spec.DeepEqual

/-!
# What deep equality decides

Structural equality of two values is equality of `Param`s, where records have no order. `DeepEqual`
goes by the keys of an object once neither two value objects nor two dates stand against each
other, and a date has no keys, a value object the key `_value`.

* `deepEqual_iff`: `DeepEqual` decides `Lookalike`, equality up to these two confusions.
* `deepEqual_exact`: it is structural equality on a pair of values iff the pair is not confused,
  and with that reflexive, symmetric and transitive.
* `date_empty`: the date that equals the empty record.
-/

namespace NodeToolkit

open Date Param

/-! ## The statement -/

/-- No number in the value is `NaN`, and no date invalid. -/
def Param.NaNFree : Param → Prop
  | number x => x ≠ .nan
  | date time => time ≠ none
  | valueObject value => value.NaNFree
  | record _ get => ∀ key, (get key).NaNFree
  | _ => True

/-- The values are equal, but for dates that stand where the other value has a record without keys,
and value objects that stand where it has a record with the single key `_value`. -/
inductive Lookalike : Param → Param → Prop
  | refl (a : Param) : Lookalike a a
  | valueObject {v w : Param} (h : Lookalike v w) : Lookalike (.valueObject v) (.valueObject w)
  | record {keys : Finset String} {get get' : {k // k ∈ keys} → Param} (h : ∀ key, Lookalike (get key) (get' key)) :
      Lookalike (.record keys get) (.record keys get')
  | dateRecord (time : Option Time) : Lookalike (.date time) .empty
  | recordDate (time : Option Time) : Lookalike .empty (.date time)
  | valueRecord {v w : Param} (h : Lookalike v w) : Lookalike (.valueObject v) (.single "_value" w)
  | recordValue {v w : Param} (h : Lookalike v w) : Lookalike (.single "_value" v) (.valueObject w)

/-- **The condition.** The two values do not differ in these two ways alone. -/
def Unconfused (a b : Param) : Prop := Lookalike a b → a = b

variable {a b c : Param}

theorem Lookalike.symm (h : Lookalike a b) : Lookalike b a := by
  induction h with
  | refl a => exact .refl a
  | valueObject _ ih => exact .valueObject ih
  | record _ ih => exact .record ih
  | dateRecord time => exact .recordDate time
  | recordDate time => exact .dateRecord time
  | valueRecord _ ih => exact .recordValue ih
  | recordValue _ ih => exact .valueRecord ih

/-! ## Records -/

/-- A record without keys is the empty record. -/
theorem record_eq_empty {keys : Finset String} (get : {k // k ∈ keys} → Param) (h : keys = ∅) :
    Param.record keys get = .empty := by
  subst h
  unfold Param.empty
  congr 1
  funext key
  exact absurd key.2 (Finset.notMem_empty _)

/-- A record with one key. -/
theorem record_eq_single {keys : Finset String} (get : {k // k ∈ keys} → Param) {key : String} (hcard : keys.card = 1)
    (h : key ∈ keys) : Param.record keys get = .single key (get ⟨key, h⟩) := by
  obtain ⟨k, rfl⟩ := Finset.card_eq_one.1 hcard
  obtain rfl := Finset.mem_singleton.1 h
  unfold Param.single
  congr 1
  funext j
  obtain ⟨j, hj⟩ := j
  obtain rfl := Finset.mem_singleton.1 hj
  rfl

theorem property_record {keys : Finset String} (get : {k // k ∈ keys} → Param) (key : {k // k ∈ keys}) :
    (Param.record keys get).property key = get key := dif_pos key.2

/-! ## Base primitives -/

theorem strictEqual_iff (h : a.isBasePrimitive ∨ b.isBasePrimitive) (ha : a.NaNFree) :
    a.strictEqual b = true ↔ a = b := by
  cases a <;> cases b <;> simp_all [strictEqual, isBasePrimitive, NaNFree, Number.strictEqual_iff]

theorem lookalike_iff_of_primitive (h : a.isBasePrimitive ∨ b.isBasePrimitive) : Lookalike a b ↔ a = b := by
  constructor
  · intro hl
    cases hl with
    | refl => rfl
    | _ => simp [isBasePrimitive, Param.empty, Param.single] at h
  · rintro rfl
    exact .refl a

theorem deepEqual_of_primitive (h : a.isBasePrimitive ∨ b.isBasePrimitive) (ha : a.NaNFree) :
    DeepEqual a b = true ↔ a = b := by
  have heq := strictEqual_iff h ha
  unfold DeepEqual
  split
  · rename_i htype
    refine iff_of_false (by simp) ?_
    rintro rfl
    exact htype rfl
  · exact heq

/-! ## Objects -/

/-- Two records, by their keys. -/
theorem deepEqual_record {keys keys' : Finset String} {get : {k // k ∈ keys} → Param}
    {get' : {k // k ∈ keys'} → Param} (ih : ∀ key b, DeepEqual (get key) b = true ↔ Lookalike (get key) b) :
    DeepEqual (.record keys get) (.record keys' get') = true ↔ Lookalike (.record keys get) (.record keys' get') := by
  have hunfold : DeepEqual (.record keys get) (.record keys' get') = true ↔ keys.card = keys'.card ∧
      ∀ key : {k // k ∈ keys}, key.1 ∈ keys' ∧ DeepEqual (get key) ((Param.record keys' get').property key) = true := by
    by_cases hcard : keys.card = keys'.card
    · simp [DeepEqual, typeOf, isBasePrimitive, Param.keys, hcard]
    · simp [DeepEqual, typeOf, isBasePrimitive, Param.keys, hcard]
  rw [hunfold]
  constructor
  · rintro ⟨hcard, hall⟩
    have hsub : keys ⊆ keys' := fun k hk => (hall ⟨k, hk⟩).1
    obtain rfl := Finset.eq_of_subset_of_card_le hsub hcard.ge
    refine .record fun key => ?_
    have hkey := (hall key).2
    rw [property_record, ih] at hkey
    exact hkey
  · intro hl
    have hsame : ∃ h : keys = keys', ∀ key : {k // k ∈ keys}, Lookalike (get key) (get' ⟨key, h ▸ key.2⟩) := by
      cases hl with
      | refl => exact ⟨rfl, fun key => .refl _⟩
      | record h => exact ⟨rfl, h⟩
    obtain ⟨rfl, hget⟩ := hsame
    refine ⟨rfl, fun key => ⟨key.2, ?_⟩⟩
    rw [property_record, ih]
    exact hget key

/-- A value object against a record, whose one key has to be `_value`. -/
theorem deepEqual_valueRecord {v : Param} {keys : Finset String} {get : {k // k ∈ keys} → Param}
    (ih : ∀ b, DeepEqual v b = true ↔ Lookalike v b) :
    DeepEqual (.valueObject v) (.record keys get) = true ↔ Lookalike (.valueObject v) (.record keys get) := by
  have hunfold : DeepEqual (.valueObject v) (.record keys get) = true ↔ keys.card = 1 ∧ "_value" ∈ keys ∧
      DeepEqual v ((Param.record keys get).property "_value") = true := by
    by_cases hcard : keys.card = 1
    · simp only [DeepEqual, typeOf, isBasePrimitive, Param.keys, hcard, ne_eq, not_true_eq_false, if_false,
        Bool.false_eq_true, or_self, true_and]
      exact decide_eq_true_iff
    · simp [DeepEqual, typeOf, isBasePrimitive, Param.keys, hcard]
  rw [hunfold]
  constructor
  · rintro ⟨hcard, hmem, heq⟩
    rw [property_record get ⟨"_value", hmem⟩, ih] at heq
    rw [record_eq_single get hcard hmem]
    exact .valueRecord heq
  · intro hl
    cases hl with
    | valueRecord h =>
      have hmem : "_value" ∈ ({"_value"} : Finset String) := Finset.mem_singleton_self _
      refine ⟨rfl, hmem, ?_⟩
      rw [property_record _ ⟨"_value", hmem⟩, ih]
      exact h

/-- A record against a value object. -/
theorem deepEqual_recordValue {w : Param} {keys : Finset String} {get : {k // k ∈ keys} → Param}
    (ih : ∀ key b, DeepEqual (get key) b = true ↔ Lookalike (get key) b) :
    DeepEqual (.record keys get) (.valueObject w) = true ↔ Lookalike (.record keys get) (.valueObject w) := by
  have hunfold : DeepEqual (.record keys get) (.valueObject w) = true ↔ keys.card = 1 ∧
      ∀ key : {k // k ∈ keys}, key.1 = "_value" ∧ DeepEqual (get key) ((Param.valueObject w).property key) = true := by
    by_cases hcard : keys.card = 1
    · simp [DeepEqual, typeOf, isBasePrimitive, Param.keys, hcard]
    · simp [DeepEqual, typeOf, isBasePrimitive, Param.keys, hcard]
  rw [hunfold]
  constructor
  · rintro ⟨hcard, hall⟩
    obtain ⟨key, hkey⟩ := Finset.card_pos.1 (hcard ▸ Nat.one_pos)
    obtain ⟨rfl, heq⟩ := hall ⟨key, hkey⟩
    rw [record_eq_single get hcard hkey]
    exact .recordValue ((ih _ _).1 heq)
  · intro hl
    cases hl with
    | recordValue h =>
      refine ⟨rfl, fun key => ?_⟩
      obtain ⟨key, hkey⟩ := key
      obtain rfl := Finset.mem_singleton.1 hkey
      exact ⟨rfl, (ih ⟨"_value", hkey⟩ _).2 h⟩

/-- A date, which has no keys, against an object of another kind. -/
theorem deepEqual_date {time : Option Time} (ht : time ≠ none) (hb : b.isBasePrimitive = false) :
    DeepEqual (.date time) b = true ↔ Lookalike (.date time) b := by
  cases b with
  | date another =>
    obtain ⟨t, rfl⟩ := Option.ne_none_iff_exists'.1 ht
    have hunfold : DeepEqual (.date (some t)) (.date another) = true ↔ some t = another := by
      simp [DeepEqual, typeOf, isBasePrimitive]
    rw [hunfold]
    constructor
    · rintro rfl
      exact .refl _
    · intro hl
      cases hl
      rfl
  | valueObject w =>
    refine iff_of_false (by cases time <;> simp [DeepEqual, typeOf, isBasePrimitive, Param.keys]) ?_
    intro hl
    cases hl
  | record keys get =>
    have hunfold : DeepEqual (.date time) (.record keys get) = true ↔ keys = ∅ := by
      cases time <;> simp [DeepEqual, typeOf, isBasePrimitive, Param.keys]
    rw [hunfold]
    constructor
    · intro hkeys
      rw [record_eq_empty get hkeys]
      exact .dateRecord time
    · intro hl
      cases hl
      rfl
  | _ => simp [isBasePrimitive] at hb

/-- An object of another kind against a date. -/
theorem deepEqual_recordDate {time : Option Time} {keys : Finset String} {get : {k // k ∈ keys} → Param} :
    DeepEqual (.record keys get) (.date time) = true ↔ Lookalike (.record keys get) (.date time) := by
  have hunfold : DeepEqual (.record keys get) (.date time) = true ↔ keys = ∅ := by
    by_cases hkeys : keys = ∅
    · subst hkeys
      simp [DeepEqual, typeOf, isBasePrimitive, Param.keys]
    · simp [DeepEqual, typeOf, isBasePrimitive, Param.keys, hkeys]
  rw [hunfold]
  constructor
  · intro hkeys
    rw [record_eq_empty get hkeys]
    exact .recordDate time
  · intro hl
    cases hl
    rfl

/-- **What `DeepEqual` decides.** -/
theorem deepEqual_iff (ha : a.NaNFree) : DeepEqual a b = true ↔ Lookalike a b := by
  induction a generalizing b with
  | valueObject v ih =>
    cases b with
    | valueObject w =>
      have hunfold : DeepEqual (.valueObject v) (.valueObject w) = DeepEqual v w := by
        simp [DeepEqual, typeOf, isBasePrimitive]
      rw [hunfold, ih ha]
      constructor
      · exact .valueObject
      · intro hl
        cases hl with
        | refl => exact .refl v
        | valueObject h => exact h
    | record keys get => exact deepEqual_valueRecord fun b => ih ha
    | date time =>
      refine iff_of_false (by simp [DeepEqual, typeOf, isBasePrimitive, Param.keys]) ?_
      intro hl
      cases hl
    | _ => rw [deepEqual_of_primitive (.inr rfl) ha, lookalike_iff_of_primitive (.inr rfl)]
  | record keys get ih =>
    cases b with
    | record keys' get' => exact deepEqual_record fun key b => ih key (ha key)
    | valueObject w => exact deepEqual_recordValue fun key b => ih key (ha key)
    | date time => exact deepEqual_recordDate
    | _ => rw [deepEqual_of_primitive (.inr rfl) ha, lookalike_iff_of_primitive (.inr rfl)]
  | date time =>
    by_cases hb : b.isBasePrimitive
    · rw [deepEqual_of_primitive (.inr hb) ha, lookalike_iff_of_primitive (.inr hb)]
    · exact deepEqual_date ha (by simpa using hb)
  | _ => rw [deepEqual_of_primitive (.inl rfl) ha, lookalike_iff_of_primitive (.inl rfl)]

/-! ## Results -/

/-- **When `DeepEqual` is structural equality**: on the pairs that are not confused. It is always
reflexive and symmetric, and transitive where the pairs it is asked about are not confused. -/
theorem deepEqual_exact (ha : a.NaNFree) (hb : b.NaNFree) :
    ((DeepEqual a b = true ↔ a = b) ↔ Unconfused a b) ∧
    DeepEqual a a = true ∧ (DeepEqual a b = true → DeepEqual b a = true) ∧
    (Unconfused a b → Unconfused b c → DeepEqual a b = true → DeepEqual b c = true → DeepEqual a c = true) := by
  have hrefl : DeepEqual a a = true := (deepEqual_iff ha).2 (.refl a)
  refine ⟨⟨fun h hl => h.1 ((deepEqual_iff ha).2 hl), fun h => ⟨fun heq => h ((deepEqual_iff ha).1 heq), ?_⟩⟩,
    hrefl, ?_, ?_⟩
  · rintro rfl
    exact hrefl
  · intro heq
    exact (deepEqual_iff hb).2 ((deepEqual_iff ha).1 heq).symm
  · intro hab hbc h₁ h₂
    obtain rfl := hab ((deepEqual_iff ha).1 h₁)
    obtain rfl := hbc ((deepEqual_iff ha).1 h₂)
    exact hrefl

/-- A record with a date and a value object, the same with another date, and one without the value object. -/
theorem deepEqual_exact_person :
    let person : ℤ → Param := fun born => .record {"born", "name"} fun key =>
      if key.1 = "born" then .date (timeClip born) else .valueObject (.string "Ada")
    let c : Param := .single "born" (.date (timeClip 0))
    ((DeepEqual (person 0) (person 1) = true ↔ person 0 = person 1) ↔ Unconfused (person 0) (person 1)) ∧
    DeepEqual (person 0) (person 0) = true ∧
    (DeepEqual (person 0) (person 1) = true → DeepEqual (person 1) (person 0) = true) ∧
    (Unconfused (person 0) (person 1) → Unconfused (person 1) c → DeepEqual (person 0) (person 1) = true →
      DeepEqual (person 1) c = true → DeepEqual (person 0) c = true) := by
  intro person c
  have hperson : ∀ born, timeClip born ≠ none → (person born).NaNFree := by
    intro born hborn key
    dsimp only
    split
    · exact hborn
    · exact trivial
  exact deepEqual_exact (hperson 0 (by decide)) (hperson 1 (by decide))

/-- A date equals the empty record, and so two dates that differ are both equal to it. -/
theorem date_empty : (Param.date (timeClip 0)).NaNFree ∧ Param.empty.NaNFree ∧
    DeepEqual (.date (timeClip 0)) .empty = true ∧ Param.date (timeClip 0) ≠ .empty ∧
    DeepEqual .empty (.date (timeClip 1)) = true ∧ DeepEqual (.date (timeClip 0)) (.date (timeClip 1)) = false := by
  have hdate : timeClip 0 ≠ none := by decide
  refine ⟨hdate, fun key => absurd key.2 (Finset.notMem_empty _), by decide, by simp [Param.empty], by decide,
    by decide⟩

end NodeToolkit
