import NodeToolkit.Spec.DeepMerge
import Mathlib.Data.Finset.Insert

/-!
# What deep merging does

`merge` is the right-biased recursive merge of two values: records are merged key by key, and from
any other pair the source is taken.

* `mergeSource_eq_iff`: `DeepMerge` of one source is the merge iff the source `Fits` the target.
* `at_merge`: the merge has every leaf of the source at its path.
* `merges_iff`: the same for any number of sources.
* `date_lost`: a date that is merged into nothing becomes an empty record.
-/

namespace NodeToolkit.Merging

open Date Value

/-! ## The statement -/

/-- The right-biased recursive merge. -/
def merge : Value → Value → Value
  | .record keys get, .record keys' get' =>
    (Value.record keys get).assign keys' fun key => some (match (Value.record keys get).own key with
      | some current => merge current (get' key)
      | none => get' key)
  | _, source => source

/-- No date in the value has properties of its own. -/
def Plain : Value → Prop
  | .array _ items => ∀ i, Plain (items i)
  | .date _ keys _ => keys = ∅
  | .record _ get => ∀ key, Plain (get key)
  | _ => True

/-- The target has nothing by this name, not even from its prototype, or something falsy. -/
def Vacant (target : Value) (key : Key) : Prop :=
  match target.own key with
  | some current => current.truthy = false
  | none => target.inherits key = false

/-- **The condition.** Where the source has a record, the target has a record that it fits, or nothing;
where the source has a date, the target has this date already. -/
def Fits : Value → Value → Prop
  | target, .record keys get => ∀ key : {k // k ∈ keys},
      ((get key).isDate → target.own key = some (get key)) ∧
      ((get key).isRecord →
        (∃ current, target.own key = some current ∧ current.isRecord ∧ Fits current (get key)) ∨
        Vacant target key ∧ Fits empty (get key))
  | _, _ => True

/-- The value at a path. -/
def Value.at (value : Value) : List Key → Option Value
  | [] => some value
  | key :: path => (value.own key).bind fun v => v.at path

variable {target source value : Value} {key : Key}

/-! ## Objects by their properties -/

theorem own_record {keys : Finset Key} {get : {k // k ∈ keys} → Value} (key : {k // k ∈ keys}) :
    (Value.record keys get).own key = some (get key) := dif_pos key.2

theorem isRecord_iff : value.isRecord = true ↔ ∃ keys get, value = .record keys get := by
  cases value <;> simp [isRecord]

/-- Records with the same properties are the same record. -/
theorem record_ext (h : target.isRecord) (h' : source.isRecord) (hown : ∀ key, target.own key = source.own key) :
    target = source := by
  obtain ⟨keys, get, rfl⟩ := isRecord_iff.1 h
  obtain ⟨keys', get', rfl⟩ := isRecord_iff.1 h'
  have hkeys : keys = keys' := by
    ext key
    have hkey := hown key
    by_cases hk : key ∈ keys <;> by_cases hk' : key ∈ keys' <;> simp [own, hk, hk'] at hkey ⊢
  subst hkeys
  congr 1
  funext key
  have hkey := hown key
  rw [own_record, own_record] at hkey
  exact Option.some.inj hkey

/-- **The properties of a record after an assignment.** -/
theorem own_assign (h : target.isRecord) {keys : Finset Key} {new : {k // k ∈ keys} → Option Value} (key : Key) :
    (target.assign keys new).own key = if hk : key ∈ keys then new ⟨key, hk⟩ else target.own key := by
  obtain ⟨ks, get, rfl⟩ := isRecord_iff.1 h
  by_cases hkey : key ∈ keysAfter (Value.record ks get).own ks keys new
  · have hown : ((Value.record ks get).assign keys new).own key =
        some ((if hk : key ∈ keys then new ⟨key, hk⟩ else (Value.record ks get).own key).get
          (Finset.mem_filter.1 hkey).2) := dif_pos hkey
    rw [hown, Option.some_get]
  · have hown : ((Value.record ks get).assign keys new).own key = none := dif_neg hkey
    rw [hown]
    have hnot := fun hmem hsome => hkey (Finset.mem_filter.2 ⟨hmem, hsome⟩)
    by_cases hk : key ∈ keys
    · exact (Option.not_isSome_iff_eq_none.1 (hnot (Finset.mem_union_right _ hk))).symm
    · rw [dif_neg hk] at hnot ⊢
      by_cases hks : key ∈ ks
      · exact (Option.not_isSome_iff_eq_none.1 (hnot (Finset.mem_union_left _ hks))).symm
      · have hown : (Value.record ks get).own key = none := dif_neg hks
        exact hown.symm

theorem isRecord_assign (h : target.isRecord) {keys : Finset Key} {new : {k // k ∈ keys} → Option Value} :
    (target.assign keys new).isRecord = true := by
  obtain ⟨ks, get, rfl⟩ := isRecord_iff.1 h
  rfl

theorem assign_eq_iff (h : target.isRecord) {keys : Finset Key} {new new' : {k // k ∈ keys} → Option Value} :
    target.assign keys new = target.assign keys new' ↔ ∀ key, new key = new' key := by
  constructor
  · intro heq key
    have hown := congrArg (fun v => v.own key.1) heq
    simpa only [own_assign h, key.2, dif_pos] using hown
  · intro hnew
    rw [funext hnew]

/-- Nothing is assigned. -/
theorem assign_empty (new : {k // k ∈ (∅ : Finset Key)} → Option Value) : value.assign ∅ new = value := by
  have hrecord (ks : Finset Key) (get : {k // k ∈ ks} → Value) :
      (Value.record ks get).assign ∅ new = .record ks get := by
    refine record_ext rfl rfl fun key => ?_
    rw [own_assign rfl, dif_neg (Finset.notMem_empty _)]
  cases value with
  | record ks get => exact hrecord ks get
  | date time ks get =>
    obtain ⟨hkeys, hget⟩ := Value.record.inj (hrecord ks get)
    exact (Value.date.injEq ..).mpr ⟨rfl, hkeys, hget⟩
  | _ => rfl

/-! ## The merge -/

theorem isRecord_empty : empty.isRecord = true := rfl

theorem own_empty : empty.own key = none := by
  simp [empty, own]

/-- Into what is no record, the source is merged as it is. -/
theorem merge_of_not_record (h : target.isRecord = false) : merge target source = source := by
  cases target <;> cases source <;> simp [isRecord, merge] at h ⊢

theorem merge_not_record (h : source.isRecord = false) : merge target source = source := by
  cases target <;> cases source <;> simp [isRecord, merge] at h ⊢

/-- **The properties of a merge.** -/
theorem own_merge (htarget : target.isRecord) (hsource : source.isRecord) (key : Key) :
    (merge target source).own key = match source.own key with
      | some value => some (match target.own key with
        | some current => merge current value
        | none => value)
      | none => target.own key := by
  obtain ⟨keys, get, rfl⟩ := isRecord_iff.1 htarget
  obtain ⟨keys', get', rfl⟩ := isRecord_iff.1 hsource
  have hmerge : merge (.record keys get) (.record keys' get') =
      (Value.record keys get).assign keys' fun key => some (match (Value.record keys get).own key with
        | some current => merge current (get' key)
        | none => get' key) := by
    rw [merge]
  rw [hmerge, own_assign rfl]
  by_cases hkey : key ∈ keys'
  · rw [dif_pos hkey, own_record ⟨key, hkey⟩]
  · have hown : (Value.record keys' get').own key = none := dif_neg hkey
    rw [dif_neg hkey, hown]

theorem isRecord_merge (h : source.isRecord) : (merge target source).isRecord = true := by
  by_cases htarget : target.isRecord
  · obtain ⟨keys, get, rfl⟩ := isRecord_iff.1 htarget
    obtain ⟨keys', get', rfl⟩ := isRecord_iff.1 h
    rw [merge]
    exact isRecord_assign rfl
  · rwa [merge_of_not_record (Bool.eq_false_iff.2 htarget)]

/-- Into the empty record, a record is merged as it is. -/
theorem merge_empty (h : source.isRecord) : merge empty source = source := by
  refine record_ext (isRecord_merge h) h fun key => ?_
  rw [own_merge isRecord_empty h, own_empty]
  cases source.own key <;> rfl

/-- **The merge has the leaves of the source.** -/
theorem at_merge {path : List Key} {leaf : Value} (hleaf : leaf.isRecord = false) (h : source.at path = some leaf) :
    (merge target source).at path = some leaf := by
  induction path generalizing target source with
  | nil =>
    obtain rfl := Option.some.inj h
    rwa [merge_not_record hleaf]
  | cons key path ih =>
    by_cases hrecords : target.isRecord ∧ source.isRecord
    · obtain ⟨value, hvalue, hat⟩ := Option.bind_eq_some_iff.1 h
      have hown := own_merge hrecords.1 hrecords.2 key
      rw [hvalue] at hown
      refine Option.bind_eq_some_iff.2 ⟨_, hown, ?_⟩
      cases target.own key with
      | none => exact hat
      | some current => exact ih hat
    · have hmerge : merge target source = source := by
        rcases not_and_or.1 hrecords with hn | hn
        · exact merge_of_not_record (Bool.eq_false_iff.2 hn)
        · exact merge_not_record (Bool.eq_false_iff.2 hn)
      rwa [hmerge]

/-! ## One property -/

/-- Merging into a record gives what the condition says, for the source that is one of its properties. -/
def Exact (value : Value) : Prop :=
  ∀ target : Value, target.isRecord → (mergeSource target value = merge target value ↔ Fits target value)

/-- A date without properties of its own brings nothing. -/
theorem mergeSource_date (h : source.isDate) (hplain : Plain source) : mergeSource target source = target := by
  cases source with
  | date time keys get =>
    obtain rfl : keys = ∅ := hplain
    rw [mergeSource, assign_empty, ite_self]
  | _ => exact absurd h (by simp [isDate])

/-- What is no record does not become one. -/
theorem isRecord_mergeSource : (mergeSource target source).isRecord = target.isRecord := by
  have hassign (keys : Finset Key) (new : {k // k ∈ keys} → Option Value) :
      (target.assign keys new).isRecord = target.isRecord := by
    cases target <;> rfl
  cases source with
  | date => rw [mergeSource]; split <;> simp only [hassign]
  | record => rw [mergeSource]; split <;> simp only [hassign]
  | _ => rw [mergeSource] <;> simp

theorem truthy_of_isRecord (h : value.isRecord) : value.truthy = true := by
  obtain ⟨keys, get, rfl⟩ := isRecord_iff.1 h
  rfl

theorem truthy_of_isDate (h : value.isDate) : value.truthy = true := by
  cases value <;> simp_all [isDate, truthy]

theorem isRecord_of_isDate (h : value.isDate) : value.isRecord = false := by
  cases value <;> simp_all [isDate, isRecord]

theorem round_scalar {merges : Value → Value} (h : value.isObject = false) :
    round target key value merges = some value := by
  rw [round, h]
  rfl

theorem round_date (h : value.isDate) (hplain : Plain value) :
    round target key value (fun current => mergeSource current value) = some value ↔ target.own key = some value := by
  have hobject : value.isObject = true := by simp [isObject, h]
  have hempty : empty ≠ value := by
    rintro rfl
    exact absurd h (by simp [empty, isDate])
  simp only [round, hobject, if_true, mergeSource_date h hplain]
  cases hown : target.own key with
  | none =>
    refine iff_of_false ?_ (by simp)
    simpa using fun _ => hempty
  | some current =>
    by_cases htruthy : current.truthy
    · simp [htruthy]
    · refine iff_of_false (by simpa [htruthy] using hempty) ?_
      intro heq
      obtain rfl := Option.some.inj heq
      exact htruthy (truthy_of_isDate h)

theorem round_record (h : value.isRecord) (ih : Exact value) :
    round target key value (fun current => mergeSource current value) =
        some (match target.own key with
          | some current => merge current value
          | none => value) ↔
      (∃ current, target.own key = some current ∧ current.isRecord ∧ Fits current value) ∨
        Vacant target key ∧ Fits empty value := by
  have hobject : value.isObject = true := by simp [isObject, h]
  have hempty : mergeSource empty value = value ↔ Fits empty value := by
    have hexact := ih empty isRecord_empty
    rwa [merge_empty h] at hexact
  simp only [round, hobject, if_true, Vacant]
  cases hown : target.own key with
  | none =>
    cases hinherits : target.inherits key with
    | true => simp
    | false => simpa using hempty
  | some current =>
    by_cases hrecord : current.isRecord
    · simpa [truthy_of_isRecord hrecord, hrecord] using ih current hrecord
    · rw [Bool.not_eq_true] at hrecord
      simp only [merge_of_not_record hrecord, Option.some.injEq, exists_eq_left', hrecord, Bool.false_eq_true, false_and,
        false_or]
      by_cases htruthy : current.truthy
      · -- The value in the target stays what it is.
        refine iff_of_false ?_ (by simp [htruthy])
        intro heq
        have hmerged : (mergeSource current value).isRecord = current.isRecord := isRecord_mergeSource
        simp only [htruthy, if_true] at heq
        rw [heq, h, hrecord] at hmerged
        exact absurd hmerged (by simp)
      · simpa [htruthy] using hempty

/-- **One source is merged as the law says iff it fits.** -/
theorem mergeSource_eq_iff (hsource : source.isRecord) (hplain : Plain source) : Exact source := by
  induction source with
  | record keys get ih =>
    intro target htarget
    obtain ⟨ks, get', rfl⟩ := isRecord_iff.1 htarget
    have hmerged : mergeSource (.record ks get') (.record keys get) =
        (Value.record ks get').assign keys fun key =>
          round (.record ks get') key (get key) fun current => mergeSource current (get key) := by
      rw [mergeSource, if_pos (by simp [isObject, isRecord])]
    rw [hmerged, merge, assign_eq_iff rfl, Fits]
    refine forall_congr' fun key => ?_
    by_cases hrecord : (get key).isRecord
    · have hdate : (get key).isDate = false := by
        cases hd : (get key).isDate with
        | false => rfl
        | true => rw [isRecord_of_isDate hd] at hrecord; exact absurd hrecord (by simp)
      rw [round_record hrecord (ih key hrecord (hplain key))]
      simp [hrecord, hdate]
    · rw [Bool.not_eq_true] at hrecord
      have hright (current : Option Value) :
          (match current with
            | some current => merge current (get key)
            | none => get key) = get key := by
        cases current with
        | none => rfl
        | some current => exact merge_not_record hrecord
      rw [hright]
      by_cases hdate : (get key).isDate
      · rw [round_date hdate (hplain key)]
        simp [hdate, hrecord]
      · rw [round_scalar (by simp [isObject, hrecord, hdate])]
        simp [hdate, hrecord]
  | _ => exact absurd hsource (by simp [isRecord])

/-! ## Any number of sources -/

theorem deepMerge_eq (target : Value) (sources : List Value) :
    DeepMerge target sources = sources.foldl mergeSource target := by
  induction sources generalizing target with
  | nil => rfl
  | cons source sources ih => exact ih _

/-- The fold of the merge has the leaves of the last source. -/
theorem at_foldl {sources : List Value} {path : List Key} {leaf : Value} (hlast : source ∈ sources.getLast?)
    (hleaf : leaf.isRecord = false) (h : source.at path = some leaf) :
    (sources.foldl merge target).at path = some leaf := by
  obtain ⟨before, rfl⟩ := List.getLast?_eq_some_iff.1 hlast
  rw [List.foldl_append]
  exact at_merge hleaf h

/-- **The law.** The sources are merged one after another, and every leaf of the last is at its path. -/
def Lawful (target : Value) (sources : List Value) : Prop :=
  DeepMerge target sources = sources.foldl merge target ∧
    ∀ source ∈ sources.getLast?, ∀ (path : List Key) (leaf : Value), leaf.isRecord = false →
      source.at path = some leaf → (DeepMerge target sources).at path = some leaf

/-- Every source fits what the ones before it gave. -/
def AllFit (target : Value) : List Value → Prop
  | [] => True
  | source :: sources => Fits target source ∧ AllFit (merge target source) sources

/-- **`DeepMerge` is the right-biased recursive merge iff every source fits.** A list of sources is taken with
its beginnings, since a source may set right what the one before it got wrong. -/
theorem merges_iff {sources : List Value} (htarget : target.isRecord)
    (hsources : ∀ source ∈ sources, source.isRecord ∧ Plain source) :
    (∀ n, Lawful target (sources.take n)) ↔ AllFit target sources := by
  have hlaw (sources : List Value) :
      Lawful target sources ↔ sources.foldl mergeSource target = sources.foldl merge target := by
    rw [Lawful, deepMerge_eq]
    refine ⟨fun h => h.1, fun h => ⟨h, fun source hlast path leaf hleaf hat => ?_⟩⟩
    rw [h]
    exact at_foldl hlast hleaf hat
  simp only [hlaw]
  clear hlaw
  induction sources generalizing target with
  | nil => simp [AllFit]
  | cons source sources ih =>
    obtain ⟨hsource, hplain⟩ := hsources source List.mem_cons_self
    have hrest : (∀ n, (sources.take n).foldl mergeSource (merge target source) =
        (sources.take n).foldl merge (merge target source)) ↔ AllFit (merge target source) sources :=
      ih (isRecord_merge hsource) fun s hs => hsources s (List.mem_cons_of_mem _ hs)
    rw [AllFit, ← mergeSource_eq_iff hsource hplain target htarget, ← hrest]
    constructor
    · intro h
      have hfirst : mergeSource target source = merge target source := h 1
      refine ⟨hfirst, fun n => ?_⟩
      have hnext := h (n + 1)
      rwa [List.take_succ_cons, List.foldl_cons, List.foldl_cons, hfirst] at hnext
    · rintro ⟨hfirst, hrest⟩ n
      cases n with
      | zero => rfl
      | succ n =>
        rw [List.take_succ_cons, List.foldl_cons, List.foldl_cons, hfirst]
        exact hrest n

/-! ## Two runs -/

/-- The record with one property. -/
def single (key : Key) (value : Value) : Value := .record {key} fun _ => value

/-- A key. -/
def a : Key := ⟨"a", by decide⟩

theorem own_single : (single key value).own key = some value :=
  own_record ⟨key, Finset.mem_singleton_self key⟩

/-- A number over a number, two records down. -/
theorem merges_clean : Lawful (single a (single a (.number (.finite 1))))
    [single a (single a (.number (.finite 2))), single a (.number (.finite 2))] := by
  have hsources : ∀ source ∈ [single a (single a (.number (.finite 2))), single a (.number (.finite 2))],
      source.isRecord ∧ Plain source := by
    intro source hsource
    simp only [List.mem_cons, List.not_mem_nil, or_false] at hsource
    rcases hsource with rfl | rfl
    · exact ⟨rfl, fun _ _ => trivial⟩
    · exact ⟨rfl, fun _ => trivial⟩
  have hfits : Fits (single a (.number (.finite 1))) (single a (.number (.finite 2))) :=
    fun _ => ⟨fun h => absurd h (by simp [isDate]), fun h => absurd h (by simp [isRecord])⟩
  have hall : AllFit (single a (single a (.number (.finite 1))))
      [single a (single a (.number (.finite 2))), single a (.number (.finite 2))] := by
    refine ⟨?_, ?_, trivial⟩
    · intro key
      refine ⟨fun h => absurd h (by simp [single, isDate]), fun _ => .inl ⟨_, ?_, rfl, hfits⟩⟩
      obtain ⟨key, hkey⟩ := key
      obtain rfl := Finset.mem_singleton.1 hkey
      exact own_single
    · exact fun _ => ⟨fun h => absurd h (by simp [isDate]), fun h => absurd h (by simp [isRecord])⟩
  exact (merges_iff rfl hsources).2 hall 2

/-- **A date is lost**: merged into nothing it becomes the empty record. -/
theorem date_lost : ¬ ∀ target sources, target.isRecord → (∀ source ∈ sources, source.isRecord ∧ Plain source) →
    Lawful target sources := by
  intro h
  let date : Value := .date (some ⟨0, by decide, by decide⟩) ∅ fun k => absurd k.2 (Finset.notMem_empty _)
  have hplain : Plain (single a date) := fun _ => rfl
  have hlaw := h empty [single a date] rfl (by simpa using ⟨rfl, hplain⟩)
  have hfits := (mergeSource_eq_iff rfl hplain empty rfl).1 hlaw.1
  have hown := (hfits ⟨a, Finset.mem_singleton_self a⟩).1 rfl
  rw [own_empty] at hown
  exact absurd hown (by simp)

end NodeToolkit.Merging
