import NodeToolkit.Spec.QueryBuilder

/-!
# What a built query matches

`Satisfied` is the meaning of the calls: the document satisfies every filter, at every depth, that was
given a value.

* `matches_runCalls`: a built query matches what the queries of its single filters match.
* `matches_iff`: these are the documents that satisfy the calls, under every meaning of the operators, iff the
  filters are `Sound`: no bound that was given is falsy.
* `zero_bound`: a bound of zero is dropped.
-/

namespace NodeToolkit.QueryBuilder

/-! ## The statement -/

namespace Filter

def field : Filter → Field
  | primitive field _ _ => field
  | notEqualPrimitive field _ _ => field
  | array field _ _ => field
  | notInArray field _ _ => field
  | range field _ => field

/-- The bounds that were given. -/
def bounds : Filter → List Scalar
  | range _ (.value bounds) => bounds.start.toOption.toList ++ bounds.stop.toOption.toList
  | _ => []

/-- The filter was given no value. -/
def NoValue : Filter → Prop
  | primitive _ value ignoreEmptyString | notEqualPrimitive _ value ignoreEmptyString =>
    value = .undefined ∨ ignoreEmptyString ∧ ∃ text, value = .value (.string text) ∧ isBlank text
  | array _ value ignoreEmpty | notInArray _ value ignoreEmpty =>
    value = .undefined ∨ value = .null ∨ ignoreEmpty ∧ value = .value []
  | range field value => (range field value).bounds = []

/-- What the filter asks for. -/
def Asks {Document : Type} (ops : Operators Document) (document : Document) : Filter → Prop
  | primitive field value _ => ops.eq field value.toOption document
  | notEqualPrimitive field value _ => ops.ne field value.toOption document
  | array field value _ => ∀ values ∈ value.toOption, ops.isIn field values document
  | notInArray field value _ => ∀ values ∈ value.toOption, ops.notIn field values document
  | range field value => ∀ range ∈ value.toOption, (∀ bound ∈ range.start.toOption, ops.gte field bound document) ∧
      ∀ bound ∈ range.stop.toOption, ops.lte field bound document

/-- **The condition.** A filter with a value is not on the accessor `__proto__`, and its bounds are truthy. -/
def Sound (filter : Filter) : Prop :=
  ¬ filter.NoValue → filter.field.1 ≠ "__proto__" ∧ ∀ bound ∈ filter.bounds, bound.truthy

end Filter

mutual

def Call.filters : Call → List Filter
  | .filter f => [f]
  | .and groups => filtersOfGroups groups

/-- The filters of the calls, at every depth. -/
def filtersOf : List Call → List Filter
  | [] => []
  | call :: calls => call.filters ++ filtersOf calls

def filtersOfGroups : List (List Call) → List Filter
  | [] => []
  | calls :: groups => filtersOf calls ++ filtersOfGroups groups

end

/-- The field of a call that is no group. -/
def Call.field? : Call → Option Field
  | .filter f => some f.field
  | .and _ => none

mutual

def Call.Distinct : Call → Prop
  | .filter _ => True
  | .and groups => GroupsDistinct groups

/-- No two calls on one builder are on one field. -/
def Distinct : List Call → Prop
  | [] => True
  | call :: calls => call.Distinct ∧ (∀ field ∈ call.field?, field ∉ calls.filterMap Call.field?) ∧ Distinct calls

def GroupsDistinct : List (List Call) → Prop
  | [] => True
  | calls :: groups => Distinct calls ∧ GroupsDistinct groups

end

/-- The document satisfies every filter that was given a value. -/
def Satisfied {Document : Type} (ops : Operators Document) (document : Document) (calls : List Call) : Prop :=
  ∀ filter ∈ filtersOf calls, filter.NoValue ∨ filter.Asks ops document

variable {Document : Type} {ops : Operators Document} {document : Document} {query : Query}

/-! ## Queries -/

theorem allMatch_iff {queries : List Query} :
    AllMatch ops document queries ↔ ∀ query ∈ queries, query.Matches ops document := by
  induction queries with
  | nil => simp [AllMatch]
  | cons query queries ih => simp [AllMatch, ih]

theorem matches_iff_forall : query.Matches ops document ↔
    (∀ entry ∈ query.fields.entries, entry.2.Holds ops document entry.1) ∧
      ∀ part ∈ query.and, part.Matches ops document := by
  obtain ⟨fields, and⟩ := query
  rw [Query.Matches, allMatch_iff]

theorem matches_aBuilder : Query.aBuilder.Matches ops document := by
  rw [matches_iff_forall]
  exact ⟨fun entry h => absurd h List.not_mem_nil, fun part h => absurd h List.not_mem_nil⟩

/-- A query without keys matches every document. -/
theorem matches_of_isEmpty (h : query.isEmpty) : query.Matches ops document := by
  obtain ⟨hfields, hand⟩ := (Bool.and_eq_true ..).mp h
  rw [matches_iff_forall, List.isEmpty_iff.1 hfields, List.isEmpty_iff.1 hand]
  exact ⟨fun entry h => absurd h List.not_mem_nil, fun part h => absurd h List.not_mem_nil⟩

/-- A condition on a field that has none yet. -/
theorem matches_set {field : Field} (condition : Condition) (h : field ∉ query.fields.keys) :
    (query.set field condition).Matches ops document ↔
      query.Matches ops document ∧ (field.1 ≠ "__proto__" → condition.Holds ops document field) := by
  rw [Query.set]
  split
  · rename_i hproto
    simp [hproto]
  · rename_i hproto
    rw [matches_iff_forall, matches_iff_forall, OMap.entries_set_new (OMap.get_eq_none.2 h)]
    simp only [List.forall_mem_append, List.forall_mem_singleton, ne_eq, hproto, not_false_eq_true, true_imp_iff]
    exact and_right_comm

theorem keys_set (field : Field) (condition : Condition) {key : Field}
    (h : key ∈ (query.set field condition).fields.keys) :
    key ∈ query.fields.keys ∨ key = field := by
  rw [Query.set] at h
  split at h
  · exact .inl h
  · by_cases hfield : field ∈ query.fields.keys
    · rw [OMap.keys_set_of_mem hfield] at h
      exact .inl h
    · rw [OMap.keys_set_of_not_mem hfield] at h
      simpa using h

/-- The group of a call. -/
theorem matches_addAndFilter (count : ℕ) (aggregator : List Query → List Query) :
    (query.addAndFilter count aggregator).Matches ops document ↔ query.Matches ops document ∧
      ∀ part ∈ aggregator (List.replicate count .aBuilder), part.Matches ops document := by
  have hkept (parts : List Query) : (∀ part ∈ parts.filter fun c => !c.isEmpty, part.Matches ops document) ↔
      ∀ part ∈ parts, part.Matches ops document := by
    constructor
    · intro h part hpart
      by_cases hempty : part.isEmpty
      · exact matches_of_isEmpty hempty
      · exact h part (List.mem_filter.2 ⟨hpart, by simpa using hempty⟩)
    · exact fun h part hpart => h part (List.mem_filter.1 hpart).1
  rw [← hkept, Query.addAndFilter]
  split
  · rename_i hnone
    rw [List.length_eq_zero_iff.1 hnone]
    simp
  · rw [matches_iff_forall, matches_iff_forall, List.forall_mem_append, and_assoc]

/-! ## One filter -/

/-- **A filter does nothing, or stores one condition.** -/
theorem Filter.run_cases (filter : Filter) : (∀ query, filter.run query = query) ∨
    ∃ condition, ∀ query, filter.run query = query.set filter.field condition := by
  cases filter with
  | primitive field value ignoreEmptyString =>
    by_cases h : shouldIgnore value Scalar.isEmptyString ignoreEmptyString && !value.isNull
    · exact .inl fun query => if_pos h
    · exact .inr ⟨_, fun query => if_neg h⟩
  | notEqualPrimitive field value ignoreEmptyString =>
    by_cases h : shouldIgnore value Scalar.isEmptyString ignoreEmptyString && !value.isNull
    · exact .inl fun query => if_pos h
    · exact .inr ⟨_, fun query => if_neg h⟩
  | array field value ignoreEmpty =>
    by_cases h : shouldIgnore value fun _ => false
    · exact .inl fun query => if_pos h
    · by_cases h' : ignoreEmpty && (value.toOption.getD []).length = 0
      · exact .inl fun query => (if_neg h).trans (if_pos h')
      · exact .inr ⟨_, fun query => (if_neg h).trans (if_neg h')⟩
  | notInArray field value ignoreEmpty =>
    by_cases h : shouldIgnore value fun _ => false
    · exact .inl fun query => if_pos h
    · by_cases h' : ignoreEmpty && (value.toOption.getD []).length = 0
      · exact .inl fun query => (if_neg h).trans (if_pos h')
      · exact .inr ⟨_, fun query => (if_neg h).trans (if_neg h')⟩
  | range field value =>
    by_cases h : shouldIgnore value fun _ => false
    · exact .inl fun query => if_pos h
    · by_cases h' : (value.toOption.bind fun range => truthyBound range.start).isNone &&
          (value.toOption.bind fun range => truthyBound range.stop).isNone
      · exact .inl fun query => (if_neg h).trans (if_pos h')
      · exact .inr ⟨_, fun query => (if_neg h).trans (if_neg h')⟩

/-- A filter on a new field, by what it does alone. -/
theorem Filter.matches_run (filter : Filter) (h : filter.field ∉ query.fields.keys) :
    (filter.run query).Matches ops document ↔
      query.Matches ops document ∧ (filter.run .aBuilder).Matches ops document := by
  rcases filter.run_cases with hrun | ⟨condition, hrun⟩
  · simp [hrun, matches_aBuilder]
  · rw [hrun, hrun, matches_set condition h, matches_set condition (by exact List.not_mem_nil)]
    simp [matches_aBuilder]

theorem Filter.keys_run (filter : Filter) {key : Field} (h : key ∈ (filter.run query).fields.keys) :
    key ∈ query.fields.keys ∨ key = filter.field := by
  rcases filter.run_cases with hrun | ⟨condition, hrun⟩
  · rw [hrun] at h
    exact .inl h
  · rw [hrun] at h
    exact keys_set _ _ h

/-! ## All calls -/

theorem Call.keys_run (call : Call) {key : Field} (h : key ∈ (call.run query).fields.keys) :
    key ∈ query.fields.keys ∨ key ∈ call.field? := by
  cases call with
  | filter f => simpa [Call.field?, eq_comm] using f.keys_run h
  | and groups =>
    rw [Call.run, Query.addAndFilter] at h
    split at h
    · exact .inl h
    · exact .inl h

mutual

theorem Call.matches_run : ∀ (call : Call) (query : Query), (∀ field ∈ call.field?, field ∉ query.fields.keys) →
    call.Distinct → ((call.run query).Matches ops document ↔
      query.Matches ops document ∧ ∀ filter ∈ call.filters, (filter.run .aBuilder).Matches ops document)
  | .filter f, query, hfresh, _ => by
    rw [Call.run, Call.filters, List.forall_mem_singleton]
    exact f.matches_run (hfresh f.field rfl)
  | .and groups, query, _, hdistinct => by
    rw [Call.run, Call.filters, matches_addAndFilter, matches_runGroups groups hdistinct]

/-- **What the calls on a builder store.** -/
theorem matches_runCalls : ∀ (calls : List Call) (query : Query),
    (∀ field ∈ calls.filterMap Call.field?, field ∉ query.fields.keys) → Distinct calls →
    ((runCalls calls query).Matches ops document ↔
      query.Matches ops document ∧ ∀ filter ∈ filtersOf calls, (filter.run .aBuilder).Matches ops document)
  | [], query, _, _ => by simp [runCalls, filtersOf]
  | call :: calls, query, hfresh, hdistinct => by
    have hfirst : ∀ field ∈ call.field?, field ∉ query.fields.keys := fun field hfield =>
      hfresh field (List.mem_filterMap.2 ⟨call, List.mem_cons_self, hfield⟩)
    have hrest : ∀ field ∈ calls.filterMap Call.field?, field ∉ (call.run query).fields.keys := by
      intro field hfield hkey
      rcases call.keys_run hkey with hold | hnew
      · obtain ⟨other, hother, heq⟩ := List.mem_filterMap.1 hfield
        exact hfresh field (List.mem_filterMap.2 ⟨other, List.mem_cons_of_mem _ hother, heq⟩) hold
      · exact hdistinct.2.1 field hnew hfield
    rw [runCalls, filtersOf, List.forall_mem_append, matches_runCalls calls _ hrest hdistinct.2.2,
      call.matches_run query hfirst hdistinct.1, and_assoc]

theorem matches_runGroups : ∀ groups : List (List Call), GroupsDistinct groups →
    ((∀ part ∈ runGroups groups (List.replicate groups.length .aBuilder), part.Matches ops document) ↔
      ∀ filter ∈ filtersOfGroups groups, (filter.run .aBuilder).Matches ops document)
  | [], _ => by simp [runGroups, filtersOfGroups]
  | calls :: groups, hdistinct => by
    rw [List.length_cons, List.replicate_succ, runGroups, filtersOfGroups, List.forall_mem_cons,
      List.forall_mem_append, matches_runGroups groups hdistinct.2,
      matches_runCalls calls _ (fun _ _ => List.not_mem_nil) hdistinct.1, and_iff_right matches_aBuilder]

end

/-! ## The condition -/

/-- A condition on a builder without any. -/
theorem matches_set_aBuilder (field : Field) (condition : Condition) :
    (Query.aBuilder.set field condition).Matches ops document ↔
      (field.1 ≠ "__proto__" → condition.Holds ops document field) := by
  rw [matches_set condition (by exact List.not_mem_nil), and_iff_right matches_aBuilder]

/-- What is ignored of a primitive filter is what has no value. -/
theorem ignored_primitive (value : Given Scalar) (ignoreEmptyString : Bool) :
    (shouldIgnore value Scalar.isEmptyString ignoreEmptyString && !value.isNull) = true ↔
      value = .undefined ∨ ignoreEmptyString ∧ ∃ text, value = .value (.string text) ∧ isBlank text := by
  cases value with
  | value a => cases a <;> simp [shouldIgnore, Given.isNull, Scalar.isEmptyString]
  | _ => simp [shouldIgnore, Given.isNull]

theorem ignored_array (value : Given (List Scalar)) (ignoreEmpty : Bool) :
    value = .undefined ∨ value = .null ∨ ignoreEmpty ∧ value = .value [] ↔
      shouldIgnore value (fun _ => false) = true ∨ (ignoreEmpty && (value.toOption.getD []).length = 0) = true := by
  cases value <;> simp [shouldIgnore, Given.toOption]

/-- What the filter asks for, but for falsy bounds. -/
def Filter.Keeps (ops : Operators Document) (document : Document) : Filter → Prop
  | .range field value => ∀ range ∈ value.toOption, (∀ bound ∈ truthyBound range.start, ops.gte field bound document) ∧
      ∀ bound ∈ truthyBound range.stop, ops.lte field bound document
  | filter => filter.Asks ops document

theorem mem_truthyBound {bound : Given Scalar} {a : Scalar} : a ∈ truthyBound bound ↔ a ∈ bound.toOption ∧ a.truthy := by
  simp [truthyBound, Option.filter_eq_some_iff]

theorem Filter.mem_bounds {field : Field} {value : Given Range} {bound : Scalar} :
    bound ∈ (Filter.range field value).bounds ↔
      ∃ range ∈ value.toOption, bound ∈ range.start.toOption ∨ bound ∈ range.stop.toOption := by
  cases value <;> simp [bounds, Given.toOption]

/-- **What a filter alone stores.** -/
theorem Filter.matches_alone (filter : Filter) : (filter.run .aBuilder).Matches ops document ↔
    filter.NoValue ∨ (filter.field.1 ≠ "__proto__" → filter.Keeps ops document) := by
  cases filter with
  | primitive field value ignoreEmptyString =>
    rw [run, Query.addPrimitiveFilter, NoValue, ← ignored_primitive]
    split
    · rename_i h
      simp [h, matches_aBuilder]
    · rename_i h
      rw [matches_set_aBuilder, or_iff_right h]
      rfl
  | notEqualPrimitive field value ignoreEmptyString =>
    rw [run, Query.addNotEqualPrimitiveFilter, NoValue, ← ignored_primitive]
    split
    · rename_i h
      simp [h, matches_aBuilder]
    · rename_i h
      rw [matches_set_aBuilder, or_iff_right h]
      rfl
  | array field value ignoreEmpty =>
    rw [run, Query.addArrayFilter, NoValue, ignored_array]
    split
    · rename_i h
      simp [h, matches_aBuilder]
    · rename_i h
      split
      · rename_i h'
        simp only [h', or_true, true_or, matches_aBuilder]
      · rename_i h'
        rw [matches_set_aBuilder, or_iff_right (not_or.2 ⟨h, h'⟩)]
        cases value with
        | value values => simp [Condition.Holds, Keeps, Asks, Given.toOption, Filter.field]
        | _ => exact absurd rfl h
  | notInArray field value ignoreEmpty =>
    rw [run, Query.addNotInArrayFilter, NoValue, ignored_array]
    split
    · rename_i h
      simp [h, matches_aBuilder]
    · rename_i h
      split
      · rename_i h'
        simp only [h', or_true, true_or, matches_aBuilder]
      · rename_i h'
        rw [matches_set_aBuilder, or_iff_right (not_or.2 ⟨h, h'⟩)]
        cases value with
        | value values => simp [Condition.Holds, Keeps, Asks, Given.toOption, Filter.field]
        | _ => exact absurd rfl h
  | range field value =>
    cases value with
    | value bounds =>
      have hrun : (Filter.range field (.value bounds)).run .aBuilder =
          if (truthyBound bounds.start).isNone && (truthyBound bounds.stop).isNone then .aBuilder
          else Query.aBuilder.set field (.range (truthyBound bounds.start) (truthyBound bounds.stop)) := rfl
      have hkept : (Filter.range field (.value bounds)).NoValue →
          (Filter.range field (.value bounds)).Keeps ops document := by
        intro hnone range hrange
        have hno (b : Scalar) (hb : b ∈ range.start.toOption ∨ b ∈ range.stop.toOption) : False :=
          List.not_mem_nil (hnone ▸ mem_bounds.2 ⟨range, hrange, hb⟩)
        exact ⟨fun b hb => (hno b (.inl (mem_truthyBound.1 hb).1)).elim,
          fun b hb => (hno b (.inr (mem_truthyBound.1 hb).1)).elim⟩
      have hstored : (Filter.range field (.value bounds)).Keeps ops document ↔
          (Condition.range (truthyBound bounds.start) (truthyBound bounds.stop)).Holds ops document field := by
        simp [Keeps, Given.toOption, Condition.Holds]
      rw [or_iff_right_of_imp fun hnone _ => hkept hnone, hstored, hrun]
      split
      · rename_i hnone
        obtain ⟨hstart, hstop⟩ := (Bool.and_eq_true ..).mp hnone
        simp [Option.isNone_iff_eq_none.1 hstart, Option.isNone_iff_eq_none.1 hstop, Condition.Holds, matches_aBuilder]
      · exact matches_set_aBuilder _ _
    | _ => simp [run, Query.addRangeFilter, shouldIgnore, matches_aBuilder, NoValue, bounds]

/-- **A sound filter, alone.** -/
theorem Filter.keeps_iff (filter : Filter) (h : ∀ bound ∈ filter.bounds, bound.truthy) :
    filter.Keeps ops document ↔ filter.Asks ops document := by
  cases filter with
  | range field value =>
    have hkept {range : Range} {bound : Given Scalar} (hrange : range ∈ value.toOption)
        (hbound : bound = range.start ∨ bound = range.stop) {p : Scalar → Prop} :
        (∀ a ∈ truthyBound bound, p a) ↔ ∀ a ∈ bound.toOption, p a := by
      refine forall_congr' fun a => imp_congr_left ?_
      rw [mem_truthyBound]
      refine and_iff_left_of_imp fun ha => h a (mem_bounds.2 ⟨range, hrange, ?_⟩)
      rcases hbound with rfl | rfl
      · exact .inl ha
      · exact .inr ha
    exact forall₂_congr fun range hrange => and_congr (hkept hrange (.inl rfl)) (hkept hrange (.inr rfl))
  | _ => rfl

/-- A meaning of the operators under which whatever is stored holds. -/
def lenient : Operators Unit where
  eq field _ _ := field.1 ≠ "__proto__"
  ne field _ _ := field.1 ≠ "__proto__"
  isIn field _ _ := field.1 ≠ "__proto__"
  notIn field _ _ := field.1 ≠ "__proto__"
  gte field bound _ := field.1 ≠ "__proto__" ∧ bound.truthy
  lte field bound _ := field.1 ≠ "__proto__" ∧ bound.truthy
  regex field _ _ _ := field.1 ≠ "__proto__"

theorem Filter.matches_lenient (filter : Filter) : (filter.run .aBuilder).Matches lenient () := by
  refine filter.matches_alone.2 (.inr fun hproto => ?_)
  cases filter with
  | primitive => exact hproto
  | notEqualPrimitive => exact hproto
  | array => exact fun _ _ => hproto
  | notInArray => exact fun _ _ => hproto
  | range =>
    exact fun _ _ => ⟨fun a ha => ⟨hproto, (mem_truthyBound.1 ha).2⟩, fun a ha => ⟨hproto, (mem_truthyBound.1 ha).2⟩⟩

/-- What is asked for holds under this meaning for sound filters only. -/
theorem Filter.sound_of_lenient (filter : Filter) (h : filter.NoValue ∨ filter.Asks lenient ()) : filter.Sound := by
  intro hvalue
  have hasks := h.resolve_left hvalue
  cases filter with
  | primitive => exact ⟨hasks, fun bound hbound => absurd hbound List.not_mem_nil⟩
  | notEqualPrimitive => exact ⟨hasks, fun bound hbound => absurd hbound List.not_mem_nil⟩
  | array field value ignoreEmpty =>
    cases value with
    | value values => exact ⟨hasks values rfl, fun bound hbound => absurd hbound List.not_mem_nil⟩
    | _ => simp [NoValue] at hvalue
  | notInArray field value ignoreEmpty =>
    cases value with
    | value values => exact ⟨hasks values rfl, fun bound hbound => absurd hbound List.not_mem_nil⟩
    | _ => simp [NoValue] at hvalue
  | range field value =>
    have hbounds : ∀ bound ∈ (Filter.range field value).bounds, field.1 ≠ "__proto__" ∧ bound.truthy := by
      intro bound hbound
      obtain ⟨range, hrange, hstart | hstop⟩ := mem_bounds.1 hbound
      · exact (hasks range hrange).1 bound hstart
      · exact (hasks range hrange).2 bound hstop
    obtain ⟨bound, hbound⟩ := List.exists_mem_of_ne_nil _ hvalue
    exact ⟨(hbounds bound hbound).1, fun b hb => (hbounds b hb).2⟩

/-- **A built query matches what satisfies the calls iff the filters are sound.** -/
theorem matches_iff {calls : List Call} (h : Distinct calls) :
    (∀ (Document : Type) (ops : Operators Document) (document : Document),
      (build calls).Matches ops document ↔ Satisfied ops document calls) ↔ ∀ filter ∈ filtersOf calls, filter.Sound := by
  have hbuild {Document : Type} {ops : Operators Document} {document : Document} :
      (build calls).Matches ops document ↔
        ∀ filter ∈ filtersOf calls, (filter.run .aBuilder).Matches ops document := by
    rw [build, matches_runCalls calls _ (fun _ _ => List.not_mem_nil) h, and_iff_right matches_aBuilder]
  constructor
  · intro hall filter hfilter
    have hlenient := (hall Unit lenient ()).1 (hbuild.2 fun f _ => f.matches_lenient)
    exact filter.sound_of_lenient (hlenient filter hfilter)
  · intro hsound Document ops document
    rw [hbuild]
    refine forall₂_congr fun filter hfilter => ?_
    rw [filter.matches_alone]
    by_cases hvalue : filter.NoValue
    · simp [hvalue]
    · obtain ⟨hproto, hbounds⟩ := hsound filter hfilter hvalue
      rw [or_iff_right hvalue, or_iff_right hvalue, filter.keeps_iff hbounds]
      simp [hproto]

/-! ## Documents with a value in each field -/

/-- The order of the values of one type. -/
def Scalar.le : Scalar → Scalar → Prop
  | .boolean b, .boolean c => b ≤ c
  | .number (.finite x), .number (.finite y) => x ≤ y
  | .string s, .string t => s ≤ t
  | .date (some t), .date (some u) => t.val ≤ u.val
  | a, b => a = b

/-- The meaning of the operators on documents that have a scalar in a field, or nothing. -/
def flat (fold : Char → Char) : Operators (Field → Option Scalar) where
  eq field value document := document field = value
  ne field value document := document field ≠ value
  isIn field values document := ∃ value ∈ values, document field = some value
  notIn field values document := ∀ value ∈ values, document field ≠ some value
  gte field bound document := ∃ value, document field = some value ∧ bound.le value
  lte field bound document := ∃ value, document field = some value ∧ value.le bound
  regex field pattern options document :=
    let (source, letters) := match pattern with
      | .text source => (source, options.getD "")
      | .regExp source flags => (source, options.getD flags)
    ∃ text regex flags, document field = some (.string text) ∧ Regex.parse source.toList = some regex ∧
      Regex.Options.ofLetters letters.toList = some flags ∧ regex.Finds flags fold text.toList

def price : Field := ⟨"price", by decide⟩

/-- Prices from 5 on, but not 7. -/
def clean : List Call :=
  [.filter (.range price (.value ⟨.value (.number (.finite 5)), .undefined⟩)),
    .and [[.filter (.notEqualPrimitive price (.value (.number (.finite 7))) true)], []]]

theorem matches_clean : (build clean).Matches (flat id) (fun _ => some (.number (.finite 6))) ↔
    Satisfied (flat id) (fun _ => some (.number (.finite 6))) clean := by
  have hdistinct : Distinct clean := by simp [clean, Distinct, Call.Distinct, GroupsDistinct, Call.field?]
  refine (matches_iff hdistinct).2 ?_ _ _ _
  have hproto : price.1 ≠ "__proto__" := by decide
  have hfive : (Scalar.number (.finite 5)).truthy = true := by decide
  intro filter hfilter _
  simp only [clean, filtersOf, Call.filters, filtersOfGroups, List.append_nil, List.mem_append,
    List.mem_singleton] at hfilter
  rcases hfilter with rfl | rfl
  · exact ⟨hproto, fun bound hbound => List.mem_singleton.1 hbound ▸ hfive⟩
  · exact ⟨hproto, fun bound hbound => absurd hbound List.not_mem_nil⟩

/-- **A bound of zero is dropped**: a price of -1 is at least 0. -/
theorem zero_bound : ¬ ∀ (calls : List Call), Distinct calls → ∀ document,
    (build calls).Matches (flat id) document ↔ Satisfied (flat id) document calls := by
  intro h
  let filter : Filter := .range price (.value ⟨.value (.number (.finite 0)), .undefined⟩)
  have hdistinct : Distinct [.filter filter] := by simp [Distinct, Call.Distinct, Call.field?]
  have hbuilt : (build [.filter filter]).Matches (flat id) fun _ => some (.number (.finite (-1))) := matches_aBuilder
  have hasked := ((h _ hdistinct _).1 hbuilt filter (List.mem_append_left _ List.mem_cons_self))
  rcases hasked with hnone | hasks
  · exact absurd hnone (by simp [filter, Filter.NoValue, Filter.bounds, Given.toOption])
  · obtain ⟨value, hvalue, hle⟩ := (hasks _ rfl).1 _ rfl
    obtain rfl := Option.some.inj hvalue
    exact absurd hle (by simp [Scalar.le])

end NodeToolkit.QueryBuilder
