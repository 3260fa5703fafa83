import NodeToolkit.Spec.TestEvent
import Mathlib.Data.List.OfFn

/-!
# What test events look like

A value `Conforms` to a description if it has the documented shape, by what stands inside of the brackets.

* `Yields`: the values that the code can put under a key, `returns_generateField`.
* `generate_iff`: every event conforms if and only if the documentation is `Clean`: no free text contains a
  modifier that its brackets do not, and no key is `__proto__`.
* `null_string`: a string that is null because of the text behind its type.
-/

namespace NodeToolkit.TestEvent

open Async Date

/-! ## The statement -/

def IsBase : BaseFieldType → Value → Prop
  | .string, v => ∃ s, v = .string s
  | .number, v => ∃ x, v = .number x
  | .isoStringDate, v => ∃ time, v = .date time
  | .boolean, v => ∃ b, v = .boolean b

/-- A value, or a non-empty array of values. -/
def FieldType.Holds (type : FieldType) (v : Value) : Prop :=
  if type.isArray then ∃ vs, v = .array vs ∧ vs ≠ [] ∧ ∀ w ∈ vs, IsBase type.base w else IsBase type.base v

mutual

/-- **The value has the documented shape.** -/
def FieldDescription.Conforms : FieldDescription → Value → Prop
  | .base type _, v => v = .null ∧ type.modifier = some .nullable ∨ v = .undefined ∧ type.modifier = some .optional ∨
      type.Holds v
  | .record documentation, v => documentation.Conforms v
  | .array length records, v => ∃ f : Fin length → Value, v = .array (List.ofFn f) ∧ ∀ i, (records i).Conforms (f i)

def Documentation.Conforms : Documentation → Value → Prop
  | .mk keys _ get, v => ∃ f : {k // k ∈ keys} → Value, v = .record (keys.attach.map fun key => (key.1, f key)) ∧
      ∀ key, (get key).Conforms (f key)

end

/-- The text has no modifier that the type does not have. -/
structure CleanText (type : FieldType) (text : String) : Prop where
  nullable : includes text "(NULLABLE)" → type.modifier = some .nullable
  optional : includes text "(OPTIONAL)" → type.modifier = some .optional
  array : includes text "(ARRAY)" → type.isArray

mutual

/-- **The condition.** -/
def FieldDescription.Clean : FieldDescription → Prop
  | .base type text => CleanText type text
  | .record documentation => documentation.Clean
  | .array _ records => ∀ i, (records i).Clean

def Documentation.Clean : Documentation → Prop
  | .mk keys _ get => "__proto__" ∉ keys ∧ ∀ key, (get key).Clean

end

/-! ## Random choices -/

section Random

variable {α β : Type}

theorem returns_mapM {f : α → Random β} {l : List α} {bs : List β} :
    (l.mapM f).Returns bs ↔ List.Forall₂ (fun a b => (f a).Returns b) l bs := by
  induction l generalizing bs with
  | nil =>
    rw [List.mapM_nil, Prog.pure_eq, Prog.returns_ret]
    simp
  | cons a l ih =>
    rw [List.mapM_cons]
    simp only [Prog.returns_bind, ih, Prog.pure_eq, Prog.returns_ret]
    constructor
    · rintro ⟨b, hb, bs, hbs, rfl⟩
      exact .cons hb hbs
    · intro h
      cases h with
      | cons hb hbs => exact ⟨_, hb, _, hbs, rfl⟩

/-- What feasible choices lead to. -/
theorem exists_returns {p : Random α} (h : p.Uses fun c => Nonempty c.Answer) : ∃ a, p.Returns a := by
  induction p with
  | ret a => exact ⟨a, rfl⟩
  | await c k ih =>
    obtain ⟨r⟩ := h.1
    obtain ⟨a, ha⟩ := ih r (h.2 r)
    exact ⟨a, r, ha⟩

theorem uses_mapM {f : α → Random β} {l : List α} {ok : Draw → Prop} (h : ∀ a, (f a).Uses ok) : (l.mapM f).Uses ok := by
  induction l with
  | nil => exact trivial
  | cons a l ih =>
    rw [List.mapM_cons]
    refine (h a).bind fun b => ih.bind fun bs => ?_
    exact trivial

theorem uses_foldlM {f : β → α → Random β} {l : List α} {b : β} {ok : Draw → Prop} (h : ∀ b a, (f b a).Uses ok) :
    (l.foldlM f b).Uses ok := by
  induction l generalizing b with
  | nil => exact trivial
  | cons a l ih =>
    rw [List.foldlM_cons]
    exact (h b a).bind fun b => ih

end Random

/-! ## Descriptions of fields -/

/-- A character that is not in the pattern keeps its occurrences apart. -/
theorem infix_append_cons {pattern a b : List Char} {x : Char} (hx : x ∉ pattern) (hne : pattern ≠ []) :
    pattern <:+: a ++ x :: b ↔ pattern <:+: a ∨ pattern <:+: b := by
  constructor
  · rintro ⟨s, t, h⟩
    rw [List.append_assoc] at h
    rcases List.append_eq_append_iff.1 h with ⟨a', rfl, hrest⟩ | ⟨c, rfl, hrest⟩
    · rcases List.append_eq_append_iff.1 hrest with ⟨a'', rfl, -⟩ | ⟨c, rfl, htail⟩
      · exact .inl ⟨s, a'', List.append_assoc ..⟩
      · cases c with
        | nil => exact .inl ⟨s, [], by simp⟩
        | cons y c =>
          obtain rfl := (List.cons.inj htail).1
          exact absurd (List.mem_append_right _ List.mem_cons_self) hx
    · cases c with
      | nil =>
        obtain ⟨y, pattern, rfl⟩ := List.exists_cons_of_ne_nil hne
        obtain rfl := (List.cons.inj hrest).1
        exact absurd List.mem_cons_self hx
      | cons y c =>
        refine .inr ⟨c, t, ?_⟩
        rw [List.append_assoc]
        exact (List.cons.inj hrest).2.symm
  · rintro (⟨s, t, rfl⟩ | ⟨s, t, rfl⟩)
    · exact ⟨s, t ++ x :: b, by simp⟩
    · exact ⟨a ++ x :: s, t, by simp⟩

/-- A modifier is in the type or in the text. -/
theorem includes_description (type : FieldType) (text pattern : String) (hne : pattern.toList ≠ [])
    (h : '[' ∉ pattern.toList) (h' : ']' ∉ pattern.toList) (h'' : ' ' ∉ pattern.toList) :
    includes (baseFieldDescription type text) pattern = (includes type.text pattern || includes text pattern) := by
  have htext : (baseFieldDescription type text).toList =
      [] ++ '[' :: (type.text.toList ++ ']' :: ([] ++ ' ' :: text.toList)) := by
    simp [baseFieldDescription]
  have hnil : ¬ pattern.toList <:+: [] := fun hnil => hne (List.infix_nil.1 hnil)
  unfold includes
  rw [htext, ← Bool.decide_or, decide_eq_decide, infix_append_cons h hne, infix_append_cons h' hne,
    infix_append_cons h'' hne, or_iff_right hnil, or_iff_right hnil]

theorem bracketed_description (type : FieldType) (text : String) :
    bracketed (baseFieldDescription type text).toList = some type.text.toList := by
  have hletters : type.text.toList.all (fun c => c ≠ ']' ∧ c ∉ lineTerminators) = true := by
    obtain ⟨base, isArray, modifier⟩ := type
    rcases modifier with _ | _ | _ <;> cases isArray <;> cases base <;> decide
  have hinner : (type.text.toList ++ ']' :: ' ' :: text.toList).takeWhile
      (fun c => c ≠ ']' ∧ c ∉ lineTerminators) = type.text.toList := by
    rw [List.takeWhile_append_of_pos (List.all_eq_true.1 hletters), List.takeWhile_cons_of_neg (by simp), List.append_nil]
  have htext : (baseFieldDescription type text).toList = '[' :: (type.text.toList ++ ']' :: ' ' :: text.toList) := by
    simp [baseFieldDescription]
  rw [htext, bracketed, hinner, if_pos ⟨rfl, by simp⟩]

/-- **What is read** of a description. -/
theorem parseFieldType_description (type : FieldType) (text : String) :
    parseFieldType (baseFieldDescription type text) = .ret {
      type := type.base.text
      isArray := type.isArray || includes text "(ARRAY)"
      isNullable := decide (type.modifier = some .nullable) || includes text "(NULLABLE)"
      isOptional := decide (type.modifier = some .optional) || includes text "(OPTIONAL)" } := by
  have htype : trim ((split type.text ' ').headD "") = type.base.text ∧ includes type.text "(ARRAY)" = type.isArray ∧
      includes type.text "(NULLABLE)" = decide (type.modifier = some .nullable) ∧
      includes type.text "(OPTIONAL)" = decide (type.modifier = some .optional) := by
    obtain ⟨base, isArray, modifier⟩ := type
    rcases modifier with _ | _ | _ <;> cases isArray <;> cases base <;> decide +kernel
  obtain ⟨hbase, harray, hnullable, hoptional⟩ := htype
  have harray' := includes_description type text "(ARRAY)" (by decide) (by decide) (by decide) (by decide)
  have hnullable' := includes_description type text "(NULLABLE)" (by decide) (by decide) (by decide)
    (by decide)
  have hoptional' := includes_description type text "(OPTIONAL)" (by decide) (by decide) (by decide)
    (by decide)
  rw [parseFieldType, bracketed_description]
  simp only [String.ofList_toList, hbase, harray', hnullable', hoptional', harray, hnullable, hoptional, Prog.pure_eq]

/-! ## Fields -/

theorem isBase_of_returns {type : BaseFieldType} {v : Value} (h : (getRandomValue type.text).Returns v) :
    IsBase type v := by
  cases type with
  | string =>
    obtain ⟨s, -, rfl⟩ := Prog.returns_bind.1 h
    exact ⟨s, rfl⟩
  | number =>
    obtain ⟨x, -, rfl⟩ := Prog.returns_bind.1 h
    exact ⟨x.val, rfl⟩
  | isoStringDate =>
    obtain ⟨time, -, rfl⟩ := Prog.returns_bind.1 h
    exact ⟨time, rfl⟩
  | boolean =>
    obtain ⟨b, -, rfl⟩ := Prog.returns_bind.1 h
    exact ⟨b, rfl⟩

theorem uses_randomValue (type : BaseFieldType) : (getRandomValue type.text).Uses fun c => Nonempty c.Answer := by
  cases type with
  | string => exact ⟨⟨""⟩, fun s => trivial⟩
  | number => exact ⟨⟨⟨0, by decide⟩⟩, fun x => trivial⟩
  | isoStringDate => exact ⟨⟨⟨0, by decide, by decide⟩⟩, fun time => trivial⟩
  | boolean => exact ⟨⟨true⟩, fun b => trivial⟩

/-- What is read of a description. -/
def parsed (type : FieldType) (text : String) : ParsedType where
  type := type.base.text
  isArray := type.isArray || includes text "(ARRAY)"
  isNullable := decide (type.modifier = some .nullable) || includes text "(NULLABLE)"
  isOptional := decide (type.modifier = some .optional) || includes text "(OPTIONAL)"

theorem uses_generateValue (type : FieldType) (text : String) :
    (generateValue (parsed type text)).Uses fun c => Nonempty c.Answer := by
  unfold generateValue
  split
  · refine ⟨⟨⟨1, by decide⟩⟩, fun length => ?_⟩
    refine (uses_mapM fun _ => uses_randomValue type.base).bind fun vs => ?_
    exact trivial
  · exact uses_randomValue type.base

/-- The values of a field, without modifiers. -/
theorem generateValue_array {type : FieldType} {text : String} (h : (parsed type text).isArray) {v : Value}
    (hv : (generateValue (parsed type text)).Returns v) :
    ∃ vs, v = .array vs ∧ vs ≠ [] ∧ ∀ w ∈ vs, IsBase type.base w := by
  rw [generateValue, if_pos h] at hv
  obtain ⟨length, -, hv⟩ := Prog.returns_bind.1 hv
  obtain ⟨vs, hvs, rfl⟩ := Prog.returns_bind.1 hv
  have hall := returns_mapM.1 hvs
  refine ⟨vs, rfl, ?_, fun w hw => ?_⟩
  · rintro rfl
    have hlength := hall.length_eq
    have hpos := length.property.1
    rw [List.length_range, List.length_nil] at hlength
    omega
  · obtain ⟨i, hi, rfl⟩ := List.getElem_of_mem hw
    exact isBase_of_returns (hall.get (by rw [hall.length_eq]; exact hi) hi)

theorem generateValue_single {type : FieldType} {text : String} (h : (parsed type text).isArray = false) {v : Value}
    (hv : (generateValue (parsed type text)).Returns v) : IsBase type.base v := by
  rw [generateValue, if_neg (by simp [h])] at hv
  exact isBase_of_returns hv

/-- **The values that a description can get.** -/
def FieldDescription.Yields : FieldDescription → Value → Prop
  | .base type text, v => v = .null ∧ (parsed type text).isNullable ∨ v = .undefined ∧ (parsed type text).isOptional ∨
      (generateValue (parsed type text)).Returns v
  | .record documentation, v => (GenerateTestEvent documentation).Returns v
  | .array length records, v =>
    ∃ f : Fin length → Value, v = .array (List.ofFn f) ∧ ∀ i, (GenerateTestEvent (records i)).Returns (f i)

theorem assign_assign (l : List (String × Value)) (key : String) (v w : Value) :
    OMap.assign (OMap.assign l key v) key w = OMap.assign l key w := by
  induction l with
  | nil => simp [OMap.assign]
  | cons e l ih =>
    by_cases h : e.1 = key
    · simp [OMap.assign, h]
    · simp [OMap.assign, h, ih]

theorem setKey_setKey (result : List (String × Value)) (key : String) (v w : Value) :
    setKey (setKey result key v) key w = setKey result key w := by
  unfold setKey
  split
  · rfl
  · exact assign_assign result key v w

theorem returns_andRandomBool {condition b : Bool} :
    (andRandomBool condition).Returns b ↔ (b = true → condition = true) := by
  unfold andRandomBool
  split
  · rename_i h
    exact iff_of_true ⟨b, rfl⟩ fun _ => h
  · rename_i h
    cases b with
    | false => exact iff_of_true rfl (by simp)
    | true => exact iff_of_false (by simp [Prog.pure_eq]) (by simpa using h)

/-- **A round of the loop** puts one of them under the key. -/
theorem returns_generateField (result : List (String × Value)) (key : String) (description : FieldDescription)
    (r : List (String × Value)) : (generateField result key description).Returns r ↔
      ∃ v, description.Yields v ∧ r = setKey result key v := by
  cases description with
  | base type text =>
    have hparsed : parseFieldType (baseFieldDescription type text) = .ret (parsed type text) :=
      parseFieldType_description type text
    rw [generateField, generateBase, hparsed, Prog.ret_bind]
    constructor
    · intro h
      obtain ⟨v, hv, h⟩ := Prog.returns_bind.1 h
      obtain ⟨isNull, hnull, h⟩ := Prog.returns_bind.1 h
      rw [returns_andRandomBool] at hnull
      split at h
      · rename_i htrue
        exact ⟨.null, .inl ⟨rfl, hnull htrue⟩, (Prog.returns_ret.1 h).trans (setKey_setKey ..)⟩
      · obtain ⟨isUndefined, hundefined, h⟩ := Prog.returns_bind.1 h
        rw [returns_andRandomBool] at hundefined
        split at h
        · rename_i htrue
          exact ⟨.undefined, .inr (.inl ⟨rfl, hundefined htrue⟩), (Prog.returns_ret.1 h).trans (setKey_setKey ..)⟩
        · exact ⟨v, .inr (.inr hv), Prog.returns_ret.1 h⟩
    · rintro ⟨v, hv, rfl⟩
      have hno (condition : Bool) : (andRandomBool condition).Returns false := returns_andRandomBool.2 (by simp)
      obtain ⟨w, hw⟩ := exists_returns (uses_generateValue type text)
      rcases hv with ⟨rfl, hnull⟩ | ⟨rfl, hundefined⟩ | hv
      · refine Prog.returns_bind.2 ⟨w, hw, Prog.returns_bind.2 ⟨true, returns_andRandomBool.2 fun _ => hnull, ?_⟩⟩
        exact (setKey_setKey result key w .null).symm
      · refine Prog.returns_bind.2 ⟨w, hw, Prog.returns_bind.2 ⟨false, hno _, Prog.returns_bind.2
          ⟨true, returns_andRandomBool.2 fun _ => hundefined, ?_⟩⟩⟩
        exact (setKey_setKey result key w .undefined).symm
      · refine Prog.returns_bind.2 ⟨v, hv, Prog.returns_bind.2 ⟨false, hno _, Prog.returns_bind.2 ⟨false, hno _, ?_⟩⟩⟩
        exact rfl
  | record documentation =>
    rw [generateField, Prog.returns_bind]
    rfl
  | array length records =>
    rw [generateField, Prog.returns_bind]
    constructor
    · rintro ⟨values, hvalues, rfl⟩
      have hall := returns_mapM.1 hvalues
      have hlength : values.length = length := by rw [← hall.length_eq, List.length_finRange]
      subst hlength
      refine ⟨.array values, ⟨values.get, by rw [List.ofFn_get], fun i => ?_⟩, rfl⟩
      have hi := hall.get (i := i.val) (by rw [List.length_finRange]; exact i.isLt) i.isLt
      simpa using hi
    · rintro ⟨v, ⟨f, rfl, hf⟩, rfl⟩
      refine ⟨List.ofFn f, returns_mapM.2 ?_, rfl⟩
      rw [List.ofFn_eq_map]
      exact List.forall₂_map_right_iff.2 (List.forall₂_same.2 fun i _ => hf i)

/-! ## Records -/

theorem returns_foldlM {keys : List String} {get : {k // k ∈ keys} → FieldDescription} {l : List {k // k ∈ keys}}
    (hnodup : l.Nodup) {result r : List (String × Value)} (hex : ∀ key, ∃ v, (get key).Yields v) :
    (l.foldlM (fun result key => generateField result key.1 (get key)) result).Returns r ↔
      ∃ f : {k // k ∈ keys} → Value, (∀ key, (get key).Yields (f key)) ∧
        r = l.foldl (fun result key => setKey result key.1 (f key)) result := by
  induction l generalizing result with
  | nil =>
    obtain ⟨f, hf⟩ := Classical.skolem.1 hex
    exact ⟨fun h => ⟨f, hf, h⟩, fun ⟨_, _, h⟩ => h⟩
  | cons key l ih =>
    obtain ⟨hnotin, hl⟩ := List.nodup_cons.1 hnodup
    rw [List.foldlM_cons, Prog.returns_bind]
    simp only [returns_generateField, ih hl, List.foldl_cons]
    constructor
    · rintro ⟨_, ⟨v, hv, rfl⟩, f, hf, rfl⟩
      refine ⟨Function.update f key v, fun k => ?_, ?_⟩
      · by_cases hk : k = key
        · subst hk
          rwa [Function.update_self]
        · rw [Function.update_of_ne hk]
          exact hf k
      · rw [Function.update_self]
        refine List.foldl_ext _ _ _ fun result k hk => ?_
        have hne : k ≠ key := by
          rintro rfl
          exact hnotin hk
        rw [Function.update_of_ne hne]
    · rintro ⟨f, hf, rfl⟩
      exact ⟨_, ⟨f key, hf key, rfl⟩, f, hf, rfl⟩

theorem foldl_setKey {keys : List String} {l : List {k // k ∈ keys}} (hnodup : l.Nodup) (hproto : "__proto__" ∉ keys)
    {result : List (String × Value)} (hfresh : ∀ key ∈ l, key.1 ∉ result.map Prod.fst) (f : {k // k ∈ keys} → Value) :
    l.foldl (fun result key => setKey result key.1 (f key)) result = result ++ l.map fun key => (key.1, f key) := by
  induction l generalizing result with
  | nil => exact (List.append_nil result).symm
  | cons key l ih =>
    obtain ⟨hnotin, hl⟩ := List.nodup_cons.1 hnodup
    have hne : key.1 ≠ "__proto__" := fun h => hproto (h ▸ key.2)
    have hset : setKey result key.1 (f key) = result ++ [(key.1, f key)] := by
      rw [setKey, if_neg hne, OMap.assign_of_notMem (hfresh key List.mem_cons_self)]
    rw [List.foldl_cons, hset, ih hl, List.map_cons, List.append_assoc, List.singleton_append]
    intro k hk
    rw [List.map_append, List.mem_append, not_or]
    refine ⟨hfresh k (List.mem_cons_of_mem _ hk), ?_⟩
    rw [List.map_singleton, List.mem_singleton]
    intro heq
    exact hnotin (Subtype.ext heq ▸ hk)

/-- No assignment makes a property `__proto__`. -/
theorem proto_notMem {keys : List String} {l : List {k // k ∈ keys}} {result : List (String × Value)}
    (h : "__proto__" ∉ result.map Prod.fst) (f : {k // k ∈ keys} → Value) :
    "__proto__" ∉ (l.foldl (fun result key => setKey result key.1 (f key)) result).map Prod.fst := by
  induction l generalizing result with
  | nil => exact h
  | cons key l ih =>
    refine ih ?_
    dsimp only
    unfold setKey
    split
    · exact h
    · rename_i hne
      rw [OMap.keys_assign]
      split
      · exact h
      · simpa [h] using Ne.symm hne

/-- **The events of a documentation**, if each description yields something. -/
theorem returns_generate {keys : List String} {distinct : keys.Nodup} {get : {k // k ∈ keys} → FieldDescription}
    (hex : ∀ key, ∃ v, (get key).Yields v) {v : Value} : (GenerateTestEvent (.mk keys distinct get)).Returns v ↔
      ∃ f : {k // k ∈ keys} → Value, (∀ key, (get key).Yields (f key)) ∧
        v = .record (keys.attach.foldl (fun result key => setKey result key.1 (f key)) []) := by
  rw [GenerateTestEvent, Prog.returns_bind]
  simp only [returns_foldlM distinct.attach hex, Prog.pure_eq, Prog.returns_ret]
  constructor
  · rintro ⟨_, ⟨f, hf, rfl⟩, rfl⟩
    exact ⟨f, hf, rfl⟩
  · rintro ⟨f, hf, rfl⟩
    exact ⟨_, ⟨f, hf, rfl⟩, rfl⟩

/-! ## Every outcome -/

mutual

theorem uses_generateField (result : List (String × Value)) (key : String) : ∀ description : FieldDescription,
    (generateField result key description).Uses fun c => Nonempty c.Answer
  | .base type text => by
    have hparsed : parseFieldType (baseFieldDescription type text) = .ret (parsed type text) :=
      parseFieldType_description type text
    have hbool (condition : Bool) : (andRandomBool condition).Uses fun c => Nonempty c.Answer := by
      cases condition with
      | false => exact trivial
      | true => exact ⟨⟨true⟩, fun _ => trivial⟩
    rw [generateField, generateBase, hparsed, Prog.ret_bind]
    refine (uses_generateValue type text).bind fun v => (hbool _).bind fun isNull => ?_
    split
    · exact trivial
    · refine (hbool _).bind fun isUndefined => ?_
      split
      · exact trivial
      · exact trivial
  | .record documentation => by
    rw [generateField]
    exact (uses_generate documentation).bind fun v => by exact trivial
  | .array length records => by
    rw [generateField]
    exact (uses_mapM fun i => uses_generate (records i)).bind fun vs => by exact trivial

/-- Nothing is thrown. -/
theorem uses_generate : ∀ documentation : Documentation,
    (GenerateTestEvent documentation).Uses fun c => Nonempty c.Answer
  | .mk keys _ get => by
    rw [GenerateTestEvent]
    refine (uses_foldlM fun result key => uses_generateField result key.1 (get key)).bind fun r => ?_
    exact trivial

end

theorem exists_yields (description : FieldDescription) : ∃ v, description.Yields v := by
  obtain ⟨r, hr⟩ := exists_returns (uses_generateField [] "" description)
  obtain ⟨v, hv, -⟩ := (returns_generateField [] "" description r).1 hr
  exact ⟨v, hv⟩

/-! ## Conformity -/

theorem conforms_null {type : FieldType} {text : String} (h : (FieldDescription.base type text).Conforms .null) :
    type.modifier = some .nullable := by
  rcases h with ⟨-, h⟩ | ⟨h, -⟩ | h
  · exact h
  · exact absurd h (by simp)
  · unfold FieldType.Holds at h
    split at h
    · obtain ⟨vs, h, -⟩ := h
      exact absurd h (by simp)
    · cases hbase : type.base <;> simp [hbase, IsBase] at h

theorem conforms_undefined {type : FieldType} {text : String}
    (h : (FieldDescription.base type text).Conforms .undefined) :
    type.modifier = some .optional := by
  rcases h with ⟨h, -⟩ | ⟨-, h⟩ | h
  · exact absurd h (by simp)
  · exact h
  · unfold FieldType.Holds at h
    split at h
    · obtain ⟨vs, h, -⟩ := h
      exact absurd h (by simp)
    · cases hbase : type.base <;> simp [hbase, IsBase] at h

theorem conforms_array {type : FieldType} {text : String} {vs : List Value}
    (h : (FieldDescription.base type text).Conforms (.array vs)) : type.isArray := by
  rcases h with ⟨h, -⟩ | ⟨h, -⟩ | h
  · exact absurd h (by simp)
  · exact absurd h (by simp)
  · unfold FieldType.Holds at h
    split at h
    · assumption
    · cases hbase : type.base <;> simp [hbase, IsBase] at h

/-- **A field conforms for every choice** iff its text is clean. -/
theorem base_iff (type : FieldType) (text : String) :
    (∀ v, (FieldDescription.base type text).Yields v → (FieldDescription.base type text).Conforms v) ↔
      CleanText type text := by
  constructor
  · intro h
    refine ⟨fun hin => ?_, fun hin => ?_, fun hin => ?_⟩
    · exact conforms_null (h .null (.inl ⟨rfl, by simp [parsed, hin]⟩))
    · exact conforms_undefined (h .undefined (.inr (.inl ⟨rfl, by simp [parsed, hin]⟩)))
    · obtain ⟨v, hv⟩ := exists_returns (uses_generateValue type text)
      obtain ⟨vs, rfl, -, -⟩ := generateValue_array (by simp [parsed, hin]) hv
      exact conforms_array (h _ (.inr (.inr hv)))
  · intro h v hv
    rcases hv with ⟨rfl, hnull⟩ | ⟨rfl, hundefined⟩ | hv
    · refine .inl ⟨rfl, ?_⟩
      rcases (Bool.or_eq_true ..).mp hnull with htype | htext
      · exact of_decide_eq_true htype
      · exact h.nullable htext
    · refine .inr (.inl ⟨rfl, ?_⟩)
      rcases (Bool.or_eq_true ..).mp hundefined with htype | htext
      · exact of_decide_eq_true htype
      · exact h.optional htext
    · refine .inr (.inr ?_)
      unfold FieldType.Holds
      cases harray : type.isArray with
      | true =>
        rw [if_pos rfl]
        exact generateValue_array (by simp [parsed, harray]) hv
      | false =>
        rw [if_neg Bool.false_ne_true]
        have htext : includes text "(ARRAY)" = false := by
          rw [← Bool.not_eq_true]
          intro htext
          exact absurd (h.array htext) (by simp [harray])
        exact generateValue_single (by simp [parsed, harray, htext]) hv

mutual

theorem yields_conforms_iff : ∀ description : FieldDescription,
    (∀ v, description.Yields v → description.Conforms v) ↔ description.Clean
  | .base type text => base_iff type text
  | .record documentation => returns_conforms_iff documentation
  | .array length records => by
    have hrecords (i : Fin length) := returns_conforms_iff (records i)
    simp only [FieldDescription.Clean, ← hrecords]
    constructor
    · intro h i v hv
      obtain ⟨f, hf⟩ := Classical.skolem.1 fun i => exists_returns (uses_generate (records i))
      obtain ⟨f', heq, hf'⟩ := h (.array (List.ofFn (Function.update f i v))) ⟨_, rfl, fun j => by
        by_cases hj : j = i
        · subst hj
          rwa [Function.update_self]
        · rw [Function.update_of_ne hj]
          exact hf j⟩
      have hsame := List.ofFn_injective (Value.array.inj heq)
      have hi := hf' i
      rwa [← hsame, Function.update_self] at hi
    · rintro h v ⟨f, rfl, hf⟩
      exact ⟨f, rfl, fun i => h i _ (hf i)⟩

theorem returns_conforms_iff : ∀ documentation : Documentation,
    (∀ v, (GenerateTestEvent documentation).Returns v → documentation.Conforms v) ↔ documentation.Clean
  | .mk keys distinct get => by
    have hget (key : {k // k ∈ keys}) := yields_conforms_iff (get key)
    simp only [Documentation.Clean, ← hget, returns_generate fun key => exists_yields (get key)]
    constructor
    · intro h
      obtain ⟨f, hf⟩ := Classical.skolem.1 fun key => exists_yields (get key)
      have hproto : "__proto__" ∉ keys := by
        intro hmem
        obtain ⟨f', heq, -⟩ := h _ ⟨f, hf, rfl⟩
        have hnot : "__proto__" ∉ (keys.attach.foldl (fun result key => setKey result key.1 (f key)) []).map Prod.fst :=
          proto_notMem (by simp) f
        rw [Value.record.inj heq] at hnot
        exact hnot (List.mem_map.2 ⟨_, List.mem_map.2 ⟨⟨_, hmem⟩, List.mem_attach _ _, rfl⟩, rfl⟩)
      refine ⟨hproto, fun key v hv => ?_⟩
      obtain ⟨f', heq, hf'⟩ := h _ ⟨Function.update f key v, fun k => by
        by_cases hk : k = key
        · subst hk
          rwa [Function.update_self]
        · rw [Function.update_of_ne hk]
          exact hf k, rfl⟩
      rw [Value.record.injEq, foldl_setKey distinct.attach hproto (by simp), List.nil_append] at heq
      have hsame := List.map_inj_left.1 heq key (List.mem_attach _ _)
      have hkey := hf' key
      rwa [← (Prod.mk.inj hsame).2, Function.update_self] at hkey
    · rintro ⟨hproto, h⟩ v ⟨f, hf, rfl⟩
      refine ⟨f, ?_, fun key => h key _ (hf key)⟩
      rw [foldl_setKey distinct.attach hproto (by simp), List.nil_append]

end

/-- **Test events conform to their documentation**, and are made without an exception, for every random choice, if and
only if the documentation is clean. -/
theorem generate_iff (documentation : Documentation) :
    ((GenerateTestEvent documentation).Uses (fun c => ∀ e, c ≠ .throw e) ∧
      ∀ v, (GenerateTestEvent documentation).Returns v → documentation.Conforms v) ↔ documentation.Clean := by
  have hthrow : (GenerateTestEvent documentation).Uses fun c => ∀ e, c ≠ .throw e := by
    refine (uses_generate documentation).mono fun c hc e heq => ?_
    subst heq
    exact hc.elim fun answer => nomatch answer
  rw [and_iff_right hthrow]
  exact returns_conforms_iff documentation

/-- A text without parentheses has no modifiers. -/
theorem cleanText_of_notMem {type : FieldType} {text : String} (h : '(' ∉ text.toList) : CleanText type text := by
  have hnone (pattern : String) (hp : '(' ∈ pattern.toList) : includes text pattern = false := by
    refine decide_eq_false fun hin => h ?_
    exact hin.subset hp
  refine ⟨fun hin => ?_, fun hin => ?_, fun hin => ?_⟩
  · rw [hnone _ (by decide)] at hin
    exact absurd hin Bool.false_ne_true
  · rw [hnone _ (by decide)] at hin
    exact absurd hin Bool.false_ne_true
  · rw [hnone _ (by decide)] at hin
    exact absurd hin Bool.false_ne_true

theorem clean_withBaseBody {payload : Documentation} (h : payload.Clean) : (withBaseBody payload).Clean := by
  have hid : CleanText ⟨.string, false, none⟩ "represent the event id" := cleanText_of_notMem (by decide)
  have hat : CleanText ⟨.isoStringDate, false, none⟩ "represent the event occurred at" := cleanText_of_notMem (by decide)
  have hname : CleanText ⟨.string, false, none⟩ "represent the event name" := cleanText_of_notMem (by decide)
  rw [withBaseBody, eventDocumentation, Documentation.Clean]
  refine ⟨by decide, fun key => ?_⟩
  split
  · rwa [FieldDescription.Clean]
  · split
    · rwa [FieldDescription.Clean]
    · split
      · rwa [FieldDescription.Clean]
      · rwa [FieldDescription.Clean]

/-- The test events that are supported conform. -/
theorem supported_conforms : ∀ v, (GenerateTestEvent SupportedEvents.test).Returns v → SupportedEvents.test.Conforms v := by
  rw [returns_conforms_iff, SupportedEvents.test]
  refine clean_withBaseBody ?_
  rw [onePayload, Documentation.Clean]
  refine ⟨fun h => absurd (List.mem_singleton.1 h) (by decide), fun _ => ?_⟩
  rw [FieldDescription.Clean]
  exact cleanText_of_notMem (by decide)

/-- A note that says when it is null. -/
def noted : Documentation :=
  withBaseBody (onePayload "note" (.base ⟨.string, false, none⟩ "a note, (NULLABLE) in drafts"))

/-- **A string that is null**, although its brackets do not say so. -/
theorem null_string : ¬ ∀ documentation : Documentation,
    (GenerateTestEvent documentation).Uses (fun c => ∀ e, c ≠ .throw e) ∧
      ∀ v, (GenerateTestEvent documentation).Returns v → documentation.Conforms v := by
  intro h
  have hclean := (returns_conforms_iff noted).1 (h noted).2
  have hnote := (hclean.2 ⟨"payload", by simp⟩).2 ⟨"note", List.mem_singleton_self _⟩
  exact absurd (hnote.nullable (by decide +kernel)) (by decide)

end NodeToolkit.TestEvent
