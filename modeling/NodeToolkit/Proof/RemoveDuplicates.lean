import NodeToolkit.Base.Firsts
import NodeToolkit.Spec.RemoveDuplicates

/-!
# What removing duplicates keeps

`RemoveDuplicates` looks at the type of the first element only, and at the extractor in one of its two
branches.

* `foldl_add`, `foldl_round`: each of the two loops keeps the first occurrences of its keys.
* `KeepsFirsts`: what is asked of a call.
* `keepsFirsts_iff`: without an extractor that is so unless the first element is `null`; with one, if and
  only if the first element is an object or the extractor tells the elements apart.
-/

namespace NodeToolkit.Duplicates

variable {α : Type} {typeOf : α → String} {array : List α} {extractor : α → String}

/-! ## The loops -/

theorem exists_earlier {earlier : List α} {item : α} {key : String} :
    (∃ y ∈ earlier ++ [item], extractor y = key) ↔ (∃ y ∈ earlier, extractor y = key) ∨ extractor item = key := by
  simp only [List.mem_append, List.mem_singleton, or_and_right, exists_or, exists_eq_left]

/-- **The loop over objects.** -/
theorem foldl_round {u : Unique α} {earlier : List α}
    (h : ∀ key, key ∈ u.uniqueKeys ↔ ∃ y ∈ earlier, extractor y = key) :
    (array.foldl (Unique.round extractor) u).result = u.result ++ firsts extractor earlier array := by
  induction array generalizing u earlier with
  | nil => simp [firsts]
  | cons item array ih =>
    rw [List.foldl_cons, firsts, Unique.round]
    by_cases hmem : extractor item ∈ u.uniqueKeys
    · rw [if_pos hmem, if_pos ((h _).1 hmem)]
      apply ih
      intro key
      rw [h, exists_earlier, or_iff_left_of_imp]
      rintro rfl
      exact (h _).1 hmem
    · rw [if_neg hmem, if_neg (mt (h _).2 hmem), ih, List.append_assoc, List.singleton_append]
      intro key
      rw [add, if_neg hmem, List.mem_append, h, List.mem_singleton, exists_earlier, eq_comm]

variable [DecidableEq α]

/-- **The loop over primitives.** -/
theorem foldl_add {set earlier : List α} (h : ∀ x, x ∈ set ↔ x ∈ earlier) :
    array.foldl add set = set ++ firsts id earlier array := by
  induction array generalizing set earlier with
  | nil => simp [firsts]
  | cons item array ih =>
    have hold : (∃ y ∈ earlier, id y = id item) ↔ item ∈ set := by simp [h]
    rw [List.foldl_cons, firsts, add]
    by_cases hmem : item ∈ set
    · rw [if_pos hmem, if_pos (hold.2 hmem)]
      apply ih
      intro x
      rw [List.mem_append, List.mem_singleton, ← h, or_iff_left_of_imp]
      rintro rfl
      exact hmem
    · rw [if_neg hmem, if_neg (mt hold.1 hmem), ih, List.append_assoc, List.singleton_append]
      intro x
      rw [List.mem_append, List.mem_append, h]

/-- Elements that are no objects are told apart themselves. -/
theorem removeDuplicates_primitive (h : ∀ first ∈ array.head?, typeOf first ≠ "object")
    (uniqueKeyExtractor : Option (α → String)) :
    RemoveDuplicates typeOf array uniqueKeyExtractor = .ok (firsts id [] array) := by
  unfold RemoveDuplicates
  cases array with
  | nil => rfl
  | cons first array =>
    have hfold : (first :: array).foldl add [] = [] ++ firsts id [] (first :: array) :=
      foldl_add fun _ => Iff.rfl
    rw [List.head?_cons]
    dsimp only
    rw [if_pos (h first rfl), hfold, List.nil_append]

/-- Objects are told apart by their keys. -/
theorem removeDuplicates_object (h : ∀ first ∈ array.head?, typeOf first = "object") :
    RemoveDuplicates typeOf array (some extractor) = .ok (firsts extractor [] array) := by
  unfold RemoveDuplicates
  cases array with
  | nil => rfl
  | cons first array =>
    have hfold : ((first :: array).foldl (Unique.round extractor) ⟨[], []⟩).result =
        [] ++ firsts extractor [] (first :: array) := foldl_round (by simp)
    rw [List.head?_cons]
    dsimp only
    rw [if_neg (not_not.2 (h first rfl)), hfold, List.nil_append]

/-! ## The statement -/

/-- **What is asked of a call**: it returns the elements whose key does not occur earlier. Their keys are
pairwise distinct, no key is lost, the order is that of the array, and doing it twice changes nothing. -/
structure KeepsFirsts {κ : Type} [DecidableEq κ] (typeOf : α → String) (array : List α)
    (uniqueKeyExtractor : Option (α → String)) (key : α → κ) : Prop where
  result : RemoveDuplicates typeOf array uniqueKeyExtractor = .ok (firsts key [] array)
  distinct : ((firsts key [] array).map key).Nodup
  complete : ∀ x ∈ array, ∃ y ∈ firsts key [] array, key y = key x
  order : (firsts key [] array).Sublist array
  twice : RemoveDuplicates typeOf (firsts key [] array) uniqueKeyExtractor = .ok (firsts key [] array)

/-- The other parts follow from the result, on the array and on what is kept of it. -/
theorem KeepsFirsts.of_result {κ : Type} [DecidableEq κ] {uniqueKeyExtractor : Option (α → String)} {key : α → κ}
    (h : ∀ array', array'.head? = array.head? → (∀ x ∈ array', x ∈ array) →
      RemoveDuplicates typeOf array' uniqueKeyExtractor = .ok (firsts key [] array')) :
    KeepsFirsts typeOf array uniqueKeyExtractor key where
  result := h array rfl fun _ hx => hx
  distinct := nodup_firsts
  complete _ hx := exists_firsts_nil hx
  order := firsts_sublist
  twice := by
    have hagain := h (firsts key [] array) head_firsts fun _ hx => firsts_sublist.subset hx
    rwa [firsts_firsts] at hagain

/-- **When first occurrences are kept**, of primitives without an extractor, and of any elements with one. -/
theorem keepsFirsts_iff (primitives : List Primitive) {α : Type} [DecidableEq α] (typeOf : α → String)
    (array : List α) (extractor : α → String) :
    (KeepsFirsts Primitive.typeOf primitives none id ↔ primitives.head? ≠ some .null) ∧
      (KeepsFirsts typeOf array (some extractor) extractor ↔
        (∀ first ∈ array.head?, typeOf first = "object") ∨
          ∀ x ∈ array, ∀ y ∈ array, extractor x = extractor y → x = y) := by
  refine ⟨⟨fun h hnull => ?_, fun hnull => .of_result fun array' hhead _ => ?_⟩,
    ⟨fun h => ?_, fun h => .of_result fun array' hhead hsub => ?_⟩⟩
  · -- without an extractor, `null` first is taken for an object
    have hresult := h.result
    unfold RemoveDuplicates at hresult
    rw [hnull] at hresult
    cases hresult
  · refine removeDuplicates_primitive (fun first hfirst htype => hnull ?_) none
    rw [hhead] at hfirst
    cases first with
    | null => exact hfirst
    | _ => exact absurd htype (by simp [Primitive.typeOf])
  · -- if the first element is no object, the extractor is not looked at
    by_contra hno
    rw [not_or] at hno
    have hprimitive : ∀ first ∈ array.head?, typeOf first ≠ "object" := by
      intro first hfirst htype
      refine hno.1 fun first' hfirst' => ?_
      rwa [Option.mem_unique hfirst' hfirst]
    have hresult := h.result
    rw [removeDuplicates_primitive hprimitive, Except.ok.injEq] at hresult
    exact hno.2 (firsts_id_iff.1 hresult)
  · by_cases hobject : ∀ first ∈ array.head?, typeOf first = "object"
    · rw [← hhead] at hobject
      exact removeDuplicates_object hobject
    · have hinj := h.resolve_left hobject
      have hprimitive : ∀ first ∈ array'.head?, typeOf first ≠ "object" := by
        rw [hhead]
        intro first hfirst htype
        refine hobject fun first' hfirst' => ?_
        rwa [Option.mem_unique hfirst' hfirst]
      have hsame : firsts id [] array' = firsts extractor [] array' :=
        firsts_id_iff.2 fun x hx y hy => hinj x (hsub x hx) y (hsub y hy)
      rw [removeDuplicates_primitive hprimitive, hsame]

/-- `RemoveDuplicates([null, 'a'])` throws. -/
theorem null_first : ¬ KeepsFirsts Primitive.typeOf [.null, .string "a"] none id := by
  intro h
  cases h.result

end NodeToolkit.Duplicates
