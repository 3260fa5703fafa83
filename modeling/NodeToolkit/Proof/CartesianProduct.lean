import NodeToolkit.Base.Cartesian
import NodeToolkit.Spec.CartesianProduct

/-!
# Which products of records are right

`CartesianOf` tells tuples from elements by whether they are arrays, so arrays among the elements of the
first array are taken for tuples.

* `entries_cartesianOfRecord`: the rows of the product, from the tuples.
* `cartesianOf_several`: the tuples of several arrays; `cartesianOf_eq_product`: when they are right.
* `Exact`: what is asked of a product; `exact_iff_rows`: it is the list of the rows at all positions.
* `exact_iff`: when it is right.
-/

namespace NodeToolkit.CartesianProducts

open Cartesian

variable {α : Type} {lists : List (List (Value α))} {record : OMap String (Value α)}

/-! ## Records -/

/-- **Assignments to new keys**, but for `__proto__`, which makes no property. -/
theorem entries_foldl_assign (l : List (String × Value α)) : ∀ {result : OMap String (Value α)},
    (l.map Prod.fst).Nodup → (∀ e ∈ l, result.get e.1 = none) →
      (l.foldl (fun result e => assign result e.1 e.2) result).entries =
        result.entries ++ l.filter fun e => e.1 ≠ "__proto__" := by
  induction l with
  | nil => exact fun _ _ => (List.append_nil _).symm
  | cons e l ih =>
    intro result hnodup hnew
    rw [List.map_cons, List.nodup_cons] at hnodup
    have hother : ∀ e' ∈ l, e.1 ≠ e'.1 := fun e' he' heq => hnodup.1 (List.mem_map.2 ⟨e', he', heq.symm⟩)
    rw [List.foldl_cons]
    -- the accumulator stays without the later keys in both cases
    by_cases hproto : e.1 = "__proto__"
    · have hassign : assign result e.1 e.2 = result := if_pos hproto
      rw [hassign, ih hnodup.2 fun e' he' => hnew e' (List.mem_cons_of_mem _ he'),
        List.filter_cons_of_neg (by simpa using hproto)]
    · have hassign : assign result e.1 e.2 = result.set e.1 e.2 := if_neg hproto
      rw [hassign, ih hnodup.2 fun e' he' => ?_, List.filter_cons_of_pos (by simpa using hproto),
        OMap.entries_set_new (hnew e List.mem_cons_self), List.append_assoc, List.singleton_append]
      rw [OMap.get_set_ne _ _ (hother e' he')]
      exact hnew e' (List.mem_cons_of_mem _ he')

/-- The keys with a value, each with its array. -/
def kept (record : OMap String (Value α)) : List (String × List (Value α)) :=
  (record.entries.filter fun e => e.2.present).map fun e => (e.1, e.2.wrapped)

/-- Those of them that are left of the record. -/
def own (record : OMap String (Value α)) : List (String × List (Value α)) :=
  (kept record).filter fun e => e.1 ≠ "__proto__"

/-- A tuple with its keys: the record that the code makes of it. -/
def fill (keys : List String) (tuple : List (Value α)) : List (String × Value α) :=
  keys.zipIdx.map fun e => (e.1, tuple.getD e.2 .undefined)

theorem keys_fill (keys : List String) (tuple : List (Value α)) : (fill keys tuple).map Prod.fst = keys := by
  rw [fill, List.map_map]
  exact List.zipIdx_map_fst 0 keys

/-- Rows with the same keys agree only if the tuples do, at each key. -/
theorem getD_of_fill {keys : List String} {tuple tuple' : List (Value α)} (h : fill keys tuple = fill keys tuple')
    {j : ℕ} (hj : j < keys.length) : tuple.getD j .undefined = tuple'.getD j .undefined := by
  have hzip : (keys[j], j) ∈ keys.zipIdx := by
    rw [List.mem_zipIdx_iff_getElem?]
    exact List.getElem?_eq_getElem hj
  exact congrArg Prod.snd (List.map_inj_left.1 h _ hzip)

theorem entries_cleanupRecord (record : OMap String (Value α)) : (cleanupRecord record).entries =
    (record.entries.filter fun e => e.2.present).filter fun e => e.1 ≠ "__proto__" := by
  have hnodup : ((record.entries.filter fun e => e.2.present).map Prod.fst).Nodup :=
    record.nodup.sublist (List.filter_sublist.map _)
  have hfold := @entries_foldl_assign _ (record.entries.filter fun e => e.2.present) .empty hnodup fun _ _ => rfl
  rw [List.foldl_filter] at hfold
  exact hfold

theorem keys_cleanupRecord (record : OMap String (Value α)) :
    (cleanupRecord record).keys = (own record).map Prod.fst := by
  rw [OMap.keys, entries_cleanupRecord, own, kept, List.filter_map, List.map_map]
  rfl

theorem values_cleanupRecord (record : OMap String (Value α)) :
    (cleanupRecord record).values.map Value.wrapped = (own record).map Prod.snd := by
  rw [OMap.values, entries_cleanupRecord, own, kept, List.filter_map, List.map_map, List.map_map]
  rfl

theorem entries_recordOf {keys : List String} (hnodup : keys.Nodup) (hproto : "__proto__" ∉ keys)
    (tuple : List (Value α)) : (recordOf keys tuple).entries = fill keys tuple := by
  have hkeys := keys_fill keys tuple
  have hfold := @entries_foldl_assign _ (fill keys tuple) .empty (by rwa [hkeys]) fun _ _ => rfl
  rw [fill, List.foldl_map] at hfold
  have hfilter : (fill keys tuple).filter (fun e => e.1 ≠ "__proto__") = fill keys tuple := by
    rw [List.filter_eq_self]
    intro e he
    have hmem : e.1 ∈ keys := by
      rw [← hkeys]
      exact List.mem_map_of_mem he
    rw [decide_eq_true_eq]
    rintro heq
    exact hproto (heq ▸ hmem)
  rw [← fill, hfilter] at hfold
  exact hfold

/-- **The rows of the product.** -/
theorem entries_cartesianOfRecord (record : OMap String (Value α)) : (CartesianOfRecord record).map OMap.entries =
    (CartesianOf ((own record).map Prod.snd)).map (fill ((own record).map Prod.fst)) := by
  have hnodup : ((own record).map Prod.fst).Nodup := by
    rw [← keys_cleanupRecord]
    exact (cleanupRecord record).nodup
  have hproto : "__proto__" ∉ (own record).map Prod.fst := by
    intro h
    obtain ⟨e, he, heq⟩ := List.mem_map.1 h
    have hne := (List.mem_filter.1 he).2
    simp [heq] at hne
  unfold CartesianOfRecord
  dsimp only
  rw [keys_cleanupRecord, values_cleanupRecord, List.map_map]
  exact List.map_congr_left fun tuple _ => entries_recordOf hnodup hproto tuple

/-! ## Tuples -/

/-- **The loop** puts an element of each array at the end of each tuple. -/
theorem foldl_cartesianProduct (arrays : List (List (Value α))) : ∀ result : List (List (Value α)),
    arrays.foldl (fun result array => CartesianProduct (result.map .array) array) result =
      result.flatMap fun tuple => (product arrays).map (tuple ++ ·) := by
  induction arrays with
  | nil =>
    intro result
    simp [product]
  | cons array arrays ih =>
    intro result
    rw [List.foldl_cons, ih]
    simp [CartesianProduct, product, Value.wrapped, List.flatMap_map, List.map_flatMap, List.flatMap_assoc,
      List.map_map, Function.comp_def]

/-- **The tuples of several arrays**: an element of the first one that is an array is taken apart. -/
theorem cartesianOf_several (first second : List (Value α)) (arrays : List (List (Value α))) :
    CartesianOf (first :: second :: arrays) =
      first.flatMap fun x => (product (second :: arrays)).map (x.wrapped ++ ·) := by
  rw [CartesianOf, foldl_cartesianProduct]
  simp [CartesianProduct, product, List.flatMap_map, List.map_flatMap, List.flatMap_assoc, List.map_map,
    Function.comp_def]

theorem wrapped_of_not_isArray {x : Value α} (h : x.isArray = false) : x.wrapped = [x] := by
  cases x with
  | array items => cases h
  | _ => rfl

/-- **The tuples are right** if there is one array at most, or the first has no arrays in it. -/
theorem cartesianOf_eq_product (h : lists.length ≤ 1 ∨ ∀ first ∈ lists.head?, ∀ x ∈ first, Value.isArray x = false) :
    CartesianOf lists = product lists := by
  match lists, h with
  | [], _ => rfl
  | [array], _ => simp [CartesianOf, product, List.map_eq_flatMap]
  | first :: second :: arrays, h =>
    have hfirst := h.resolve_left (by simp) first rfl
    rw [cartesianOf_several, product]
    refine List.flatMap_congr fun x hx => ?_
    rw [wrapped_of_not_isArray (hfirst x hx)]
    rfl

theorem cartesianOf_eq_nil : CartesianOf lists = [] ↔ [] ∈ lists := by
  rw [← product_eq_nil]
  match lists with
  | [] => exact Iff.rfl
  | [array] => rw [cartesianOf_eq_product (.inl (by simp))]
  | first :: second :: arrays =>
    have hproduct : product (first :: second :: arrays) =
        first.flatMap fun x => (product (second :: arrays)).map (x :: ·) := rfl
    rw [cartesianOf_several, hproduct, List.flatMap_eq_nil_iff, List.flatMap_eq_nil_iff]
    simp only [List.map_eq_nil_iff]

/-! ## The statement -/

/-- The row at a position. -/
def row (kept : List (String × List (Value α))) (position : List ℕ) : List (String × Value α) :=
  List.zipWith (fun e i => (e.1, e.2.getD i .undefined)) kept position

/-- **What is asked of the product of a record**: it has the rows at the positions within the arrays, in the
lexicographic order of these, each once. Its length is the product of theirs. -/
structure Exact (record : OMap String (Value α)) : Prop where
  rows : ∃ positions : List (List ℕ), positions.Pairwise (· < ·) ∧
    (∀ position, position ∈ positions ↔ List.Forall₂ (fun i e => i < e.2.length) position (kept record)) ∧
    (CartesianOfRecord record).map OMap.entries = positions.map (row (kept record))
  length : (CartesianOfRecord record).length = ((kept record).map fun e => e.2.length).prod

/-- The product has the rows at all positions. -/
def HasRows (record : OMap String (Value α)) : Prop := (CartesianOfRecord record).map OMap.entries =
  (positions ((kept record).map fun e => e.2.length)).map (row (kept record))

/-- The positions are determined, and with them the length. -/
theorem exact_iff_rows : Exact record ↔ HasRows record := by
  constructor
  · rintro ⟨⟨ps, hsorted, hmem, hrows⟩, -⟩
    have hps : ps = positions ((kept record).map fun e => e.2.length) :=
      eq_positions hsorted fun p => (hmem p).trans List.forall₂_map_right_iff.symm
    rw [HasRows, hrows, hps]
  · intro hrows
    refine ⟨⟨_, positions_sorted _, fun p => mem_positions.trans List.forall₂_map_right_iff, hrows⟩, ?_⟩
    have hlength := congrArg List.length hrows
    rw [List.length_map, List.length_map, positions, length_product, List.map_map] at hlength
    rw [hlength]
    refine congrArg List.prod ?_
    simp

/-! ## When it is met -/

/-- The row at a position, from the tuple there. -/
theorem fill_pick {kept : List (String × List (Value α))} {position : List ℕ}
    (h : List.Forall₂ (· < ·) position (kept.map fun e => e.2.length)) :
    fill (kept.map Prod.fst) (pick .undefined (kept.map Prod.snd) position) = row kept position := by
  have hlength : position.length = kept.length := by
    rw [h.length_eq, List.length_map]
  apply List.ext_getElem
  · simp [fill, row, hlength]
  · intro i hi hi'
    have hkept : i < kept.length := by simpa [fill] using hi
    simp [fill, row, pick, hkept, hlength]

/-- **The condition.** -/
def Aligned (record : OMap String (Value α)) : Prop :=
  (∃ e ∈ own record, e.2 = []) ∨ (∀ e ∈ kept record, e.1 ≠ "__proto__") ∧
    ((kept record).length ≤ 1 ∨ ∀ e ∈ (kept record).head?, ∀ x ∈ e.2, Value.isArray x = false)

/-- The rows at the positions, from the tuples there. -/
theorem map_row (kept : List (String × List (Value α))) :
    (positions (kept.map fun e => e.2.length)).map (row kept) =
      (product (kept.map Prod.snd)).map (fill (kept.map Prod.fst)) := by
  have hlengths : (kept.map Prod.snd).map List.length = kept.map fun e => e.2.length := by
    rw [List.map_map]
    rfl
  rw [product_eq_map .undefined, hlengths, List.map_map]
  exact List.map_congr_left fun position hposition => (fill_pick (mem_positions.1 hposition)).symm

theorem own_eq_kept (hproto : ∀ e ∈ kept record, e.1 ≠ "__proto__") : own record = kept record := by
  rw [own, List.filter_eq_self]
  intro e he
  rw [decide_eq_true_eq]
  exact hproto e he

/-- An empty array leaves no row, on either side. -/
theorem rows_of_empty (h : ∃ e ∈ own record, e.2 = []) : HasRows record := by
  obtain ⟨e, he, hnil⟩ := h
  have htuples : CartesianOf ((own record).map Prod.snd) = [] :=
    cartesianOf_eq_nil.2 (List.mem_map.2 ⟨e, he, hnil⟩)
  have hpositions : positions ((kept record).map fun e => e.2.length) = [] := by
    refine positions_eq_nil.2 (List.mem_map.2 ⟨e, (List.mem_filter.1 he).1, ?_⟩)
    rw [hnil, List.length_nil]
  rw [HasRows, entries_cartesianOfRecord, htuples, hpositions]
  rfl

theorem rows_of_aligned (hproto : ∀ e ∈ kept record, e.1 ≠ "__proto__")
    (hfirst : (kept record).length ≤ 1 ∨ ∀ e ∈ (kept record).head?, ∀ x ∈ e.2, Value.isArray x = false) :
    HasRows record := by
  rw [HasRows, entries_cartesianOfRecord, own_eq_kept hproto, map_row, cartesianOf_eq_product]
  rw [List.length_map, List.head?_map]
  refine hfirst.imp_right fun h first hmem => ?_
  obtain ⟨e, he, rfl⟩ := Option.mem_map.1 hmem
  exact h e he

/-! ## When it is not -/

/-- **An array taken apart** does not give the tuple that has it as an element. -/
theorem exists_getD_ne (items tuple : List (Value α)) :
    ∃ j ≤ tuple.length, (items ++ tuple).getD j .undefined ≠ (.array items :: tuple).getD j .undefined := by
  cases items with
  | cons item items =>
    -- no array is an element of itself
    refine ⟨0, Nat.zero_le _, fun h => ?_⟩
    have hsame : item = .array (item :: items) := h
    have hsize := congrArg sizeOf hsame
    simp at hsize
    omega
  | nil =>
    by_contra hno
    have hall : ∀ j ≤ tuple.length, tuple.getD j .undefined = (.array [] :: tuple).getD j .undefined := by
      intro j hj
      by_contra hne
      exact hno ⟨j, hj, hne⟩
    -- all elements are that array, even the one after the last
    have hsame : ∀ j ≤ tuple.length, tuple.getD j .undefined = .array [] := by
      intro j
      induction j with
      | zero => exact hall 0
      | succ j ih =>
        intro hj
        rw [hall (j + 1) hj, ← ih (by omega)]
        rfl
    have hlast := hsame tuple.length le_rfl
    have hout : tuple.getD tuple.length .undefined = .undefined := by simp
    rw [hout] at hlast
    cases hlast

/-- The keys of the rows are those of the record. -/
theorem proto_of_rows (hrows : HasRows record) (hne : ¬ ∃ e ∈ own record, e.2 = []) :
    ∀ e ∈ kept record, e.1 ≠ "__proto__" := by
  have htuples : CartesianOf ((own record).map Prod.snd) ≠ [] := by
    intro hnil
    obtain ⟨e, he, hempty⟩ := List.mem_map.1 (cartesianOf_eq_nil.1 hnil)
    exact hne ⟨e, he, hempty⟩
  -- one row is enough: it has all keys
  obtain ⟨tuple, htuple⟩ := List.exists_mem_of_ne_nil _ htuples
  rw [HasRows, entries_cartesianOfRecord, map_row] at hrows
  have hmem : fill ((own record).map Prod.fst) tuple ∈
      (product ((kept record).map Prod.snd)).map (fill ((kept record).map Prod.fst)) := by
    rw [← hrows]
    exact List.mem_map_of_mem htuple
  obtain ⟨tuple', -, heq⟩ := List.mem_map.1 hmem
  have hkeys := keys_fill ((kept record).map Prod.fst) tuple'
  rw [heq, keys_fill] at hkeys
  intro e he hproto
  have hown : e.1 ∈ (own record).map Prod.fst := by
    rw [hkeys]
    exact List.mem_map_of_mem he
  obtain ⟨e', he', heq'⟩ := List.mem_map.1 hown
  have hkept := (List.mem_filter.1 he').2
  rw [heq', hproto] at hkept
  simp at hkept

/-- An array in the first array is taken apart in some row. -/
theorem not_isArray_of_rows {keys : List String} {first second : List (Value α)} {arrays : List (List (Value α))}
    (hkeys : keys.length = arrays.length + 2) (hne : [] ∉ second :: arrays)
    (hrows : (CartesianOf (first :: second :: arrays)).map (fill keys) =
      (product (first :: second :: arrays)).map (fill keys)) : ∀ x ∈ first, Value.isArray x = false := by
  intro x hx
  have hproduct : product (first :: second :: arrays) =
      first.flatMap fun x => (product (second :: arrays)).map (x :: ·) := rfl
  rw [cartesianOf_several, hproduct] at hrows
  simp only [List.map_flatMap, List.map_map] at hrows
  -- the other arrays have a tuple, so `x` is in some row
  obtain ⟨tuple, htuple⟩ := List.exists_mem_of_ne_nil _ (mt product_eq_nil.1 hne)
  have hlength : tuple.length = arrays.length + 1 := (mem_product.1 htuple).length_eq
  cases x with
  | array items =>
    have hfill : fill keys (items ++ tuple) = fill keys (.array items :: tuple) :=
      flatMap_map_inj hrows _ hx tuple htuple
    obtain ⟨j, hj, hdiffer⟩ := exists_getD_ne items tuple
    exact absurd (getD_of_fill hfill (by omega)) hdiffer
  | _ => rfl

theorem first_of_rows (hproto : ∀ e ∈ kept record, e.1 ≠ "__proto__") (hne : ¬ ∃ e ∈ own record, e.2 = [])
    (hrows : HasRows record) :
    (kept record).length ≤ 1 ∨ ∀ e ∈ (kept record).head?, ∀ x ∈ e.2, Value.isArray x = false := by
  rw [own_eq_kept hproto] at hne
  rw [HasRows, entries_cartesianOfRecord, own_eq_kept hproto, map_row] at hrows
  match hkept : kept record with
  | [] => exact .inl (by simp)
  | [e] => exact .inl (by simp)
  | first :: second :: arrays =>
    rw [hkept] at hne hrows
    have hrest : [] ∉ second.2 :: arrays.map Prod.snd := by
      intro hnil
      rw [← List.map_cons] at hnil
      obtain ⟨e, he, hempty⟩ := List.mem_map.1 hnil
      exact hne ⟨e, List.mem_cons_of_mem _ he, hempty⟩
    right
    intro e he
    obtain rfl : first = e := Option.some.inj he
    exact not_isArray_of_rows (by simp) hrest hrows

/-- **When the product of a record is right.** -/
theorem exact_iff (record : OMap String (Value α)) : Exact record ↔ Aligned record := by
  rw [exact_iff_rows]
  constructor
  · intro hrows
    by_cases hempty : ∃ e ∈ own record, e.2 = []
    · exact .inl hempty
    · have hproto := proto_of_rows hrows hempty
      exact .inr ⟨hproto, first_of_rows hproto hempty hrows⟩
  · rintro (hempty | ⟨hproto, hfirst⟩)
    · exact rows_of_empty hempty
    · exact rows_of_aligned hproto hfirst

/-- `{ a: [[1, 2]], b: [3] }`. -/
def nested : OMap String (Value ℕ) where
  entries := [("a", .array [.array [.scalar 1, .scalar 2]]), ("b", .array [.scalar 3])]
  nodup := by decide

/-- **The array is taken for a tuple**: the product is `[{ a: 1, b: 2 }]`, not `[{ a: [1, 2], b: 3 }]`. -/
theorem nested_first : (CartesianOfRecord nested).map OMap.entries = [[("a", .scalar 1), ("b", .scalar 2)]] ∧
    ¬ Exact nested := by
  have hcode : (CartesianOfRecord nested).map OMap.entries = [[("a", .scalar 1), ("b", .scalar 2)]] := rfl
  refine ⟨hcode, fun h => ?_⟩
  have hrows := exact_iff_rows.1 h
  rw [HasRows, hcode] at hrows
  cases hrows

end NodeToolkit.CartesianProducts
