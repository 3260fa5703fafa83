import Mathlib.Data.List.Nodup
import Mathlib.Algebra.BigOperators.Group.List.Basic
import Mathlib.Algebra.Order.BigOperators.Group.List
import Mathlib.Algebra.Order.Group.Int
import Mathlib.Tactic.Abel

/-!
# Insertion-ordered maps

The map of JavaScript: an assignment to a key that is present changes its value
in place, an assignment to a new key appends it, and iteration follows the order
of first insertion. A map is an association list whose keys are distinct (the
field `nodup`), so a value that is not a map cannot be built.

`sumOf f m` adds `f` over the entries; it is how the counting arguments of this
development speak about all entries at once (`sumOf_set`, `sumOf_set_new`).
-/

namespace NodeToolkit

variable {κ υ : Type*}

namespace OMap

variable [DecidableEq κ]

/-- The value of a key in an association list. -/
def find : List (κ × υ) → κ → Option υ
  | [], _ => none
  | (k', v) :: l, k => if k' = k then some v else find l k

/-- Assign in place, or append. -/
def assign : List (κ × υ) → κ → υ → List (κ × υ)
  | [], k, v => [(k, v)]
  | (k', v') :: l, k, v => if k' = k then (k', v) :: l else (k', v') :: assign l k v

theorem keys_assign (l : List (κ × υ)) (k : κ) (v : υ) :
    (assign l k v).map Prod.fst = if k ∈ l.map Prod.fst then l.map Prod.fst
      else l.map Prod.fst ++ [k] := by
  induction l with
  | nil => simp [assign]
  | cons e l ih =>
    obtain ⟨k', v'⟩ := e
    by_cases h : k' = k
    · simp [assign, h]
    · simp only [assign, if_neg h, List.map_cons, ih, List.mem_cons, Ne.symm h, false_or]
      split <;> rfl

theorem assign_of_notMem {l : List (κ × υ)} {k : κ} {v : υ} (h : k ∉ l.map Prod.fst) :
    assign l k v = l ++ [(k, v)] := by
  induction l with
  | nil => rfl
  | cons e l ih =>
    obtain ⟨k', v'⟩ := e
    rw [List.map_cons, List.mem_cons, not_or] at h
    rw [assign, if_neg (Ne.symm h.1), ih h.2, List.cons_append]

theorem nodup_assign {l : List (κ × υ)} (h : (l.map Prod.fst).Nodup) (k : κ) (v : υ) :
    ((assign l k v).map Prod.fst).Nodup := by
  rw [keys_assign]
  split
  · exact h
  · rename_i hk
    exact List.nodup_append.2 ⟨h, by simp, by rintro a ha b hb rfl; simp_all⟩

theorem find_assign (l : List (κ × υ)) (k j : κ) (v : υ) :
    find (assign l k v) j = if k = j then some v else find l j := by
  induction l with
  | nil => simp [assign, find]
  | cons e l ih =>
    obtain ⟨k', v'⟩ := e
    by_cases h : k' = k
    · subst h; by_cases hj : k' = j <;> simp [assign, find, hj]
    · by_cases hj : k' = j
      · subst hj; simp [assign, find, h, Ne.symm h]
      · simp [assign, find, h, hj, ih]

theorem find_eq_some {l : List (κ × υ)} (h : (l.map Prod.fst).Nodup) {k : κ} {v : υ} :
    find l k = some v ↔ (k, v) ∈ l := by
  induction l with
  | nil => simp [find]
  | cons e l ih =>
    obtain ⟨k', v'⟩ := e
    rw [List.map_cons, List.nodup_cons] at h
    by_cases hk : k' = k
    · subst hk
      have hno : (k', v) ∉ l := fun hm => h.1 (List.mem_map.2 ⟨_, hm, rfl⟩)
      simp [find, hno, eq_comm]
    · simp [find, hk, ih h.2, Ne.symm hk]

theorem find_eq_none {l : List (κ × υ)} {k : κ} : find l k = none ↔ k ∉ l.map Prod.fst := by
  induction l with
  | nil => simp [find]
  | cons e l ih =>
    obtain ⟨k', v'⟩ := e
    by_cases hk : k' = k
    · simp [find, hk]
    · simp [find, hk, ih, Ne.symm hk]

end OMap

/-- A map with distinct keys, in the order of their first insertion. -/
structure OMap (κ υ : Type*) where
  entries : List (κ × υ)
  nodup : (entries.map Prod.fst).Nodup

namespace OMap

/-- The empty map. -/
def empty : OMap κ υ := ⟨[], List.nodup_nil⟩

def keys (m : OMap κ υ) : List κ := m.entries.map Prod.fst

def values (m : OMap κ υ) : List υ := m.entries.map Prod.snd

/-- Keep the entries that satisfy `p`. -/
def keep (m : OMap κ υ) (p : κ → υ → Bool) : OMap κ υ :=
  ⟨m.entries.filter fun e => p e.1 e.2, m.nodup.sublist (List.filter_sublist.map _)⟩

theorem ext {m m' : OMap κ υ} (h : m.entries = m'.entries) : m = m' := by
  cases m; cases m'; cases h; rfl

theorem keys_nodup (m : OMap κ υ) : m.keys.Nodup := m.nodup

/-- The sum of `f` over the entries of a map. -/
def sumOf {M : Type*} [AddCommMonoid M] (f : κ → υ → M) (m : OMap κ υ) : M :=
  (m.entries.map fun e => f e.1 e.2).sum

@[simp] theorem sumOf_empty {M : Type*} [AddCommMonoid M] (f : κ → υ → M) :
    (empty : OMap κ υ).sumOf f = 0 := rfl

theorem sumOf_zero {M : Type*} [AddCommMonoid M] {m : OMap κ υ} :
    (m.sumOf fun _ _ => (0 : M)) = 0 := by
  simp [sumOf]

theorem sumOf_add {M : Type*} [AddCommMonoid M] {m : OMap κ υ} {f g : κ → υ → M} :
    (m.sumOf fun k v => f k v + g k v) = m.sumOf f + m.sumOf g :=
  List.sum_map_add

variable [DecidableEq κ]

def get (m : OMap κ υ) (k : κ) : Option υ := find m.entries k

def set (m : OMap κ υ) (k : κ) (v : υ) : OMap κ υ :=
  ⟨assign m.entries k v, nodup_assign m.nodup k v⟩

def erase (m : OMap κ υ) (k : κ) : OMap κ υ := m.keep fun j _ => j ≠ k

variable (m : OMap κ υ) (k j : κ) (v : υ)

@[simp] theorem get_empty : (empty : OMap κ υ).get k = none := rfl

theorem get_set : (m.set k v).get j = if k = j then some v else m.get j := find_assign ..

@[simp] theorem get_set_self : (m.set k v).get k = some v := by simp [get_set]

theorem get_set_ne {k j : κ} (h : k ≠ j) : (m.set k v).get j = m.get j := by simp [get_set, h]

variable {m k v}

theorem get_eq_some : m.get k = some v ↔ (k, v) ∈ m.entries := find_eq_some m.nodup

theorem get_eq_none : m.get k = none ↔ k ∉ m.keys := find_eq_none

theorem mem_keys : k ∈ m.keys ↔ ∃ v, m.get k = some v := by
  rw [← not_iff_not, ← get_eq_none]
  cases h : m.get k <;> simp

theorem mem_values : v ∈ m.values ↔ ∃ k, m.get k = some v := by
  simp [values, get_eq_some]

theorem get_keep (p : κ → υ → Bool) : (m.keep p).get k = (m.get k).filter (p k) := by
  apply Option.ext
  intro v
  rw [get_eq_some, Option.filter_eq_some_iff, get_eq_some]
  simp [keep]

theorem get_erase : (m.erase k).get j = if k = j then none else m.get j := by
  rw [erase, get_keep]
  by_cases h : k = j
  · cases hg : m.get j <;> simp [h, Option.filter]
  · cases hg : m.get j <;> simp [h, Option.filter, Ne.symm h]

/-- The entries, from the keys and their values. -/
theorem entries_eq (m : OMap κ υ) : m.entries = m.keys.filterMap fun k => (m.get k).map (Prod.mk k) := by
  have h : ∀ e ∈ m.entries, (m.get e.1).map (Prod.mk e.1) = some e := by
    intro e he
    rw [get_eq_some.2 (show (e.1, e.2) ∈ m.entries from he)]
    rfl
  rw [keys, List.filterMap_map]
  exact ((List.filterMap_congr h).trans List.filterMap_some).symm

/-- Maps with the same keys in the same order, and the same values, are equal. -/
theorem ext_get {m' : OMap κ υ} (hkeys : m.keys = m'.keys) (hget : ∀ k, m.get k = m'.get k) : m = m' := by
  refine ext ?_
  rw [entries_eq m, entries_eq m', hkeys]
  exact List.filterMap_congr fun k _ => by rw [hget k]

theorem erase_of_get_eq_none (h : m.get k = none) : m.erase k = m := by
  refine ext (List.filter_eq_self.2 fun e he => ?_)
  have hne : e.1 ≠ k := by
    rintro rfl
    rw [get_eq_some.2 (show (e.1, e.2) ∈ m.entries from he)] at h
    cases h
  simpa using hne

theorem keys_set_of_mem (h : k ∈ m.keys) : (m.set k v).keys = m.keys :=
  (keys_assign m.entries k v).trans (if_pos h)

theorem keys_set_of_not_mem (h : k ∉ m.keys) : (m.set k v).keys = m.keys ++ [k] :=
  (keys_assign m.entries k v).trans (if_neg h)

theorem filter_assign (l : List (κ × υ)) (k : κ) (v : υ) (p : κ → Bool) :
    (assign l k v).filter (fun e => p e.1) =
      if p k = true then assign (l.filter fun e => p e.1) k v else l.filter fun e => p e.1 := by
  induction l with
  | nil => cases hp : p k <;> simp [assign, hp]
  | cons e l ih =>
    obtain ⟨k', v'⟩ := e
    by_cases hk : k' = k
    · subst hk
      cases hp : p k' <;> simp [assign, hp]
    · cases hp : p k <;> cases hp' : p k' <;> simp [assign, hk, ih, hp, hp']

/-- The last assignment to a key counts. -/
theorem set_set {u : υ} : (m.set k v).set k u = m.set k u := by
  refine ext_get ?_ fun j => ?_
  · have hmem : k ∈ (m.set k v).keys := mem_keys.2 ⟨v, get_set_self ..⟩
    rw [keys_set_of_mem hmem]
    by_cases hk : k ∈ m.keys
    · rw [keys_set_of_mem hk, keys_set_of_mem hk]
    · rw [keys_set_of_not_mem hk, keys_set_of_not_mem hk]
  · rw [get_set, get_set, get_set]
    split
    · rfl
    · rfl

theorem erase_set_self : (m.set k v).erase k = m.erase k := by
  refine ext ((filter_assign m.entries k v fun j => j ≠ k).trans ?_)
  simp [erase, keep]

theorem erase_set_ne {j : κ} (h : k ≠ j) : (m.set k v).erase j = (m.erase j).set k v := by
  refine ext ((filter_assign m.entries k v fun i => i ≠ j).trans ?_)
  simp [erase, keep, set, h]

theorem keys_erase : (m.erase k).keys = m.keys.filter (· ≠ k) := by
  simp only [erase, keep, keys, List.filter_map]
  rfl

/-- A new key comes last. -/
theorem entries_set_new (h : m.get k = none) : (m.set k v).entries = m.entries ++ [(k, v)] :=
  assign_of_notMem (get_eq_none.1 h)

/-- **Assignments to some of the keys**, each once, leave the order of the entries as it is. -/
theorem entries_foldl_set (m : OMap κ υ) (p : κ × υ → Bool) (f : κ × υ → υ) :
    ((m.entries.filter p).foldl (fun m e => m.set e.1 (f e)) m).entries =
      m.entries.map fun e => if p e then (e.1, f e) else e := by
  -- the fold as a map over the keys and their values
  have key : ∀ (es : List (κ × υ)) (n : OMap κ υ), (es.map Prod.fst).Nodup → (∀ e ∈ es, e.1 ∈ n.keys) →
      (es.foldl (fun m e => m.set e.1 (f e)) n).keys = n.keys ∧
      ∀ k, (es.foldl (fun m e => m.set e.1 (f e)) n).get k =
        ((es.find? fun e => e.1 = k).map f).or (n.get k) := by
    intro es
    induction es with
    | nil => exact fun n _ _ => ⟨rfl, fun k => rfl⟩
    | cons e es ih =>
      intro n hnodup hkeys
      rw [List.map_cons, List.nodup_cons] at hnodup
      have he : e.1 ∈ n.keys := hkeys e List.mem_cons_self
      have hset : (n.set e.1 (f e)).keys = n.keys := keys_set_of_mem he
      obtain ⟨hk, hget⟩ := ih (n.set e.1 (f e)) hnodup.2 fun e' he' => by
        rw [hset]
        exact hkeys e' (List.mem_cons_of_mem e he')
      refine ⟨hk.trans hset, fun k => ?_⟩
      rw [List.foldl_cons, hget, get_set]
      by_cases hek : e.1 = k
      · have hnone : es.find? (fun e => e.1 = k) = none := by
          rw [List.find?_eq_none]
          intro e' he' heq
          rw [decide_eq_true_eq] at heq
          exact hnodup.1 (hek ▸ heq ▸ List.mem_map_of_mem he')
        simp [hek, hnone]
      · simp [hek]
  have hnodup : ((m.entries.filter p).map Prod.fst).Nodup := m.nodup.sublist (List.filter_sublist.map _)
  have hmem : ∀ e ∈ m.entries.filter p, e.1 ∈ m.keys := fun e he => List.mem_map_of_mem (List.mem_of_mem_filter he)
  obtain ⟨hkeys, hget⟩ := key (m.entries.filter p) m hnodup hmem
  rw [entries_eq, hkeys, keys, List.filterMap_map, ← List.filterMap_eq_map]
  refine List.filterMap_congr fun e he => ?_
  have hthere : m.get e.1 = some e.2 := get_eq_some.2 he
  rw [Function.comp_apply, hget, hthere]
  by_cases hp : p e = true
  · have hfind : (m.entries.filter p).find? (fun e' => e'.1 = e.1) = some e := by
      have hsome : ((m.entries.filter p).find? fun e' => e'.1 = e.1).isSome := by
        rw [List.find?_isSome]
        exact ⟨e, List.mem_filter.2 ⟨he, hp⟩, by simp⟩
      obtain ⟨e', he'⟩ := Option.isSome_iff_exists.1 hsome
      have hkey := List.find?_some he'
      have hin := List.mem_of_mem_filter (List.mem_of_find?_eq_some he')
      rw [decide_eq_true_eq] at hkey
      rw [he', List.inj_on_of_nodup_map m.nodup hin he hkey]
    simp [hfind, hp]
  · have hnone : (m.entries.filter p).find? (fun e' => e'.1 = e.1) = none := by
      rw [List.find?_eq_none]
      intro e' he' heq
      rw [decide_eq_true_eq] at heq
      rw [List.inj_on_of_nodup_map m.nodup (List.mem_of_mem_filter he') he heq] at he'
      exact hp (List.mem_filter.1 he').2
    simp [hnone, hp]

/-! ## Sums over the entries -/

section Sums

variable {M : Type*} [AddCommMonoid M] (f g : κ → υ → M)

/-- **Assigning a present key** exchanges one summand. -/
theorem sumOf_set {u : υ} (h : m.get k = some u) :
    (m.set k v).sumOf f + f k u = m.sumOf f + f k v := by
  obtain ⟨l, hl⟩ := m
  simp only [sumOf, set, get] at *
  clear hl
  induction l with
  | nil => simp [find] at h
  | cons e l ih =>
    obtain ⟨k', v'⟩ := e
    by_cases hk : k' = k
    · simp only [find, if_pos hk, Option.some.injEq] at h
      subst h hk
      simp only [assign, if_true, List.map_cons, List.sum_cons]
      abel
    · simp only [find, if_neg hk] at h
      simp only [assign, if_neg hk, List.map_cons, List.sum_cons, add_assoc, ih h]

/-- **Assigning a new key** adds a summand. -/
theorem sumOf_set_new (h : m.get k = none) : (m.set k v).sumOf f = m.sumOf f + f k v := by
  obtain ⟨l, hl⟩ := m
  simp only [sumOf, set, get] at *
  clear hl
  induction l with
  | nil => simp [assign]
  | cons e l ih =>
    obtain ⟨k', v'⟩ := e
    by_cases hk : k' = k
    · simp [find, hk] at h
    · simp only [find, if_neg hk] at h
      simp only [assign, if_neg hk, List.map_cons, List.sum_cons, ih h, add_assoc]

variable {f g}

theorem sumOf_congr (h : ∀ k v, m.get k = some v → f k v = g k v) : m.sumOf f = m.sumOf g := by
  unfold sumOf
  congr 1
  exact List.map_congr_left fun e he => h e.1 e.2 (get_eq_some.2 he)

theorem sumOf_le {f g : κ → υ → ℤ} (h : ∀ k v, m.get k = some v → f k v ≤ g k v) :
    m.sumOf f ≤ m.sumOf g :=
  List.sum_le_sum fun e he => h e.1 e.2 (get_eq_some.2 he)

/-- A sum with one summand. -/
theorem sumOf_eq_single (h : m.get k = some v) (hzero : ∀ j u, m.get j = some u → j ≠ k → f j u = 0) :
    m.sumOf f = f k v := by
  have key : ∀ es : List (κ × υ), (es.map Prod.fst).Nodup → (∀ e ∈ es, e.1 ≠ k → f e.1 e.2 = 0) → (k, v) ∈ es →
      (es.map fun e => f e.1 e.2).sum = f k v := by
    intro es
    induction es with
    | nil => exact fun _ _ hmem => absurd hmem List.not_mem_nil
    | cons e es ih =>
      intro hnodup hall hmem
      rw [List.map_cons, List.nodup_cons] at hnodup
      rw [List.forall_mem_cons] at hall
      rw [List.map_cons, List.sum_cons]
      rcases List.mem_cons.1 hmem with rfl | hmem
      · have hrest : (es.map fun e => f e.1 e.2).sum = 0 := by
          have hzeros : (es.map fun e => f e.1 e.2) = es.map fun _ => 0 := by
            refine List.map_congr_left fun e he => hall.2 e he ?_
            intro hek
            have hin : e.1 ∈ es.map Prod.fst := List.mem_map_of_mem he
            exact hnodup.1 (hek ▸ hin)
          rw [hzeros, List.sum_map_zero]
        rw [hrest, add_zero]
      · have hne : e.1 ≠ k := by
          intro hek
          have hin : k ∈ es.map Prod.fst := List.mem_map_of_mem hmem
          exact hnodup.1 (hek ▸ hin)
        rw [hall.1 hne, zero_add, ih hnodup.2 hall.2 hmem]
  exact key m.entries m.nodup (fun e he => hzero e.1 e.2 (get_eq_some.2 he)) (get_eq_some.1 h)

end Sums

end OMap

end NodeToolkit
