import Mathlib.Algebra.BigOperators.Group.List.Basic
import Mathlib.Data.List.Forall2
import Mathlib.Data.List.Lex
import Mathlib.Data.List.Sort

/-!
# Cartesian products of lists

The tuples with an element of each list, and the same for positions in the lists.

* `mem_product`, `length_product`: which tuples there are, and how many.
* `positions_sorted`, `mem_positions`: the positions are those within the lists, in lexicographic order,
  each once; `eq_positions`: this determines them.
* `product_eq_map`: the tuples are the elements at the positions.
* `flatMap_map_inj`: two ways to fill in the pairs of two lists agree only if they do for each pair.
-/

namespace NodeToolkit.Cartesian

variable {α β γ : Type*}

/-- The tuples. The last list varies fastest. -/
def product : List (List α) → List (List α)
  | [] => [[]]
  | xs :: rest => xs.flatMap fun x => (product rest).map (x :: ·)

/-- The tuples of positions in lists of these lengths. -/
def positions (lengths : List ℕ) : List (List ℕ) := product (lengths.map List.range)

/-- The elements at positions, and `d` where there is none. -/
def pick (d : α) (lists : List (List α)) (position : List ℕ) : List α :=
  List.zipWith (fun xs i => xs.getD i d) lists position

variable {lists : List (List α)} {tuple : List α} {lengths position : List ℕ}

theorem mem_product : tuple ∈ product lists ↔ List.Forall₂ (· ∈ ·) tuple lists := by
  induction lists generalizing tuple with
  | nil => simp [product]
  | cons xs rest ih =>
    simp only [product, List.mem_flatMap, List.mem_map, ih]
    constructor
    · rintro ⟨x, hx, tuple, htuple, rfl⟩
      exact .cons hx htuple
    · intro h
      cases h with
      | cons hx htuple => exact ⟨_, hx, _, htuple, rfl⟩

theorem length_product : (product lists).length = (lists.map List.length).prod := by
  induction lists with
  | nil => rfl
  | cons xs rest ih =>
    simp only [product, List.length_flatMap, List.length_map, ih, List.map_const', List.sum_replicate_nat,
      List.map_cons, List.prod_cons]

/-- There is no tuple exactly if a list is empty. -/
theorem product_eq_nil : product lists = [] ↔ [] ∈ lists := by
  induction lists with
  | nil => simp [product]
  | cons xs rest ih =>
    rw [product, List.flatMap_eq_nil_iff, List.mem_cons, ← ih]
    constructor
    · intro h
      cases xs with
      | nil => exact .inl rfl
      | cons x xs => exact .inr (List.map_eq_nil_iff.1 (h x List.mem_cons_self))
    · rintro (rfl | hrest)
      · simp
      · rw [hrest]
        exact fun _ _ => rfl

/-! ## Positions -/

theorem mem_positions : position ∈ positions lengths ↔ List.Forall₂ (· < ·) position lengths := by
  rw [positions, mem_product, List.forall₂_map_right_iff]
  simp only [List.mem_range]

theorem positions_eq_nil : positions lengths = [] ↔ 0 ∈ lengths := by
  rw [positions, product_eq_nil, List.mem_map]
  simp only [List.range_eq_nil, exists_eq_right]

theorem positions_cons (n : ℕ) (lengths : List ℕ) :
    positions (n :: lengths) = (List.range n).flatMap fun i => (positions lengths).map (i :: ·) := rfl

/-- **The positions are in lexicographic order**, each once. -/
theorem positions_sorted (lengths : List ℕ) : (positions lengths).Pairwise (· < ·) := by
  induction lengths with
  | nil => exact List.pairwise_singleton _ _
  | cons n lengths ih =>
    rw [positions_cons, List.pairwise_flatMap]
    constructor
    · intro i _
      rw [List.pairwise_map]
      exact ih.imp fun h => List.cons_lt_cons_iff.2 (.inr ⟨rfl, h⟩)
    · -- the first position decides between two blocks
      refine List.pairwise_lt_range.imp fun hlt p hp q hq => ?_
      obtain ⟨p', -, rfl⟩ := List.mem_map.1 hp
      obtain ⟨q', -, rfl⟩ := List.mem_map.1 hq
      exact List.cons_lt_cons_iff.2 (.inl hlt)

/-- **No other list is.** -/
theorem eq_positions {ps : List (List ℕ)} (hsorted : ps.Pairwise (· < ·))
    (hmem : ∀ p, p ∈ ps ↔ List.Forall₂ (· < ·) p lengths) : ps = positions lengths :=
  hsorted.eq_of_mem_iff (positions_sorted lengths) fun p => (hmem p).trans mem_positions.symm

/-- **The tuples are the elements at the positions.** -/
theorem product_eq_map (d : α) (lists : List (List α)) :
    product lists = (positions (lists.map List.length)).map (pick d lists) := by
  induction lists with
  | nil => rfl
  | cons xs rest ih =>
    have helements : xs = (List.range xs.length).map fun i => xs.getD i d := by
      apply List.ext_getElem
      · simp
      · intro i h _
        simp [List.getElem?_eq_getElem h]
    rw [List.map_cons, positions_cons, List.map_flatMap, product, ih]
    conv_lhs => rw [helements]
    rw [List.flatMap_map]
    simp only [List.map_map]
    rfl

/-! ## Pairs -/

/-- **Two ways to fill in the pairs** of two lists agree only if they do for each pair. -/
theorem flatMap_map_inj {l : List α} {m : List β} {f g : α → β → γ}
    (h : (l.flatMap fun x => m.map (f x)) = l.flatMap fun x => m.map (g x)) : ∀ x ∈ l, ∀ y ∈ m, f x y = g x y := by
  induction l with
  | nil => simp
  | cons x l ih =>
    rw [List.flatMap_cons, List.flatMap_cons] at h
    -- both blocks of `x` are as long as `m`
    obtain ⟨hfirst, hrest⟩ := List.append_inj h (by simp)
    intro x' hx'
    rcases List.mem_cons.1 hx' with rfl | hx'
    · exact List.map_inj_left.1 hfirst
    · exact ih hrest x' hx'

end NodeToolkit.Cartesian
