import NodeToolkit.Base.Walk
import NodeToolkit.Spec.Pagination
import Mathlib.Data.List.Range
import Mathlib.Algebra.Order.Round

/-!
# Paging through a list

Both paginations number the pages of a list from 1 on and link each to the next and to the one
before.

* `nextPage_eq_some`: there is a next page iff indices are left.
* `flatMap_slice`: consecutive slices, cut at the end of the list, make up the list.
* `covers_once`: following the links from page 1 visits every index once, in order, and the way
  back visits the same pages.
-/

namespace NodeToolkit.Pagination

/-! ## The statement -/

/-- The indices of a list of `total` elements on the page that skips `skip` of them. -/
def slice (skip perPage : ℤ) (total : ℕ) : List ℕ :=
  (List.range total).filter fun i : ℕ => skip ≤ i ∧ (i : ℤ) < skip + perPage

/-- The pages `pages` are the way through a list of `total` elements. -/
structure CoversOnce (total : ℕ) (perPage : ℤ) (skip : ℤ → ℤ) (pagination : ℤ → Pagination) (pages : List ℤ) :
    Prop where
  forth : Walk (fun page => (pagination page).nextPage) 1 pages
  count : (pages.length : ℤ) = max 1 ⌈(total / perPage : ℚ)⌉
  partition : pages.flatMap (fun page => slice (skip page) perPage total) = List.range total
  hasMore : ∀ page ∈ pages, (pagination page).hasMore = true ↔ ∃ i < total, skip page + perPage ≤ (i : ℤ)
  back : ∃ last, pages.getLast? = some last ∧ Walk (fun page => (pagination page).prevPage) last pages.reverse

/-! ## Links -/

section Links

variable {page perPage : ℤ} {total : ℕ}

/-- **There is more** iff some index lies beyond the page. -/
theorem lt_totalPages (hp : 0 < perPage) : page < ⌈(total / perPage : ℚ)⌉ ↔ page * perPage < total := by
  have hpos : (0 : ℚ) < perPage := Int.cast_pos.2 hp
  rw [Int.lt_ceil, lt_div_iff₀ hpos]
  exact_mod_cast Iff.rfl

theorem nextPage_eq (hp : 0 < perPage) : (getPagination page perPage total).nextPage =
    if page * perPage < total then some (page + 1) else none := by
  have h : page < ⌈(total / perPage : ℚ)⌉ ↔ page * perPage < total := lt_totalPages hp
  by_cases hlt : page * perPage < total
  · rw [if_pos hlt]
    exact if_pos (h.2 hlt)
  · rw [if_neg hlt]
    exact if_neg fun hpage => hlt (h.1 hpage)

theorem hasMore_iff (hp : 0 < perPage) : (getPagination page perPage total).hasMore = true ↔
    page * perPage < total := by
  rw [← lt_totalPages hp]
  exact decide_eq_true_iff

theorem prevPage_eq : (getPagination page perPage total).prevPage = if 1 < page then some (page - 1) else none := rfl

/-- The links to the next pages end where the pages end. -/
theorem walk_from (hp : 0 < perPage) {n : ℕ} (hend : (total : ℤ) ≤ n * perPage)
    (hstart : ∀ k : ℕ, k + 1 < n → (k + 1 : ℤ) * perPage < total) : ∀ m k : ℕ, k + m + 1 = n →
    Walk (fun page => (getPagination page perPage total).nextPage) (k + 1)
      ((List.range' k (m + 1)).map fun i : ℕ => (i : ℤ) + 1) := by
  intro m
  induction m with
  | zero =>
    intro k hk
    refine .last ?_
    have hn : (n : ℤ) = k + 1 := by omega
    rw [nextPage_eq hp, if_neg (by rw [← hn]; omega)]
  | succ m ih =>
    intro k hk
    have hnext : (getPagination (k + 1) perPage total).nextPage = some (((k + 1 : ℕ) : ℤ) + 1) := by
      rw [nextPage_eq hp, if_pos (hstart k (by omega)), Nat.cast_succ]
    have hrest := ih (k + 1) (by omega)
    rw [List.range'_succ, List.map_cons]
    exact .more hnext hrest

end Links

/-! ## Slices -/

/-- Two intervals of indices that meet. -/
theorem filter_append_filter {a b : ℤ} (hab : a ≤ b) (total : ℕ) :
    ((List.range total).filter fun i : ℕ => (i : ℤ) < a) ++ ((List.range total).filter fun i : ℕ => a ≤ (i : ℤ) ∧ (i : ℤ) < b) =
      (List.range total).filter fun i : ℕ => (i : ℤ) < b := by
  induction total with
  | zero => rfl
  | succ total ih =>
    simp only [List.range_succ, List.filter_append, List.filter_cons, List.filter_nil]
    rw [← ih]
    by_cases ha : (total : ℤ) < a
    · -- no index has come to the second interval yet
      have hnone : ((List.range total).filter fun i : ℕ => a ≤ (i : ℤ) ∧ (i : ℤ) < b) = [] := by
        refine List.filter_eq_nil_iff.2 fun i hi => ?_
        have hlt := List.mem_range.1 hi
        simp only [decide_eq_true_eq]
        omega
      have hb : (total : ℤ) < b := by omega
      have hna : ¬ a ≤ (total : ℤ) := by omega
      rw [hnone]
      simp [ha, hb, hna]
    · have hle : a ≤ (total : ℤ) := by omega
      simp [ha, hle, List.append_assoc]

/-- **Consecutive slices** make up the indices up to the end of the last one. -/
theorem flatMap_slice {perPage : ℤ} (hp : 0 < perPage) (total n : ℕ) :
    (List.range n).flatMap (fun k : ℕ => slice (k * perPage) perPage total) =
      (List.range total).filter fun i : ℕ => (i : ℤ) < n * perPage := by
  induction n with
  | zero =>
    refine (List.filter_eq_nil_iff.2 fun i _ => ?_).symm
    simp only [decide_eq_true_eq]
    omega
  | succ n ih =>
    have hstep : ((n + 1 : ℕ) : ℤ) * perPage = n * perPage + perPage := by rw [Nat.cast_succ]; ring
    rw [List.range_succ, List.flatMap_append, ih, List.flatMap_singleton, hstep]
    exact filter_append_filter (by omega) total

/-! ## Results -/

/-- **The pages cover the list once**, for any positive page size. -/
theorem covers {perPage : ℤ} (hp : 0 < perPage) (total : ℕ) : ∃ n : ℕ,
    CoversOnce total perPage (fun page => (page - 1) * perPage) (fun page => getPagination page perPage total)
      ((List.range n).map fun i : ℕ => (i : ℤ) + 1) := by
  obtain ⟨n, hn⟩ : ∃ n : ℕ, (n : ℤ) = max 1 ⌈(total / perPage : ℚ)⌉ :=
    ⟨_, Int.toNat_of_nonneg (le_trans (by omega) (le_max_left _ _))⟩
  have hone : 1 ≤ n := by
    have := le_max_left 1 ⌈(total / perPage : ℚ)⌉
    omega
  have hend : (total : ℤ) ≤ n * perPage := by
    rw [← not_lt, ← lt_totalPages hp, hn, not_lt]
    exact le_max_right _ _
  have hstart : ∀ k : ℕ, k + 1 < n → (k + 1 : ℤ) * perPage < total := by
    intro k hk
    rw [← lt_totalPages hp]
    have hlt : (k + 1 : ℤ) < max 1 ⌈(total / perPage : ℚ)⌉ := by omega
    rcases lt_max_iff.1 hlt with h | h
    · omega
    · exact h
  have hforth : Walk (fun page => (getPagination page perPage total).nextPage) 1
      ((List.range n).map fun i : ℕ => (i : ℤ) + 1) := by
    have hwalk := walk_from hp hend hstart (n - 1) 0 (by omega)
    rw [Nat.sub_add_cancel hone, ← List.range_eq_range'] at hwalk
    exact hwalk
  refine ⟨n, hforth, ?_, ?_, ?_, ?_⟩
  · rw [List.length_map, List.length_range, hn]
  · have hflat := flatMap_slice hp total n
    have hall : ((List.range total).filter fun i : ℕ => (i : ℤ) < n * perPage) = List.range total := by
      refine List.filter_eq_self.2 fun i hi => ?_
      have hlt := List.mem_range.1 hi
      rw [decide_eq_true_eq]
      omega
    rw [List.flatMap_map, ← hall, ← hflat]
    refine List.flatMap_congr fun i _ => ?_
    rw [add_sub_cancel_right]
  · intro page hpage
    obtain ⟨k, -, rfl⟩ := List.mem_map.1 hpage
    have hskip : ((k : ℤ) + 1 - 1) * perPage + perPage = (k + 1) * perPage := by ring
    have hpos : 0 < ((k : ℤ) + 1) * perPage := mul_pos (by omega) hp
    rw [hasMore_iff hp, hskip]
    constructor
    · -- the last index of the list
      exact fun hlt => ⟨total - 1, by omega, by omega⟩
    · rintro ⟨i, hi, hle⟩
      omega
  · refine hforth.reverse ?_ ?_
    · intro x hx y hy
      obtain ⟨i, -, rfl⟩ := List.mem_map.1 hx
      rw [nextPage_eq hp] at hy
      split at hy
      · cases hy
        rw [prevPage_eq, if_pos (by omega), add_sub_cancel_right]
      · cases hy
    · rfl

/-- What a query that is accepted asks for, with any other page instead of its own. -/
theorem getPageAndPerPage_page {query : PaginatedQuery} {r : PageAndPerPage}
    (h : getPageAndPerPage query = .ok r) : 0 < r.perPage ∧ ∀ page, 1 ≤ page →
      getPageAndPerPage { query with page := some page } = .ok ⟨page, r.perPage, (page - 1) * r.perPage⟩ := by
  simp only [getPageAndPerPage, Option.getD_some] at h ⊢
  split at h
  · cases h
  · split at h
    · cases h
    · rename_i hper
      cases h
      refine ⟨?_, fun page hpage => ?_⟩
      · have hmax : MAX_PER_PAGE = 200 := rfl
        have hdefault : DEFAULT_PER_PAGE = 30 := rfl
        dsimp only
        generalize query.perPage.getD DEFAULT_PER_PAGE = n at hper ⊢
        by_cases hn : MAX_PER_PAGE < n
        · simp only [if_pos hn]
          split <;> omega
        · simp only [if_neg hn]
          split <;> omega
      · rw [if_neg (by omega), if_neg hper]

theorem make_perPage_pos (perPage : ℤ) : 0 < (SearchEngine.Paginating.make 1 perPage).perPage := by
  have hmax : SearchEngine.Paginating.DEFAULT_MAX_PER_PAGE = 200 := rfl
  have hdefault : SearchEngine.Paginating.DEFAULT_PER_PAGE = 10 := rfl
  simp only [SearchEngine.Paginating.make]
  by_cases hlow : perPage ≤ 0
  · rw [if_pos hlow]
    split <;> omega
  · rw [if_neg hlow]
    split <;> omega

theorem make_of_pos {page : ℤ} (hpage : 1 ≤ page) (perPage : ℤ) : SearchEngine.Paginating.make page perPage =
    ⟨page, (SearchEngine.Paginating.make 1 perPage).perPage,
      (page - 1) * (SearchEngine.Paginating.make 1 perPage).perPage⟩ := by
  have hpos : ¬ page ≤ 0 := by omega
  simp only [SearchEngine.Paginating.make, if_neg hpos]

/-- **Following the pages covers a list once**, in both paginations: for every query that is accepted, and
for every page size the search engine is asked for. -/
theorem covers_once (total : ℕ) :
    (∀ query r, getPageAndPerPage query = .ok r → ∃ pages,
      (∀ page ∈ pages, getPageAndPerPage { query with page := some page } =
        .ok ⟨page, r.perPage, (page - 1) * r.perPage⟩) ∧
      CoversOnce total r.perPage (fun page => (page - 1) * r.perPage)
        (fun page => getPagination page r.perPage total) pages) ∧
    ∀ perPage, ∃ pages,
      (∀ page ∈ pages, SearchEngine.Paginating.make page perPage =
        ⟨page, (SearchEngine.Paginating.make 1 perPage).perPage,
          (page - 1) * (SearchEngine.Paginating.make 1 perPage).perPage⟩) ∧
      CoversOnce total (SearchEngine.Paginating.make 1 perPage).perPage
        (fun page => (page - 1) * (SearchEngine.Paginating.make 1 perPage).perPage)
        (fun page => SearchEngine.GetPagination page (SearchEngine.Paginating.make 1 perPage).perPage total) pages := by
  have hpage : ∀ n : ℕ, ∀ page ∈ (List.range n).map fun i : ℕ => (i : ℤ) + 1, 1 ≤ page := by
    intro n page hmem
    obtain ⟨i, -, rfl⟩ := List.mem_map.1 hmem
    omega
  constructor
  · intro query r hr
    obtain ⟨hpos, hnext⟩ := getPageAndPerPage_page hr
    obtain ⟨n, hcovers⟩ := covers hpos total
    exact ⟨_, fun page hmem => hnext page (hpage n page hmem), hcovers⟩
  · intro perPage
    obtain ⟨n, hcovers⟩ := covers (make_perPage_pos perPage) total
    exact ⟨_, fun page hmem => make_of_pos (hpage n page hmem) perPage, hcovers⟩

/-- A hundred elements, in the pages of the default size. -/
theorem covers_once_hundred : ∃ pages,
    (∀ page ∈ pages, getPageAndPerPage ⟨some page, none⟩ = .ok ⟨page, 30, (page - 1) * 30⟩) ∧
      CoversOnce 100 30 (fun page => (page - 1) * 30) (fun page => getPagination page 30 100) pages := by
  have haccepted : getPageAndPerPage ⟨some 2, none⟩ = .ok ⟨2, 30, 30⟩ := rfl
  exact (covers_once 100).1 ⟨some 2, none⟩ ⟨2, 30, 30⟩ haccepted

end NodeToolkit.Pagination
