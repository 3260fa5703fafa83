import Mathlib.Data.Rat.Floor

/-!
# Pagination

`pagination.ts`, and the classes of `search-engine.ts` that do the same for the search engine.
Page numbers, sizes and totals are whole numbers of any size; those of the source are exact up to the
largest safe integer, and so is the quotient that it rounds up.
-/

namespace NodeToolkit

structure BaseValidationException where
  code : String
  message : String
deriving DecidableEq

structure PaginatedQuery where
  page : Option ℤ
  perPage : Option ℤ
deriving DecidableEq

structure Pagination where
  page : ℤ
  perPage : ℤ
  total : ℤ
  totalPages : ℤ
  hasMore : Bool
  firstPage : ℤ
  lastPage : ℤ
  nextPage : Option ℤ
  prevPage : Option ℤ
deriving DecidableEq

/-- What `getPageAndPerPage` returns. -/
structure PageAndPerPage where
  page : ℤ
  perPage : ℤ
  totalToSkip : ℤ
deriving DecidableEq

namespace Pagination

def DEFAULT_PAGE : ℤ := 1
def DEFAULT_PER_PAGE : ℤ := 30
def MAX_PER_PAGE : ℤ := 200

def getPageAndPerPage (query : PaginatedQuery) : Except BaseValidationException PageAndPerPage :=
  let page := query.page.getD DEFAULT_PAGE
  let perPage := query.perPage.getD DEFAULT_PER_PAGE
  if page < 1 then .error ⟨"PAGINATION.INVALID_PAGE_NUMBER", "page number must be greater than 0"⟩
  else if perPage < 0 then
    .error ⟨"PAGINATION.INVALID_PER_PAGE_NUMBER", "per page number must be greater than 0"⟩
  else
    let perPage := if MAX_PER_PAGE < perPage then MAX_PER_PAGE else perPage
    let perPage := if perPage = 0 then DEFAULT_PER_PAGE else perPage
    .ok ⟨page, perPage, (page - 1) * perPage⟩

def getPagination (page perPage total : ℤ) : Pagination where
  page
  perPage
  total
  totalPages := ⌈(total / perPage : ℚ)⌉
  hasMore := page < ⌈(total / perPage : ℚ)⌉
  firstPage := 1
  lastPage := ⌈(total / perPage : ℚ)⌉
  nextPage := if page < ⌈(total / perPage : ℚ)⌉ then some (page + 1) else none
  prevPage := if 1 < page then some (page - 1) else none

end Pagination

namespace SearchEngine

structure Paginating where
  page : ℤ
  perPage : ℤ
  skip : ℤ
deriving DecidableEq

def Paginating.DEFAULT_PAGE : ℤ := 1
def Paginating.DEFAULT_PER_PAGE : ℤ := 10
def Paginating.DEFAULT_MAX_PER_PAGE : ℤ := 200

/-- `new Paginating(page, perPage)`. -/
def Paginating.make (page perPage : ℤ) : Paginating :=
  let page := if page ≤ 0 then DEFAULT_PAGE else page
  let perPage := if perPage ≤ 0 then DEFAULT_PER_PAGE else perPage
  let perPage := if DEFAULT_MAX_PER_PAGE < perPage then DEFAULT_MAX_PER_PAGE else perPage
  ⟨page, perPage, (page - 1) * perPage⟩

def Paginating.FromQueryParams (page perPage : Option ℤ) : Paginating :=
  .make (page.getD DEFAULT_PAGE) (perPage.getD DEFAULT_PER_PAGE)

/-- The function of the search engine is written out once more, and is the same. -/
def GetPagination (page perPage total : ℤ) : Pagination := Pagination.getPagination page perPage total

end SearchEngine

end NodeToolkit
