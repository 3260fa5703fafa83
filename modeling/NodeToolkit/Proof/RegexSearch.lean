import NodeToolkit.Spec.QueryBuilder
import Mathlib.Data.List.Forall2

/-!
# Searches for strings are literal

* `search_literal`: the pattern that is stored for a string is one, finds what contains the string, whatever
  the options but `ignoreWhiteSpaces`, and is stored for no other string.
-/

namespace NodeToolkit.QueryBuilder

variable {s : String} {options : SearchOptions} {pattern : String} {letters : Option String}

/-! ## The statement -/

/-- For the string, a search stores this pattern with these options. -/
def Stores (s : String) (options : SearchOptions) (pattern : String) (letters : Option String) : Prop :=
  ∀ query field, Query.addRegexSearch query field (.value (.text s)) options =
    query.set field (.regex (.text pattern) letters)

/-- The text contains the string, up to letter case if that is ignored. -/
def Contains (ignoreCase : Bool) (fold : Char → Char) (text s : String) : Prop :=
  if ignoreCase then ∃ part, part <:+: text.toList ∧ part.map fold = s.toList.map fold
  else s.toList <:+: text.toList

/-! ## What is stored -/

/-- The pattern is the string, escaped. -/
theorem toList_escapeRegex (s : String) : (escapeRegex s).toList = Regex.escape s.toList :=
  String.toList_ofList

theorem stores_escapeRegex (hs : isBlank s = false) :
    Stores s options (escapeRegex s) (if searchOptions options ≠ "" then some (searchOptions options) else none) := by
  intro query field
  have hkept : shouldIgnore (.value (.text s)) Pattern.isEmptyString = false := hs
  rw [Query.addRegexSearch, hkept]
  rfl

/-- Nothing else is stored. -/
theorem Stores.pattern_eq (hs : isBlank s = false) (h : Stores s options pattern letters) : pattern = escapeRegex s := by
  have hset := (stores_escapeRegex hs .aBuilder ⟨"a", by decide⟩).symm.trans (h .aBuilder ⟨"a", by decide⟩)
  have hget := congrArg (fun query => query.fields.get ⟨"a", by decide⟩) hset
  simp only [Query.set, String.reduceEq, if_false, OMap.get_set_self, Option.some.injEq, Condition.regex.injEq,
    Pattern.text.injEq] at hget
  exact hget.1.symm

/-- The options of the pattern. -/
def SearchOptions.flags (options : SearchOptions) : Regex.Options :=
  ⟨options.caseInsensitive, options.multilineIgnore, options.includeNewLineInDotMatches⟩

theorem ofLetters_searchOptions (h : options.ignoreWhiteSpaces = false) :
    Regex.Options.ofLetters (searchOptions options).toList = some options.flags := by
  obtain ⟨i, m, x, s⟩ := options
  obtain rfl : x = false := h
  cases i <;> cases m <;> cases s <;> decide

/-! ## What is found -/

theorem forall₂_same_iff (flags : Regex.Options) (fold : Char → Char) (text part : List Char) :
    List.Forall₂ (Regex.Same flags fold) text part ↔
      if flags.ignoreCase then part.map fold = text.map fold else part = text := by
  cases h : flags.ignoreCase with
  | true =>
    have hsame : Regex.Same flags fold = fun c d => fold c = fold d := by
      funext c d
      simp [Regex.Same, h]
    rw [hsame, if_pos rfl, eq_comm, ← List.forall₂_eq_eq_eq, List.forall₂_map_left_iff, List.forall₂_map_right_iff]
  | false =>
    have hsame : Regex.Same flags fold = Eq := by
      funext c d
      simp [Regex.Same, h]
    rw [hsame, if_neg (by simp), List.forall₂_eq_eq_eq, eq_comm]

/-- **Literal searches find what contains the string.** -/
theorem finds_iff_contains (flags : Regex.Options) (fold : Char → Char) (text s : String) :
    (Regex.literal s.toList).Finds flags fold text.toList ↔ Contains flags.ignoreCase fold text s := by
  rw [Regex.finds_literal, Contains]
  simp only [forall₂_same_iff]
  cases flags.ignoreCase <;> simp

/-- **Searches for strings are literal.** -/
theorem search_literal (hs : isBlank s = false) (hoptions : options.ignoreWhiteSpaces = false) :
    ∃ pattern letters, Stores s options pattern letters ∧
      (∃ regex flags, Regex.parse pattern.toList = some regex ∧
        Regex.Options.ofLetters (letters.getD "").toList = some flags ∧
        ∀ fold text, regex.Finds flags fold text.toList ↔ Contains options.caseInsensitive fold text s) ∧
      ∀ s' options' letters', isBlank s' = false → s' ≠ s → ¬ Stores s' options' pattern letters' := by
  refine ⟨_, _, stores_escapeRegex hs, ⟨Regex.literal s.toList, options.flags, ?_, ?_, ?_⟩, ?_⟩
  · rw [toList_escapeRegex, Regex.parse_escape]
  · have hletters : (if searchOptions options ≠ "" then some (searchOptions options) else none).getD "" =
        searchOptions options := by
      split
      · rfl
      · rename_i h
        exact (not_not.1 h).symm
    rw [hletters]
    exact ofLetters_searchOptions hoptions
  · exact fun fold text => finds_iff_contains options.flags fold text s
  · intro s' options' letters' hs' hne hstores
    have hpattern := congrArg String.toList (hstores.pattern_eq hs')
    rw [toList_escapeRegex, toList_escapeRegex] at hpattern
    exact hne (String.toList_inj.1 (Regex.escape_injective hpattern)).symm

/-- A search for `a+b`, with letter case ignored. -/
theorem search_literal_plus : ∃ pattern letters, Stores "a+b" ⟨true, false, false, false⟩ pattern letters ∧
      (∃ regex flags, Regex.parse pattern.toList = some regex ∧
        Regex.Options.ofLetters (letters.getD "").toList = some flags ∧
        ∀ fold text, regex.Finds flags fold text.toList ↔ Contains true fold text "a+b") ∧
      ∀ s' options' letters', isBlank s' = false → s' ≠ "a+b" → ¬ Stores s' options' pattern letters' :=
  search_literal (by decide) rfl

end NodeToolkit.QueryBuilder
