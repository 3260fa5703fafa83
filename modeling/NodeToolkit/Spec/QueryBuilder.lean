import NodeToolkit.Base.Date
import NodeToolkit.Base.Number
import NodeToolkit.Base.OMap
import NodeToolkit.Base.Regex
import NodeToolkit.Base.Text

/-!
# The query builder

`QueryBuilder` of `query-builder.ts`, without the groups joined by `$or`. A builder is the query it
has so far.
-/

namespace NodeToolkit.QueryBuilder

open Date

/-- The name of a field, which is no operator. -/
abbrev Field : Type := {name : String // name.toList.head? ≠ some '$'}

/-- `string | number | boolean | Date`. -/
inductive Scalar where
  | boolean (b : Bool)
  | number (x : Number)
  | string (s : String)
  | date (time : Option Time)

/-- `T | undefined | null`. -/
inductive Given (α : Type) where
  | undefined
  | null
  | value (a : α)

def Given.toOption {α : Type} : Given α → Option α
  | value a => some a
  | _ => none

def Given.isNull {α : Type} : Given α → Bool
  | null => true
  | _ => false

/-- `string | RegExp`. -/
inductive Pattern where
  | text (pattern : String)
  | regExp (source flags : String)

/-- What a query has for a field: a value (`none` is `null`) or an object of operators. -/
inductive Condition where
  | eq (value : Option Scalar)
  | ne (value : Option Scalar)
  | isIn (values : List Scalar)
  | notIn (values : List Scalar)
  | range (gte lte : Option Scalar)
  | regex (pattern : Pattern) (options : Option String)

/-- A query. The list under `$and` is empty when the query has no such key. -/
structure Query where
  fields : OMap Field Condition
  and : List Query

namespace Query

/-- `QueryBuilder.aBuilder()`. -/
def aBuilder : Query := ⟨.empty, []⟩

/-- `Object.keys(query).length === 0`. -/
def isEmpty (query : Query) : Bool := query.fields.entries.isEmpty && query.and.isEmpty

/-- `this.query[field] = condition`. The assignment to `__proto__` gives the query another prototype, which
`build` leaves behind. -/
def set (query : Query) (field : Field) (condition : Condition) : Query :=
  if field.1 = "__proto__" then query else { query with fields := query.fields.set field condition }

end Query

/-! ## What is ignored -/

/-- `!text.trim()`. -/
def isBlank (text : String) : Bool := text.toList.all isWhiteSpace

/-- `isEmptyString(value)`. -/
def Scalar.isEmptyString : Scalar → Bool
  | string s => isBlank s
  | _ => false

def Pattern.isEmptyString : Pattern → Bool
  | text s => isBlank s
  | regExp _ _ => false

def Scalar.truthy : Scalar → Bool
  | boolean b => b
  | number x => x.truthy
  | string s => s ≠ ""
  | date _ => true

/-- `shouldIgnore(value, { ignoreEmptyString })`. -/
def shouldIgnore {α : Type} (value : Given α) (isEmptyString : α → Bool) (ignoreEmptyString : Bool := true) : Bool :=
  match value with
  | .value a => ignoreEmptyString && isEmptyString a
  | _ => true

/-! ## Filters -/

namespace Query

def addPrimitiveFilter (query : Query) (field : Field) (value : Given Scalar) (ignoreEmptyString : Bool := true) :
    Query :=
  if shouldIgnore value Scalar.isEmptyString ignoreEmptyString && !value.isNull then query
  else query.set field (.eq value.toOption)

def addNotEqualPrimitiveFilter (query : Query) (field : Field) (value : Given Scalar)
    (ignoreEmptyString : Bool := true) : Query :=
  if shouldIgnore value Scalar.isEmptyString ignoreEmptyString && !value.isNull then query
  else query.set field (.ne value.toOption)

def addArrayFilter (query : Query) (field : Field) (value : Given (List Scalar)) (ignoreEmpty : Bool := true) : Query :=
  if shouldIgnore value fun _ => false then query
  else if ignoreEmpty && (value.toOption.getD []).length = 0 then query
  else query.set field (.isIn (value.toOption.getD []))

def addNotInArrayFilter (query : Query) (field : Field) (value : Given (List Scalar)) (ignoreEmpty : Bool := true) :
    Query :=
  if shouldIgnore value fun _ => false then query
  else if ignoreEmpty && (value.toOption.getD []).length = 0 then query
  else query.set field (.notIn (value.toOption.getD []))

end Query

/-- `{ start, end }`. -/
structure Range where
  start : Given Scalar
  stop : Given Scalar

/-- The bound, if it is truthy. -/
def truthyBound (bound : Given Scalar) : Option Scalar := bound.toOption.filter Scalar.truthy

namespace Query

def addRangeFilter (query : Query) (field : Field) (value : Given Range) : Query :=
  if shouldIgnore value fun _ => false then query
  else
    let start := value.toOption.bind fun range => truthyBound range.start
    let stop := value.toOption.bind fun range => truthyBound range.stop
    if start.isNone && stop.isNone then query
    else query.set field (.range start stop)

/-- `addAndFilter(count, aggregator)`. -/
def addAndFilter (query : Query) (count : ℕ) (aggregator : List Query → List Query) : Query :=
  let conditions := aggregator (List.replicate count aBuilder)
  let filtersArr := conditions.filter fun c => !c.isEmpty
  if filtersArr.length = 0 then query
  else { query with and := query.and ++ filtersArr }

end Query

/-! ## Searches -/

structure SearchOptions where
  caseInsensitive : Bool := false
  multilineIgnore : Bool := false
  ignoreWhiteSpaces : Bool := false
  includeNewLineInDotMatches : Bool := false

/-- The characters that `escapeRegex` puts a backslash before. -/
def specialCharacters : List Char := ['.', '*', '+', '?', '^', '$', '{', '}', '(', ')', '|', '[', ']', '\\']

def escapeRegex (value : String) : String :=
  .ofList (value.toList.flatMap fun c => if c ∈ specialCharacters then ['\\', c] else [c])

/-- `$options`. -/
def searchOptions (options : SearchOptions) : String :=
  (if options.caseInsensitive then "i" else "") ++ (if options.multilineIgnore then "m" else "") ++
    (if options.includeNewLineInDotMatches then "s" else "") ++ (if options.ignoreWhiteSpaces then "x" else "")

def Query.addRegexSearch (query : Query) (field : Field) (value : Given Pattern) (options : SearchOptions := {}) :
    Query :=
  if shouldIgnore value Pattern.isEmptyString then query
  else
    let letters := searchOptions options
    match value with
    | .value pattern =>
      let pattern := match pattern with
        | .text value => .text (escapeRegex value)
        | .regExp source flags => .regExp source flags
      query.set field (.regex pattern (if letters ≠ "" then some letters else none))
    | _ => query

/-! ## Calls -/

/-- A call that adds a filter. -/
inductive Filter where
  | primitive (field : Field) (value : Given Scalar) (ignoreEmptyString : Bool)
  | notEqualPrimitive (field : Field) (value : Given Scalar) (ignoreEmptyString : Bool)
  | array (field : Field) (value : Given (List Scalar)) (ignoreEmpty : Bool)
  | notInArray (field : Field) (value : Given (List Scalar)) (ignoreEmpty : Bool)
  | range (field : Field) (value : Given Range)

/-- A call: a filter, or a group whose builders get calls of their own. -/
inductive Call where
  | filter (filter : Filter)
  | and (groups : List (List Call))

def Filter.run (query : Query) : Filter → Query
  | primitive field value ignoreEmptyString => query.addPrimitiveFilter field value ignoreEmptyString
  | notEqualPrimitive field value ignoreEmptyString => query.addNotEqualPrimitiveFilter field value ignoreEmptyString
  | array field value ignoreEmpty => query.addArrayFilter field value ignoreEmpty
  | notInArray field value ignoreEmpty => query.addNotInArrayFilter field value ignoreEmpty
  | range field value => query.addRangeFilter field value

mutual

def Call.run : Call → Query → Query
  | .filter filter, query => filter.run query
  | .and groups, query => query.addAndFilter groups.length (runGroups groups)

/-- The calls, one after another. -/
def runCalls : List Call → Query → Query
  | [], query => query
  | call :: calls, query => runCalls calls (call.run query)

/-- Each builder gets its calls. -/
def runGroups : List (List Call) → List Query → List Query
  | calls :: groups, builder :: builders => runCalls calls builder :: runGroups groups builders
  | _, builders => builders

end

/-- The query that a builder makes of the calls. -/
def build (calls : List Call) : Query := runCalls calls .aBuilder

/-! ## The meaning of queries -/

/-- The meaning of the operators: which documents satisfy them on a field. -/
structure Operators (Document : Type) where
  eq : Field → Option Scalar → Document → Prop
  ne : Field → Option Scalar → Document → Prop
  isIn : Field → List Scalar → Document → Prop
  notIn : Field → List Scalar → Document → Prop
  gte : Field → Scalar → Document → Prop
  lte : Field → Scalar → Document → Prop
  regex : Field → Pattern → Option String → Document → Prop

variable {Document : Type} (ops : Operators Document) (document : Document)

/-- The document satisfies the condition: each of its operators. -/
def Condition.Holds (field : Field) : Condition → Prop
  | eq value => ops.eq field value document
  | ne value => ops.ne field value document
  | isIn values => ops.isIn field values document
  | notIn values => ops.notIn field values document
  | range gte lte => (∀ bound ∈ gte, ops.gte field bound document) ∧ ∀ bound ∈ lte, ops.lte field bound document
  | regex pattern options => ops.regex field pattern options document

mutual

/-- The document matches the query: each field, and each query under `$and`. -/
def Query.Matches : Query → Prop
  | ⟨fields, and⟩ => (∀ entry ∈ fields.entries, entry.2.Holds ops document entry.1) ∧ AllMatch and

def AllMatch : List Query → Prop
  | [] => True
  | query :: queries => query.Matches ∧ AllMatch queries

end

end NodeToolkit.QueryBuilder
