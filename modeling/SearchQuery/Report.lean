/-
SearchQuery/Report.lean

Reports: what a query was understood as, for a person or for a program.

The text has four lines and leaves the values as they are, so it can be
read but not always read back.  The JSON form holds every part of the
query and the orderings that the settings give it.  An expression is an
object of one member there, whose name says which kind it is.
-/
import SearchQuery.Settings

namespace SearchQuery

/-! ### Parts of a query as JSON values -/

/-- A filter as an object. -/
def Filter.toJson (f : Filter) : Json :=
  .object [(some "key", .ofString f.key), (some "value", .ofString f.value)]

mutual

/-- An expression as an object of one member. -/
def Expr.toJson : Expr → Json
  | .value text => .object [(some "value", .ofString text)]
  | .filter condition => .object [(some "filter", condition.toJson)]
  | .and operands => .object [(some "and", .array (Expr.allToJson operands))]
  | .or operands => .object [(some "or", .array (Expr.allToJson operands))]

/-- Several expressions as objects. -/
def Expr.allToJson : List Expr → List Json
  | [] => []
  | e :: es => e.toJson :: Expr.allToJson es

end

/-- The keys and their marks as one object. -/
def KeyMarks.toJson (m : KeyMarks) : Json :=
  .object (m.entries.map fun e => (some e.1, .primitive (.bool e.2)))

namespace Report

/-! ### The two forms -/

/-- The form for programs. -/
def toJson (s : Settings) (q : Query) : Json :=
  .object [
    (some "expr", (q.expr.map Expr.toJson).getD (.primitive .null)),
    (some "sort", .ofStrings q.sort),
    (some "free_text", .ofStrings q.freeText),
    (some "found_filters", q.found.toJson),
    (some "order_by", .ofStrings (s.orderBy q))]

/-- A key and its mark. -/
def entry (e : String × Bool) : String :=
  e.1 ++ (if e.2 then "=true" else "=false")

/-- The form for people. -/
def toText (s : Settings) (q : Query) : String :=
  "expr: " ++ (q.expr.map Expr.render).getD "(none)"
    ++ "\nsort: " ++ ", ".intercalate (s.orderBy q)
    ++ "\nfilters: " ++ " ".intercalate (q.found.entries.map entry)
    ++ "\nfree text: " ++ " | ".intercalate q.freeText

/-- Which form a report takes. -/
inductive Form where
  | text
  | json
  deriving DecidableEq

/-- The report on a query. -/
def write (s : Settings) (q : Query) : Form → String
  | .text => toText s q
  | .json => (toJson s q).write .indented

end Report

end SearchQuery
