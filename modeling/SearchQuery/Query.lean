/-
SearchQuery/Query.lean

Compiling the text of a query.

The text is cut into tokens, the sort directives are taken out, and the
rest is read as an expression.  The filter keys used on the way mark the
allowed keys.
-/
import SearchQuery.Directive
import SearchQuery.Expr.Leaves
import SearchQuery.Grammar.Clauses
import SearchQuery.KeyMarks
import SearchQuery.Token.Scan

namespace SearchQuery

/-- A compiled query. -/
structure Query where
  /-- What is asked for; nothing if the query has no operands. -/
  expr : Option Expr
  /-- The orderings asked for, in order. -/
  sort : List String
  /-- The free texts of the expression, left to right. -/
  freeText : List String
  /-- The allowed keys and which of them the query used. -/
  found : KeyMarks
  deriving DecidableEq

namespace Query

/-- Whether a query asks for nothing. -/
def isEmpty (q : Query) : Bool :=
  q.expr.isNone

/-- Compile a text with the allowed filter keys. -/
def compile (allowed : List String) (text : String) : Except ParseError Query :=
  let sorting := extractSort (tokenize text)
  let keys := KeyMarks.seeded allowed
  let reading := Grammar.parse keys.isAllowed sorting.1
  reading.outcome.map fun expr =>
    { expr
      sort := sorting.2
      freeText := (expr.map Expr.values).getD []
      found := keys.markAll reading.used }

end Query

end SearchQuery
