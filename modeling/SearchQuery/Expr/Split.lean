/-
SearchQuery/Expr/Split.lean

Filters on one key, apart from everything else.

A page that looks up one key by other means than the rest takes the
filters on that key out of a list of operands.  Filters deeper inside an
operand stay where they are.
-/
import SearchQuery.Expr.Basic

namespace SearchQuery.Expr

/-- Whether an expression is a filter on `key`. -/
def isFilterOn (key : String) (e : Expr) : Bool :=
  e.asFilter?.any (·.key == key)

/-- The value that an expression asks of `key`, if it is a filter on it. -/
def valueOf? (key : String) (e : Expr) : Option String :=
  (e.asFilter?.filter (·.key == key)).map (·.value)

/-- The values that the filters on `key` ask for, and the other operands,
each in order. -/
def splitFilters (key : String) (operands : List Expr) : List String × List Expr :=
  (operands.filterMap (valueOf? key), operands.filter fun e => !isFilterOn key e)

end SearchQuery.Expr
