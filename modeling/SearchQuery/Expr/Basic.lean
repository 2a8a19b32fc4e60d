/-
SearchQuery/Expr/Basic.lean

Boolean search expressions.

The leaves are free text and filters.  `and` and `or` hold their operands
in a list, in the order in which they were written; as a type it admits
lists of any length, also of none and of one.
-/
namespace SearchQuery

/-- A condition that the field `key` has `value`. -/
structure Filter where
  key : String
  value : String
  deriving DecidableEq

/-- What a query asks for. -/
inductive Expr where
  | value (text : String)
  | filter (condition : Filter)
  | and (operands : List Expr)
  | or (operands : List Expr)

/-! ### Equality -/

namespace Expr

mutual

/-- Equality of expressions, decided node by node. -/
def decideEq : (a b : Expr) → Decidable (a = b)
  | .value s, .value t => decidable_of_iff (s = t) (by simp)
  | .filter f, .filter g => decidable_of_iff (f = g) (by simp)
  | .and as, .and bs => @decidable_of_iff _ (as = bs) (by simp) (decideAllEq as bs)
  | .or as, .or bs => @decidable_of_iff _ (as = bs) (by simp) (decideAllEq as bs)
  | .value _, .filter _ | .value _, .and _ | .value _, .or _
  | .filter _, .value _ | .filter _, .and _ | .filter _, .or _
  | .and _, .value _ | .and _, .filter _ | .and _, .or _
  | .or _, .value _ | .or _, .filter _ | .or _, .and _ => isFalse (by simp)

/-- `decideEq` along two lists. -/
def decideAllEq : (as bs : List Expr) → Decidable (as = bs)
  | [], [] => isTrue rfl
  | [], _ :: _ | _ :: _, [] => isFalse (by simp)
  | a :: as, b :: bs =>
    @decidable_of_iff _ (a = b ∧ as = bs) (by simp)
      (@instDecidableAnd _ _ (decideEq a b) (decideAllEq as bs))

end

instance : DecidableEq Expr := decideEq

/-! ### Parts -/

/-- The operands of an expression; a leaf has none. -/
def children : Expr → List Expr
  | .and operands | .or operands => operands
  | .value _ | .filter _ => []

/-- The filter that an expression is, if it is one. -/
def asFilter? : Expr → Option Filter
  | .filter condition => some condition
  | _ => none

/-- The free text that an expression is, if it is one. -/
def asValue? : Expr → Option String
  | .value text => some text
  | _ => none

end Expr

/-! ### Written form -/

/-- The key and the value with a colon between them. -/
def Filter.render (f : Filter) : String :=
  f.key ++ ":" ++ f.value

namespace Expr

/-- Operands in parentheses with an operator between each two. -/
def renderGroup (operator : String) (operands : List String) : String :=
  "(" ++ operator.intercalate operands ++ ")"

mutual

/-- The written form: text stands as it is, and every operator has its
parentheses. -/
def render : Expr → String
  | .value text => text
  | .filter condition => condition.render
  | .and operands => renderGroup " AND " (renderAll operands)
  | .or operands => renderGroup " OR " (renderAll operands)

/-- The written forms of several expressions. -/
def renderAll : List Expr → List String
  | [] => []
  | e :: es => render e :: renderAll es

end

end Expr

end SearchQuery
