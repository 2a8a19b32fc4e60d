/-
SearchQuery/Grammar/Clauses.lean

Queries: clauses with `OR` between them, and in each clause operands with
or without `AND` between them.

`OR` binds looser than `AND` and is read from the left, so `a OR b OR c`
is `(a OR b) OR c`.  A clause in which every operand was dropped drops out
in its turn, and a single operand stands for its clause.

Groups are the only recursion through operands, and `group` bounds it by
the number of groups that may still be opened, one inside the other.  All
other recursion goes along the list of tokens.
-/
import SearchQuery.Grammar.Operand

namespace SearchQuery.Grammar

variable (allowed : String → Bool)
variable (inside : List Token → Reading (Option Expr))

/-! ### Clauses -/

/-- What stands between an operand and the next operand of its clause, given
what follows the first: an `AND`, or nothing if operands stand side by
side.  The clause ends at an `OR`, at a `)` and at the end. -/
def gap? : List Token → Option (List Role)
  | [] => none
  | t :: _ =>
    if t.alternates || t.closes then none
    else if t.joins then some [.joins]
    else some []

/-- The operands of a clause, without those that were dropped. -/
def clause : List Token → Reading (List Expr)
  | [] => .take [] []
  | t :: ts =>
    let first := operand allowed inside t ts
    -- an operand takes `t` at least
    let rest := ts.drop (first.taken - 1)
    first.andThen fun operand? =>
      match gap? rest with
      | none => .take [] operand?.toList
      | some gap =>
        (Reading.take gap ()).andThen fun _ =>
          (clause (rest.drop gap.length)).map (operand?.toList ++ ·)
termination_by ts => ts.length
decreasing_by rw [List.length_drop, List.length_drop, List.length_cons]; omega

/-- Whether an `OR` comes next. -/
def alternativeAhead : List Token → Bool
  | [] => false
  | t :: _ => t.alternates

/-- The clauses of a query or a group, up to the end or to a `)`. -/
def clauses (ts : List Token) : Reading (List (List Expr)) :=
  let first := clause allowed inside ts
  let rest := ts.drop first.taken
  first.andThen fun operands =>
    if _ : alternativeAhead rest then
      (Reading.take [.alternates] ()).andThen fun _ =>
        (clauses (rest.drop 1)).map (operands :: ·)
    else .take [] [operands]
termination_by ts.length
decreasing_by
  have h : alternativeAhead rest = true := ‹_›
  have : 0 < rest.length := List.length_pos_iff.2 fun e => by simp [e, alternativeAhead] at h
  simp only [rest, List.length_drop] at this ⊢
  omega

/-! ### Expressions -/

/-- The expression for the operands of a clause. -/
def conjunction? : List Expr → Option Expr
  | [] => none
  | [operand] => some operand
  | operands => some (.and operands)

/-- Either of two expressions, if both are there. -/
def either? : Option Expr → Option Expr → Option Expr
  | some left, some right => some (.or [left, right])
  | left, none => left
  | none, right => right

/-- The expression for clauses. -/
def alternatives? (clauses : List (List Expr)) : Option Expr :=
  (clauses.map conjunction?).foldl either? none

/-- A query, or what stands inside a group. -/
def disjunction (ts : List Token) : Reading (Option Expr) :=
  (clauses allowed inside ts).map alternatives?

/-! ### Groups -/

/-- How deep groups may be nested. -/
def maxDepth : Nat := 128

/-- Whether a `)` comes next. -/
def closeAhead : List Token → Bool
  | [] => false
  | t :: _ => t.closes

/-- A group, given the tokens behind its `(`, while so many groups may be
opened one inside the other. -/
def group : Nat → List Token → Reading (Option Expr)
  | 0, _ => .fail (.tooDeep maxDepth)
  | depth + 1, ts =>
    let inner := disjunction allowed (group depth) ts
    (Reading.take [.opens] ()).andThen fun _ =>
      inner.andThen fun expr? =>
        if closeAhead (ts.drop inner.taken) then .take [.closes] expr?
        else .fail .unclosedGroup

/-- Read tokens as a query.  Tokens from a `)` outside all groups on are
not taken. -/
def parse (ts : List Token) : Reading (Option Expr) :=
  disjunction allowed (group allowed maxDepth) ts

end SearchQuery.Grammar
