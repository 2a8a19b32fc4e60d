/-
SearchQuery/Expr/Leaves.lean

The leaves of an expression, left to right.

A walk is the list of the expressions still to be visited, the next one
first.  A step that meets an operator puts its operands in its place; it
yields nothing but leaves fewer nodes to visit, which is why a walk ends
even through operators without operands (`size_of_nextLeaf?`).
-/
import SearchQuery.Expr.Basic

namespace SearchQuery.Expr

/-! ### The number of nodes -/

mutual

/-- How many nodes an expression has. -/
def size : Expr → Nat
  | .value _ | .filter _ => 1
  | .and operands | .or operands => sizeAll operands + 1

/-- How many nodes several expressions have together. -/
def sizeAll : List Expr → Nat
  | [] => 0
  | e :: es => size e + sizeAll es

end

theorem sizeAll_append (as bs : List Expr) :
    sizeAll (as ++ bs) = sizeAll as + sizeAll bs := by
  induction as with
  | nil => simp [sizeAll]
  | cons e es ih => simp [sizeAll, ih, Nat.add_assoc]

theorem size_pos (e : Expr) : 0 < size e := by
  cases e <;> simp [size]

/-! ### The walk -/

/-- The next leaf of a walk and what is still to be visited behind it. -/
def nextLeaf? : List Expr → Option (Expr × List Expr)
  | [] => none
  | .and operands :: rest | .or operands :: rest => nextLeaf? (operands ++ rest)
  | leaf :: rest => some (leaf, rest)
termination_by ahead => sizeAll ahead
decreasing_by all_goals simp [sizeAll_append, sizeAll, size]

theorem size_of_nextLeaf? {ahead rest : List Expr} {leaf : Expr}
    (h : nextLeaf? ahead = some (leaf, rest)) : sizeAll rest < sizeAll ahead := by
  fun_induction nextLeaf? ahead with
  | case1 => cases h
  | case2 operands rest' ih | case3 operands rest' ih =>
    have := ih h
    simp only [sizeAll_append] at this
    simp only [sizeAll, size]
    omega
  | case4 leaf' rest' =>
    obtain ⟨-, rfl⟩ : leaf' = leaf ∧ rest' = rest := by simpa using h
    have := size_pos leaf'
    simp only [sizeAll]
    omega

/-- The leaves `done` and those that a walk still comes by. -/
def drain (done : Array Expr) (ahead : List Expr) : Array Expr :=
  match _ : nextLeaf? ahead with
  | none => done
  | some (leaf, rest) => drain (done.push leaf) rest
termination_by sizeAll ahead
decreasing_by exact size_of_nextLeaf? ‹_›

/-- The leaves of an expression, left to right. -/
def leaves (e : Expr) : List Expr :=
  (drain #[] [e]).toList

/-- The free texts among the leaves, left to right. -/
def values (e : Expr) : List String :=
  e.leaves.filterMap asValue?

/-- The filters among the leaves, left to right. -/
def filters (e : Expr) : List Filter :=
  e.leaves.filterMap asFilter?

end SearchQuery.Expr
