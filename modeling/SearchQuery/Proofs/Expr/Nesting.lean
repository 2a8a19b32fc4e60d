/-
SearchQuery/Proofs/Expr/Nesting.lean

How deep an expression has to be nested in groups.

Where groups are needed follows from what an expression is and from where it
stands.  There are three places, each with room for more than the one
before: an operand of a conjunction takes leaves and groups, a clause takes
conjunctions too, and a query or the inside of a group takes everything.
Each expression has a narrowest place where it needs no group (`place`), and
in a narrower one it needs one around it.

An expression may be much higher than it is nested: alternatives that lean
to the left stand in a row, so a chain of them takes no groups, however long
it is.
-/
import SearchQuery.Expr.Basic

namespace SearchQuery

/-! ### Places -/

/-- Where an expression stands. -/
inductive Place where
  /-- In a conjunction. -/
  | operand
  /-- Between alternatives. -/
  | clause
  /-- At the top, or inside a group. -/
  | query
  deriving DecidableEq

namespace Place

/-- How many of the kinds of expressions a place has room for, besides
leaves and groups. -/
def room : Place → Nat
  | operand => 0
  | clause => 1
  | query => 2

theorem room_le_query (p : Place) : p.room ≤ query.room := by
  cases p <;> decide

end Place

namespace Expr

/-- The narrowest place where an expression needs no parentheses. -/
def place : Expr → Place
  | .value _ | .filter _ => .operand
  | .and _ => .clause
  | .or _ => .query

/-- Whether an expression can stand in a place without parentheses. -/
def fits (place : Place) (e : Expr) : Bool :=
  decide (e.place.room ≤ place.room)

/-! ### Nesting -/

/-- How deep groups are nested where an expression stands, given how deep
they are nested in it. -/
def nestingAt (place : Place) (e : Expr) (n : Nat) : Nat :=
  if e.fits place then n else n + 1

mutual

/-- How deep groups are nested in an expression that stands in its place. -/
def nesting : Expr → Nat
  | .value _ | .filter _ => 0
  | .and operands => nestingAll .operand operands
  | .or [] => 0
  | .or (e :: es) => max (nesting e) (nestingAll .clause es)

/-- The deepest nesting among several expressions in like places. -/
def nestingAll (place : Place) : List Expr → Nat
  | [] => 0
  | e :: es => max (nestingAt place e (nesting e)) (nestingAll place es)

end

theorem nestingAll_le {place : Place} {es : List Expr} {n : Nat} :
    nestingAll place es ≤ n ↔ ∀ e ∈ es, nestingAt place e e.nesting ≤ n := by
  induction es with
  | nil => simp [nestingAll]
  | cons e es ih => rw [nestingAll, Nat.max_le, ih, List.forall_mem_cons]

theorem nestingAt_le_nestingAll {place : Place} {es : List Expr} {e : Expr} (h : e ∈ es) :
    nestingAt place e e.nesting ≤ nestingAll place es :=
  nestingAll_le.1 (Nat.le_refl _) e h

theorem nestingAt_query (e : Expr) (n : Nat) : nestingAt .query e n = n :=
  if_pos (decide_eq_true (Place.room_le_query _))

theorem nestingAt_le_succ (place : Place) (e : Expr) (n : Nat) :
    nestingAt place e n ≤ n + 1 := by
  unfold nestingAt
  split
  · exact Nat.le_succ n
  · exact Nat.le_refl _

/-- A wider place never takes more groups. -/
theorem nestingAt_anti {p q : Place} (h : p.room ≤ q.room) (e : Expr) (n : Nat) :
    nestingAt q e n ≤ nestingAt p e n := by
  by_cases hp : e.place.room ≤ p.room
  · have hq := Nat.le_trans hp h
    simp [nestingAt, fits, hp, hq]
  · have hp : nestingAt p e n = n + 1 := if_neg (by simpa [fits] using hp)
    rw [hp]
    exact nestingAt_le_succ q e n

end Expr

end SearchQuery
