/-
SearchQuery/Proofs/Expr/Ways.lean

Ways from the root of an expression to a leaf.

A way is written as the list of its turns: at each operator on it, the operand
at which it goes on.  Whoever goes through an expression by recursion is as
deep in it as the way is long.

Alternatives that lean to the left stand in a row, and nothing but the number
of alternatives bounds the length of a row.  So a row counts once, as one level,
whatever its length.  Then the levels on a way are bounded by the nesting of
groups (`Way.levels_le`), and what a way is longer is no more than there are
alternatives (`Way.length_le`).
-/
import SearchQuery.Proofs.Expr.Nesting

namespace SearchQuery.Expr

/-! ### Ways -/

/-- An operator on a way, and which of its operands is next. -/
inductive Turn where
  | and (i : Nat)
  | or (i : Nat)

/-- The turns on a way from an expression to one of its leaves. -/
inductive Way : Expr → List Turn → Prop
  | value {text} : Way (.value text) []
  | filter {condition} : Way (.filter condition) []
  | and {es i e w} : es[i]? = some e → Way e w → Way (.and es) (.and i :: w)
  | or {es i e w} : es[i]? = some e → Way e w → Way (.or es) (.or i :: w)

/-- How many levels there are on a way: all operators but those that continue
a row.  Alternatives continue a row if they are the first operand of others;
`inRow` says so of the first operator of the way. -/
def levelsFrom : Bool → List Turn → Nat
  | _, [] => 0
  | _, .and _ :: w => levelsFrom false w + 1
  | inRow, .or i :: w => levelsFrom (i == 0) w + if inRow then 0 else 1

/-- The levels on a way from the root. -/
def levels (w : List Turn) : Nat :=
  levelsFrom false w

/-! ### Levels and groups -/

/-- Room that an expression lacks in its place is made by a group. -/
theorem nesting_add_room_le {p : Place} {e : Expr} {n : Nat}
    (h : nestingAt p e e.nesting ≤ n) : 2 * e.nesting + e.place.room ≤ 2 * n + p.room := by
  have hroom : e.place.room ≤ 2 := e.place.room_le_query
  unfold nestingAt at h
  split at h
  · rename_i hfits
    have hfits : e.place.room ≤ p.room := of_decide_eq_true hfits
    omega
  · omega

/-- A group has room for two levels, one of alternatives and one of a
conjunction, and so has the query itself.  Alternatives that continue a row
need no level of their own. -/
theorem Way.levelsFrom_le {e : Expr} {w : List Turn} (h : Way e w) :
    levelsFrom false w ≤ 2 * e.nesting + e.place.room ∧
      levelsFrom true w ≤ 2 * e.nesting + 1 := by
  induction h with
  | value | filter => exact ⟨Nat.zero_le _, Nat.zero_le _⟩
  | @and es i e w hi _ ih =>
    have hnesting : nestingAt .operand e e.nesting ≤ nesting (.and es) :=
      nestingAt_le_nestingAll (List.mem_of_getElem? hi)
    have hle : 2 * e.nesting + e.place.room ≤ 2 * nesting (.and es) := nesting_add_room_le hnesting
    show levelsFrom false w + 1 ≤ 2 * nesting (.and es) + 1 ∧
      levelsFrom false w + 1 ≤ 2 * nesting (.and es) + 1
    omega
  | @or es i e w hi _ ih =>
    show levelsFrom (i == 0) w + 1 ≤ 2 * nesting (.or es) + 2 ∧
      levelsFrom (i == 0) w ≤ 2 * nesting (.or es) + 1
    cases es with
    | nil => cases hi
    | cons f fs =>
      cases i with
      | zero =>
        -- the first operand needs no group, so that a row can go on
        obtain rfl : f = e := Option.some.inj hi
        have hnesting : f.nesting ≤ nesting (.or (f :: fs)) := by
          rw [nesting]
          exact Nat.le_max_left _ _
        have hrow : levelsFrom true w ≤ 2 * f.nesting + 1 := ih.2
        show levelsFrom true w + 1 ≤ _ ∧ levelsFrom true w ≤ _
        omega
      | succ i =>
        have hmem : e ∈ fs := List.mem_of_getElem? (List.getElem?_cons_succ ▸ hi)
        have hnesting : nestingAt .clause e e.nesting ≤ nesting (.or (f :: fs)) := by
          rw [nesting]
          exact Nat.le_trans (nestingAt_le_nestingAll hmem) (Nat.le_max_right _ _)
        have hle : 2 * e.nesting + e.place.room ≤ 2 * nesting (.or (f :: fs)) + 1 :=
          nesting_add_room_le hnesting
        show levelsFrom false w + 1 ≤ _ ∧ levelsFrom false w ≤ _
        omega

/-- **The levels on a way are bounded by the nesting of groups.** -/
theorem Way.levels_le {e : Expr} {w : List Turn} (h : Way e w) :
    levels w ≤ 2 * (e.nesting + 1) := by
  have hroom : e.place.room ≤ 2 := e.place.room_le_query
  have hle := h.levelsFrom_le.1
  show levelsFrom false w ≤ _
  omega

/-! ### Length and alternatives -/

mutual

/-- How many operators `or` an expression has. -/
def ors : Expr → Nat
  | .value _ | .filter _ => 0
  | .and operands => orsAll operands
  | .or operands => orsAll operands + 1

/-- How many operators `or` several expressions have together. -/
def orsAll : List Expr → Nat
  | [] => 0
  | e :: es => ors e + orsAll es

end

theorem orsAll_append (es fs : List Expr) : orsAll (es ++ fs) = orsAll es + orsAll fs := by
  induction es with
  | nil => exact (Nat.zero_add _).symm
  | cons e es ih => rw [List.cons_append, orsAll, orsAll, ih, Nat.add_assoc]

theorem ors_le_orsAll {es : List Expr} {e : Expr} (h : e ∈ es) : ors e ≤ orsAll es := by
  induction h with
  | head es => exact Nat.le_add_right _ _
  | tail f _ ih => exact Nat.le_trans ih (Nat.le_add_left _ _)

/-- **On a way there are no more operators than levels and operators `or`**, since
nothing else continues a row. -/
theorem Way.length_le {e : Expr} {w : List Turn} (h : Way e w) (inRow : Bool) :
    w.length ≤ levelsFrom inRow w + ors e := by
  induction h generalizing inRow with
  | value | filter => exact Nat.zero_le _
  | @and es i e w hi _ ih =>
    have hors : ors e ≤ orsAll es := ors_le_orsAll (List.mem_of_getElem? hi)
    have hle := ih false
    show w.length + 1 ≤ levelsFrom false w + 1 + orsAll es
    omega
  | @or es i e w hi _ ih =>
    have hors : ors e ≤ orsAll es := ors_le_orsAll (List.mem_of_getElem? hi)
    have hle := ih (i == 0)
    show w.length + 1 ≤ levelsFrom (i == 0) w + (if inRow then 0 else 1) + (orsAll es + 1)
    omega

end SearchQuery.Expr
