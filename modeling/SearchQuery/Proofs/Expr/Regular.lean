/-
SearchQuery/Proofs/Expr/Regular.lean

Expressions as queries can ask for them.

As a type an operator may have any number of operands.  In a regular
expression a conjunction has two at least and alternatives come in pairs,
and its leaves keep what is asked of leaves.  As every operator has operands,
there is a leaf in every regular expression (`Regular.flatten_ne_nil`).
`height` counts the operators on the longest way down.
-/
import SearchQuery.Proofs.Expr.Flatten

namespace SearchQuery.Expr

/-! ### Regular expressions -/

/-- Conjunctions of two operands at least, alternatives in pairs, and leaves
that keep `P`. -/
inductive Regular (P : Expr → Prop) : Expr → Prop
  | leaf {e} : P e → Regular P e
  | and {es} : 2 ≤ es.length → (∀ e ∈ es, Regular P e) → Regular P (.and es)
  | or {left right} : Regular P left → Regular P right → Regular P (.or [left, right])

variable {P Q : Expr → Prop} {e : Expr}

/-- What holds of the leaves that there are holds of the expression. -/
theorem Regular.imp (hleaf : ∀ l, P l → l.flatten = [l]) (h : Regular P e)
    (hPQ : ∀ l ∈ e.flatten, P l → Q l) : Regular Q e := by
  induction h with
  | @leaf e he => exact .leaf (hPQ e (by rw [hleaf e he]; exact List.mem_singleton.2 rfl) he)
  | @and es hlen _ ih =>
    refine .and hlen fun e he => ih e he fun l hl => hPQ l ?_
    rw [flatten, flattenAll_eq_flatMap]
    exact List.mem_flatMap.2 ⟨e, he, hl⟩
  | or _ _ ihl ihr =>
    rw [flatten, flattenAll_eq_flatMap] at hPQ
    refine .or (ihl fun l hl => hPQ l ?_) (ihr fun l hl => hPQ l ?_)
    · exact List.mem_flatMap.2 ⟨_, List.mem_cons_self, hl⟩
    · exact List.mem_flatMap.2 ⟨_, List.mem_cons_of_mem _ List.mem_cons_self, hl⟩

theorem Regular.flatten_ne_nil (hleaf : ∀ l, P l → l.flatten = [l]) (h : Regular P e) :
    e.flatten ≠ [] := by
  induction h with
  | @leaf e he =>
    rw [hleaf e he]
    exact List.cons_ne_nil _ _
  | @and es hlen _ ih =>
    obtain ⟨e, es, rfl⟩ : ∃ e es', es = e :: es' := by
      cases es with
      | nil => cases hlen
      | cons e es => exact ⟨e, es, rfl⟩
    rw [flatten, flattenAll]
    exact List.append_ne_nil_of_left_ne_nil (ih e List.mem_cons_self) _
  | or _ _ ihl _ =>
    rw [flatten, flattenAll]
    exact List.append_ne_nil_of_left_ne_nil ihl _

/-! ### Height -/

mutual

/-- How many operators there are on the longest way down. -/
def height : Expr → Nat
  | .value _ | .filter _ => 0
  | .and operands | .or operands => heightAll operands + 1

/-- The largest height among several expressions. -/
def heightAll : List Expr → Nat
  | [] => 0
  | e :: es => max (height e) (heightAll es)

end

theorem height_le_of_mem {e : Expr} {es : List Expr} (h : e ∈ es) :
    e.height ≤ heightAll es := by
  induction es with
  | nil => cases h
  | cons e' es ih =>
    rw [heightAll]
    rcases List.mem_cons.1 h with rfl | h
    · exact Nat.le_max_left _ _
    · exact Nat.le_trans (ih h) (Nat.le_max_right _ _)

end SearchQuery.Expr
