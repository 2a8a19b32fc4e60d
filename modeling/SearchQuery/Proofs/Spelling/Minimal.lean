/-
SearchQuery/Proofs/Spelling/Minimal.lean

Spellings with parentheses only where they have to stand.

In its own place an expression needs none, and any wider place will do as
well; in a narrower one it needs a pair (`enclose`).  `spell` writes an
expression for its own place, with leaves written as the caller says.  The
groups of that spelling are nested as deep as the expression has to be
(`spelled_spell`).
-/
import SearchQuery.Proofs.Expr.Regular
import SearchQuery.Proofs.Spelling.Basic

namespace SearchQuery.Spelling

/-! ### Writing -/

/-- Put parentheses around the tokens of an expression if it needs them in
this place. -/
def enclose (place : Place) (e : Expr) (ts : List Token) : List Token :=
  if e.fits place then ts else .word "(" :: (ts ++ [.word ")"])

section

variable (leaf : Expr → List Token)

mutual

/-- The tokens of an expression in its own place. -/
def spell : Expr → List Token
  | .value text => leaf (.value text)
  | .filter condition => leaf (.filter condition)
  | .and [] | .or [] => []
  | .and (e :: es) => enclose .operand e (spell e) ++ spellBehind "AND" .operand es
  | .or (e :: es) => spell e ++ spellBehind "OR" .clause es

/-- The tokens of further operands, each behind an operator. -/
def spellBehind (operator : String) (place : Place) : List Expr → List Token
  | [] => []
  | e :: es =>
    .word operator :: (enclose place e (spell e) ++ spellBehind operator place es)

end

end

variable {m : Manner} {leaf : Expr → List Token} {e : Expr} {n : Nat}

/-! ### What is written is a spelling -/

/-- What can stand in a place can stand in a wider one. -/
theorem Spelled.widen {p q : Place} (hpq : p.room ≤ q.room) {ts : List Token}
    (h : Spelled m p n e ts) : Spelled m q n e ts := by
  cases p with
  | operand =>
    cases q with
    | operand => exact h
    | clause => exact .single h
    | query => exact .clause (.single h)
  | clause =>
    cases q with
    | operand => exact absurd hpq (by decide)
    | clause => exact h
    | query => exact .clause h
  | query =>
    cases q with
    | operand | clause => exact absurd hpq (by decide)
    | query => exact h

/-- With its parentheses, if it needs any, an expression can stand in every
place. -/
theorem spelled_enclose {p : Place} {ts : List Token}
    (h : ∀ n, e.nesting ≤ n → Spelled m e.place n e ts)
    (hn : Expr.nestingAt p e e.nesting ≤ n) : Spelled m p n e (enclose p e ts) := by
  unfold Expr.nestingAt at hn
  unfold enclose
  by_cases hfits : e.fits p = true
  · rw [if_pos hfits] at hn ⊢
    exact (h n hn).widen (of_decide_eq_true hfits)
  · -- the parentheses take one of the groups that are allowed
    rw [if_neg hfits] at hn ⊢
    obtain ⟨k, rfl⟩ := Nat.exists_eq_add_one.2 (Nat.lt_of_lt_of_le (Nat.succ_pos _) hn)
    have hquery := (h k (Nat.le_of_succ_le_succ hn)).widen (Place.room_le_query _)
    exact (Spelled.group hquery).widen (Nat.zero_le _)

section

variable (hgap : m.gap [.word "AND"]) (halt : m.alternative (.word "OR"))
include hgap

theorem spelledAll_spell {es : List Expr}
    (h : ∀ e' ∈ e :: es, Spelled m .operand n e' (enclose .operand e' (spell leaf e'))) :
    SpelledAll m n (e :: es)
      (enclose .operand e (spell leaf e) ++ spellBehind leaf "AND" .operand es) := by
  induction es generalizing e with
  | nil =>
    rw [spellBehind, List.append_nil]
    exact .last (h e List.mem_cons_self)
  | cons e' es ih =>
    obtain ⟨he, hes⟩ := List.forall_mem_cons.1 h
    have := SpelledAll.cons he hgap (ih hes)
    rwa [List.append_assoc] at this

include halt

/-- What is written with fewest parentheses is a spelling, and its groups
are nested no deeper than the nesting of the expression. -/
theorem spelled_spell {P : Expr → Prop} (hplace : ∀ {e}, P e → e.place = .operand)
    (hleaf : ∀ {e}, P e → m.leaf e (leaf e)) (he : e.Regular P) (hn : e.nesting ≤ n) :
    Spelled m e.place n e (spell leaf e) := by
  induction he generalizing n with
  | @leaf e he =>
    have hspell : spell leaf e = leaf e := by
      cases e with
      | value | filter => rw [spell]
      | and | or => cases hplace he
    rw [hplace he, hspell]
    exact .leaf (hleaf he)
  | @and es hlen _ ih =>
    cases es with
    | nil => cases hlen
    | cons e es =>
      rw [Expr.nesting, Expr.nestingAll_le] at hn
      rw [spell]
      refine .and hlen (spelledAll_spell hgap fun e' he' => ?_)
      exact spelled_enclose (fun n hn => ih e' he' hn) (hn e' he')
  | @or left right _ _ ihl ihr =>
    rw [Expr.nesting, Nat.max_le, Expr.nestingAll_le, List.forall_mem_singleton] at hn
    rw [spell, spellBehind, spellBehind, List.append_nil]
    have hleft := (ihl hn.1).widen (Place.room_le_query _)
    exact .or hleft halt (spelled_enclose (fun n hn => ihr hn) hn.2)

end

end SearchQuery.Spelling
