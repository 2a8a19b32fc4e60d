/-
SearchQuery/Proofs/Query/Ways.lean

How deep the expression of a query is.

Groups are limited, and a group makes two levels in the expression.  There
is no other limit, and a long query can well be a long row of alternatives;
but it cannot be deep in any other way.

Main statement: the levels on a way through the expression of a query are
bounded by a constant, and each operator beyond that is paid for with a token
that separates clauses (`compile_way_le`).
-/
import SearchQuery.Proofs.Grammar.Alternatives
import SearchQuery.Proofs.Grammar.Results
import SearchQuery.Proofs.Query.Compile

namespace SearchQuery.Query

open Grammar

variable {keys : List String} {text : String} {q : Query} {e : Expr}

/-- The expression of a query is what its tokens are read as. -/
theorem exists_parse_of_expr (h : compile keys text = .ok q) (he : q.expr = some e) :
    ∃ roles, parse (fun key => decide (key ∈ keys)) (kept text) = .take roles (some e) := by
  obtain ⟨roles, expr?, hparse, rfl⟩ := compile_eq_ok_iff.1 h
  obtain rfl : expr? = some e := he
  exact ⟨roles, hparse⟩

/-- Groups are nested in it no deeper than they may be. -/
theorem nesting_le_of_compile (h : compile keys text = .ok q) (he : q.expr = some e) :
    e.nesting ≤ maxDepth := by
  obtain ⟨roles, hparse⟩ := exists_parse_of_expr h he
  have hresult := result_parse (Q := fun _ => True) (fun _ _ => trivial) hparse
  simpa only [Expr.nestingAt_query] using hresult.nesting

/-- Its alternatives are paid for with tokens. -/
theorem ors_le_of_compile (h : compile keys text = .ok q) (he : q.expr = some e) :
    e.ors ≤ (tokenize text).countP Token.alternates := by
  obtain ⟨roles, hparse⟩ := exists_parse_of_expr h he
  have hkept : e.ors ≤ (kept text).countP Token.alternates :=
    orsAll_le_of_ok (congrArg Reading.outcome hparse)
  exact Nat.le_trans hkept (sublist_extractSort _).countP_le

/-- **The expression of a query is as deep as its rows of alternatives are
long, and else it is not deep.**  There are at most 258 levels on a way to a
leaf, two for the query itself and two for each of 128 groups.  The operators
on the way are at most as many, and one more for each token that separates
clauses. -/
theorem compile_way_le (keys : List String) :
    ∀ text q e w, compile keys text = .ok q → q.expr = some e → e.Way w →
      Expr.levels w ≤ 258 ∧
        w.length ≤ 258 + (tokenize text).countP Token.alternates := by
  intro text q e w h he hway
  have hlevels : Expr.levels w ≤ 258 := by
    have hnesting : e.nesting ≤ 128 := nesting_le_of_compile h he
    have hle := hway.levels_le
    omega
  have hlength : w.length ≤ Expr.levels w + e.ors := hway.length_le false
  have hors := ors_le_of_compile h he
  exact ⟨hlevels, by omega⟩

/-- A row of alternatives with a group in it, and in this group another row:
three levels on a way of five operators. -/
theorem compile_way_le_rows :
    let text := "(a AND (b OR c OR \"or\")) or d OR sort:x e"
    let inner : Expr := .or [.or [.value "b", .value "c"], .value "or"]
    let e : Expr := .or [.or [.and [.value "a", inner], .value "d"], .value "e"]
    let q : Query := ⟨some e, ["x"], ["a", "b", "c", "or", "d", "e"], KeyMarks.seeded []⟩
    let w : List Expr.Turn := [.or 0, .or 0, .and 1, .or 0, .or 0]
    (compile [] text = .ok q ∧ q.expr = some e ∧ e.Way w ∧ Expr.levels w = 3) ∧
      Expr.levels w ≤ 258 ∧ w.length ≤ 258 + (tokenize text).countP Token.alternates := by
  intro text inner e q w
  have h : compile [] text = .ok q := by
    rw [compile_eq_lex]
    decide +kernel
  have hinner : inner.Way [.or 0, .or 0] := .or rfl (.or rfl .value)
  have hway : e.Way w := .or rfl (.or rfl (.and rfl hinner))
  exact ⟨⟨h, rfl, hway, rfl⟩, compile_way_le [] text q e w h rfl hway⟩

end SearchQuery.Query
