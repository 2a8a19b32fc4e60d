/-
SearchQuery/Proofs/Query/Compile.lean

Compiling in one equation.

A text compiles if the tokens that are kept of it can be read, and all of
the query is then told by the roles of the tokens and by the expression
(`compile_eq_ok_iff`).
-/
import SearchQuery.Proofs.Directive.Kept
import SearchQuery.Proofs.Expr.Flatten
import SearchQuery.Proofs.KeyMarks.Lookup
import SearchQuery.Proofs.Token.Layout
import SearchQuery.Query

namespace SearchQuery.Query

open Grammar

/-- The tokens of a text, without the directives. -/
def kept (text : String) : List Token :=
  (extractSort (tokenize text)).1

theorem wellFormed_of_mem_kept {text : String} {t : Token} (h : t ∈ kept text) :
    t.WellFormed :=
  Token.wellFormed_of_mem_tokenize (mem_extractSort h).1

/-- The query that comes of tokens in some roles and of their expression. -/
def ofReading (keys : List String) (text : String) (roles : List Role) (expr : Option Expr) :
    Query where
  expr := expr
  sort := (extractSort (tokenize text)).2
  freeText := (expr.map Expr.values).getD []
  found := (KeyMarks.seeded keys).markAll (roles.filterMap Role.key?)

/-- The leaves of what a query asks for, left to right. -/
def leaves (q : Query) : List Expr :=
  Expr.leavesOf q.expr

variable {keys : List String} {text : String} {q : Query}

theorem freeText_ofReading (roles : List Role) (expr : Option Expr) :
    (ofReading keys text roles expr).freeText
      = (Expr.leavesOf expr).filterMap Expr.asValue? := by
  cases expr with
  | none => rfl
  | some e =>
    show e.values = (e.flatten ++ []).filterMap Expr.asValue?
    rw [Expr.values_eq_texts, List.append_nil]
    rfl

/-- Compiling without positions in the text, so that it can be evaluated. -/
theorem compile_eq_lex (keys : List String) (text : String) :
    compile keys text
      = (parse (KeyMarks.seeded keys).isAllowed
            (extractSort (Token.lex false [] text.toList)).1).outcome.map fun expr =>
          { expr
            sort := (extractSort (Token.lex false [] text.toList)).2
            freeText := (expr.map Expr.values).getD []
            found := (KeyMarks.seeded keys).markAll
              (parse (KeyMarks.seeded keys).isAllowed
                (extractSort (Token.lex false [] text.toList)).1).used } := by
  rw [← Token.tokenize_eq_lex]
  rfl

/-- What it takes to compile a text. -/
theorem compile_eq_ok_iff :
    compile keys text = .ok q ↔ ∃ roles expr,
      parse (fun key => decide (key ∈ keys)) (kept text) = .take roles expr ∧
      q = ofReading keys text roles expr := by
  have hcompile : compile keys text
      = (parse (fun key => decide (key ∈ keys)) (kept text)).outcome.map
          (ofReading keys text (parse (fun key => decide (key ∈ keys)) (kept text)).roles) := by
    simp only [compile, KeyMarks.isAllowed_seeded]
    rfl
  rw [hcompile]
  rcases Reading.eq_take_or_error (parse (fun key => decide (key ∈ keys)) (kept text))
    with ⟨expr, h⟩ | ⟨why, h⟩
  · rw [h, Reading.outcome_take]
    constructor
    · intro hq
      exact ⟨_, expr, rfl, (Except.ok.inj hq).symm⟩
    · rintro ⟨roles, expr', htake, rfl⟩
      obtain ⟨rfl, rfl⟩ := Reading.take_inj.1 htake
      rfl
  · -- an error leaves no query, and no reading that would come to one
    rw [h]
    constructor
    · intro hq
      cases hq
    · rintro ⟨roles, expr, htake, -⟩
      rw [htake] at h
      cases h

/-- A query is what its orderings and the reading of its tokens are. -/
theorem compile_congr {text' : String}
    (hsort : (extractSort (tokenize text)).2 = (extractSort (tokenize text')).2)
    (houtcome : (parse (KeyMarks.seeded keys).isAllowed (kept text)).outcome
      = (parse (KeyMarks.seeded keys).isAllowed (kept text')).outcome)
    (hused : (parse (KeyMarks.seeded keys).isAllowed (kept text)).used
      = (parse (KeyMarks.seeded keys).isAllowed (kept text')).used) :
    compile keys text = compile keys text' := by
  rw [kept, kept] at houtcome hused
  simp only [compile, hsort, houtcome, hused]

/-- A text does not compile if its tokens cannot be read. -/
theorem compile_eq_error_iff {why : ParseError} :
    compile keys text = .error why ↔
      (parse (KeyMarks.seeded keys).isAllowed (kept text)).outcome = .error why := by
  show (parse (KeyMarks.seeded keys).isAllowed (kept text)).outcome.map _ = _ ↔ _
  cases (parse (KeyMarks.seeded keys).isAllowed (kept text)).outcome with
  | error why' => simp [Except.map]
  | ok expr => exact ⟨nofun, nofun⟩

/-- Tokens that can be read are enough for a query. -/
theorem exists_compile_eq_ok {expr? : Option Expr}
    (h : (parse (KeyMarks.seeded keys).isAllowed (kept text)).outcome = .ok expr?) :
    ∃ q, compile keys text = .ok q ∧ q.sort = (extractSort (tokenize text)).2 := by
  cases hcompile : compile keys text with
  | ok q =>
    obtain ⟨roles, expr, -, rfl⟩ := compile_eq_ok_iff.1 hcompile
    exact ⟨_, rfl, rfl⟩
  | error why =>
    rw [compile_eq_error_iff.1 hcompile] at h
    cases h

/-- Apart from its orderings a query is what the reading of its tokens is. -/
theorem compile_eq_of_parse {text' : String}
    (h : parse (KeyMarks.seeded keys).isAllowed (kept text)
      = parse (KeyMarks.seeded keys).isAllowed (kept text')) :
    compile keys text = (compile keys text').map fun q =>
      { q with sort := (extractSort (tokenize text)).2 } := by
  rw [kept, kept] at h
  simp only [compile, h]
  cases (parse (KeyMarks.seeded keys).isAllowed (extractSort (tokenize text')).1).outcome <;> rfl

/-- Of the tokens that are not kept a query has the orderings and nothing
else. -/
theorem compile_eq_of_kept {text' : String} (h : kept text = kept text') :
    compile keys text = (compile keys text').map fun q =>
      { q with sort := (extractSort (tokenize text)).2 } :=
  compile_eq_of_parse (congrArg _ h)

/-- The query that asks for an expression and for no order, and that has
marked the keys of the expression and no others. -/
structure IsFor (keys : List String) (e : Expr) (q : Query) : Prop where
  expr : q.expr = some e
  sort : q.sort = []
  freeText : q.freeText = e.texts
  found : ∀ key, q.found.get? key = if key ∈ keys then some (decide (key ∈ e.keys)) else none

theorem IsFor.isFound_iff {e : Expr} (h : q.IsFor keys e) {key : String} :
    q.found.isFound key = true ↔ key ∈ keys ∧ key ∈ e.keys := by
  rw [KeyMarks.isFound, h.found]
  by_cases hkey : key ∈ keys <;> simp [hkey]

end SearchQuery.Query
