/-
SearchQuery/Proofs/Spelling/Legible.lean

Spellings are read as what they spell.

A manner is legible if its leaves are read one by one and its operators are
recognised.  `follows` says what may stand behind a leaf: a run of words
would take up whatever goes on with it, while a quoted leaf ends by itself.

Each place of a spelling belongs to one rule of the grammar.  `Reads` says
what that rule makes of the tokens of a spelling, whatever comes behind
them, and the constructors of `Spelled` lead from one such statement to the
next (`reads_of_spelled`).  Nothing is taken but the spelling, and the keys
that are met are those of the filters, in order.

Alternatives are read from the left and all in one go, so the statement for
a query is about the clauses of which it consists, and leaves open whether
more of them follow.

Between a text and its tokens stand the scanner and the sort directives.
The scanner reads any layout of some tokens as these tokens, and tokens
without directives are kept as they are, so a text that shows a legible
spelling compiles to the query for what is spelled (`compile_of_spelled`).
-/
import SearchQuery.Proofs.Grammar.Steps
import SearchQuery.Proofs.Query.Compile
import SearchQuery.Proofs.Spelling.Basic
import SearchQuery.Proofs.Token.Layout

namespace SearchQuery.Spelling

open Grammar

/-! ### Readings with their extent -/

/-- A reading takes so many tokens, meets these keys in order, and comes to
a value. -/
def Gives {α : Type} (r : Reading α) (count : Nat) (keys : List String) (a : α) : Prop :=
  ∃ roles, r = .take roles a ∧ roles.length = count ∧ roles.filterMap Role.key? = keys

namespace Gives

variable {α β : Type} {r : Reading α} {count : Nat} {keys : List String} {a : α}

theorem taken_eq (h : Gives r count keys a) : r.taken = count := by
  obtain ⟨roles, rfl, hlen, -⟩ := h
  exact hlen

theorem map (f : α → β) (h : Gives r count keys a) : Gives (r.map f) count keys (f a) := by
  obtain ⟨roles, rfl, hlen, hkeys⟩ := h
  exact ⟨roles, rfl, hlen, hkeys⟩

theorem andThen {next : α → Reading β} {count' : Nat} {keys' : List String} {b : β}
    (h : Gives r count keys a) (hnext : Gives (next a) count' keys' b) :
    Gives (r.andThen next) (count + count') (keys ++ keys') b := by
  obtain ⟨rs, rfl, rfl, rfl⟩ := h
  obtain ⟨rs', hnext, rfl, rfl⟩ := hnext
  exact ⟨rs ++ rs', Reading.take_andThen hnext, List.length_append, List.filterMap_append⟩

end Gives

/-! ### Legible manners -/

/-- A token that separates nothing from what stands before it. -/
def Apart (t : Token) : Prop :=
  t.alternates = false ∧ t.closes = false ∧ t.joins = false

instance (t : Token) : Decidable (Apart t) :=
  inferInstanceAs (Decidable (_ ∧ _ ∧ _))

/-- What a manner has to keep so that its spellings can be read, given what
may stand behind a leaf. -/
structure Legible (allowed : String → Bool) (follows : List Token → Prop) (m : Manner) :
    Prop where
  follows_nil : follows []
  follows_close : ∀ ts, follows (.word ")" :: ts)
  alternative : ∀ {o}, m.alternative o → o.alternates = true ∧ ∀ ts, follows (o :: ts)
  gap : ∀ {gap}, m.gap gap → gap = [] ∨
    ∃ t, gap = [t] ∧ t.alternates = false ∧ t.closes = false ∧ t.joins = true ∧
      ∀ ts, follows (t :: ts)
  /-- Where operands may stand side by side, no leaf begins like an operator. -/
  beside : m.gap [] → (∀ ts, follows ts) ∧ ∀ {e t ts}, m.leaf e (t :: ts) → Apart t
  leaf : ∀ {e ts}, m.leaf e ts → ∃ t us, ts = t :: us ∧ ∀ inside rest, follows rest →
    Gives (operand allowed inside t (us ++ rest)) ts.length e.keys (some e)

/-! ### What each rule makes of a spelling -/

section

variable (allowed : String → Bool) (follows : List Token → Prop) (m : Manner) (n : Nat)

/-- The tokens are one operand. -/
def ReadsOperand (ts : List Token) (e : Expr) : Prop :=
  ∃ t us, ts = t :: us ∧ (m.gap [] → Apart t) ∧ ∀ rest, follows rest →
    Gives (operand allowed (group allowed n) t (us ++ rest)) ts.length e.keys (some e)

/-- The tokens are the operands of one clause. -/
def ReadsClause (ts : List Token) (es : List Expr) : Prop :=
  ∀ rest, follows rest → gap? rest = none →
    Gives (clause allowed (group allowed n) (ts ++ rest)) ts.length (es.flatMap Expr.keys) es

/-- The tokens are the first clauses of a query. -/
def ReadsClauses (ts : List Token) (css : List (List Expr)) : Prop :=
  ∀ rest, follows rest → gap? rest = none →
    ∃ roles, roles.length = ts.length ∧
      roles.filterMap Role.key? = css.flatMap (·.flatMap Expr.keys) ∧
      clauses allowed (group allowed n) (ts ++ rest)
        = (Reading.take roles ()).andThen fun _ =>
            (behindClause allowed (group allowed n) rest).map (css ++ ·)

/-- The tokens are what the rule for a place makes into an expression. -/
def Reads (place : Place) (e : Expr) (ts : List Token) : Prop :=
  match place with
  | .operand => ReadsOperand allowed follows m n ts e
  | .clause => ∃ es, conjunction? es = some e ∧ es.flatMap Expr.keys = e.keys ∧
      ReadsClause allowed follows n ts es
  | .query => ∃ css, alternatives? css = some e ∧
      css.flatMap (·.flatMap Expr.keys) = e.keys ∧ ReadsClauses allowed follows n ts css

end

variable {allowed : String → Bool} {follows : List Token → Prop} {m : Manner} {n : Nat}

/-! ### Operands and clauses -/

section

variable {t : Token} {ts : List Token} {operand? : Option Expr} {es : List Expr}
variable {count count' : Nat} {keys keys' : List String}

theorem gives_clause_cons
    (hop : Gives (operand allowed (group allowed n) t ts) count keys operand?)
    (hbehind : Gives (behindOperand allowed (group allowed n) ((t :: ts).drop count))
      count' keys' es) :
    Gives (clause allowed (group allowed n) (t :: ts)) (count + count') (keys ++ keys')
      (operand?.toList ++ es) := by
  rw [clause_cons (group_progresses n), hop.taken_eq]
  exact hop.andThen (hbehind.map _)

theorem gives_behindOperand_of_gap {roles : List Role} (hgap : gap? ts = some roles)
    (hkeys : roles.filterMap Role.key? = [])
    (hclause : Gives (clause allowed (group allowed n) (ts.drop roles.length))
      count keys es) :
    Gives (behindOperand allowed (group allowed n) ts) (roles.length + count) keys es := by
  rw [behindOperand_of_gap hgap]
  have hgives : Gives (Reading.take roles ()) roles.length [] () := ⟨roles, rfl, rfl, hkeys⟩
  exact hgives.andThen hclause

end

theorem readsClause_last {ts : List Token} {e : Expr}
    (h : ReadsOperand allowed follows m n ts e) : ReadsClause allowed follows n ts [e] := by
  obtain ⟨t, us, rfl, -, hread⟩ := h
  intro rest hfollows hends
  have hdrop : (t :: (us ++ rest)).drop (t :: us).length = rest := by
    rw [← List.cons_append, List.drop_left]
  have hbehind : Gives (behindOperand allowed (group allowed n)
      ((t :: (us ++ rest)).drop (t :: us).length)) 0 [] [] := by
    rw [hdrop, behindOperand_of_ends hends]
    exact ⟨[], rfl, rfl, rfl⟩
  exact gives_clause_cons (hread rest hfollows) hbehind

theorem readsClause_cons (hm : Legible allowed follows m) {ts gap us : List Token}
    {e : Expr} {es : List Expr} (h : ReadsOperand allowed follows m n ts e)
    (hgap : m.gap gap) (hbegins : m.gap [] → ∃ t us', us = t :: us' ∧ Apart t)
    (hes : ReadsClause allowed follows n us es) :
    ReadsClause allowed follows n (ts ++ gap ++ us) (e :: es) := by
  obtain ⟨t, ts', rfl, -, hread⟩ := h
  intro rest hfollows hends
  -- what stands behind the first operand, and how many roles the gap takes
  obtain ⟨hfollows', roles, hroles, hlen, hkeys⟩ : follows (gap ++ (us ++ rest)) ∧
      ∃ roles, gap? (gap ++ (us ++ rest)) = some roles ∧ roles.length = gap.length ∧
        roles.filterMap Role.key? = [] := by
    rcases hm.gap hgap with rfl | ⟨o, rfl, halt, hclose, hjoin, hfollows'⟩
    · obtain ⟨t', us', rfl, halt, hclose, hjoin⟩ := hbegins hgap
      exact ⟨(hm.beside hgap).1 _, [], gap?_of_beside halt hclose hjoin _, rfl, rfl⟩
    · exact ⟨hfollows' _, [.joins], gap?_of_joins halt hclose hjoin _, rfl, rfl⟩
  have hclause : Gives (clause allowed (group allowed n)
      ((gap ++ (us ++ rest)).drop roles.length)) us.length (es.flatMap Expr.keys) es := by
    rw [hlen, List.drop_left]
    exact hes rest hfollows hends
  have hdrop : (t :: (ts' ++ (gap ++ (us ++ rest)))).drop (t :: ts').length
      = gap ++ (us ++ rest) := by
    rw [← List.cons_append, List.drop_left]
  have hbehind := gives_behindOperand_of_gap hroles hkeys hclause
  rw [← hdrop] at hbehind
  have hlength : (t :: ts' ++ gap ++ us).length
      = (t :: ts').length + (roles.length + us.length) := by
    rw [List.length_append, List.length_append, hlen, Nat.add_assoc]
  -- the rule sees the first token, its operand, the gap and the others
  have hsplit : t :: ts' ++ gap ++ us ++ rest = t :: (ts' ++ (gap ++ (us ++ rest))) := by
    simp only [List.cons_append, List.append_assoc]
  rw [hsplit, hlength]
  exact gives_clause_cons (hread _ hfollows') hbehind

/-! ### Clauses and queries -/

theorem readsClauses_single {ts : List Token} {es : List Expr}
    (h : ReadsClause allowed follows n ts es) : ReadsClauses allowed follows n ts [es] := by
  intro rest hfollows hends
  obtain ⟨roles, hclause, hlen, hkeys⟩ := h rest hfollows hends
  refine ⟨roles, hlen, by simpa using hkeys, ?_⟩
  have hdrop : (ts ++ rest).drop roles.length = rest := by
    rw [hlen, List.drop_left]
  rw [clauses_eq, hclause, Reading.taken_take, hdrop]
  rfl

theorem readsClauses_or {ts us : List Token} {o : Token} {css : List (List Expr)}
    {es : List Expr} (h : ReadsClauses allowed follows n ts css) (halt : o.alternates = true)
    (hfollows : ∀ ts, follows (o :: ts)) (hes : ReadsClause allowed follows n us es) :
    ReadsClauses allowed follows n (ts ++ o :: us) (css ++ [es]) := by
  intro rest hrest hends
  obtain ⟨rs, hlen, hkeys, hleft⟩ :=
    h (o :: (us ++ rest)) (hfollows _) (gap?_of_ends (.inl halt) _)
  obtain ⟨rs', hlen', hkeys', hright⟩ := readsClauses_single hes rest hrest hends
  refine ⟨rs ++ .alternates :: rs', ?_, ?_, ?_⟩
  · rw [List.length_append, List.length_cons, hlen, hlen', List.length_append,
      List.length_cons]
  · rw [List.filterMap_append, hkeys, List.flatMap_append, ← hkeys']
    rfl
  · -- the clauses on the left leave open what follows, which is the one on the right
    rw [List.append_assoc, List.cons_append, hleft, behindClause_cons halt, hright]
    rw [Reading.map_andThen, Reading.map_andThen, Reading.map_map]
    simp [Reading.andThen, Reading.take, Function.comp_def]

/-- What a query is read as, in front of its end. -/
theorem gives_disjunction {ts : List Token} {e : Expr}
    (h : Reads allowed follows m n .query e ts) {rest : List Token} (hfollows : follows rest)
    (hstop : rest = [] ∨ closeAhead rest = true) :
    Gives (disjunction allowed (group allowed n) (ts ++ rest)) ts.length e.keys (some e) := by
  obtain ⟨css, hcss, hkeys, hread⟩ := h
  obtain ⟨hends, hahead⟩ := ends_of_stop hstop
  obtain ⟨roles, hlen, hroles, hclauses⟩ := hread rest hfollows hends
  refine ⟨roles, ?_, hlen, hroles.trans hkeys⟩
  rw [disjunction, hclauses, behindClause_of_ends hahead, ← hcss]
  simp [Reading.andThen, Reading.take, Reading.map, Except.map]

theorem readsOperand_group (hm : Legible allowed follows m) {ts : List Token} {e : Expr}
    (h : Reads allowed follows m n .query e ts) :
    ReadsOperand allowed follows m (n + 1) (.word "(" :: (ts ++ [.word ")"])) e := by
  refine ⟨.word "(", ts ++ [.word ")"], rfl, fun _ => by decide, fun rest hfollows => ?_⟩
  -- what is inside ends in front of the `)` and stops there
  have hopen : operand allowed (group allowed (n + 1)) (.word "(") (ts ++ [.word ")"] ++ rest)
      = group allowed (n + 1) (ts ++ .word ")" :: rest) := by
    rw [List.append_assoc]
    rfl
  have hinner := gives_disjunction h (hm.follows_close rest) (.inr rfl)
  have hdrop : (ts ++ .word ")" :: rest).drop ts.length = .word ")" :: rest :=
    List.drop_left
  have hlen : (Token.word "(" :: (ts ++ [.word ")"])).length = 1 + (ts.length + 1) := by
    rw [List.length_cons, List.length_append, Nat.add_comm]
    rfl
  have hkeys : e.keys = [] ++ (e.keys ++ []) := by simp
  have hahead : closeAhead (.word ")" :: rest) = true := rfl
  rw [hopen, group, hlen, hkeys]
  simp only [hinner.taken_eq, hdrop, hahead, if_true]
  exact Gives.andThen ⟨[.opens], rfl, rfl, rfl⟩ (hinner.andThen ⟨[.closes], rfl, rfl, rfl⟩)

/-! ### Spellings -/

theorem exists_cons_of_readsOperand {ts : List Token} {e : Expr}
    (h : ReadsOperand allowed follows m n ts e) (us : List Token) :
    m.gap [] → ∃ t ts', ts ++ us = t :: ts' ∧ Apart t := by
  obtain ⟨t, ts', rfl, hapart, -⟩ := h
  exact fun hgap => ⟨t, ts' ++ us, rfl, hapart hgap⟩

theorem conjunction?_of_two_le {es : List Expr} (h : 2 ≤ es.length) :
    conjunction? es = some (.and es) := by
  match es, h with
  | _ :: _ :: _, _ => rfl

mutual

/-- **A spelling is read as what it spells**, wherever it stands. -/
theorem reads_of_spelled (hm : Legible allowed follows m) {place : Place} {n : Nat}
    {e : Expr} {ts : List Token} :
    Spelled m place n e ts → Reads allowed follows m n place e ts
  | .leaf hleaf => by
    obtain ⟨t, us, rfl, hread⟩ := hm.leaf hleaf
    exact ⟨t, us, rfl, fun hgap => (hm.beside hgap).2 hleaf, hread _⟩
  | .group h => readsOperand_group hm (reads_of_spelled hm h)
  | .single h =>
    ⟨_, rfl, List.flatMap_singleton .., readsClause_last (reads_of_spelled hm h)⟩
  | .and hlen h =>
    ⟨_, conjunction?_of_two_le hlen, (Expr.keys_and _).symm, (reads_of_spelledAll hm h).1⟩
  | .clause h => by
    obtain ⟨es, hconj, hkeys, hread⟩ := reads_of_spelled hm h
    refine ⟨[es], ?_, ?_, readsClauses_single hread⟩
    · show either? none (conjunction? es) = _
      rw [hconj]
      rfl
    · rw [← hkeys, List.flatMap_singleton]
  | .or hleft ho hright => by
    obtain ⟨css, halt, hkeysl, hreadl⟩ := reads_of_spelled hm hleft
    obtain ⟨es, hconj, hkeysr, hreadr⟩ := reads_of_spelled hm hright
    obtain ⟨ho, hfollows⟩ := hm.alternative ho
    refine ⟨css ++ [es], ?_, ?_, readsClauses_or hreadl ho hfollows hreadr⟩
    · rw [alternatives?_append, halt, hconj]
      rfl
    · rw [List.flatMap_append, hkeysl, List.flatMap_singleton, hkeysr, Expr.keys_or]
      simp

/-- Operands with gaps between them are read as one clause, and if no gap is
needed, then the first of them begins with no operator. -/
theorem reads_of_spelledAll (hm : Legible allowed follows m) {n : Nat} {es : List Expr}
    {ts : List Token} : SpelledAll m n es ts →
    ReadsClause allowed follows n ts es ∧ (m.gap [] → ∃ t us, ts = t :: us ∧ Apart t)
  | .last h => by
    have hread := reads_of_spelled hm h
    exact ⟨readsClause_last hread, by simpa using exists_cons_of_readsOperand hread []⟩
  | .cons h hgap hes => by
    have hread := reads_of_spelled hm h
    obtain ⟨hreads, hbegins⟩ := reads_of_spelledAll hm hes
    refine ⟨readsClause_cons hm hread hgap hbegins hreads, ?_⟩
    rw [List.append_assoc]
    exact exists_cons_of_readsOperand hread _

end

/-- A query is read as the expression that it spells, and nothing is left. -/
theorem gives_parse (hm : Legible allowed follows m) {e : Expr} {ts : List Token}
    (h : Spelled m .query maxDepth e ts) :
    Gives (parse allowed ts) ts.length e.keys (some e) := by
  have := gives_disjunction (reads_of_spelled hm h) hm.follows_nil (.inl rfl)
  rwa [List.append_nil] at this

/-! ### Texts -/

/-- **A text that shows a spelling compiles to the query for what is
spelled**, however it is laid out. -/
theorem compile_of_spelled {keys : List String}
    (hm : Legible (fun key => decide (key ∈ keys)) follows m)
    (hkeeps : m.Keeps fun t => t.directive? = none) {e : Expr} {ts : List Token}
    (h : Spelled m .query maxDepth e ts) {text : String}
    (htext : Token.Layout ts text.toList) :
    ∃ q, Query.compile keys text = .ok q ∧ q.IsFor keys e := by
  obtain ⟨roles, hparse, -, hkeys⟩ := gives_parse hm h
  -- no token is a directive, so all are kept and nothing is to be sorted
  have hsort : extractSort (tokenize text) = (ts, []) := by
    rw [Token.tokenize_of_layout htext, extractSort_eq_self (h.forall_mem hkeeps)]
  have hkept : Query.kept text = ts := congrArg Prod.fst hsort
  refine ⟨_, Query.compile_eq_ok_iff.2 ⟨roles, some e, hkept ▸ hparse, rfl⟩, ?_⟩
  constructor
  · rfl
  · exact congrArg Prod.snd hsort
  · exact e.values_eq_texts
  · intro key
    rw [Query.ofReading, KeyMarks.get?_markAll_seeded, hkeys]

end SearchQuery.Spelling
