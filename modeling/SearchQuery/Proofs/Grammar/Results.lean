/-
SearchQuery/Proofs/Grammar/Results.lean

What expressions the rules come to.

A leaf comes from one token, or from the words of a run, or from a filter
and its argument; `ReadLeaf` lists the ways.  `Result` says what holds of
every expression that tokens are read as: it is regular, its leaves come
about in one of those ways, it stands in the place of its rule without more
groups than were allowed, and the keys of its filters are keys that were met
on the way.

Each rule hands this on from what it consists of, and a group makes room
for any expression in the place of an operand.
-/
import SearchQuery.Proofs.Expr.Flatten
import SearchQuery.Proofs.Expr.Nesting
import SearchQuery.Proofs.Expr.Regular
import SearchQuery.Proofs.Grammar.Pieces

namespace SearchQuery.Grammar

/-! ### Leaves -/

/-- A leaf that is read from tokens of which each keeps `Q`. -/
inductive ReadLeaf (allowed : String → Bool) (Q : Token → Prop) : Expr → Prop
  | literal {t key argument} : Q t → Text.cutAtColon t.text = some (key, argument) →
      allowed key = false → ReadLeaf allowed Q (.value t.text)
  | phrase {t text} : Q t → t.quoted = true → Text.cutAtColon t.text = none →
      Text.trimmed? t.text = some text → ReadLeaf allowed Q (.value text)
  | run {t ts text} : Q t → (∀ u ∈ ts, Q u ∧ continuesRun allowed u = true) →
      t.quoted = false → t.isOperator = false → t.opens = false →
      Text.cutAtColon t.text = none → Text.trimmed? (joinWords (t :: ts)) = some text →
      ReadLeaf allowed Q (.value text)
  | filter {t key argument value} : Q t → Text.cutAtColon t.text = some (key, argument) →
      allowed key = true → Text.trimmed? argument = some value →
      ReadLeaf allowed Q (.filter ⟨key, value⟩)
  | argument {t u key argument value} : Q t → Q u →
      Text.cutAtColon t.text = some (key, argument) → allowed key = true →
      u.quoted = true → Text.trimmed? u.text = some value →
      ReadLeaf allowed Q (.filter ⟨key, value⟩)

theorem ReadLeaf.place {allowed : String → Bool} {Q : Token → Prop} {e : Expr}
    (h : ReadLeaf allowed Q e) : e.place = .operand := by
  cases h <;> rfl

/-! ### Results -/

/-- What holds of an expression in its place that was read with so many
groups allowed, while these keys were met. -/
structure Result (allowed : String → Bool) (Q : Token → Prop) (place : Place) (n : Nat)
    (used : List String) (e : Expr) : Prop where
  regular : e.Regular (ReadLeaf allowed Q)
  nesting : Expr.nestingAt place e e.nesting ≤ n
  keys : e.keys ⊆ used

variable {allowed : String → Bool} {Q : Token → Prop} {n : Nat} {used : List String}
variable {e : Expr}

theorem Result.imp {place : Place} {used' : List String} (h : Result allowed Q place n used e)
    (hused : used ⊆ used') : Result allowed Q place n used' e :=
  ⟨h.regular, h.nesting, fun _ hk => hused (h.keys hk)⟩

theorem Result.widen {p q : Place} (hpq : p.room ≤ q.room) (h : Result allowed Q p n used e) :
    Result allowed Q q n used e :=
  ⟨h.regular, Nat.le_trans (Expr.nestingAt_anti hpq e _) h.nesting, h.keys⟩

/-- A group makes room for any expression. -/
theorem Result.group (h : Result allowed Q .query n used e) :
    Result allowed Q .operand (n + 1) used e := by
  have hn : e.nesting ≤ n := by
    simpa only [Expr.nestingAt_query] using h.nesting
  exact ⟨h.regular, Nat.le_trans (Expr.nestingAt_le_succ _ e _) (Nat.succ_le_succ hn), h.keys⟩

theorem ReadLeaf.result (h : ReadLeaf allowed Q e) (hkeys : e.keys ⊆ used) :
    Result allowed Q .operand n used e := by
  refine ⟨.leaf h, ?_, hkeys⟩
  cases h <;> exact Nat.zero_le n

/-! ### Operators -/

theorem result_conjunction {es : List Expr}
    (hes : ∀ e ∈ es, Result allowed Q .operand n used e) (h : conjunction? es = some e) :
    Result allowed Q .clause n used e := by
  match es, h with
  | [_], rfl => exact (hes _ (List.mem_singleton.2 rfl)).widen (by decide)
  | e₁ :: e₂ :: es, rfl =>
    -- operands stand in the conjunction as they stood in the clause
    refine ⟨.and (Nat.le_add_left 2 _) fun e he => (hes e he).regular, ?_, ?_⟩
    · exact Expr.nestingAll_le.2 fun e he => (hes e he).nesting
    · rw [Expr.keys_and]
      exact Expr.flatMap_keys_subset fun e he => (hes e he).keys

theorem result_either {left right : Option Expr}
    (hleft : ∀ e ∈ left, Result allowed Q .query n used e)
    (hright : ∀ e ∈ right, Result allowed Q .clause n used e)
    (h : either? left right = some e) : Result allowed Q .query n used e := by
  match left, right, h with
  | some l, some r, rfl =>
    have hl := hleft l rfl
    have hr := hright r rfl
    refine ⟨.or hl.regular hr.regular, ?_, ?_⟩
    · have hn : l.nesting ≤ n := by simpa only [Expr.nestingAt_query] using hl.nesting
      exact Nat.max_le.2 ⟨hn, Expr.nestingAll_le.2 (List.forall_mem_singleton.2 hr.nesting)⟩
    · rw [Expr.keys_or]
      exact Expr.flatMap_keys_subset
        (List.forall_mem_cons.2 ⟨hl.keys, List.forall_mem_singleton.2 hr.keys⟩)
  | some l, none, rfl => exact hleft l rfl
  | none, some r, rfl => exact (hright r rfl).widen (by decide)

theorem result_alternatives {css : List (List Expr)}
    (hcss : ∀ es ∈ css, ∀ e ∈ es, Result allowed Q .operand n used e)
    (h : alternatives? css = some e) : Result allowed Q .query n used e := by
  suffices hfold : ∀ (css : List (List Expr)) (left : Option Expr),
      (∀ es ∈ css, ∀ e ∈ es, Result allowed Q .operand n used e) →
      (∀ e ∈ left, Result allowed Q .query n used e) →
      ∀ e ∈ (css.map conjunction?).foldl either? left, Result allowed Q .query n used e from
    hfold css none hcss (fun _ h => nomatch h) e h
  -- what has been read so far is the left side of the next alternative
  intro css
  induction css with
  | nil => exact fun _ _ hleft => hleft
  | cons es css ih =>
    intro left hcss hleft
    obtain ⟨hes, hcss⟩ := List.forall_mem_cons.1 hcss
    exact ih _ hcss fun e he =>
      result_either hleft (fun e he => result_conjunction hes he) he

/-! ### Rules -/

section

variable {inside : List Token → Reading (Option Expr)}

/-- The groups inside are read as expressions that can be operands. -/
def GroupsResult (allowed : String → Bool) (Q : Token → Prop) (n : Nat)
    (inside : List Token → Reading (Option Expr)) : Prop :=
  ∀ ts roles e, (∀ t ∈ ts, Q t) → inside ts = .take roles (some e) →
    Result allowed Q .operand n (roles.filterMap Role.key?) e

/-- The leaf of a piece is one that is read, and its key is met. -/
theorem Piece.IsOperand.result {p : Piece} {rest : List Token}
    (h : p.IsOperand allowed rest) (hQ : ∀ u ∈ p.tokens, Q u) (he : p.leaf? = some e) :
    Result allowed Q .operand n (p.roles.filterMap Role.key?) e := by
  cases h with
  | stray _ => cases he
  | @filter t key argument hcut hkey hne =>
    rw [Piece.leaf?, Option.map_eq_some_iff] at he
    obtain ⟨value, htrim, rfl⟩ := he
    exact (ReadLeaf.filter (hQ t List.mem_cons_self) hcut hkey htrim).result
      (List.Subset.refl _)
  | bare _ _ _ _ => cases he
  | @valued t u key argument hcut hkey _ hquoted =>
    rw [Piece.leaf?, Option.bind_some, Option.map_eq_some_iff] at he
    obtain ⟨value, htrim, rfl⟩ := he
    obtain ⟨ht, hu⟩ : Q t ∧ Q u := by simpa [Piece.tokens] using hQ
    exact (ReadLeaf.argument ht hu hcut hkey hquoted htrim).result (List.Subset.refl _)
  | @literal t key argument hcut hkey =>
    obtain rfl := Option.some_inj.1 he
    exact (ReadLeaf.literal (hQ t List.mem_cons_self) hcut hkey).result (List.nil_subset _)
  | @phrase t hquoted _ _ hcut =>
    rw [Piece.leaf?, Option.map_eq_some_iff] at he
    obtain ⟨text, htrim, rfl⟩ := he
    exact (ReadLeaf.phrase (hQ t List.mem_cons_self) hquoted hcut htrim).result
      (List.nil_subset _)
  | @words t ts hquoted hop hopen hcut hwords _ =>
    rw [Piece.leaf?, Option.map_eq_some_iff] at he
    obtain ⟨text, htrim, rfl⟩ := he
    obtain ⟨ht, hts⟩ := List.forall_mem_cons.1 hQ
    exact (ReadLeaf.run ht (fun u hu => ⟨hts u hu, hwords u hu⟩) hquoted hop hopen hcut
      htrim).result (List.nil_subset _)

theorem result_operand (hin : GroupsResult allowed Q n inside) {t : Token}
    {ts : List Token} {roles : List Role} (hQ : ∀ u ∈ t :: ts, Q u)
    (h : operand allowed inside t ts = .take roles (some e)) :
    Result allowed Q .operand n (roles.filterMap Role.key?) e := by
  rcases operand_eq_take h with ⟨-, hgroup⟩ | ⟨p, rest, hp, htokens, rfl, hleaf⟩
  · exact hin ts roles e (List.forall_mem_cons.1 hQ).2 hgroup
  · rw [htokens] at hQ
    exact hp.result (fun u hu => hQ u (List.mem_append_left rest hu)) hleaf.symm

theorem result_clause (hin : GroupsResult allowed Q n inside) {ts : List Token}
    {roles : List Role} {es : List Expr} (h : ClauseTakes allowed inside ts roles es)
    (hQ : ∀ t ∈ ts, Q t) :
    ∀ e ∈ es, Result allowed Q .operand n (roles.filterMap Role.key?) e := by
  induction h with
  | nil => exact List.forall_mem_nil _
  | last hop _ =>
    intro e he
    obtain rfl := Option.mem_toList.1 he
    exact result_operand hin hQ hop
  | cons hop _ _ ih =>
    rw [List.filterMap_append, List.filterMap_append]
    refine List.forall_mem_append.2 ⟨fun e he => ?_, fun e he => ?_⟩
    · obtain rfl := Option.mem_toList.1 he
      exact (result_operand hin hQ hop).imp (List.subset_append_left _ _)
    · have hrest := ih (fun u hu => hQ u (List.mem_of_mem_drop hu)) e he
      exact hrest.imp (List.subset_append_of_subset_right _ (List.subset_append_right _ _))

theorem result_clauses (hin : GroupsResult allowed Q n inside) {ts : List Token}
    {roles : List Role} {css : List (List Expr)} (h : ClausesTake allowed inside ts roles css)
    (hQ : ∀ t ∈ ts, Q t) :
    ∀ es ∈ css, ∀ e ∈ es, Result allowed Q .operand n (roles.filterMap Role.key?) e := by
  induction h with
  | last hclause _ => exact List.forall_mem_singleton.2 (result_clause hin hclause hQ)
  | cons hclause _ _ ih =>
    rw [List.filterMap_append]
    refine List.forall_mem_cons.2 ⟨fun e he => ?_, fun es hes e he => ?_⟩
    · exact (result_clause hin hclause hQ e he).imp (List.subset_append_left _ _)
    · have hrest := ih (fun u hu => hQ u (List.mem_of_mem_drop hu)) es hes e he
      exact hrest.imp (List.subset_append_right _ _)

theorem result_disjunction (hin : GroupsResult allowed Q n inside)
    (hprog : ∀ ts, Progresses (inside ts)) {ts : List Token} {roles : List Role}
    (hQ : ∀ t ∈ ts, Q t) (h : disjunction allowed inside ts = .take roles (some e)) :
    Result allowed Q .query n (roles.filterMap Role.key?) e := by
  obtain ⟨css, hclauses, halt⟩ := Reading.map_eq_take_iff.1 h
  exact result_alternatives (result_clauses hin (clausesTake_of_eq hprog hclauses) hQ) halt

end

theorem groupsResult_group (n : Nat) : GroupsResult allowed Q n (group allowed n) := by
  induction n with
  | zero =>
    intro ts roles e _ h
    cases h
  | succ n ih =>
    intro ts roles e hQ h
    obtain ⟨rs, hdisj, -, rfl⟩ := group_succ_eq_take h
    rw [filterMap_key?_enclosed]
    exact (result_disjunction ih (group_progresses n) hQ hdisj).group

/-- **Every expression that tokens are read as** is regular, its leaves come
from the tokens, and it takes no more groups than a query may have. -/
theorem result_parse {ts : List Token} {roles : List Role} (hQ : ∀ t ∈ ts, Q t)
    (h : parse allowed ts = .take roles (some e)) :
    Result allowed Q .query maxDepth (roles.filterMap Role.key?) e :=
  result_disjunction (groupsResult_group maxDepth) (group_progresses maxDepth) hQ h

end SearchQuery.Grammar
