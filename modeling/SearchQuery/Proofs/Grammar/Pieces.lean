/-
SearchQuery/Proofs/Grammar/Pieces.lean

The pieces that a query is cut into.

A reading gives every token a role, and its value is a tree.  In between
stands the list of its pieces: the tokens of an operand belong together, and
every operator and every parenthesis is a piece by itself.  `Cut` says in one
pass how tokens fall into pieces, without a tree and without the rules of the
grammar.  All it needs to know is how many groups are open and whether an
operand has to come or has just ended.

A reading that comes to a value has taken the tokens of some pieces, in the
roles that these give them, and the leaves of the value are the leaves of the
pieces in order (`exists_cut_of_parse`).  The rules are followed one by one:
`Yields` says what a rule cuts off, leaving open what comes behind it, so
that the pieces of one rule can be put in front of those of the next.
-/
import SearchQuery.Proofs.Expr.Flatten
import SearchQuery.Proofs.Grammar.Steps
import SearchQuery.Proofs.Token.Apart

namespace SearchQuery.Grammar

/-! ### Pieces -/

/-- A piece of a query. -/
inductive Piece where
  /-- An `AND` between two operands. -/
  | joins (t : Token)
  /-- An `OR` between two clauses. -/
  | alternates (t : Token)
  /-- An operator where an operand should be. -/
  | stray (t : Token)
  /-- The `(` of a group. -/
  | opens (t : Token)
  /-- The `)` of a group. -/
  | closes (t : Token)
  /-- A filter with its argument behind the colon. -/
  | filter (t : Token) (key argument : String)
  /-- A filter with nothing behind the colon, and the quoted token behind it
  if there is one. -/
  | bare (t : Token) (key : String) (argument? : Option Token)
  /-- A text with a colon behind a key that is not allowed. -/
  | literal (t : Token)
  /-- A quoted text without a colon. -/
  | phrase (t : Token)
  /-- A run of words. -/
  | words (t : Token) (ts : List Token)

namespace Piece

/-- The tokens of a piece. -/
def tokens : Piece → List Token
  | joins t | alternates t | stray t | opens t | closes t => [t]
  | filter t _ _ | literal t | phrase t => [t]
  | bare t _ argument? => t :: argument?.toList
  | words t ts => t :: ts

/-- The roles of the tokens of a piece. -/
def roles : Piece → List Role
  | joins _ => [.joins]
  | alternates _ => [.alternates]
  | stray _ => [.stray]
  | opens _ => [.opens]
  | closes _ => [.closes]
  | filter _ key _ => [.filter key]
  | bare _ key argument? => .filter key :: argument?.toList.map fun _ => .argument
  | literal _ => [.literal]
  | phrase _ => [.phrase]
  | words t ts => (t :: ts).map fun _ => .word

/-- The leaf that comes of a piece.  Nothing comes of operators, parentheses
and blank texts. -/
def leaf? : Piece → Option Expr
  | joins _ | alternates _ | stray _ | opens _ | closes _ => none
  | filter _ key argument => (Text.trimmed? argument).map fun value => .filter ⟨key, value⟩
  | bare _ key argument? =>
    argument?.bind fun u => (Text.trimmed? u.text).map fun value => .filter ⟨key, value⟩
  | literal t => some (.value t.text)
  | phrase t => (Text.trimmed? t.text).map .value
  | words t ts => (Text.trimmed? (joinWords (t :: ts))).map .value

theorem leaf?_bare_some (t u : Token) (key : String) :
    (bare t key (some u)).leaf? = filterOn? key u.text := by
  rw [leaf?, Option.bind_some, filterOn?]

theorem length_roles (p : Piece) : p.roles.length = p.tokens.length := by
  cases p <;> simp [roles, tokens]

theorem length_flatMap_roles (ps : List Piece) :
    (ps.flatMap roles).length = (ps.flatMap tokens).length := by
  simp only [List.length_flatMap, length_roles]

/-- An operand in front of some tokens.  A filter without an argument takes
the first of them if it is quoted, and a run of words goes on as long as it
can. -/
inductive IsOperand (allowed : String → Bool) (behind : List Token) : Piece → Prop
  | stray {t} : t.isOperator = true → IsOperand allowed behind (.stray t)
  | filter {t key argument} : Text.cutAtColon t.text = some (key, argument) →
      allowed key = true → Text.trim argument ≠ "" →
      IsOperand allowed behind (.filter t key argument)
  | bare {t key argument} : Text.cutAtColon t.text = some (key, argument) →
      allowed key = true → Text.trim argument = "" →
      (∀ u ∈ behind.head?, u.quoted = false) → IsOperand allowed behind (.bare t key none)
  | valued {t u key argument} : Text.cutAtColon t.text = some (key, argument) →
      allowed key = true → Text.trim argument = "" → u.quoted = true →
      IsOperand allowed behind (.bare t key (some u))
  | literal {t key argument} : Text.cutAtColon t.text = some (key, argument) →
      allowed key = false → IsOperand allowed behind (.literal t)
  | phrase {t} : t.quoted = true → t.isOperator = false → t.opens = false →
      Text.cutAtColon t.text = none → IsOperand allowed behind (.phrase t)
  | words {t ts} : t.quoted = false → t.isOperator = false → t.opens = false →
      Text.cutAtColon t.text = none → (∀ u ∈ ts, continuesRun allowed u = true) →
      (∀ u ∈ behind.head?, continuesRun allowed u = false) →
      IsOperand allowed behind (.words t ts)

end Piece

/-! ### Cuts -/

theorem exists_cons_of_closeAhead {ts : List Token} (h : closeAhead ts = true) :
    ∃ t rest, ts = t :: rest ∧ t.closes = true := by
  cases ts with
  | nil => cases h
  | cons t rest => exact ⟨t, rest, rfl, h⟩

/-- Where a piece begins. -/
inductive Spot where
  /-- An operand has to come. -/
  | front
  /-- An operand has ended. -/
  | behind
  deriving DecidableEq

/-- Tokens from some spot on, with so many groups open, and the pieces into
which they are cut.  The tokens from a `)` outside all groups on are in no
piece. -/
inductive Cut (allowed : String → Bool) : Nat → Spot → List Token → List Piece → Prop
  | done {spot} : Cut allowed 0 spot [] []
  | stop {t ts} : t.closes = true → Cut allowed 0 .behind (t :: ts) []
  | operand {n p ts ps} : p.IsOperand allowed ts → Cut allowed n .behind ts ps →
      Cut allowed n .front (p.tokens ++ ts) (p :: ps)
  | opens {n t ts ps} : t.opens = true → Cut allowed (n + 1) .front ts ps →
      Cut allowed n .front (t :: ts) (.opens t :: ps)
  | closes {n t ts ps} : t.closes = true → Cut allowed n .behind ts ps →
      Cut allowed (n + 1) .behind (t :: ts) (.closes t :: ps)
  | joins {n t ts ps} : t.joins = true → Cut allowed n .front ts ps →
      Cut allowed n .behind (t :: ts) (.joins t :: ps)
  | alternates {n t ts ps} : t.alternates = true → Cut allowed n .front ts ps →
      Cut allowed n .behind (t :: ts) (.alternates t :: ps)
  /-- A token that separates nothing begins an operand beside the last one. -/
  | beside {n t ts ps} : t.alternates = false → t.closes = false → t.joins = false →
      Cut allowed n .front (t :: ts) ps → Cut allowed n .behind (t :: ts) ps

variable {allowed : String → Bool} {n : Nat} {spot : Spot} {ts : List Token}
variable {ps qs : List Piece}

namespace Cut

/-- The tokens of the pieces stand at the front of the list. -/
theorem tokens_prefix (h : Cut allowed n spot ts ps) : ps.flatMap Piece.tokens <+: ts := by
  induction h with
  | done | stop _ => exact List.nil_prefix
  | operand _ _ ih => exact (List.prefix_append_right_inj _).2 ih
  | opens _ _ ih | closes _ _ ih | joins _ _ ih | alternates _ _ ih =>
    exact (List.prefix_append_right_inj [_]).2 ih
  | beside _ _ _ _ ih => exact ih

theorem tokens_eq_take (h : Cut allowed n spot ts ps) :
    ps.flatMap Piece.tokens = ts.take (ps.flatMap Piece.roles).length := by
  rw [Piece.length_flatMap_roles]
  exact List.prefix_iff_eq_take.1 h.tokens_prefix

theorem of_stop (h : ts = [] ∨ closeAhead ts = true) : Cut allowed 0 .behind ts [] := by
  rcases h with rfl | h
  · exact .done
  · obtain ⟨t, rest, rfl, hclose⟩ := exists_cons_of_closeAhead h
    exact .stop hclose

/-- At the end no operand has to come any more. -/
theorem front_nil (h : Cut allowed n .behind [] ps) : Cut allowed n .front [] ps := by
  cases h with
  | done => exact .done

end Cut

/-! ### What a rule cuts off -/

/-- A reading of `ts` in some roles cuts off the pieces `ps`, between the one
spot and the other, and comes to these leaves. -/
structure Yields (allowed : String → Bool) (s s' : Spot) (ts : List Token)
    (roles : List Role) (leaves : List Expr) (ps : List Piece) : Prop where
  cut : ∀ {n qs}, Cut allowed n s' (ts.drop roles.length) qs → Cut allowed n s ts (ps ++ qs)
  roles_eq : ps.flatMap Piece.roles = roles
  leaves_eq : ps.filterMap Piece.leaf? = leaves

namespace Yields

theorem nil (s : Spot) (ts : List Token) : Yields allowed s s ts [] [] [] :=
  ⟨fun h => h, rfl, rfl⟩

/-- One operand. -/
theorem operand {p : Piece} (h : p.IsOperand allowed ts) :
    Yields allowed .front .behind (p.tokens ++ ts) p.roles p.leaf?.toList [p] where
  cut hqs := by
    rw [p.length_roles, List.drop_left] at hqs
    exact .operand h hqs
  roles_eq := List.flatMap_singleton ..
  leaves_eq := by cases h : p.leaf? <;> simp [h]

theorem append {s s' s'' : Spot} {rs rs' : List Role} {es es' : List Expr}
    (h : Yields allowed s s' ts rs es ps)
    (h' : Yields allowed s' s'' (ts.drop rs.length) rs' es' qs) :
    Yields allowed s s'' ts (rs ++ rs') (es ++ es') (ps ++ qs) where
  cut hcut := by
    rw [List.append_assoc]
    refine h.cut (h'.cut ?_)
    rwa [List.drop_drop, ← List.length_append]
  roles_eq := by rw [List.flatMap_append, h.roles_eq, h'.roles_eq]
  leaves_eq := by rw [List.filterMap_append, h.leaves_eq, h'.leaves_eq]

end Yields

/-! ### Operands -/

section

variable {inside : List Token → Reading (Option Expr)} {t : Token}

theorem filterOn?_of_blank {key text : String} (h : Text.trim text = "") :
    filterOn? key text = none := by
  rw [filterOn?, Text.trimmed?_eq_none_iff.2 h]
  rfl

theorem filterOn?_of_trimmed? {key text value : String} (h : Text.trimmed? text = some value) :
    filterOn? key text = some (.filter ⟨key, value⟩) := by
  rw [filterOn?, h]
  rfl

/-- A filter on an allowed key is one piece. -/
theorem exists_piece_of_filter {key argument : String} {roles : List Role}
    {expr? : Option Expr} (hcut : Text.cutAtColon t.text = some (key, argument))
    (hkey : allowed key = true) (h : filter key argument ts = .take roles expr?) :
    ∃ p rest, Piece.IsOperand allowed rest p ∧ t :: ts = p.tokens ++ rest ∧
      roles = p.roles ∧ expr? = p.leaf? := by
  rcases htrim : Text.trimmed? argument with - | value
  · have hblank : Text.trim argument = "" := Text.trimmed?_eq_none_iff.1 htrim
    have hnone : filterOn? key argument = none := filterOn?_of_blank hblank
    cases ts with
    | nil =>
      rw [filter_nil, hnone] at h
      obtain ⟨rfl, rfl⟩ := Reading.take_inj.1 h
      exact ⟨.bare t key none, [], .bare hcut hkey hblank (by simp), rfl, rfl, rfl⟩
    | cons u ts =>
      rw [filter_cons_of_none hnone] at h
      split at h
      · rename_i hquoted
        obtain ⟨rfl, rfl⟩ := Reading.take_inj.1 h
        exact ⟨.bare t key (some u), ts, .valued hcut hkey hblank hquoted, rfl, rfl,
          (Piece.leaf?_bare_some t u key).symm⟩
      · rename_i hquoted
        obtain ⟨rfl, rfl⟩ := Reading.take_inj.1 h
        have hhead : ∀ v ∈ (u :: ts).head?, v.quoted = false := by simpa using hquoted
        exact ⟨.bare t key none, u :: ts, .bare hcut hkey hblank hhead, rfl, rfl, rfl⟩
  · have hfilter : filterOn? key argument = some (.filter ⟨key, value⟩) :=
      filterOn?_of_trimmed? htrim
    rw [filter_of_some hfilter] at h
    obtain ⟨rfl, rfl⟩ := Reading.take_inj.1 h
    have hne : Text.trim argument ≠ "" := by
      obtain ⟨hvalue, hne⟩ := Text.trimmed?_eq_some_iff.1 htrim
      rwa [hvalue]
    exact ⟨.filter t key argument, ts, .filter hcut hkey hne, rfl, rfl, hfilter.symm⟩

/-- An operand is a group or one piece. -/
theorem operand_eq_take {roles : List Role} {expr? : Option Expr}
    (h : operand allowed inside t ts = .take roles expr?) :
    (t.opens = true ∧ inside ts = .take roles expr?) ∨
      ∃ p rest, Piece.IsOperand allowed rest p ∧ t :: ts = p.tokens ++ rest ∧
        roles = p.roles ∧ expr? = p.leaf? := by
  -- the cases are those of the rule, in its order
  unfold operand at h
  split at h
  · rename_i hop
    obtain ⟨rfl, rfl⟩ := Reading.take_inj.1 h
    exact .inr ⟨.stray t, ts, .stray hop, rfl, rfl, rfl⟩
  rename_i hop
  split at h
  · rename_i hopen
    exact .inl ⟨hopen, h⟩
  rename_i hopen
  have hop : t.isOperator = false := by simpa using hop
  have hopen : t.opens = false := by simpa using hopen
  split at h
  · rename_i key argument hcut
    split at h
    · rename_i hkey
      exact .inr (exists_piece_of_filter hcut hkey h)
    · rename_i hkey
      obtain ⟨rfl, rfl⟩ := Reading.take_inj.1 h
      exact .inr ⟨.literal t, ts, .literal hcut (by simpa using hkey), rfl, rfl, rfl⟩
  · rename_i hcut
    split at h
    · rename_i hquoted
      obtain ⟨rfl, rfl⟩ := Reading.take_inj.1 h
      exact .inr ⟨.phrase t, ts, .phrase hquoted hop hopen hcut, rfl, rfl, rfl⟩
    · rename_i hquoted
      obtain ⟨rfl, rfl⟩ := Reading.take_inj.1 h
      have hquoted : t.quoted = false := by simpa using hquoted
      -- the run takes what goes on with it, and stops where nothing does
      have hwords : ∀ u ∈ ts.takeWhile (continuesRun allowed), continuesRun allowed u = true :=
        fun u hu => List.all_eq_true.1 List.all_takeWhile u hu
      have hhead : ∀ u ∈ (ts.dropWhile (continuesRun allowed)).head?,
          continuesRun allowed u = false := by
        intro u hu
        have := List.head?_dropWhile_not (continuesRun allowed) ts
        simpa [Option.mem_def.1 hu] using this
      refine .inr ⟨.words t (ts.takeWhile (continuesRun allowed)),
        ts.dropWhile (continuesRun allowed),
        .words hquoted hop hopen hcut hwords hhead, ?_, rfl, rfl⟩
      rw [Piece.tokens, List.cons_append, List.takeWhile_append_dropWhile]

/-- A `(` begins a group. -/
theorem operand_of_opens (h : t.opens = true) (ts : List Token) :
    operand allowed inside t ts = inside ts := by
  have htext : t.text = "(" := by simpa [Token.opens] using h
  have hop : t.isOperator = false := by
    rw [Token.isOperator, htext]
    decide
  rw [operand, hop, if_neg Bool.false_ne_true, if_pos h]

/-- A text with a colon is a filter, or stands as it is. -/
theorem operand_of_cutAtColon {key argument : String}
    (hcut : Text.cutAtColon t.text = some (key, argument)) (ts : List Token) :
    operand allowed inside t ts
      = if allowed key then filter key argument ts
        else .take [.literal] (some (.value t.text)) := by
  obtain ⟨hop, hopen, -⟩ := Token.apart_of_mem (Text.mem_of_cutAtColon hcut) (.inl rfl)
  simp only [operand, hop, hopen, hcut, Bool.false_eq_true, if_false]

/-- A text without a colon is a phrase, or the first word of a run. -/
theorem operand_of_no_colon (hop : t.isOperator = false) (hopen : t.opens = false)
    (hcut : Text.cutAtColon t.text = none) (ts : List Token) :
    operand allowed inside t ts
      = if t.quoted then .take [.phrase] (freeText? t.text) else run allowed t ts := by
  simp only [operand, hop, hopen, hcut, Bool.false_eq_true, if_false]

theorem takeWhile_continuesRun {us rest : List Token}
    (hus : ∀ u ∈ us, continuesRun allowed u = true)
    (hstop : ∀ u ∈ rest.head?, continuesRun allowed u = false) :
    (us ++ rest).takeWhile (continuesRun allowed) = us := by
  rw [List.takeWhile_append_of_pos hus]
  cases rest with
  | nil => rw [List.takeWhile_nil, List.append_nil]
  | cons v rest => rw [List.takeWhile_cons_of_neg (by simp [hstop v rfl]), List.append_nil]

/-- Every piece that can be an operand is read as one. -/
theorem operand_of_isOperand {p : Piece} {rest : List Token} (h : p.IsOperand allowed rest)
    (hts : t :: ts = p.tokens ++ rest) : operand allowed inside t ts = .take p.roles p.leaf? := by
  cases h with
  | stray hop =>
    obtain ⟨rfl, rfl⟩ := List.cons.inj hts
    rw [operand, if_pos hop]
    rfl
  | @filter u key argument hcut hkey hne =>
    obtain ⟨rfl, rfl⟩ := List.cons.inj hts
    have hvalue : Text.trimmed? argument = some (Text.trim argument) :=
      Text.trimmed?_eq_some_iff.2 ⟨rfl, hne⟩
    rw [operand_of_cutAtColon hcut, if_pos hkey, filter_of_some (filterOn?_of_trimmed? hvalue),
      Piece.leaf?, hvalue]
    rfl
  | @bare u key argument hcut hkey hblank hhead =>
    obtain ⟨rfl, rfl⟩ : t = u ∧ rest = ts := by simpa [Piece.tokens, eq_comm] using hts
    rw [operand_of_cutAtColon hcut, if_pos hkey]
    cases rest with
    | nil =>
      rw [filter_nil, filterOn?_of_blank hblank]
      rfl
    | cons v rest =>
      have hv : ¬ v.quoted = true := by simp [hhead v rfl]
      rw [filter_cons_of_none (filterOn?_of_blank hblank), if_neg hv]
      rfl
  | @valued u v key argument hcut hkey hblank hquoted =>
    obtain ⟨rfl, rfl⟩ : t = u ∧ ts = v :: rest := List.cons.inj hts
    rw [operand_of_cutAtColon hcut, if_pos hkey,
      filter_cons_of_none (filterOn?_of_blank hblank), if_pos hquoted, Piece.leaf?_bare_some]
    rfl
  | literal hcut hkey =>
    obtain ⟨rfl, rfl⟩ := List.cons.inj hts
    rw [operand_of_cutAtColon hcut, hkey, if_neg Bool.false_ne_true]
    rfl
  | phrase hquoted hop hopen hcut =>
    obtain ⟨rfl, rfl⟩ := List.cons.inj hts
    rw [operand_of_no_colon hop hopen hcut, if_pos hquoted]
    rfl
  | @words u us hquoted hop hopen hcut hwords hhead =>
    obtain ⟨rfl, rfl⟩ : t = u ∧ ts = us ++ rest := List.cons.inj hts
    rw [operand_of_no_colon hop hopen hcut, hquoted, if_neg Bool.false_ne_true, run,
      takeWhile_continuesRun hwords hhead]
    rfl

end

/-! ### Leaves of what rules come to -/

theorem leavesOf_leaf? (p : Piece) : Expr.leavesOf p.leaf? = p.leaf?.toList := by
  have hleaf : ∀ e ∈ p.leaf?, e.flatten = [e] := by
    cases p with
    | bare t key argument? =>
      intro e he
      obtain ⟨u, -, hu⟩ := Option.bind_eq_some_iff.1 he
      obtain ⟨value, -, rfl⟩ := Option.map_eq_some_iff.1 hu
      rfl
    | _ => simp [Piece.leaf?, Expr.flatten]
  cases h : p.leaf? with
  | none => rfl
  | some e => simp [Expr.leavesOf, Expr.flattenAll, hleaf e h]

theorem leavesOf_conjunction? (es : List Expr) :
    Expr.leavesOf (conjunction? es) = Expr.flattenAll es := by
  match es with
  | [] => rfl
  | [e] => rfl
  | e₁ :: e₂ :: es =>
    show Expr.flatten (.and (e₁ :: e₂ :: es)) ++ [] = _
    rw [Expr.flatten, List.append_nil]

theorem leavesOf_either? (left right : Option Expr) :
    Expr.leavesOf (either? left right) = Expr.leavesOf left ++ Expr.leavesOf right := by
  match left, right with
  | some l, some r =>
    show Expr.flatten (.or [l, r]) ++ [] = _
    simp [Expr.flatten, Expr.leavesOf, Expr.flattenAll]
  | some l, none => exact (List.append_nil _).symm
  | none, some r => rfl
  | none, none => rfl

/-- No leaf is lost between alternatives, also not where one of two sides is
missing. -/
theorem leavesOf_alternatives? (css : List (List Expr)) :
    Expr.leavesOf (alternatives? css) = css.flatMap Expr.flattenAll := by
  suffices hfold : ∀ left : Option Expr,
      Expr.leavesOf ((css.map conjunction?).foldl either? left)
        = Expr.leavesOf left ++ css.flatMap Expr.flattenAll from hfold none
  induction css with
  | nil => exact fun left => (List.append_nil _).symm
  | cons es css ih =>
    intro left
    rw [List.map_cons, List.foldl_cons, ih, leavesOf_either?, leavesOf_conjunction?,
      List.flatMap_cons, List.append_assoc]

/-! ### Rules -/

section

variable {inside : List Token → Reading (Option Expr)} {roles : List Role}

/-- The groups inside are cut into pieces. -/
def GroupsYield (allowed : String → Bool) (inside : List Token → Reading (Option Expr)) :
    Prop :=
  ∀ t ts roles expr?, t.opens = true → inside ts = .take roles expr? →
    ∃ ps, Yields allowed .front .behind (t :: ts) roles (Expr.leavesOf expr?) ps

theorem exists_yields_operand (hin : GroupsYield allowed inside) {t : Token}
    {expr? : Option Expr} (h : operand allowed inside t ts = .take roles expr?) :
    ∃ ps, Yields allowed .front .behind (t :: ts) roles (Expr.leavesOf expr?) ps := by
  rcases operand_eq_take h with ⟨hopen, hgroup⟩ | ⟨p, rest, hp, htokens, rfl, rfl⟩
  · exact hin t ts roles expr? hopen hgroup
  · rw [htokens, leavesOf_leaf?]
    exact ⟨[p], .operand hp⟩

/-- Between two operands stands a piece or nothing. -/
theorem exists_yields_gap {gap : List Role} (h : gap? ts = some gap) :
    ∃ ps, Yields allowed .behind .front ts gap [] ps := by
  obtain ⟨t, us, rfl, halt, hclose, ⟨hjoin, rfl⟩ | ⟨hjoin, rfl⟩⟩ := gap?_eq_some h
  · exact ⟨[.joins t], fun hqs => .joins hjoin hqs, rfl, rfl⟩
  · exact ⟨[], fun hqs => .beside halt hclose hjoin hqs, rfl, rfl⟩

theorem exists_yields_clause (hin : GroupsYield allowed inside) {es : List Expr}
    (h : ClauseTakes allowed inside ts roles es) :
    ∃ ps, Yields allowed .front .behind ts roles (Expr.flattenAll es) ps := by
  induction h with
  | nil => exact ⟨[], Cut.front_nil, rfl, rfl⟩
  | last hop _ => exact exists_yields_operand hin hop
  | cons hop hgap _ ih =>
    obtain ⟨ps, hps⟩ := exists_yields_operand hin hop
    obtain ⟨gs, hgs⟩ : ∃ gs, Yields allowed .behind .front _ _ [] gs := exists_yields_gap hgap
    obtain ⟨qs, hqs⟩ := ih
    rw [← List.drop_drop] at hqs
    rw [Expr.flattenAll_append]
    exact ⟨ps ++ (gs ++ qs), hps.append (hgs.append hqs)⟩

theorem exists_yields_alternates (h : alternativeAhead ts = true) :
    ∃ ps, Yields allowed .behind .front ts [.alternates] [] ps := by
  cases ts with
  | nil => cases h
  | cons t ts => exact ⟨[.alternates t], fun hqs => .alternates h hqs, rfl, rfl⟩

theorem exists_yields_clauses (hin : GroupsYield allowed inside) {css : List (List Expr)}
    (h : ClausesTake allowed inside ts roles css) :
    ∃ ps, Yields allowed .front .behind ts roles (css.flatMap Expr.flattenAll) ps := by
  induction h with
  | last hclause _ =>
    rw [List.flatMap_singleton]
    exact exists_yields_clause hin hclause
  | cons hclause hahead _ ih =>
    obtain ⟨ps, hps⟩ := exists_yields_clause hin hclause
    obtain ⟨os, hos⟩ : ∃ os, Yields allowed .behind .front _ _ [] os :=
      exists_yields_alternates hahead
    obtain ⟨qs, hqs⟩ := ih
    rw [← List.drop_drop] at hqs
    exact ⟨ps ++ (os ++ qs), hps.append (hos.append hqs)⟩

theorem exists_yields_disjunction (hin : GroupsYield allowed inside)
    (hprog : ∀ ts, Progresses (inside ts)) {expr? : Option Expr}
    (h : disjunction allowed inside ts = .take roles expr?) :
    ∃ ps, Yields allowed .front .behind ts roles (Expr.leavesOf expr?) ps := by
  obtain ⟨css, hclauses, rfl⟩ := Reading.map_eq_take_iff.1 h
  rw [leavesOf_alternatives?]
  exact exists_yields_clauses hin (clausesTake_of_eq hprog hclauses)

end

theorem groupsYield_group (depth : Nat) : GroupsYield allowed (group allowed depth) := by
  induction depth with
  | zero =>
    intro t ts roles expr? _ h
    cases h
  | succ depth ih =>
    intro t ts roles expr? hopen h
    obtain ⟨rs, hdisj, hahead, rfl⟩ := group_succ_eq_take h
    obtain ⟨ps, hps⟩ := exists_yields_disjunction ih (group_progresses depth) hdisj
    -- behind the pieces inside stands the `)` of the group
    obtain ⟨u, us, hrest, hclose⟩ := exists_cons_of_closeAhead hahead
    refine ⟨.opens t :: (ps ++ [.closes u]), fun {n qs} hqs => ?_, ?_, ?_⟩
    · have hdrop : (t :: ts).drop (Role.opens :: (rs ++ [.closes])).length = us := by
        rw [List.length_cons, List.drop_succ_cons, List.length_append, ← List.drop_drop, hrest]
        rfl
      rw [hdrop] at hqs
      rw [List.cons_append, List.append_assoc]
      refine .opens hopen (hps.cut ?_)
      rw [hrest]
      exact .closes hclose hqs
    · rw [List.flatMap_cons, List.flatMap_append, hps.roles_eq]
      rfl
    · rw [List.filterMap_cons_none rfl, List.filterMap_append, hps.leaves_eq]
      exact List.append_nil _

/-- **What is read is what stands there**: the tokens that were taken fall
into pieces, their roles are those of the pieces, and the leaves of the
expression are the leaves of the pieces in order. -/
theorem exists_cut_of_parse {roles : List Role} {expr? : Option Expr}
    (h : parse allowed ts = .take roles expr?) :
    ∃ ps, Cut allowed 0 .front ts ps ∧ ps.flatMap Piece.roles = roles ∧
      ps.filterMap Piece.leaf? = Expr.leavesOf expr? := by
  obtain ⟨ps, hps⟩ :=
    exists_yields_disjunction (groupsYield_group maxDepth) (group_progresses maxDepth) h
  -- reading stops at the end or in front of a `)`, and cutting stops there too
  obtain ⟨css, hclauses, -⟩ := Reading.map_eq_take_iff.1 h
  have hstop := (clausesTake_of_eq (group_progresses maxDepth) hclauses).stop
  have hcut := hps.cut (Cut.of_stop hstop)
  rw [List.append_nil] at hcut
  exact ⟨ps, hcut, hps.roles_eq, hps.leaves_eq⟩

end SearchQuery.Grammar
