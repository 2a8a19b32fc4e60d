/-
SearchQuery/Proofs/Grammar/Steps.lean

The rules of the grammar, one step at a time.

A clause is an operand and what comes behind it, and a query is a clause
and what comes behind it.  Both rules find the place where they go on by
the length of what was taken, and an operand that comes to a value takes
its first token at least (`taken_pos_of_operand`), so the place is the same
for both: the list without the tokens taken (`clause_cons`, `clauses_eq`).

`behindOperand` and `behindClause` are those two continuations under names
of their own, so that no later proof unfolds a rule.

What the rules come to when there is no error is the same once more as a
relation between tokens, roles and values, `ClauseTakes` and `ClausesTake`:
whatever is to be shown of all results is shown by induction on these.
-/
import SearchQuery.Grammar.Clauses

namespace SearchQuery.Grammar

variable {allowed : String → Bool}
variable {inside : List Token → Reading (Option Expr)}

/-! ### Progress -/

/-- A reading that comes to a value takes a token at least. -/
def Progresses {α : Type} (r : Reading α) : Prop :=
  ∀ roles a, r = .take roles a → roles ≠ []

/-- A filter meets its key with its first token. -/
theorem exists_roles_of_filter {key argument : String} {ts : List Token} {roles : List Role}
    {operand? : Option Expr} (h : filter key argument ts = .take roles operand?) :
    ∃ rs, roles = .filter key :: rs := by
  unfold filter at h
  split at h
  · split at h <;> exact ⟨_, (Reading.take_inj.1 h).1.symm⟩
  · exact ⟨_, (Reading.take_inj.1 h).1.symm⟩

theorem filter_progresses (key argument : String) (ts : List Token) :
    Progresses (filter key argument ts) := by
  intro roles operand? h
  obtain ⟨rs, rfl⟩ := exists_roles_of_filter h
  exact List.cons_ne_nil _ _

/-- An operand takes its first token, if groups take their `(`. -/
theorem operand_progresses (hin : ∀ ts, Progresses (inside ts)) (t : Token)
    (ts : List Token) : Progresses (operand allowed inside t ts) := by
  intro roles operand? h
  unfold operand at h
  split at h
  · obtain ⟨rfl, -⟩ := Reading.take_inj.1 h
    simp
  split at h
  · exact hin ts roles operand? h
  split at h
  · split at h
    · exact filter_progresses _ _ ts roles operand? h
    · obtain ⟨rfl, -⟩ := Reading.take_inj.1 h
      simp
  · split at h
    · obtain ⟨rfl, -⟩ := Reading.take_inj.1 h
      simp
    · obtain ⟨rfl, -⟩ := Reading.take_inj.1 h
      simp

theorem group_progresses (depth : Nat) (ts : List Token) :
    Progresses (group allowed depth ts) := by
  intro roles expr? h
  cases depth with
  | zero => cases h
  | succ depth =>
    rw [group] at h
    obtain ⟨rs, _, rs', e, -, rfl⟩ := Reading.andThen_eq_take_iff.1 h
    obtain ⟨rfl, -⟩ := Reading.take_inj.1 e
    simp

/-! ### Continuations -/

variable (allowed inside)

/-- What comes behind an operand in its clause. -/
def behindOperand (ts : List Token) : Reading (List Expr) :=
  match gap? ts with
  | none => .take [] []
  | some gap =>
    (Reading.take gap ()).andThen fun _ => clause allowed inside (ts.drop gap.length)

/-- What comes behind a clause in its query or group. -/
def behindClause (ts : List Token) : Reading (List (List Expr)) :=
  if alternativeAhead ts then
    (Reading.take [.alternates] ()).andThen fun _ => clauses allowed inside (ts.drop 1)
  else .take [] []

variable {allowed inside}

theorem gap?_of_ends {t : Token} (h : t.alternates = true ∨ t.closes = true)
    (ts : List Token) : gap? (t :: ts) = none := by
  simp [gap?, h]

theorem gap?_of_joins {t : Token} (halt : t.alternates = false) (hclose : t.closes = false)
    (hjoin : t.joins = true) (ts : List Token) : gap? (t :: ts) = some [.joins] := by
  simp [gap?, halt, hclose, hjoin]

theorem gap?_of_beside {t : Token} (halt : t.alternates = false) (hclose : t.closes = false)
    (hjoin : t.joins = false) (ts : List Token) : gap? (t :: ts) = some [] := by
  simp [gap?, halt, hclose, hjoin]

/-- Where there is a gap, a token follows that ends no clause, and it is
taken if it joins. -/
theorem gap?_eq_some {ts : List Token} {gap : List Role} (h : gap? ts = some gap) :
    ∃ t us, ts = t :: us ∧ t.alternates = false ∧ t.closes = false ∧
      (t.joins = true ∧ gap = [.joins] ∨ t.joins = false ∧ gap = []) := by
  cases ts with
  | nil => cases h
  | cons t us =>
    by_cases hends : t.alternates = true ∨ t.closes = true
    · rw [gap?_of_ends hends] at h
      cases h
    obtain ⟨halt, hclose⟩ : t.alternates = false ∧ t.closes = false := by simpa using hends
    refine ⟨t, us, rfl, halt, hclose, ?_⟩
    cases hjoin : t.joins with
    | true =>
      rw [gap?_of_joins halt hclose hjoin] at h
      exact .inl ⟨rfl, (Option.some_inj.1 h).symm⟩
    | false =>
      rw [gap?_of_beside halt hclose hjoin] at h
      exact .inr ⟨rfl, (Option.some_inj.1 h).symm⟩

theorem behindOperand_of_ends {ts : List Token} (h : gap? ts = none) :
    behindOperand allowed inside ts = .take [] [] := by
  rw [behindOperand, h]

theorem behindOperand_of_gap {ts : List Token} {gap : List Role} (h : gap? ts = some gap) :
    behindOperand allowed inside ts
      = (Reading.take gap ()).andThen fun _ =>
          clause allowed inside (ts.drop gap.length) := by
  rw [behindOperand, h]

theorem behindClause_of_ends {ts : List Token} (h : alternativeAhead ts = false) :
    behindClause allowed inside ts = .take [] [] := by
  rw [behindClause, h, if_neg Bool.false_ne_true]

theorem behindClause_cons {t : Token} (h : t.alternates = true) (ts : List Token) :
    behindClause allowed inside (t :: ts)
      = (Reading.take [.alternates] ()).andThen fun _ => clauses allowed inside ts :=
  if_pos h

/-- A clause is an operand and what comes behind it. -/
theorem clause_cons (hin : ∀ ts, Progresses (inside ts)) (t : Token) (ts : List Token) :
    clause allowed inside (t :: ts)
      = (operand allowed inside t ts).andThen fun operand? =>
          (behindOperand allowed inside
            ((t :: ts).drop (operand allowed inside t ts).taken)).map (operand?.toList ++ ·) := by
  rw [clause]
  rcases Reading.eq_take_or_error (operand allowed inside t ts) with ⟨operand?, h⟩ | ⟨why, h⟩
  · have hne : (operand allowed inside t ts).roles ≠ [] :=
      operand_progresses hin t ts _ _ h
    obtain ⟨k, hk⟩ : ∃ k, (operand allowed inside t ts).taken = k + 1 :=
      Nat.exists_eq_succ_of_ne_zero (Nat.ne_of_gt (List.length_pos_iff.2 hne))
    -- the rule drops the first token by itself and `k` others behind it
    rw [hk, Nat.add_sub_cancel, List.drop_succ_cons]
    congr 1
    funext operand?
    cases hgap : gap? (ts.drop k) with
    | none => rw [behindOperand_of_ends hgap, Reading.map_take, List.append_nil]
    | some gap => rw [behindOperand_of_gap hgap, Reading.map_andThen]
  · simp [Reading.andThen, h]

/-- A query is a clause and what comes behind it. -/
theorem clauses_eq (ts : List Token) :
    clauses allowed inside ts
      = (clause allowed inside ts).andThen fun operands =>
          (behindClause allowed inside
            (ts.drop (clause allowed inside ts).taken)).map (operands :: ·) := by
  rw [clauses]
  congr 1
  funext operands
  unfold behindClause
  by_cases h : alternativeAhead (ts.drop (clause allowed inside ts).taken) = true
  · rw [dif_pos h, if_pos h, Reading.map_andThen]
  · rw [dif_neg h, if_neg h, Reading.map_take]

/-! ### Steps that come to a value -/

theorem clause_cons_eq_take (hin : ∀ ts, Progresses (inside ts)) {t : Token}
    {ts : List Token} {roles : List Role} {es : List Expr}
    (h : clause allowed inside (t :: ts) = .take roles es) :
    ∃ rs operand? rs' es', operand allowed inside t ts = .take rs operand? ∧ rs ≠ [] ∧
      behindOperand allowed inside ((t :: ts).drop rs.length) = .take rs' es' ∧
      roles = rs ++ rs' ∧ es = operand?.toList ++ es' := by
  rw [clause_cons hin] at h
  obtain ⟨rs, operand?, rs', hop, hbehind, rfl⟩ := Reading.andThen_eq_take_iff.1 h
  obtain ⟨es', hes', rfl⟩ := Reading.map_eq_take_iff.1 hbehind
  rw [hop, Reading.taken_take] at hes'
  exact ⟨rs, operand?, rs', es', hop, operand_progresses hin t ts _ _ hop, hes', rfl, rfl⟩

theorem behindOperand_eq_take {ts : List Token} {roles : List Role} {es : List Expr}
    (h : behindOperand allowed inside ts = .take roles es) :
    (gap? ts = none ∧ roles = [] ∧ es = []) ∨
      ∃ gap rs, gap? ts = some gap ∧ roles = gap ++ rs ∧
        clause allowed inside (ts.drop gap.length) = .take rs es := by
  rcases hgap : gap? ts with - | gap
  · rw [behindOperand_of_ends hgap] at h
    obtain ⟨rfl, rfl⟩ := Reading.take_inj.1 h
    exact .inl ⟨rfl, rfl, rfl⟩
  · rw [behindOperand_of_gap hgap] at h
    obtain ⟨rs, _, rs', e, hclause, rfl⟩ := Reading.andThen_eq_take_iff.1 h
    obtain ⟨rfl, -⟩ := Reading.take_inj.1 e
    exact .inr ⟨gap, rs', rfl, rfl, hclause⟩

theorem clauses_eq_take {ts : List Token} {roles : List Role} {css : List (List Expr)}
    (h : clauses allowed inside ts = .take roles css) :
    ∃ rs es rs' css', clause allowed inside ts = .take rs es ∧
      behindClause allowed inside (ts.drop rs.length) = .take rs' css' ∧
      roles = rs ++ rs' ∧ css = es :: css' := by
  rw [clauses_eq] at h
  obtain ⟨rs, es, rs', hclause, hbehind, rfl⟩ := Reading.andThen_eq_take_iff.1 h
  obtain ⟨css', hcss', rfl⟩ := Reading.map_eq_take_iff.1 hbehind
  rw [hclause, Reading.taken_take] at hcss'
  exact ⟨rs, es, rs', css', hclause, hcss', rfl, rfl⟩

theorem behindClause_eq_take {ts : List Token} {roles : List Role} {css : List (List Expr)}
    (h : behindClause allowed inside ts = .take roles css) :
    (alternativeAhead ts = false ∧ roles = [] ∧ css = []) ∨
      ∃ rs, alternativeAhead ts = true ∧ roles = .alternates :: rs ∧
        clauses allowed inside (ts.drop 1) = .take rs css := by
  unfold behindClause at h
  by_cases hahead : alternativeAhead ts = true
  · rw [if_pos hahead] at h
    obtain ⟨rs, _, rs', e, hclauses, rfl⟩ := Reading.andThen_eq_take_iff.1 h
    obtain ⟨rfl, -⟩ := Reading.take_inj.1 e
    exact .inr ⟨rs', hahead, rfl, hclauses⟩
  · rw [if_neg hahead] at h
    obtain ⟨rfl, rfl⟩ := Reading.take_inj.1 h
    exact .inl ⟨by simpa using hahead, rfl, rfl⟩

/-- The parentheses of a group meet no keys. -/
theorem filterMap_key?_enclosed (roles : List Role) :
    (Role.opens :: (roles ++ [.closes])).filterMap Role.key? = roles.filterMap Role.key? := by
  rw [List.filterMap_cons_none rfl, List.filterMap_append]
  exact List.append_nil _

theorem group_succ_eq_take {depth : Nat} {ts : List Token} {roles : List Role}
    {expr? : Option Expr} (h : group allowed (depth + 1) ts = .take roles expr?) :
    ∃ rs, disjunction allowed (group allowed depth) ts = .take rs expr? ∧
      closeAhead (ts.drop rs.length) = true ∧ roles = .opens :: (rs ++ [.closes]) := by
  rw [group] at h
  obtain ⟨rs, _, rs', e, hinner, rfl⟩ := Reading.andThen_eq_take_iff.1 h
  obtain ⟨rfl, -⟩ := Reading.take_inj.1 e
  obtain ⟨rs, inner, rs', hdisj, hclose, rfl⟩ := Reading.andThen_eq_take_iff.1 hinner
  rw [hdisj, Reading.taken_take] at hclose
  split at hclose
  · rename_i hahead
    obtain ⟨rfl, rfl⟩ := Reading.take_inj.1 hclose
    exact ⟨rs, hdisj, hahead, rfl⟩
  · cases hclose

/-! ### Results by induction -/

/-- Induction over what is left of a list when tokens are taken from its
front: the rules go on there and nowhere else. -/
theorem rest_induction {motive : List Token → Prop}
    (step : ∀ ts, (∀ k, (ts.drop k).length < ts.length → motive (ts.drop k)) → motive ts)
    (ts : List Token) : motive ts := by
  suffices h : ∀ n (ts : List Token), ts.length = n → motive ts from h _ ts rfl
  intro n
  induction n using Nat.strongRecOn with
  | ind n ih =>
    intro ts hts
    exact step ts fun k hk => ih _ (hts ▸ hk) _ rfl

/-- The operands of a clause with the roles of their tokens. -/
inductive ClauseTakes (allowed : String → Bool) (inside : List Token → Reading (Option Expr)) :
    List Token → List Role → List Expr → Prop
  | nil : ClauseTakes allowed inside [] [] []
  | last {t ts rs operand?} : operand allowed inside t ts = .take rs operand? →
      gap? ((t :: ts).drop rs.length) = none →
      ClauseTakes allowed inside (t :: ts) rs operand?.toList
  | cons {t ts rs operand? gap rs' es} : operand allowed inside t ts = .take rs operand? →
      gap? ((t :: ts).drop rs.length) = some gap →
      ClauseTakes allowed inside ((t :: ts).drop (rs.length + gap.length)) rs' es →
      ClauseTakes allowed inside (t :: ts) (rs ++ (gap ++ rs')) (operand?.toList ++ es)

theorem clauseTakes_of_eq (hin : ∀ ts, Progresses (inside ts)) {ts : List Token}
    {roles : List Role} {es : List Expr} (h : clause allowed inside ts = .take roles es) :
    ClauseTakes allowed inside ts roles es := by
  induction ts using rest_induction generalizing roles es with
  | step ts ih =>
    cases ts with
    | nil =>
      rw [clause] at h
      obtain ⟨rfl, rfl⟩ := Reading.take_inj.1 h
      exact .nil
    | cons t ts =>
      obtain ⟨rs, operand?, rs', es', hop, hne, hbehind, rfl, rfl⟩ := clause_cons_eq_take hin h
      rcases behindOperand_eq_take hbehind with
        ⟨hgap, rfl, rfl⟩ | ⟨gap, rs', hgap, rfl, hclause⟩
      · rw [List.append_nil, List.append_nil]
        exact .last hop hgap
      · -- the operand took a token, so the next one begins in a shorter list
        rw [List.drop_drop] at hclause
        have hshort : ((t :: ts).drop (rs.length + gap.length)).length
            < (t :: ts).length := by
          have := List.length_pos_iff.2 hne
          simp only [List.length_drop, List.length_cons]
          omega
        exact .cons hop hgap (ih _ hshort hclause)

/-- The clauses of a query with the roles of their tokens. -/
inductive ClausesTake (allowed : String → Bool) (inside : List Token → Reading (Option Expr)) :
    List Token → List Role → List (List Expr) → Prop
  | last {ts rs es} : ClauseTakes allowed inside ts rs es →
      alternativeAhead (ts.drop rs.length) = false → ClausesTake allowed inside ts rs [es]
  | cons {ts rs es rs' css} : ClauseTakes allowed inside ts rs es →
      alternativeAhead (ts.drop rs.length) = true →
      ClausesTake allowed inside (ts.drop (rs.length + 1)) rs' css →
      ClausesTake allowed inside ts (rs ++ .alternates :: rs') (es :: css)

theorem clausesTake_of_eq (hin : ∀ ts, Progresses (inside ts)) {ts : List Token}
    {roles : List Role} {css : List (List Expr)}
    (h : clauses allowed inside ts = .take roles css) :
    ClausesTake allowed inside ts roles css := by
  induction ts using rest_induction generalizing roles css with
  | step ts ih =>
    obtain ⟨rs, es, rs', css', hclause, hbehind, rfl, rfl⟩ := clauses_eq_take h
    have hes := clauseTakes_of_eq hin hclause
    rcases behindClause_eq_take hbehind with
      ⟨hahead, rfl, rfl⟩ | ⟨rs', hahead, rfl, hclauses⟩
    · rw [List.append_nil]
      exact .last hes hahead
    · -- a clause may be empty, but the `OR` behind it is not
      rw [List.drop_drop] at hclauses
      have hshort : (ts.drop (rs.length + 1)).length < ts.length := by
        have hpos : 0 < (ts.drop rs.length).length := by
          refine List.length_pos_iff.2 fun e => ?_
          simp [e, alternativeAhead] at hahead
        simp only [List.length_drop] at hpos ⊢
        omega
      exact .cons hes hahead (ih _ hshort hclauses)

/-! ### From results back to the rules -/

/-- What the relation says of a clause is what the rule comes to. -/
theorem ClauseTakes.clause_eq (hin : ∀ ts, Progresses (inside ts)) {ts : List Token}
    {roles : List Role} {es : List Expr} (h : ClauseTakes allowed inside ts roles es) :
    clause allowed inside ts = .take roles es := by
  induction h with
  | nil => rw [clause]
  | @last t ts rs operand? hop hgap =>
    rw [clause_cons hin, hop, Reading.taken_take, behindOperand_of_ends hgap]
    refine (Reading.take_andThen (Reading.map_take _ _ _)).trans ?_
    rw [List.append_nil, List.append_nil]
  | @cons t ts rs operand? gap rs' es hop hgap _ ih =>
    have hbehind : behindOperand allowed inside ((t :: ts).drop rs.length)
        = .take (gap ++ rs') es := by
      rw [behindOperand_of_gap hgap, List.drop_drop, ih]
      exact Reading.take_andThen rfl
    rw [clause_cons hin, hop, Reading.taken_take, hbehind]
    exact Reading.take_andThen rfl

theorem ClausesTake.clauses_eq (hin : ∀ ts, Progresses (inside ts)) {ts : List Token}
    {roles : List Role} {css : List (List Expr)}
    (h : ClausesTake allowed inside ts roles css) :
    clauses allowed inside ts = .take roles css := by
  induction h with
  | @last ts rs es hclause hahead =>
    rw [Grammar.clauses_eq, hclause.clause_eq hin, Reading.taken_take,
      behindClause_of_ends hahead]
    refine (Reading.take_andThen (Reading.map_take _ _ _)).trans ?_
    rw [List.append_nil]
  | @cons ts rs es rs' css hclause hahead _ ih =>
    have hbehind : behindClause allowed inside (ts.drop rs.length)
        = .take (.alternates :: rs') css := by
      rw [behindClause, if_pos hahead, List.drop_drop, ih]
      exact Reading.take_andThen rfl
    rw [Grammar.clauses_eq, hclause.clause_eq hin, Reading.taken_take, hbehind]
    exact Reading.take_andThen rfl

theorem group_succ_of_disjunction {depth : Nat} {ts : List Token} {roles : List Role}
    {expr? : Option Expr} (h : disjunction allowed (group allowed depth) ts = .take roles expr?)
    (hclose : closeAhead (ts.drop roles.length) = true) :
    group allowed (depth + 1) ts = .take (.opens :: (roles ++ [.closes])) expr? := by
  simp only [group, h, Reading.taken_take, hclose, if_true]
  exact Reading.take_andThen (Reading.take_andThen rfl)

/-! ### Alternatives -/

theorem alternatives?_append (css : List (List Expr)) (es : List Expr) :
    alternatives? (css ++ [es]) = either? (alternatives? css) (conjunction? es) := by
  rw [alternatives?, List.map_append, List.foldl_append]
  rfl

/-! ### Where clauses and queries stop -/

theorem alternates_eq_false_of_closes {t : Token} (h : t.closes = true) :
    t.alternates = false := by
  have hclose : t.text = ")" := by simpa [Token.closes] using h
  rw [Token.alternates, hclose]
  decide

/-- Where a query stops, a clause stops and no other clause follows. -/
theorem ends_of_stop {ts : List Token} (h : ts = [] ∨ closeAhead ts = true) :
    gap? ts = none ∧ alternativeAhead ts = false := by
  rcases h with rfl | h
  · exact ⟨rfl, rfl⟩
  · cases ts with
    | nil => cases h
    | cons t ts =>
      have hclose : t.closes = true := h
      exact ⟨gap?_of_ends (.inr hclose) ts, alternates_eq_false_of_closes hclose⟩

/-- A clause stops where it can. -/
theorem ClauseTakes.gap?_behind {ts : List Token} {roles : List Role} {es : List Expr}
    (h : ClauseTakes allowed inside ts roles es) : gap? (ts.drop roles.length) = none := by
  induction h with
  | nil => rfl
  | last _ hgap => exact hgap
  | cons _ _ _ ih =>
    rw [List.drop_drop] at ih
    simpa only [List.length_append, Nat.add_assoc] using ih

theorem eq_nil_or_closeAhead {ts : List Token} (hgap : gap? ts = none)
    (hahead : alternativeAhead ts = false) : ts = [] ∨ closeAhead ts = true := by
  cases ts with
  | nil => exact .inl rfl
  | cons t ts =>
    refine .inr (Decidable.byContradiction fun hclose => ?_)
    have hclose : t.closes = false := by simpa [closeAhead] using hclose
    cases hjoin : t.joins with
    | true => simp [gap?_of_joins hahead hclose hjoin] at hgap
    | false => simp [gap?_of_beside hahead hclose hjoin] at hgap

/-- A query or what stands in a group stops at the end or in front of
a `)`. -/
theorem ClausesTake.stop {ts : List Token} {roles : List Role} {css : List (List Expr)}
    (h : ClausesTake allowed inside ts roles css) :
    ts.drop roles.length = [] ∨ closeAhead (ts.drop roles.length) = true := by
  induction h with
  | last hclause hahead => exact eq_nil_or_closeAhead hclause.gap?_behind hahead
  | cons _ _ _ ih =>
    rw [List.drop_drop] at ih
    simpa only [List.length_append, List.length_cons, Nat.add_assoc, Nat.add_comm 1] using ih

theorem eq_nil_or_closeAhead_behind_disjunction (hin : ∀ ts, Progresses (inside ts))
    {ts : List Token} {expr? : Option Expr}
    (h : (disjunction allowed inside ts).outcome = .ok expr?) :
    ts.drop (disjunction allowed inside ts).taken = [] ∨
      closeAhead (ts.drop (disjunction allowed inside ts).taken) = true := by
  obtain ⟨css, hcss, -⟩ := Reading.map_eq_take_iff.1 (Reading.eq_take_of_outcome h)
  exact (clausesTake_of_eq hin hcss).stop

end SearchQuery.Grammar
