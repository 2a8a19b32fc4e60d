/-
SearchQuery/Proofs/Grammar/Narrow.lean

Reading with fewer allowed keys.

Allowed keys are looked up in two places: to tell a filter from a text that
stands as it is, and to end a run of words in front of a filter.  In both the
filter is read next, so a key that is found allowed is met there and then.  A
reading that never met a key goes the same way without it (`parse_narrow`).

`Narrows` relates two sets of allowed keys, the second of which lacks only
keys that a reading did not meet.  Pieces, clauses and groups are then read
the same with both; what has to be seen for a run of words is that no filter
behind it was among those taken away (`NextKept`).
-/
import SearchQuery.Proofs.Grammar.Pieces
import SearchQuery.Proofs.Grammar.Words

namespace SearchQuery.Grammar

/-! ### Fewer allowed keys -/

/-- No key becomes allowed, and those that were met stay so. -/
structure Narrows (allowed allowed' : String → Bool) (roles : List Role) : Prop where
  sub : ∀ key, allowed key = false → allowed' key = false
  kept : ∀ key ∈ roles.filterMap Role.key?, allowed key = true → allowed' key = true

/-- If a filter comes next, its key stays allowed. -/
def NextKept (allowed allowed' : String → Bool) (ts : List Token) : Prop :=
  ∀ t ∈ ts.head?, ∀ key ∈ t.key?, allowed key = true → allowed' key = true

variable {allowed allowed' : String → Bool} {roles rs : List Role} {ts : List Token}
variable {t : Token}

theorem Narrows.mono (h : Narrows allowed allowed' roles)
    (hsub : rs.filterMap Role.key? ⊆ roles.filterMap Role.key?) : Narrows allowed allowed' rs :=
  ⟨h.sub, fun key hkey => h.kept key (hsub hkey)⟩

theorem Narrows.left (h : Narrows allowed allowed' (roles ++ rs)) :
    Narrows allowed allowed' roles :=
  h.mono (by rw [List.filterMap_append]; exact List.subset_append_left _ _)

theorem Narrows.right (h : Narrows allowed allowed' (roles ++ rs)) :
    Narrows allowed allowed' rs :=
  h.mono (by rw [List.filterMap_append]; exact List.subset_append_right _ _)

/-! ### Operands -/

theorem continuesRun_imp
    (hkeys : ∀ key ∈ t.key?, allowed key = false → allowed' key = false)
    (h : continuesRun allowed t = true) : continuesRun allowed' t = true := by
  obtain ⟨hquoted, hopen, hclose, hop, hkey⟩ := continuesRun_iff.1 h
  exact continuesRun_iff.2
    ⟨hquoted, hopen, hclose, hop, fun key hmem => hkeys key hmem (hkey key hmem)⟩

/-- A run of words ends where it ended, if that was in front of no filter that
was taken away. -/
theorem not_continuesRun_of_nextKept (hnext : NextKept allowed allowed' ts)
    (h : ∀ u ∈ ts.head?, continuesRun allowed u = false) :
    ∀ u ∈ ts.head?, continuesRun allowed' u = false := by
  intro u hu
  refine Bool.eq_false_iff.2 fun hgoes => ?_
  have hgoes : continuesRun allowed u = true := by
    refine continuesRun_imp (fun key hmem hkey => ?_) hgoes
    refine Bool.eq_false_iff.2 fun hallowed => ?_
    rw [hnext u hu key hmem hallowed] at hkey
    cases hkey
  rw [h u hu] at hgoes
  cases hgoes

theorem Piece.IsOperand.narrow {p : Piece} (h : p.IsOperand allowed ts)
    (hnarrow : Narrows allowed allowed' p.roles) (hnext : NextKept allowed allowed' ts) :
    p.IsOperand allowed' ts := by
  cases h with
  | stray hop => exact .stray hop
  | filter hcut hkey hne =>
    exact .filter hcut (hnarrow.kept _ List.mem_cons_self hkey) hne
  | bare hcut hkey hblank hhead =>
    exact .bare hcut (hnarrow.kept _ List.mem_cons_self hkey) hblank hhead
  | valued hcut hkey hblank hquoted =>
    exact .valued hcut (hnarrow.kept _ List.mem_cons_self hkey) hblank hquoted
  | literal hcut hkey => exact .literal hcut (hnarrow.sub _ hkey)
  | phrase hquoted hop hopen hcut => exact .phrase hquoted hop hopen hcut
  | words hquoted hop hopen hcut hwords hhead =>
    exact .words hquoted hop hopen hcut
      (fun u hu => continuesRun_imp (fun key _ => hnarrow.sub key) (hwords u hu))
      (not_continuesRun_of_nextKept hnext hhead)

section

variable {inside inside' : List Token → Reading (Option Expr)}

/-- The groups inside are read the same with fewer allowed keys. -/
def GroupsNarrow (allowed allowed' : String → Bool)
    (inside inside' : List Token → Reading (Option Expr)) : Prop :=
  ∀ ts roles expr?, inside ts = .take roles expr? → Narrows allowed allowed' roles →
    inside' ts = .take roles expr?

theorem operand_narrow (hin : GroupsNarrow allowed allowed' inside inside')
    {expr? : Option Expr} (h : operand allowed inside t ts = .take rs expr?)
    (hnarrow : Narrows allowed allowed' rs)
    (hnext : NextKept allowed allowed' ((t :: ts).drop rs.length)) :
    operand allowed' inside' t ts = .take rs expr? := by
  rcases operand_eq_take h with ⟨hopen, hgroup⟩ | ⟨p, rest, hp, htokens, rfl, rfl⟩
  · rw [operand_of_opens hopen]
    exact hin ts rs expr? hgroup hnarrow
  · rw [htokens, p.length_roles, List.drop_left] at hnext
    exact operand_of_isOperand (hp.narrow hnarrow hnext) htokens

/-! ### Clauses -/

/-- An operand that begins with an allowed key meets it. -/
theorem mem_of_operand {expr? : Option Expr} {key : String}
    (h : operand allowed inside t ts = .take rs expr?) (hkey : t.key? = some key)
    (hallowed : allowed key = true) : key ∈ rs.filterMap Role.key? := by
  obtain ⟨argument, hcut⟩ := Token.key?_eq_some_iff.1 hkey
  rw [operand_of_cutAtColon hcut, if_pos hallowed] at h
  obtain ⟨rs, rfl⟩ := exists_roles_of_filter h
  exact List.mem_cons_self

/-- The same of a clause. -/
theorem ClauseTakes.mem {es : List Expr} {key : String}
    (h : ClauseTakes allowed inside (t :: ts) rs es) (hkey : t.key? = some key)
    (hallowed : allowed key = true) : key ∈ rs.filterMap Role.key? := by
  cases h with
  | last hop _ => exact mem_of_operand hop hkey hallowed
  | cons hop _ _ =>
    rw [List.filterMap_append]
    exact List.mem_append_left _ (mem_of_operand hop hkey hallowed)

/-- A token with a key stands beside the operand in front of it. -/
theorem gap?_of_key? {key : String} (h : t.key? = some key) (ts : List Token) :
    gap? (t :: ts) = some [] := by
  obtain ⟨-, -, halt, hclose, hjoin⟩ := Token.apart_of_key? h
  exact gap?_of_beside halt hclose hjoin ts

/-- Where a clause ends, no filter comes next. -/
theorem nextKept_of_ends (h : gap? ts = none) : NextKept allowed allowed' ts := by
  cases ts with
  | nil =>
    intro u hu
    cases hu
  | cons t ts =>
    intro u hu key hkey _
    obtain rfl : t = u := Option.some_inj.1 hu
    rw [gap?_of_key? hkey] at h
    cases h

/-- Where a clause goes on, the key that comes next is met. -/
theorem nextKept_of_gap {gap : List Role} {es : List Expr} (hgap : gap? ts = some gap)
    (h : ClauseTakes allowed inside (ts.drop gap.length) rs es)
    (hnarrow : Narrows allowed allowed' rs) : NextKept allowed allowed' ts := by
  cases ts with
  | nil =>
    intro u hu
    cases hu
  | cons t ts =>
    intro u hu key hkey hallowed
    obtain rfl : t = u := Option.some_inj.1 hu
    rw [gap?_of_key? hkey] at hgap
    obtain rfl := Option.some_inj.1 hgap
    exact hnarrow.kept key (h.mem hkey hallowed) hallowed

theorem ClauseTakes.narrow (hin : GroupsNarrow allowed allowed' inside inside')
    {es : List Expr} (h : ClauseTakes allowed inside ts roles es)
    (hnarrow : Narrows allowed allowed' roles) : ClauseTakes allowed' inside' ts roles es := by
  induction h with
  | nil => exact .nil
  | last hop hgap => exact .last (operand_narrow hin hop hnarrow (nextKept_of_ends hgap)) hgap
  | cons hop hgap hrest ih =>
    have hright := hnarrow.right.right
    -- a filter behind the operand is the next operand, so its key was met there
    rw [← List.drop_drop] at hrest
    exact .cons (operand_narrow hin hop hnarrow.left (nextKept_of_gap hgap hrest hright)) hgap
      (ih hright)

theorem ClausesTake.narrow (hin : GroupsNarrow allowed allowed' inside inside')
    {css : List (List Expr)} (h : ClausesTake allowed inside ts roles css)
    (hnarrow : Narrows allowed allowed' roles) : ClausesTake allowed' inside' ts roles css := by
  induction h with
  | last hclause hahead => exact .last (hclause.narrow hin hnarrow) hahead
  | @cons ts rs es rs' css hclause hahead _ ih =>
    refine .cons (hclause.narrow hin hnarrow.left) hahead (ih ?_)
    exact hnarrow.right.mono (List.Subset.refl _)

theorem disjunction_narrow (hin : GroupsNarrow allowed allowed' inside inside')
    (hprog : ∀ ts, Progresses (inside ts)) (hprog' : ∀ ts, Progresses (inside' ts))
    {expr? : Option Expr} (h : disjunction allowed inside ts = .take roles expr?)
    (hnarrow : Narrows allowed allowed' roles) :
    disjunction allowed' inside' ts = .take roles expr? := by
  obtain ⟨css, hclauses, rfl⟩ := Reading.map_eq_take_iff.1 h
  have := ((clausesTake_of_eq hprog hclauses).narrow hin hnarrow).clauses_eq hprog'
  rw [disjunction, this]
  rfl

end

/-! ### Groups and queries -/

theorem groupsNarrow_group (depth : Nat) :
    GroupsNarrow allowed allowed' (group allowed depth) (group allowed' depth) := by
  induction depth with
  | zero =>
    intro ts roles expr? h
    cases h
  | succ depth ih =>
    intro ts roles expr? h hnarrow
    obtain ⟨rs, hdisj, hclose, rfl⟩ := group_succ_eq_take h
    have hnarrow : Narrows allowed allowed' rs := by
      refine hnarrow.mono ?_
      rw [filterMap_key?_enclosed]
      exact List.Subset.refl _
    exact group_succ_of_disjunction
      (disjunction_narrow ih (group_progresses depth) (group_progresses depth) hdisj hnarrow)
      hclose

/-- Tokens are read the same without keys that were not met. -/
theorem parse_narrow {expr? : Option Expr} (h : parse allowed ts = .take roles expr?)
    (hnarrow : Narrows allowed allowed' roles) : parse allowed' ts = .take roles expr? :=
  disjunction_narrow (groupsNarrow_group maxDepth) (group_progresses maxDepth)
    (group_progresses maxDepth) h hnarrow

end SearchQuery.Grammar
