/-
SearchQuery/Proofs/Grammar/Conjunctions.lean

`OR` binds looser than anything else.

A conjunction is a list of tokens that is one clause by itself, from its first
token to its last.  Its last operand may be a group, a run of words or a filter
that waits for its value, and an `OR` behind it ends all three.  So the machine
goes past a conjunction in the same way whatever clauses stand in front of it
(`IsConjunction.exists_passes`), and the `OR` behind it only ever adds what the
conjunction has come to.

Main statement: conjunctions with an `OR` between each two are read as a query
that takes all tokens, comes to the expressions of the conjunctions from the
left and marks the keys that they mark (`parse_intercalate_or`).
-/
import Mathlib.Data.List.Forall2
import Mathlib.Data.List.ReduceOption
import SearchQuery.Proofs.Grammar.Enclosed
import SearchQuery.Proofs.Grammar.Explicit
import SearchQuery.Proofs.Grammar.Pieces
import SearchQuery.Proofs.KeyMarks.Lookup

namespace SearchQuery.Grammar

variable {allowed : String → Bool} {inside : List Token → Reading (Option Expr)}
variable {t : Token} {ts us : List Token} {roles : List Role}

/-! ### Operands of a clause -/

/-- The tokens `ts`, in front of `us`, are one operand. -/
def TakesOperand (allowed : String → Bool) (inside : List Token → Reading (Option Expr))
    (ts us : List Token) (operand? : Option Expr) : Prop :=
  ∃ t rest roles, ts = t :: rest ∧ operand allowed inside t (rest ++ us) = .take roles operand? ∧
    roles.length = ts.length

/-- Tokens are operands side by side or with an `AND` between them, and these
are what the operands come to, with `none` for one that is dropped. -/
inductive Operands (allowed : String → Bool) (inside : List Token → Reading (Option Expr)) :
    List Token → List (Option Expr) → Prop
  | last {ts operand?} : TakesOperand allowed inside ts [] operand? →
      Operands allowed inside ts [operand?]
  | beside {ts u us operand? es} : TakesOperand allowed inside ts (u :: us) operand? →
      u.alternates = false → u.closes = false → u.joins = false →
      Operands allowed inside (u :: us) es →
      Operands allowed inside (ts ++ u :: us) (operand? :: es)
  | joined {ts u us operand? es} : TakesOperand allowed inside ts (u :: us) operand? →
      u.joins = true → Operands allowed inside us es →
      Operands allowed inside (ts ++ u :: us) (operand? :: es)

/-- Tokens that an operand takes, and what is left behind them. -/
theorem exists_takesOperand {operand? : Option Expr}
    (h : operand allowed inside t ts = .take roles operand?) (hle : roles.length ≤ ts.length + 1)
    (hne : roles ≠ []) :
    ∃ front, t :: ts = front ++ (t :: ts).drop roles.length ∧
      TakesOperand allowed inside front ((t :: ts).drop roles.length) operand? := by
  obtain ⟨k, hk⟩ : ∃ k, roles.length = k + 1 :=
    Nat.exists_eq_succ_of_ne_zero (Nat.ne_of_gt (List.length_pos_iff.2 hne))
  rw [hk, List.drop_succ_cons]
  refine ⟨t :: ts.take k, ?_, t, ts.take k, roles, rfl, ?_, ?_⟩
  · rw [List.cons_append, List.take_append_drop]
  · rwa [List.take_append_drop]
  · rw [List.length_cons, List.length_take, hk]
    omega

/-- A clause that takes all tokens and does not end with an `AND` consists of
operands. -/
theorem ClauseTakes.exists_operands {es : List Expr} (hprog : ∀ ts, Progresses (inside ts))
    (h : ClauseTakes allowed inside ts roles es) (hne : ts ≠ []) (hall : roles.length = ts.length)
    (hlast : roles.getLast? ≠ some .joins) :
    ∃ os, Operands allowed inside ts os ∧ es = os.reduceOption := by
  induction h with
  | nil => exact absurd rfl hne
  | @last t ts rs operand? hop _ =>
    obtain ⟨front, hts, htakes⟩ := exists_takesOperand hop (Nat.le_of_eq hall)
      (operand_progresses hprog t ts _ _ hop)
    rw [hall, List.drop_length] at htakes hts
    rw [hts, List.append_nil]
    exact ⟨[operand?], .last htakes, (List.reduceOption_singleton operand?).symm⟩
  | @cons t ts rs operand? gap rs' es hop hgap _ ih =>
    simp only [List.length_append, List.length_cons] at hall
    obtain ⟨front, hts, htakes⟩ := exists_takesOperand hop (by omega)
      (operand_progresses hprog t ts _ _ hop)
    have hrest : rs'.length = ((t :: ts).drop (rs.length + gap.length)).length := by
      simp only [List.length_drop, List.length_cons]
      omega
    have hrs' : rs'.getLast? ≠ some .joins := fun hjoins => hlast (by simp [hjoins])
    have hreduce : ∀ os : List (Option Expr),
        (operand? :: os).reduceOption = operand?.toList ++ os.reduceOption := fun os => by
      rw [← List.singleton_append, List.reduceOption_append, List.reduceOption_singleton]
    rw [← List.drop_drop] at ih hrest
    obtain ⟨u, us, hgapped, halt, hclose, ⟨hjoin, rfl⟩ | ⟨hjoin, rfl⟩⟩ := gap?_eq_some hgap
    · -- the `AND` is not the last token, so an operand stands behind it
      rw [hgapped] at hts htakes ih hrest
      have hus : us ≠ [] := by
        rintro rfl
        obtain rfl : rs' = [] := List.length_eq_zero_iff.1 hrest
        exact hlast (by simp)
      obtain ⟨os, hos, rfl⟩ := ih hus hrest hrs'
      rw [hts]
      exact ⟨operand? :: os, .joined htakes hjoin hos, (hreduce os).symm⟩
    · rw [hgapped] at hts htakes ih hrest
      obtain ⟨os, hos, rfl⟩ := ih (List.cons_ne_nil u us) hrest hrs'
      rw [hts]
      exact ⟨operand? :: os, .beside htakes halt hclose hjoin hos, (hreduce os).symm⟩

/-! ### The last token of a clause -/

theorem Piece.IsOperand.ends_of_getLast? {p : Piece} (h : p.IsOperand allowed us) :
    ∀ role ∈ p.roles.getLast?, role.ends = true := by
  have hall : ∀ role ∈ p.roles, role.ends = true := by
    cases h <;> simp [Piece.roles, Role.ends]
  exact fun role hrole => hall role (List.mem_of_getLast? hrole)

/-- Neither a separator nor a `(` is the last token of an operand. -/
theorem ends_of_operand {n : Nat} {operand? : Option Expr}
    (h : operand allowed (group allowed n) t ts = .take roles operand?) :
    ∀ role ∈ roles.getLast?, role.ends = true := by
  rcases operand_eq_take h with ⟨-, hgroup⟩ | ⟨p, rest, hp, -, rfl, -⟩
  · cases n with
    | zero => cases hgroup
    | succ n =>
      obtain ⟨rs, -, -, rfl⟩ := group_succ_eq_take hgroup
      rw [← List.cons_append, List.getLast?_concat]
      simp [Role.ends]
  · exact hp.ends_of_getLast?

/-- The last token of a clause is that of an operand, or an `AND`. -/
theorem ClauseTakes.ends_of_getLast? {n : Nat} {es : List Expr}
    (h : ClauseTakes allowed (group allowed n) ts roles es) :
    ∀ role ∈ roles.getLast?, role = .joins ∨ role.ends = true := by
  induction h with
  | nil => exact nofun
  | last hop _ => exact fun role hrole => .inr (ends_of_operand hop role hrole)
  | @cons t ts rs operand? gap rs' es hop hgap _ ih =>
    intro role hrole
    rw [List.getLast?_append, List.getLast?_append, Option.mem_def, Option.or_eq_some_iff,
      Option.or_eq_some_iff] at hrole
    rcases hrole with (hrole | ⟨-, hrole⟩) | ⟨-, hrole⟩
    · exact ih role hrole
    · obtain ⟨_, _, -, -, -, ⟨-, rfl⟩ | ⟨-, rfl⟩⟩ := gap?_eq_some hgap
      · exact .inl (Option.some_inj.1 hrole).symm
      · cases hrole
    · exact .inr (ends_of_operand hop role hrole)

/-! ### Conjunctions -/

/-- Read tokens as one clause outside all groups. -/
def conjunction (allowed : String → Bool) (ts : List Token) : Reading (Option Expr) :=
  (clause allowed (group allowed maxDepth) ts).map conjunction?

/-- Tokens that are one clause, which takes all of them and does not end with
an `AND`. -/
structure IsConjunction (allowed : String → Bool) (ts : List Token) (expr? : Option Expr) :
    Prop where
  ne_nil : ts ≠ []
  outcome : (conjunction allowed ts).outcome = .ok expr?
  taken : (conjunction allowed ts).taken = ts.length
  getLast? : (conjunction allowed ts).roles.getLast? ≠ some .joins

instance (allowed : String → Bool) (ts : List Token) (expr? : Option Expr) :
    Decidable (IsConjunction allowed ts expr?) :=
  decidable_of_iff
    (ts ≠ [] ∧ (conjunction allowed ts).outcome = .ok expr? ∧
      (conjunction allowed ts).taken = ts.length ∧
      (conjunction allowed ts).roles.getLast? ≠ some .joins)
    ⟨fun ⟨hne, hok, hall, hlast⟩ => ⟨hne, hok, hall, hlast⟩,
      fun h => ⟨h.ne_nil, h.outcome, h.taken, h.getLast?⟩⟩

namespace IsConjunction

variable {expr? : Option Expr}

theorem exists_clause (h : IsConjunction allowed ts expr?) :
    ∃ es, clause allowed (group allowed maxDepth) ts = .take (conjunction allowed ts).roles es ∧
      expr? = conjunction? es := by
  have hread := Reading.eq_take_of_outcome h.outcome
  obtain ⟨es, hes, rfl⟩ := Reading.map_eq_take_iff.1 hread
  exact ⟨es, hes, rfl⟩

/-- A conjunction comes to the one operand that was not dropped, to all of
those that were not, in their order, or to nothing. -/
theorem exists_operands (h : IsConjunction allowed ts expr?) :
    ∃ os, Operands allowed (group allowed maxDepth) ts os ∧
      expr? = conjunction? os.reduceOption := by
  obtain ⟨es, hes, rfl⟩ := h.exists_clause
  have hprog : ∀ ts, Progresses (group allowed maxDepth ts) := group_progresses maxDepth
  obtain ⟨os, hos, rfl⟩ :=
    (clauseTakes_of_eq hprog hes).exists_operands hprog h.ne_nil h.taken h.getLast?
  exact ⟨os, hos, rfl⟩

/-- Behind clauses that have come to `before?` the machine goes past a
conjunction, and an `OR` can follow. -/
theorem exists_passes (h : IsConjunction allowed ts expr?) (before? : Option Expr) :
    ∃ s', Machine.Passes allowed ⟨[], { before := before? }, .expect⟩ ts
        (conjunction allowed ts).roles s' ∧
      s'.outer = [] ∧ s'.mode ≠ .expect ∧ s'.settled.expr? = either? before? expr? := by
  obtain ⟨es, hes, rfl⟩ := h.exists_clause
  have hprog : ∀ ts, Progresses (group allowed maxDepth ts) := group_progresses maxDepth
  have hgroups : Machine.PacesGroups allowed [] (group allowed maxDepth) := Machine.paces_group rfl
  have hpace := Machine.paces_clause hprog hgroups { before := before? } ts
  have hread : Machine.read allowed ⟨[], { before := before? }, .expect⟩ ts
      = .take (conjunction allowed ts).roles (either? before? (conjunction? es)) := by
    have hdrop : ts.drop (conjunction allowed ts).roles.length = [] :=
      List.drop_of_length_le (Nat.le_of_eq h.taken.symm)
    rw [hpace, hes, Reading.taken_take, hdrop]
    exact (Reading.take_andThen rfl).trans (congrArg (Reading.take · _) (List.append_nil _))
  obtain ⟨s', hpass, houter, hexpr⟩ := Machine.exists_passes_of_read_all hread h.taken
  refine ⟨s', hpass, houter, ?_, hexpr⟩
  rw [Ne, hpass.expect_iff_getLast? h.ne_nil houter]
  rintro (hjoins | halternates)
  · exact h.getLast? hjoins
  · rcases (clauseTakes_of_eq hprog hes).ends_of_getLast? _ halternates with hrole | hrole
    · cases hrole
    · cases hrole

end IsConjunction

/-! ### Conjunctions with `OR` between them -/

/-- One expression from the left: the first that is there, and every other
beside what has come before it. -/
def leftFold? (es : List (Option Expr)) : Option Expr :=
  match es.reduceOption with
  | [] => none
  | e :: es => some (es.foldl (fun left right => .or [left, right]) e)

theorem foldl_either?_some (es : List (Option Expr)) (left : Expr) :
    es.foldl either? (some left)
      = some (es.reduceOption.foldl (fun left right => .or [left, right]) left) := by
  induction es generalizing left with
  | nil => rfl
  | cons e? es ih =>
    cases e? with
    | none => exact ih left
    | some e => exact ih (.or [left, e])

/-- Clauses that came to nothing are skipped, also in front. -/
theorem foldl_either?_none (es : List (Option Expr)) : es.foldl either? none = leftFold? es := by
  induction es with
  | nil => rfl
  | cons e? es ih =>
    cases e? with
    | none => exact ih
    | some e => exact foldl_either?_some es e

variable {tss : List (List Token)} {es : List (Option Expr)}

/-- The machine goes past conjunctions one by one, whatever came before
them. -/
theorem exists_passes_intercalate_or (h : List.Forall₂ (IsConjunction allowed) tss es)
    (hne : tss ≠ []) (before? : Option Expr) :
    ∃ roles s', Machine.Passes allowed ⟨[], { before := before? }, .expect⟩
        ([.word "OR"].intercalate tss) roles s' ∧
      s'.outer = [] ∧ s'.settled.expr? = es.foldl either? before? ∧
      roles.filterMap Role.key? = tss.flatMap fun ts => (conjunction allowed ts).used := by
  induction h generalizing before? with
  | nil => exact absurd rfl hne
  | @cons ts expr? tss es hts htss ih =>
    obtain ⟨s₁, hpass, houter, hmode, hexpr⟩ := hts.exists_passes before?
    cases htss with
    | nil =>
      rw [List.intercalate_singleton]
      exact ⟨_, s₁, hpass, houter, hexpr, (List.flatMap_singleton ..).symm⟩
    | cons _ _ =>
      -- the `OR` is met behind an operand, and the next clause begins
      have hor : Machine.step allowed s₁ (.word "OR")
          = .ok (some (.alternates, ⟨[], { before := either? before? expr? }, .expect⟩)) := by
        rw [Machine.step_or hmode, houter, Machine.Level.alternate, hexpr]
      obtain ⟨roles, s', hrest, houter', hexpr', hused⟩ :=
        ih (List.cons_ne_nil _ _) (either? before? expr?)
      rw [List.intercalate_cons_cons]
      refine ⟨_, s', (hpass.append (.cons hor .nil)).append hrest, houter', hexpr', ?_⟩
      rw [List.filterMap_append, List.filterMap_append, hused, List.flatMap_cons]
      exact congrArg (· ++ _) (List.append_nil _)

/-- What several readings mark together is marked by one of them. -/
theorem get?_markAll_flatMap {α : Type} (marks : KeyMarks) {as : List α} (hne : as ≠ [])
    (used : α → List String) (key : String) :
    (marks.markAll (as.flatMap used)).get? key
      = (marks.get? key).map fun _ => as.any fun a => (marks.markAll (used a)).isFound key := by
  rw [KeyMarks.get?_markAll]
  cases hkey : marks.get? key with
  | none => rfl
  | some found =>
    have hone : ∀ a, (marks.markAll (used a)).isFound key = (found || decide (key ∈ used a)) := by
      intro a
      rw [KeyMarks.isFound, KeyMarks.get?_markAll, hkey]
      rfl
    simp only [hone, Option.map_some]
    congr 1
    rw [Bool.eq_iff_iff]
    obtain ⟨a, ha⟩ := List.exists_mem_of_ne_nil as hne
    cases found with
    | true => simpa using ⟨a, ha⟩
    | false => simp

/-- **`OR` binds looser than anything else.**  Conjunctions with an `OR`
between each two are a query that takes all tokens.  It comes to what the
conjunctions come to, folded from the left without those that came to nothing,
and it marks the keys that one of them marks.  Each of them is a list of
operands, and comes to the one that was not dropped or to all of those that
were not. -/
theorem parse_intercalate_or (marks : KeyMarks) :
    let allowed := marks.isAllowed
    ∀ tss es, tss ≠ [] → List.Forall₂ (IsConjunction allowed) tss es →
      let ts := [.word "OR"].intercalate tss
      let r := parse allowed ts
      r.outcome = .ok (leftFold? es) ∧ r.taken = ts.length ∧
        (∀ key, (marks.markAll r.used).get? key
          = (marks.get? key).map fun _ =>
              tss.any fun ts => (marks.markAll (conjunction allowed ts).used).isFound key) ∧
        List.Forall₂ (fun ts expr? => ∃ os,
          Operands allowed (group allowed maxDepth) ts os ∧
            expr? = conjunction? os.reduceOption) tss es := by
  intro allowed tss es hne h ts r
  obtain ⟨roles, s', hpass, houter, hexpr, hused⟩ := exists_passes_intercalate_or h hne none
  have hread : r = .take roles (leftFold? es) := by
    have hend : Machine.read allowed s' [] = .take [] (leftFold? es) := by
      rw [Machine.read, houter, hexpr, foldl_either?_none]
      rfl
    show parse allowed ts = _
    rw [parse_eq_read]
    apply Eq.trans hpass.read_eq
    rw [hend]
    exact congrArg (Reading.take · _) (List.append_nil roles)
  refine ⟨?_, ?_, fun key => ?_, ?_⟩
  · rw [hread, Reading.outcome_take]
  · rw [hread, Reading.taken_take, hpass.length_roles]
  · rw [hread, Reading.used_take, hused]
    exact get?_markAll_flatMap marks hne _ key
  · exact h.imp fun _ _ hts => hts.exists_operands

/-- A conjunction that is dropped in front and one in the middle, a group with
an `OR` of its own, and a filter whose value is another token. -/
theorem parse_intercalate_or_dropped :
    let marks := KeyMarks.seeded ["sort", "tag"]
    let allowed := marks.isAllowed
    let tss : List (List Token) :=
      [[.word "OR"],
        [.word "(", .word "a", .word "OR", .phrase "tag:x", .word ")"],
        [.word "AND", .word "tag:"],
        [.word "tag:", .phrase "go lang", .word "and", .word "b", .word "foo:1"]]
    let es : List (Option Expr) :=
      [none, some (.or [.value "a", .filter ⟨"tag", "x"⟩]), none,
        some (.and [.filter ⟨"tag", "go lang"⟩, .value "b foo:1"])]
    let r := parse allowed ([.word "OR"].intercalate tss)
    tss ≠ [] ∧ List.Forall₂ (IsConjunction allowed) tss es ∧
      r.outcome = .ok (some (.or [.or [.value "a", .filter ⟨"tag", "x"⟩],
        .and [.filter ⟨"tag", "go lang"⟩, .value "b foo:1"]])) ∧
      (marks.markAll r.used).get? "tag" = some true ∧
      (marks.markAll r.used).get? "sort" = some false := by
  intro marks allowed tss es r
  have hne : tss ≠ [] := List.cons_ne_nil _ _
  have hall : List.Forall₂ (IsConjunction allowed) tss es := by decide +kernel
  obtain ⟨hok, -, hmarks, -⟩ := parse_intercalate_or marks tss es hne hall
  refine ⟨hne, hall, hok, (hmarks "tag").trans ?_, (hmarks "sort").trans ?_⟩
  · decide +kernel
  · decide +kernel

end SearchQuery.Grammar
