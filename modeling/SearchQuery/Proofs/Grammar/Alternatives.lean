/-
SearchQuery/Proofs/Grammar/Alternatives.lean

How many alternatives a query can have.

An operator `or` comes about where a clause ends and there is something in
front of it.  Clauses end at a separator, at the end of a group and at the end
of the query; but at both kinds of ends this is the last of several clauses, so
there was a separator in front of it.  What the machine has read is counted
with this in mind: a level with clauses that are complete has one operator
more to come (`Level.ors`).  Then only a separator adds to the count
(`ors_le_of_step`).

Main statement: an expression has no more operators `or` than there are tokens
that can separate clauses (`orsAll_le_of_ok`).
-/
import SearchQuery.Proofs.Expr.Ways
import SearchQuery.Proofs.Grammar.Endings

namespace SearchQuery.Grammar

open SearchQuery.Expr (orsAll orsAll_append)

/-! ### Expressions of clauses -/

theorem orsAll_freeText? (text : String) : orsAll (freeText? text).toList = 0 := by
  unfold freeText?
  cases Text.trimmed? text <;> rfl

theorem orsAll_filterOn? (key text : String) : orsAll (filterOn? key text).toList = 0 := by
  unfold filterOn?
  cases Text.trimmed? text <;> rfl

theorem orsAll_conjunction? (es : List Expr) : orsAll (conjunction? es).toList = orsAll es := by
  match es with
  | [] | [_] | _ :: _ :: _ => rfl

/-- Two expressions come to one more operator than they have. -/
theorem orsAll_either?_le (left right : Option Expr) :
    orsAll (either? left right).toList
      ≤ left.toList.length + orsAll left.toList + orsAll right.toList := by
  cases left with
  | none =>
    cases right with
    | none => exact Nat.le_refl _
    | some r => exact Nat.le_of_eq (Nat.zero_add _).symm
  | some l =>
    cases right with
    | none => exact Nat.le_add_left _ 1
    | some r =>
      show orsAll [l, r] + 1 + 0 ≤ 1 + orsAll [l] + orsAll [r]
      rw [← List.singleton_append, orsAll_append]
      omega

namespace Machine

/-! ### What has been read -/

/-- The operators `or` of a level, with one to come behind complete clauses. -/
def Level.ors (l : Level) : Nat :=
  l.before.toList.length + orsAll l.before.toList + orsAll l.operands

namespace Level

theorem orsAll_expr?_le (l : Level) : orsAll l.expr?.toList ≤ l.ors := by
  have hle := orsAll_either?_le l.before (conjunction? l.operands)
  rwa [orsAll_conjunction?] at hle

@[simp] theorem ors_add (l : Level) (es : List Expr) : (l.add es).ors = l.ors + orsAll es := by
  simp only [ors, add, orsAll_append, Nat.add_assoc]

theorem ors_alternate_le (l : Level) : l.alternate.ors ≤ l.ors + 1 := by
  have hlength : l.expr?.toList.length ≤ 1 := Option.length_toList_le
  have hle := l.orsAll_expr?_le
  show l.expr?.toList.length + orsAll l.expr?.toList + 0 ≤ l.ors + 1
  omega

end Level

/-- The operators `or` of the levels around the open groups. -/
def orsAround : List Level → Nat
  | [] => 0
  | l :: ls => l.ors + orsAround ls

/-- The operators `or` of all levels. -/
def State.ors (s : State) : Nat :=
  orsAround s.outer + s.here.ors

theorem State.ors_settled (s : State) : s.settled.ors = s.here.ors := by
  unfold settled
  split
  · rw [Level.ors_add, orsAll_freeText?, Nat.add_zero]
  · rfl

/-! ### Steps and runs -/

variable {allowed : String → Bool} {s s' : State} {t : Token} {ts : List Token}
variable {role : Role} {roles : List Role} {outer : List Level} {here : Level}

/-- With its first token no operand adds to the count. -/
theorem Begins.ors_eq (h : Begins allowed outer here t role s') :
    s'.ors = orsAround outer + here.ors := by
  cases h with
  | stray | word => rfl
  | opens =>
    show here.ors + orsAround outer + 0 = _
    rw [Nat.add_zero, Nat.add_comm]
  | @filter key argument =>
    have hleaf := orsAll_filterOn? key argument
    unfold behindKey
    split
    · rename_i e hfilter
      rw [hfilter] at hleaf
      show _ + (here.add [e]).ors = _
      rw [Level.ors_add]
      exact congrArg _ (congrArg _ hleaf)
    · rfl
  | literal =>
    show _ + (here.add [.value t.text]).ors = _
    rw [Level.ors_add]
    rfl
  | phrase =>
    show _ + (here.add (freeText? t.text).toList).ors = _
    rw [Level.ors_add, orsAll_freeText?, Nat.add_zero]

/-- Only a separator adds to the count, and it adds one. -/
theorem ors_le_of_step (h : step allowed s t = .ok (some (role, s'))) :
    s'.ors ≤ s.ors + [t].countP Token.alternates := by
  cases stepsTo_of_step h with
  | expected _ hbegins =>
    rw [hbegins.ors_eq]
    exact Nat.le_add_right _ _
  | beside _ hbegins =>
    rw [hbegins.ors_eq, State.ors_settled]
    exact Nat.le_add_right _ _
  | goesOn hgo =>
    rcases goOn?_eq_some hgo with ⟨_, _, _, rfl⟩ | ⟨key, _, _, rfl⟩
    · exact Nat.le_add_right _ _
    · show _ + (s.here.add (filterOn? key t.text).toList).ors ≤ _
      rw [Level.ors_add, orsAll_filterOn?]
      exact Nat.le_add_right _ _
  | alternates _ halt =>
    have hle := s.settled.ors_alternate_le
    rw [State.ors_settled] at hle
    have hone : [t].countP Token.alternates = 1 := by simp [halt]
    show orsAround s.outer + s.settled.alternate.ors ≤ s.ors + _
    rw [hone, State.ors]
    omega
  | joins =>
    show orsAround s.outer + s.settled.ors ≤ s.ors + _
    rw [State.ors_settled]
    exact Nat.le_add_right _ _
  | @closes l ls _ _ houter =>
    -- the level that has ended comes to an operand of the one around it
    have hle := s.settled.orsAll_expr?_le
    rw [State.ors_settled] at hle
    show orsAround ls + (l.add s.settled.expr?.toList).ors ≤ s.ors + _
    rw [Level.ors_add, State.ors, houter, orsAround]
    omega

theorem Passes.ors_le (h : Passes allowed s ts roles s') :
    s'.ors ≤ s.ors + ts.countP Token.alternates := by
  induction h with
  | nil => exact Nat.le_add_right _ _
  | @cons s t role s₁ ts roles s₂ hstep _ ih =>
    have hone := ors_le_of_step hstep
    rw [← List.singleton_append, List.countP_append]
    omega

end Machine

variable {allowed : String → Bool} {ts : List Token}

/-- **No more alternatives than separators.** -/
theorem orsAll_le_of_ok {expr? : Option Expr} (h : (parse allowed ts).outcome = .ok expr?) :
    orsAll expr?.toList ≤ ts.countP Token.alternates := by
  obtain ⟨before, behind, roles, s', rfl, hpass, -, -, rfl⟩ := exists_passes_of_ok h
  have hlevel : orsAll s'.settled.expr?.toList ≤ s'.here.ors :=
    s'.ors_settled ▸ s'.settled.orsAll_expr?_le
  have hrun : s'.ors ≤ 0 + before.countP Token.alternates := hpass.ors_le
  have hhere : s'.here.ors ≤ s'.ors := Nat.le_add_left _ _
  rw [List.countP_append]
  omega

end SearchQuery.Grammar
