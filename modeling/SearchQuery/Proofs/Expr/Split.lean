/-
SearchQuery/Proofs/Expr/Split.lean

What is left of the meaning when filters on a key are taken out.

Whoever takes the filters on one key out of some operands asks for their values
by other means, and for the other operands as before.  Nothing is lost by it,
because the operands are put together from the two parts and from nothing else
(`interleaves_splitFilters`).  So whatever is the case with all operands, or
with one of them, is the case with all of the parts, or with one of them.

For the meaning of an expression it is left open what its leaves ask for
(`holds`); an operand is an expression like any other, and filters inside it
are part of its meaning.
-/
import SearchQuery.Expr.Split
import SearchQuery.Proofs.Expr.Flatten
import SearchQuery.Proofs.Expr.Interleave

namespace SearchQuery.Expr

/-! ### Meaning -/

mutual

/-- Whether an expression holds where its leaves do as `truth` says. -/
def holds (truth : Expr → Bool) : Expr → Bool
  | .value text => truth (.value text)
  | .filter condition => truth (.filter condition)
  | .and operands => allHold truth operands
  | .or operands => someHolds truth operands

/-- Whether all of several expressions hold. -/
def allHold (truth : Expr → Bool) : List Expr → Bool
  | [] => true
  | e :: es => holds truth e && allHold truth es

/-- Whether one of several expressions holds. -/
def someHolds (truth : Expr → Bool) : List Expr → Bool
  | [] => false
  | e :: es => holds truth e || someHolds truth es

end

variable {truth : Expr → Bool} {key : String} {operands rest : List Expr}

theorem holds_and_iff :
    holds truth (.and operands) = true ↔ ∀ e ∈ operands, holds truth e = true := by
  show allHold truth operands = true ↔ _
  induction operands with
  | nil => simp [allHold]
  | cons e es ih => rw [allHold, Bool.and_eq_true, ih, List.forall_mem_cons]

theorem holds_or_iff :
    holds truth (.or operands) = true ↔ ∃ e ∈ operands, holds truth e = true := by
  show someHolds truth operands = true ↔ _
  induction operands with
  | nil => simp [someHolds]
  | cons e es ih => simp [someHolds, ih]

/-! ### The two parts -/

/-- The filters on a key that ask for these values. -/
def filtersOn (key : String) (values : List String) : List Expr :=
  values.map fun value => .filter ⟨key, value⟩

theorem forall_mem_filtersOn {values : List String} {P : Expr → Prop} :
    (∀ e ∈ filtersOn key values, P e) ↔ ∀ value ∈ values, P (.filter ⟨key, value⟩) :=
  List.forall_mem_map

theorem exists_mem_filtersOn {values : List String} {P : Expr → Prop} :
    (∃ e ∈ filtersOn key values, P e) ↔ ∃ value ∈ values, P (.filter ⟨key, value⟩) := by
  constructor
  · rintro ⟨e, he, hP⟩
    obtain ⟨value, hvalue, rfl⟩ := List.mem_map.1 he
    exact ⟨value, hvalue, hP⟩
  · rintro ⟨value, hvalue, hP⟩
    exact ⟨_, List.mem_map_of_mem hvalue, hP⟩

theorem isFilterOn_iff {e : Expr} :
    isFilterOn key e = true ↔ ∃ value, e = .filter ⟨key, value⟩ := by
  cases e with
  | filter condition =>
    obtain ⟨k, v⟩ := condition
    simp [isFilterOn, asFilter?]
  | value | and | or => simp [isFilterOn, asFilter?]

theorem isFilterOn_of_mem_filtersOn {values : List String} :
    ∀ e ∈ filtersOn key values, isFilterOn key e = true :=
  forall_mem_filtersOn.2 fun value _ => isFilterOn_iff.2 ⟨value, rfl⟩

theorem filtersOn_injective {vs ws : List String} (h : filtersOn key vs = filtersOn key ws) :
    vs = ws := by
  refine (List.map_inj_right fun v w hvw => ?_).1 h
  simpa using hvw

theorem splitFilters_cons_filter (key value : String) (es : List Expr) :
    splitFilters key (.filter ⟨key, value⟩ :: es)
      = (value :: (splitFilters key es).1, (splitFilters key es).2) := by
  have hfilter : isFilterOn key (.filter ⟨key, value⟩) = true := isFilterOn_iff.2 ⟨value, rfl⟩
  have hvalue : valueOf? key (.filter ⟨key, value⟩) = some value := by
    simp [valueOf?, asFilter?, Option.filter]
  simp [splitFilters, hvalue, hfilter]

theorem splitFilters_cons_other {e : Expr} (h : isFilterOn key e = false) (es : List Expr) :
    splitFilters key (e :: es) = ((splitFilters key es).1, e :: (splitFilters key es).2) := by
  have hvalue : valueOf? key e = none := by
    cases e with
    | filter condition =>
      have hkey : ¬ condition.key = key := by simpa [isFilterOn, asFilter?] using h
      simp [valueOf?, asFilter?, Option.filter, hkey]
    | value | and | or => rfl
  simp [splitFilters, hvalue, h]

/-- The operands are put together from the two parts. -/
theorem interleaves_splitFilters (key : String) (operands : List Expr) :
    Interleaves (filtersOn key (splitFilters key operands).1) (splitFilters key operands).2
      operands := by
  induction operands with
  | nil => exact .nil
  | cons e es ih =>
    cases h : isFilterOn key e with
    | true =>
      obtain ⟨value, rfl⟩ := isFilterOn_iff.1 h
      rw [splitFilters_cons_filter]
      exact .left ih
    | false =>
      rw [splitFilters_cons_other h]
      exact .right ih

theorem isFilterOn_of_mem_rest (key : String) (operands : List Expr) :
    ∀ e ∈ (splitFilters key operands).2, isFilterOn key e = false := by
  intro e he
  simpa [splitFilters] using (List.mem_filter.1 he).2

/-- And from no other two parts of which one has the filters on the key. -/
theorem splitFilters_eq_iff {vs : List String} :
    splitFilters key operands = (vs, rest) ↔
      Interleaves (filtersOn key vs) rest operands ∧ ∀ e ∈ rest, isFilterOn key e = false := by
  constructor
  · intro h
    have hparts := interleaves_splitFilters key operands
    have hrest := isFilterOn_of_mem_rest key operands
    rw [h] at hparts hrest
    exact ⟨hparts, hrest⟩
  · rintro ⟨h, hrest⟩
    obtain ⟨hvs, hrs⟩ := h.eq_filter isFilterOn_of_mem_filtersOn hrest
    obtain ⟨hvs', hrs'⟩ := (interleaves_splitFilters key operands).eq_filter
      isFilterOn_of_mem_filtersOn (isFilterOn_of_mem_rest key operands)
    exact Prod.ext (filtersOn_injective (hvs'.trans hvs.symm)) (hrs'.trans hrs.symm)

theorem flatMap_flatten_filtersOn (key : String) (vs : List String) :
    (filtersOn key vs).flatMap flatten = filtersOn key vs := by
  induction vs with
  | nil => rfl
  | cons v vs ih => exact congrArg (Expr.filter ⟨key, v⟩ :: ·) ih

/-! ### The meaning of the parts -/

/-- **Taking out the filters on a key keeps the meaning.**  The values and the
other operands are the only ones of which the operands are put together if no
filter on the key is among the others.  Whatever the leaves ask for, the
operands all hold if the filters that were taken out and the others all do, and
one of them holds if one of these does.  What is no filter on the key stays, and
with it all leaves that it has, filters on the key included. -/
theorem splitFilters_keeps_meaning (key : String) (operands : List Expr) :
    let values := (splitFilters key operands).1
    let rest := (splitFilters key operands).2
    (∀ vs es, splitFilters key operands = (vs, es) ↔
        Interleaves (filtersOn key vs) es operands ∧ ∀ e ∈ es, isFilterOn key e = false) ∧
      (∀ truth, holds truth (.and operands) = true ↔
        (∀ value ∈ values, truth (.filter ⟨key, value⟩) = true) ∧
          ∀ e ∈ rest, holds truth e = true) ∧
      (∀ truth, holds truth (.or operands) = true ↔
        (∃ value ∈ values, truth (.filter ⟨key, value⟩) = true) ∨
          ∃ e ∈ rest, holds truth e = true) ∧
      (∀ e ∈ operands, (∀ value, e ≠ .filter ⟨key, value⟩) → e ∈ rest) ∧
      Interleaves (filtersOn key values) (rest.flatMap flatten) (operands.flatMap flatten) := by
  intro values rest
  have hparts : Interleaves (filtersOn key values) rest operands :=
    interleaves_splitFilters key operands
  refine ⟨fun vs es => splitFilters_eq_iff, fun truth => ?_, fun truth => ?_, ?_, ?_⟩
  · rw [holds_and_iff, hparts.forall_iff, forall_mem_filtersOn]
    rfl
  · rw [holds_or_iff, hparts.exists_iff, exists_mem_filtersOn]
    rfl
  · intro e he hne
    rcases hparts.mem_iff.1 he with hvalue | hrest
    · obtain ⟨value, rfl⟩ := isFilterOn_iff.1 (isFilterOn_of_mem_filtersOn e hvalue)
      exact absurd rfl (hne value)
    · exact hrest
  · have hleaves := hparts.flatMap flatten
    rwa [flatMap_flatten_filtersOn] at hleaves

end SearchQuery.Expr
