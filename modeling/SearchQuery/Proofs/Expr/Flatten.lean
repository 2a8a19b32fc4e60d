/-
SearchQuery/Proofs/Expr/Flatten.lean

The leaves of an expression by recursion.

The walk over an expression keeps a list of what is still to be visited.
`flatten` says what it comes by without such a list: the leaves of the
operands, one operand after the other.  A walk yields the flattened
expressions ahead of it in order (`toList_drain`), so the leaves of an
expression are its flattening (`leaves_eq_flatten`).

What queries are asked for is read off the leaves: their free texts and the
keys of their filters.
-/
import SearchQuery.Expr.Leaves

namespace SearchQuery.Expr

/-! ### Leaves by recursion -/

mutual

/-- The leaves of an expression, left to right. -/
def flatten : Expr → List Expr
  | .value text => [.value text]
  | .filter condition => [.filter condition]
  | .and operands | .or operands => flattenAll operands

/-- The leaves of several expressions, one behind the other. -/
def flattenAll : List Expr → List Expr
  | [] => []
  | e :: es => flatten e ++ flattenAll es

end

theorem flattenAll_eq_flatMap (es : List Expr) : flattenAll es = es.flatMap flatten := by
  induction es with
  | nil => rfl
  | cons e es ih => rw [flattenAll, ih, List.flatMap_cons]

theorem flattenAll_append (as bs : List Expr) :
    flattenAll (as ++ bs) = flattenAll as ++ flattenAll bs := by
  simp only [flattenAll_eq_flatMap, List.flatMap_append]

/-- The leaves of an expression, if there is one. -/
def leavesOf (expr? : Option Expr) : List Expr :=
  flattenAll expr?.toList

/-! ### The walk -/

/-- What a walk comes by next is the first of the leaves ahead. -/
theorem flattenAll_eq_of_nextLeaf? (ahead : List Expr) :
    flattenAll ahead
      = match nextLeaf? ahead with
        | none => []
        | some (leaf, rest) => leaf :: flattenAll rest := by
  fun_induction nextLeaf? ahead with
  | case1 => rfl
  | case2 operands rest ih | case3 operands rest ih =>
    rw [← ih, flattenAll, flatten, flattenAll_append]
  | case4 leaf rest hand hor =>
    cases leaf with
    | value | filter => rfl
    | and operands => exact absurd rfl (hand operands)
    | or operands => exact absurd rfl (hor operands)

/-- A walk yields the leaves of the expressions ahead of it. -/
theorem toList_drain (done : Array Expr) (ahead : List Expr) :
    (drain done ahead).toList = done.toList ++ flattenAll ahead := by
  fun_induction drain done ahead with
  | case1 done ahead h => rw [flattenAll_eq_of_nextLeaf?, h, List.append_nil]
  | case2 done ahead leaf rest h ih =>
    rw [ih, flattenAll_eq_of_nextLeaf? ahead, h]
    simp

theorem leaves_eq_flatten (e : Expr) : e.leaves = e.flatten := by
  rw [leaves, toList_drain, flattenAll, flattenAll]
  simp

/-! ### Texts and keys -/

/-- The free texts of an expression, left to right. -/
def texts (e : Expr) : List String :=
  e.flatten.filterMap asValue?

/-- The keys that an expression has filters on, left to right. -/
def keys (e : Expr) : List String :=
  (e.flatten.filterMap asFilter?).map Filter.key

theorem values_eq_texts (e : Expr) : e.values = e.texts := by
  rw [values, leaves_eq_flatten, texts]

@[simp] theorem keys_value (text : String) : keys (.value text) = [] := rfl

@[simp] theorem keys_filter (condition : Filter) :
    keys (.filter condition) = [condition.key] := rfl

theorem keys_and (operands : List Expr) : keys (.and operands) = operands.flatMap keys := by
  rw [keys, flatten, flattenAll_eq_flatMap, List.filterMap_flatMap, List.map_flatMap]
  rfl

theorem keys_or (operands : List Expr) : keys (.or operands) = operands.flatMap keys :=
  keys_and operands

theorem key_mem_keys {e : Expr} {condition : Filter} (h : .filter condition ∈ e.flatten) :
    condition.key ∈ e.keys :=
  List.mem_map_of_mem (List.mem_filterMap.2 ⟨_, h, rfl⟩)

theorem flatMap_keys_subset {es : List Expr} {used : List String}
    (h : ∀ e ∈ es, e.keys ⊆ used) : es.flatMap keys ⊆ used := by
  intro key hkey
  obtain ⟨e, he, hkey⟩ := List.mem_flatMap.1 hkey
  exact h e he hkey

end SearchQuery.Expr
