/-
SearchQuery/Proofs/Expr/Walk.lean

The walk over an expression, one visit at a time.

A walk can be made with a stack of the expressions that are still to be
visited.  A visit takes one from the top, and if that is an operator its
operands are put there instead, the last one first, so that the first one is
on top.  The walk of `nextLeaf?` is the same read from the top down, and each
of its calls is some visits (`exists_visits_of_nextLeaf?`).

An operator without operands is a visit that yields nothing and puts nothing
on the stack, so the height of the stack does not tell how far a walk has come.
The number of nodes below the stack does: a visit takes away one node, and a
walk has visited all of them when the stack is empty (`visits_flattenAll`).

What comes of a walk are the leaves in the order in which they stand.  That is
said twice, by recursion (`flatten`) and by position: a leaf is where a path of
operands leads to, and the paths of the leaves are in lexicographic order, each
once (`inOrder_flatten`).
-/
import SearchQuery.Proofs.Expr.Flatten
import SearchQuery.Proofs.Expr.Interleave

namespace SearchQuery.Expr

/-! ### Leaves and operators -/

/-- Whether an expression is free text or a filter. -/
def isLeaf (e : Expr) : Bool :=
  e.asValue?.isSome || e.asFilter?.isSome

/-- An operator with these operands. -/
def Operator (e : Expr) (operands : List Expr) : Prop :=
  e = .and operands ∨ e = .or operands

variable {e f : Expr} {operands : List Expr}

theorem isLeaf_or_operator (e : Expr) : e.isLeaf = true ∨ ∃ operands, e.Operator operands := by
  cases e with
  | value | filter => exact .inl rfl
  | and operands => exact .inr ⟨operands, .inl rfl⟩
  | or operands => exact .inr ⟨operands, .inr rfl⟩

theorem flatten_of_isLeaf (h : e.isLeaf = true) : e.flatten = [e] := by
  cases e with
  | value | filter => rfl
  | and | or => cases h

theorem size_of_isLeaf (h : e.isLeaf = true) : e.size = 1 := by
  cases e with
  | value | filter => rfl
  | and | or => cases h

theorem flatten_of_operator (h : e.Operator operands) : e.flatten = flattenAll operands := by
  rcases h with rfl | rfl <;> rfl

theorem size_of_operator (h : e.Operator operands) : e.size = sizeAll operands + 1 := by
  rcases h with rfl | rfl <;> rfl

theorem children_of_isLeaf (h : e.isLeaf = true) : e.children = [] := by
  cases e with
  | value | filter => rfl
  | and | or => cases h

theorem children_of_operator (h : e.Operator operands) : e.children = operands := by
  rcases h with rfl | rfl <;> rfl

/-! ### Visits -/

/-- Visit the expression on top of a stack: a leaf is yielded, and an operator
leaves its operands on the stack. -/
def visit? (stack : Array Expr) : Option (Option Expr × Array Expr) :=
  match stack.back? with
  | none => none
  | some (.and operands) | some (.or operands) => some (none, stack.pop ++ operands.reverse)
  | some leaf => some (some leaf, stack.pop)

/-- So many visits, the leaves that they yield, and the stack behind them. -/
inductive Visits : Array Expr → Nat → List Expr → Array Expr → Prop
  | refl (stack) : Visits stack 0 [] stack
  | inner {stack next stop n ls} : visit? stack = some (none, next) →
      Visits next n ls stop → Visits stack (n + 1) ls stop
  | leaf {stack next stop l n ls} : visit? stack = some (some l, next) →
      Visits next n ls stop → Visits stack (n + 1) (l :: ls) stop

/-- Expressions as a stack, the first one on top. -/
def stackOf (ahead : List Expr) : Array Expr :=
  ahead.reverse.toArray

/-- The expressions on a stack, from the top down. -/
def fromTop (stack : Array Expr) : List Expr :=
  stack.toList.reverse

theorem stackOf_fromTop (stack : Array Expr) : stackOf (fromTop stack) = stack := by
  simp [stackOf, fromTop]

theorem stackOf_cons (e : Expr) (ahead : List Expr) :
    stackOf (e :: ahead) = (stackOf ahead).push e := by
  simp [stackOf]

theorem stackOf_append (operands ahead : List Expr) :
    stackOf (operands ++ ahead) = stackOf ahead ++ operands.reverse := by
  simp [stackOf]

theorem visit?_of_isLeaf (h : e.isLeaf = true) (ahead : List Expr) :
    visit? (stackOf (e :: ahead)) = some (some e, stackOf ahead) := by
  rw [stackOf_cons, visit?]
  cases e with
  | value | filter => simp
  | and | or => cases h

theorem visit?_of_operator (h : e.Operator operands) (ahead : List Expr) :
    visit? (stackOf (e :: ahead)) = some (none, stackOf (operands ++ ahead)) := by
  rw [stackOf_append, stackOf_cons, visit?]
  rcases h with rfl | rfl <;> simp

theorem exists_visits_of_operator {ls : List Expr} {stop : Array Expr} (h : e.Operator operands)
    {ahead : List Expr} (hvisits : ∃ n, Visits (stackOf (operands ++ ahead)) n ls stop) :
    ∃ n, Visits (stackOf (e :: ahead)) n ls stop := by
  obtain ⟨n, hn⟩ := hvisits
  exact ⟨n + 1, .inner (visit?_of_operator h ahead) hn⟩

/-- A call of the walk is visits up to the first leaf, or to the end. -/
theorem exists_visits_of_nextLeaf? (ahead : List Expr) :
    (nextLeaf? ahead = none → ∃ n, Visits (stackOf ahead) n [] #[]) ∧
      ∀ leaf rest, nextLeaf? ahead = some (leaf, rest) →
        ∃ n, Visits (stackOf ahead) n [leaf] (stackOf rest) := by
  fun_induction nextLeaf? ahead with
  | case1 => exact ⟨fun _ => ⟨0, .refl _⟩, fun leaf rest h => by cases h⟩
  | case2 operands rest ih =>
    have hop : (Expr.and operands).Operator operands := .inl rfl
    exact ⟨fun h => exists_visits_of_operator hop (ih.1 h),
      fun leaf rest h => exists_visits_of_operator hop (ih.2 leaf rest h)⟩
  | case3 operands rest ih =>
    have hop : (Expr.or operands).Operator operands := .inr rfl
    exact ⟨fun h => exists_visits_of_operator hop (ih.1 h),
      fun leaf rest h => exists_visits_of_operator hop (ih.2 leaf rest h)⟩
  | case4 leaf rest hand hor =>
    have hleaf : leaf.isLeaf = true := by
      rcases leaf.isLeaf_or_operator with h | ⟨operands, rfl | rfl⟩
      · exact h
      · exact absurd rfl (hand operands)
      · exact absurd rfl (hor operands)
    refine ⟨fun h => ?_, fun l ls h => ?_⟩
    · cases h
    · obtain ⟨rfl, rfl⟩ : leaf = l ∧ rest = ls := by simpa using h
      exact ⟨1, .leaf (visit?_of_isLeaf hleaf rest) (.refl _)⟩

/-- **A walk visits every node once** and yields the leaves below the stack. -/
theorem visits_flattenAll (ahead : List Expr) :
    Visits (stackOf ahead) (sizeAll ahead) (flattenAll ahead) #[] := by
  -- the nodes below the stack become fewer with every visit
  induction hsize : sizeAll ahead using Nat.strongRecOn generalizing ahead with
  | ind n ih =>
    subst hsize
    cases ahead with
    | nil => exact .refl _
    | cons e ahead =>
      rcases e.isLeaf_or_operator with hleaf | ⟨operands, hop⟩
      · have hnodes : sizeAll (e :: ahead) = sizeAll ahead + 1 := by
          rw [sizeAll, size_of_isLeaf hleaf, Nat.add_comm]
        rw [hnodes, flattenAll, flatten_of_isLeaf hleaf]
        exact .leaf (visit?_of_isLeaf hleaf ahead) (ih _ (by omega) ahead rfl)
      · have hnodes : sizeAll (e :: ahead) = sizeAll (operands ++ ahead) + 1 := by
          rw [sizeAll_append, sizeAll, size_of_operator hop]
          omega
        rw [hnodes, flattenAll, flatten_of_operator hop, ← flattenAll_append]
        exact .inner (visit?_of_operator hop ahead) (ih _ (by omega) (operands ++ ahead) rfl)

/-! ### Paths -/

/-- The node to which a path leads: at each step, the operand at which it
goes on. -/
def at? : List Nat → Expr → Option Expr
  | [], e => some e
  | i :: path, e => e.children[i]?.bind (at? path)

mutual

/-- The paths to the leaves of an expression, left to right. -/
def leafPaths : Expr → List (List Nat)
  | .value _ | .filter _ => [[]]
  | .and operands | .or operands => leafPathsFrom 0 operands

/-- The paths to the leaves of operands that are counted from `i` on. -/
def leafPathsFrom (i : Nat) : List Expr → List (List Nat)
  | [] => []
  | e :: es => (leafPaths e).map (i :: ·) ++ leafPathsFrom (i + 1) es

end

/-- The leaves of an expression in order: they are what the paths to leaves
lead to, and each of these paths is gone once, in lexicographic order. -/
def InOrder (e : Expr) (leaves : List Expr) : Prop :=
  ∃ paths : List (List Nat), paths.Pairwise (· < ·) ∧
    (∀ path, path ∈ paths ↔ ∃ l, at? path e = some l ∧ l.isLeaf = true) ∧
    paths.map (at? · e) = leaves.map some

theorem at?_cons {i : Nat} (hi : e.children[i]? = some f) (path : List Nat) :
    at? (i :: path) e = at? path f := by
  rw [at?, hi, Option.bind_some]

theorem mem_leafPathsFrom {i : Nat} {path : List Nat} {es : List Expr} :
    path ∈ leafPathsFrom i es ↔
      ∃ j p f, path = (i + j) :: p ∧ es[j]? = some f ∧ p ∈ leafPaths f := by
  induction es generalizing i with
  | nil => simp [leafPathsFrom]
  | cons e es ih =>
    rw [leafPathsFrom, List.mem_append, ih, List.mem_map]
    constructor
    · rintro (⟨p, hp, rfl⟩ | ⟨j, p, f, rfl, hf, hp⟩)
      · exact ⟨0, p, e, rfl, rfl, hp⟩
      · refine ⟨j + 1, p, f, ?_, hf, hp⟩
        rw [Nat.add_assoc, Nat.add_comm 1]
    · rintro ⟨j, p, f, rfl, hf, hp⟩
      cases j with
      | zero =>
        obtain rfl : e = f := Option.some.inj hf
        exact .inl ⟨p, hp, rfl⟩
      | succ j =>
        refine .inr ⟨j, p, f, ?_, hf, hp⟩
        rw [Nat.add_assoc, Nat.add_comm 1]

theorem leafPaths_of_isLeaf (h : e.isLeaf = true) : leafPaths e = [[]] := by
  cases e with
  | value | filter => rfl
  | and | or => cases h

theorem leafPaths_of_operator (h : e.Operator operands) :
    leafPaths e = leafPathsFrom 0 operands := by
  rcases h with rfl | rfl <;> rfl

/-- The paths to leaves are all the paths that lead to one. -/
theorem mem_leafPaths {path : List Nat} :
    path ∈ leafPaths e ↔ ∃ l, at? path e = some l ∧ l.isLeaf = true := by
  induction path generalizing e with
  | nil =>
    have hhere : (∃ l, at? [] e = some l ∧ l.isLeaf = true) ↔ e.isLeaf = true := by simp [at?]
    rw [hhere]
    rcases e.isLeaf_or_operator with hleaf | ⟨operands, hop⟩
    · simp [leafPaths_of_isLeaf hleaf, hleaf]
    · -- a path to an operand is not empty
      rw [leafPaths_of_operator hop, mem_leafPathsFrom]
      rcases hop with rfl | rfl <;> simp [isLeaf, asValue?, asFilter?]
  | cons i path ih =>
    rcases e.isLeaf_or_operator with hleaf | ⟨operands, hop⟩
    · rw [leafPaths_of_isLeaf hleaf, at?, children_of_isLeaf hleaf]
      simp
    · rw [leafPaths_of_operator hop, mem_leafPathsFrom, at?, children_of_operator hop]
      simp only [Nat.zero_add, List.cons.injEq, Option.bind_eq_some_iff]
      constructor
      · rintro ⟨_, _, f, ⟨rfl, rfl⟩, hf, hpath⟩
        obtain ⟨l, hl, hleaf⟩ := ih.1 hpath
        exact ⟨l, ⟨f, hf, hl⟩, hleaf⟩
      · rintro ⟨l, ⟨f, hf, hl⟩, hleaf⟩
        exact ⟨i, path, f, ⟨rfl, rfl⟩, hf, ih.2 ⟨l, hl, hleaf⟩⟩

mutual

theorem pairwise_leafPaths : (e : Expr) → (leafPaths e).Pairwise (· < ·)
  | .value _ | .filter _ => List.pairwise_singleton _ _
  | .and operands | .or operands => pairwise_leafPathsFrom 0 operands

theorem pairwise_leafPathsFrom (i : Nat) :
    (es : List Expr) → (leafPathsFrom i es).Pairwise (· < ·)
  | [] => .nil
  | e :: es => by
    refine List.pairwise_append.2 ⟨?_, pairwise_leafPathsFrom (i + 1) es, ?_⟩
    · exact (pairwise_leafPaths e).map _ fun _ _ h => List.Lex.cons h
    · -- an operand that stands further left
      intro p hp q hq
      obtain ⟨p, -, rfl⟩ := List.mem_map.1 hp
      obtain ⟨j, q, -, rfl, -⟩ := mem_leafPathsFrom.1 hq
      exact List.Lex.rel (by omega)

end

mutual

theorem map_at?_leafPaths : (e : Expr) → (leafPaths e).map (at? · e) = (flatten e).map some
  | .value _ | .filter _ => rfl
  | .and operands => map_at?_leafPathsFrom (.and operands) 0 operands rfl
  | .or operands => map_at?_leafPathsFrom (.or operands) 0 operands rfl

theorem map_at?_leafPathsFrom (e : Expr) (i : Nat) : (es : List Expr) →
    e.children.drop i = es → (leafPathsFrom i es).map (at? · e) = (flattenAll es).map some
  | [], _ => rfl
  | f :: es, h => by
    have hf : e.children[i]? = some f := by
      rw [← List.head?_drop, h, List.head?_cons]
    have hes : e.children.drop (i + 1) = es := by
      rw [← List.tail_drop, h, List.tail_cons]
    rw [leafPathsFrom, flattenAll, List.map_append, List.map_append, ← map_at?_leafPaths f,
      ← map_at?_leafPathsFrom e (i + 1) es hes, List.map_map]
    congr 2
    funext path
    exact at?_cons hf path

end

theorem inOrder_flatten (e : Expr) : e.InOrder e.flatten :=
  ⟨leafPaths e, pairwise_leafPaths e, fun _ => mem_leafPaths, map_at?_leafPaths e⟩

theorem InOrder.isLeaf {ls : List Expr} (h : e.InOrder ls) : ∀ l ∈ ls, l.isLeaf = true := by
  intro l hl
  obtain ⟨paths, -, hpaths, hls⟩ := h
  have hmem : some l ∈ paths.map (at? · e) := hls ▸ List.mem_map_of_mem hl
  obtain ⟨path, hpath, hat⟩ := List.mem_map.1 hmem
  obtain ⟨l', hl', hleaf⟩ := (hpaths path).1 hpath
  obtain rfl : l' = l := Option.some.inj (hl'.symm.trans hat)
  exact hleaf

/-! ### Texts and filters among the leaves -/

theorem map_value_filterMap (ls : List Expr) :
    (ls.filterMap asValue?).map .value = ls.filter (·.asValue?.isSome) := by
  induction ls with
  | nil => rfl
  | cons l ls ih =>
    cases l with
    | value text => exact congrArg (Expr.value text :: ·) ih
    | filter | and | or => exact ih

theorem map_filter_filterMap (ls : List Expr) :
    (ls.filterMap asFilter?).map .filter = ls.filter (·.asFilter?.isSome) := by
  induction ls with
  | nil => rfl
  | cons l ls ih =>
    cases l with
    | filter condition => exact congrArg (Expr.filter condition :: ·) ih
    | value | and | or => exact ih

/-- The free texts and the filters make up leaves, each in their order. -/
theorem interleaves_of_isLeaf {ls : List Expr} (h : ∀ l ∈ ls, l.isLeaf = true) :
    Interleaves ((ls.filterMap asValue?).map .value) ((ls.filterMap asFilter?).map .filter) ls := by
  induction ls with
  | nil => exact .nil
  | cons l ls ih =>
    obtain ⟨hl, hls⟩ := List.forall_mem_cons.1 h
    cases l with
    | value text => exact .left (ih hls)
    | filter condition => exact .right (ih hls)
    | and | or => cases hl

/-! ### The walk -/

/-- **A walk with a stack comes by the leaves in order.**  From any stack each
call is some visits, and the calls together are as many visits as there are
nodes below the stack, after which it is empty; what they yield are the leaves
of the expressions on the stack, from the top down.  For a single expression
these are its leaves one by one, in the order of their places in it; its free
texts and its filters are those leaves that are such, and the leaves are made
up of the two. -/
theorem leaves_in_order :
    (∀ stack : Array Expr,
      let ahead := fromTop stack
      (nextLeaf? ahead = none → ∃ n, Visits stack n [] #[]) ∧
        (∀ leaf rest, nextLeaf? ahead = some (leaf, rest) →
          ∃ n, Visits stack n [leaf] (stackOf rest)) ∧
        Visits stack (sizeAll ahead) (drain #[] ahead).toList #[] ∧
        (drain #[] ahead).toList = ahead.flatMap flatten) ∧
      ∀ e : Expr,
        Visits #[e] e.size e.leaves #[] ∧ e.leaves = e.flatten ∧ e.InOrder e.leaves ∧
          e.values.map .value = e.leaves.filter (·.asValue?.isSome) ∧
          e.filters.map .filter = e.leaves.filter (·.asFilter?.isSome) ∧
          Interleaves (e.values.map .value) (e.filters.map .filter) e.leaves := by
  have hdrain : ∀ ahead, (drain #[] ahead).toList = flattenAll ahead := fun ahead => by
    rw [toList_drain, List.nil_append]
  constructor
  · intro stack ahead
    obtain ⟨hend, hnext⟩ := exists_visits_of_nextLeaf? ahead
    have hvisits := visits_flattenAll ahead
    rw [stackOf_fromTop] at hend hnext hvisits
    rw [hdrain]
    exact ⟨hend, hnext, hvisits, flattenAll_eq_flatMap ahead⟩
  · intro e
    have hvisits := visits_flattenAll [e]
    have horder := inOrder_flatten e
    rw [flattenAll, flattenAll, List.append_nil, ← leaves_eq_flatten] at hvisits
    rw [← leaves_eq_flatten] at horder
    exact ⟨hvisits, leaves_eq_flatten e, horder, map_value_filterMap _, map_filter_filterMap _,
      interleaves_of_isLeaf horder.isLeaf⟩

/-- Operators without operands and with a single one. -/
example :
    (Expr.and [.or [], .value "a", .or [.and [.filter ⟨"tag", "b"⟩]], .and []]).leaves
      = [.value "a", .filter ⟨"tag", "b"⟩] := by
  rw [leaves_eq_flatten]
  rfl

end SearchQuery.Expr
