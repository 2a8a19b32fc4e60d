/-
SearchQuery/KeyMarks.lean

The keys that a page allows as filters, each with a mark that says whether
a query used it.

The keys stand in ascending order of their characters' code points, each
once, and the type keeps it so.  Two records of the same keys with the
same marks are therefore equal, in whatever order and however often the
keys were given.
-/
namespace SearchQuery

/-- Allowed keys and their marks. -/
structure KeyMarks where
  entries : List (String × Bool)
  ascending : (entries.map Prod.fst).Pairwise (· < ·)
  deriving DecidableEq

namespace KeyMarks

/-! ### Allowing keys -/

/-- Put an unmarked key in its place; one that is there already stays as
it is. -/
def insertKey (key : String) : List (String × Bool) → List (String × Bool)
  | [] => [(key, false)]
  | e :: es =>
    if key < e.1 then (key, false) :: e :: es
    else if key = e.1 then e :: es
    else e :: insertKey key es

theorem mem_keys_insertKey {k key : String} {es : List (String × Bool)} :
    k ∈ (insertKey key es).map Prod.fst ↔ k = key ∨ k ∈ es.map Prod.fst := by
  induction es with
  | nil => simp [insertKey]
  | cons e es ih =>
    rw [insertKey]
    split
    · simp
    · split
      · rename_i h
        simp [h]
      · rw [List.map_cons, List.mem_cons, ih]
        simp [or_left_comm]

theorem ascending_insertKey {key : String} {es : List (String × Bool)}
    (h : (es.map Prod.fst).Pairwise (· < ·)) :
    ((insertKey key es).map Prod.fst).Pairwise (· < ·) := by
  induction es with
  | nil => simp [insertKey]
  | cons e es ih =>
    obtain ⟨he, hes⟩ := List.pairwise_cons.1 (List.map_cons ▸ h)
    rw [insertKey]
    split
    · rename_i hlt
      refine List.pairwise_cons.2 ⟨fun k hk => ?_, h⟩
      rcases List.mem_cons.1 (List.map_cons ▸ hk) with rfl | hk
      · exact hlt
      · exact String.lt_trans hlt (he k hk)
    · split
      · exact h
      · rename_i hlt hne
        refine List.pairwise_cons.2 ⟨fun k hk => ?_, ih hes⟩
        rcases mem_keys_insertKey.1 hk with rfl | hk
        · exact Decidable.byContradiction fun hgt =>
            hne (String.le_antisymm hgt hlt)
        · exact he k hk

/-- Allow one more key. -/
def allow (m : KeyMarks) (key : String) : KeyMarks :=
  ⟨insertKey key m.entries, ascending_insertKey m.ascending⟩

/-- The given keys, none of them marked. -/
def seeded (keys : List String) : KeyMarks :=
  keys.foldl allow ⟨[], List.Pairwise.nil⟩

/-! ### Marking them -/

/-- Mark a key.  A key that is not allowed stays unknown. -/
def mark (m : KeyMarks) (key : String) : KeyMarks where
  entries := m.entries.map fun e => (e.1, e.2 || e.1 == key)
  ascending := by simpa [Function.comp_def] using m.ascending

/-- Mark several keys. -/
def markAll (m : KeyMarks) (keys : List String) : KeyMarks :=
  keys.foldl mark m

/-! ### Looking them up -/

/-- The mark of a key, if it is allowed. -/
def get? (m : KeyMarks) (key : String) : Option Bool :=
  m.entries.lookup key

/-- Whether a key is allowed. -/
def isAllowed (m : KeyMarks) (key : String) : Bool :=
  (m.get? key).isSome

/-- Whether a key is allowed and marked. -/
def isFound (m : KeyMarks) (key : String) : Bool :=
  (m.get? key).getD false

/-- How many keys are allowed. -/
def size (m : KeyMarks) : Nat :=
  m.entries.length

/-- Whether no key is allowed. -/
def isEmpty (m : KeyMarks) : Bool :=
  m.entries.isEmpty

end KeyMarks

end SearchQuery
