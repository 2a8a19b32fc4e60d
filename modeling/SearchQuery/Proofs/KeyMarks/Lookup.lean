/-
SearchQuery/Proofs/KeyMarks/Lookup.lean

What a record of keys says of one key.

The two steps that build a record are allowing a key and marking one, and
each has one equation through `get?`.  From these follow the records that
queries come with: a key is known if it was allowed, and marked if it was
used as well (`get?_markAll_seeded`).
-/
import SearchQuery.KeyMarks

namespace SearchQuery.KeyMarks

/-! ### One step -/

theorem lookup_cons_eq_ite (e : String × Bool) (es : List (String × Bool)) (k : String) :
    (e :: es).lookup k = if k = e.1 then some e.2 else es.lookup k := by
  rw [List.lookup_cons]
  by_cases h : k = e.1
  · simp [h]
  · have hbeq : (k == e.1) = false := beq_eq_false_iff_ne.2 h
    rw [hbeq, if_neg h]

/-- A key smaller than all others is not among them. -/
theorem lookup_eq_none_of_lt {es : List (String × Bool)} {k : String}
    (h : ∀ key ∈ es.map Prod.fst, k < key) : es.lookup k = none := by
  refine List.lookup_eq_none_iff.2 fun p hp => ?_
  simpa using String.ne_of_lt (h p.1 (List.mem_map_of_mem hp))

theorem lookup_insertKey {es : List (String × Bool)}
    (h : (es.map Prod.fst).Pairwise (· < ·)) (key k : String) :
    (insertKey key es).lookup k
      = if k = key then some ((es.lookup key).getD false) else es.lookup k := by
  induction es with
  | nil => exact lookup_cons_eq_ite (key, false) [] k
  | cons e es ih =>
    obtain ⟨he, hes⟩ := List.pairwise_cons.1 (List.map_cons ▸ h)
    rw [insertKey]
    split
    · -- the key is smaller than all others, so it was not there
      rename_i hlt
      have hnone : (e :: es).lookup key = none := by
        refine lookup_eq_none_of_lt (List.forall_mem_cons.2 ⟨hlt, fun k hk => ?_⟩)
        exact String.lt_trans hlt (he k hk)
      rw [hnone]
      exact lookup_cons_eq_ite (key, false) (e :: es) k
    · split
      · rename_i hke
        subst hke
        simp only [lookup_cons_eq_ite, if_true, Option.getD_some]
        split <;> rfl
      · rename_i hke
        simp only [lookup_cons_eq_ite, ih hes, if_neg hke]
        by_cases hk : k = key
        · simp [hk, hke]
        · simp [hk]

theorem get?_allow (m : KeyMarks) (key k : String) :
    (m.allow key).get? k = if k = key then some (m.isFound key) else m.get? k :=
  lookup_insertKey m.ascending key k

theorem get?_mark (m : KeyMarks) (key k : String) :
    (m.mark key).get? k = (m.get? k).map (· || k == key) := by
  show (m.entries.map fun e => (e.1, e.2 || e.1 == key)).lookup k
    = (m.entries.lookup k).map _
  induction m.entries with
  | nil => rfl
  | cons e es ih =>
    rw [List.map_cons, lookup_cons_eq_ite, lookup_cons_eq_ite, ih]
    by_cases hk : k = e.1 <;> simp [hk]

/-- A key is known if there is an entry for it. -/
theorem mem_keys_iff {m : KeyMarks} {k : String} :
    k ∈ m.entries.map Prod.fst ↔ m.isAllowed k = true := by
  show _ ↔ (m.entries.lookup k).isSome = true
  induction m.entries with
  | nil => simp
  | cons e es ih =>
    rw [lookup_cons_eq_ite, List.map_cons, List.mem_cons, ih]
    by_cases hk : k = e.1 <;> simp [hk]

/-! ### Several steps -/

theorem get?_foldl_allow (keys : List String) (m : KeyMarks) (k : String) :
    (keys.foldl allow m).get? k
      = if k ∈ keys then some (m.isFound k) else m.get? k := by
  induction keys generalizing m with
  | nil => simp
  | cons key keys ih =>
    rw [List.foldl_cons, ih]
    by_cases hk : k = key
    · subst hk
      simp [isFound, get?_allow]
    · simp [isFound, get?_allow, hk]

theorem get?_seeded (keys : List String) (k : String) :
    (seeded keys).get? k = if k ∈ keys then some false else none :=
  get?_foldl_allow keys _ k

theorem get?_markAll (m : KeyMarks) (keys : List String) (k : String) :
    (m.markAll keys).get? k = (m.get? k).map (· || decide (k ∈ keys)) := by
  unfold markAll
  induction keys generalizing m with
  | nil => simp
  | cons key keys ih =>
    rw [List.foldl_cons, ih, get?_mark, Option.map_map]
    congr 1
    funext b
    by_cases hk : k = key
    · simp [hk]
    · have hbeq : (k == key) = false := beq_eq_false_iff_ne.2 hk
      simp [hk, hbeq]

/-- Marking keys makes none known and none unknown. -/
theorem keys_markAll (m : KeyMarks) (keys : List String) :
    (m.markAll keys).entries.map Prod.fst = m.entries.map Prod.fst := by
  unfold markAll
  induction keys generalizing m with
  | nil => rfl
  | cons key keys ih =>
    rw [List.foldl_cons, ih]
    simp [mark, Function.comp_def]

theorem isAllowed_markAll (m : KeyMarks) (keys : List String) :
    (m.markAll keys).isAllowed = m.isAllowed := by
  funext k
  rw [isAllowed, get?_markAll, Option.isSome_map]
  rfl

/-- A mark stays. -/
theorem isFound_markAll {m : KeyMarks} {k : String} (h : m.isFound k = true)
    (keys : List String) : (m.markAll keys).isFound k = true := by
  unfold isFound at h ⊢
  rw [get?_markAll]
  cases hk : m.get? k with
  | none =>
    rw [hk] at h
    cases h
  | some found =>
    obtain rfl : found = true := by simpa [hk] using h
    rfl

/-- A key is known if it was allowed, and marked if it was used as well. -/
theorem get?_markAll_seeded (keys used : List String) (k : String) :
    ((seeded keys).markAll used).get? k
      = if k ∈ keys then some (decide (k ∈ used)) else none := by
  rw [get?_markAll, get?_seeded]
  by_cases hk : k ∈ keys <;> simp [hk]

theorem isFound_markAll_seeded {keys used : List String} {k : String} :
    ((seeded keys).markAll used).isFound k = true ↔ k ∈ keys ∧ k ∈ used := by
  rw [isFound, get?_markAll_seeded]
  by_cases hk : k ∈ keys <;> simp [hk]

theorem isAllowed_seeded (keys : List String) :
    (seeded keys).isAllowed = fun k => decide (k ∈ keys) := by
  funext k
  rw [isAllowed, get?_seeded]
  by_cases hk : k ∈ keys <;> simp [hk]

end SearchQuery.KeyMarks
