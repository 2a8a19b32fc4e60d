/-
SearchQuery/Proofs/KeyMarks/Erase.lean

Records without one of their keys.

The keys of a record are in order, so a record is known by what it says of
each key (`ext_get?`).  Hence it does not matter whether a key was never
allowed or has been taken out of the record later on
(`markAll_seeded_filter_ne`).
-/
import SearchQuery.Proofs.KeyMarks.Lookup

namespace SearchQuery.KeyMarks

/-! ### Records by what they say -/

/-- The first key of a record is not smaller than all keys of another that
says the same. -/
theorem not_lt_of_lookup_eq {e f : String × Bool} {es fs : List (String × Bool)}
    (hf : ∀ key ∈ fs.map Prod.fst, f.1 < key)
    (h : ∀ k, (e :: es).lookup k = (f :: fs).lookup k) : ¬ e.1 < f.1 := by
  intro hlt
  have hnone : (f :: fs).lookup e.1 = none :=
    lookup_eq_none_of_lt (List.forall_mem_cons.2 ⟨hlt, fun k hk => String.lt_trans hlt (hf k hk)⟩)
  have hsome := h e.1
  rw [hnone, lookup_cons_eq_ite, if_pos rfl] at hsome
  cases hsome

theorem entries_ext {es fs : List (String × Bool)} (hes : (es.map Prod.fst).Pairwise (· < ·))
    (hfs : (fs.map Prod.fst).Pairwise (· < ·)) (h : ∀ k, es.lookup k = fs.lookup k) :
    es = fs := by
  induction es generalizing fs with
  | nil =>
    cases fs with
    | nil => rfl
    | cons f fs =>
      have hf := h f.1
      rw [lookup_cons_eq_ite, if_pos rfl] at hf
      cases hf
  | cons e es ih =>
    cases fs with
    | nil =>
      have he := h e.1
      rw [lookup_cons_eq_ite, if_pos rfl] at he
      cases he
    | cons f fs =>
      obtain ⟨he, hes⟩ := List.pairwise_cons.1 (List.map_cons ▸ hes)
      obtain ⟨hf, hfs⟩ := List.pairwise_cons.1 (List.map_cons ▸ hfs)
      have hkey : e.1 = f.1 :=
        String.le_antisymm (not_lt_of_lookup_eq he fun k => (h k).symm)
          (not_lt_of_lookup_eq hf h)
      have hfirst := h e.1
      simp only [lookup_cons_eq_ite, hkey, if_true, Option.some_inj] at hfirst
      -- behind their first entries the two say the same of all other keys
      have hrest : ∀ k, es.lookup k = fs.lookup k := by
        intro k
        by_cases hk : k = f.1
        · rw [hk, lookup_eq_none_of_lt hf, ← hkey, lookup_eq_none_of_lt he]
        · have := h k
          rwa [lookup_cons_eq_ite, lookup_cons_eq_ite, hkey, if_neg hk, if_neg hk] at this
      rw [ih hes hfs hrest, Prod.ext hkey hfirst]

/-- Two records are the same if they say the same of every key. -/
theorem ext_get? {m m' : KeyMarks} (h : ∀ k, m.get? k = m'.get? k) : m = m' := by
  obtain ⟨es, hes⟩ := m
  obtain ⟨fs, hfs⟩ := m'
  obtain rfl : es = fs := entries_ext hes hfs h
  rfl

/-! ### Taking a key out -/

/-- The record without the entry of a key. -/
def erase (m : KeyMarks) (key : String) : KeyMarks where
  entries := m.entries.filter fun e => e.1 != key
  ascending := m.ascending.sublist (List.filter_sublist.map _)

theorem get?_erase (m : KeyMarks) (key k : String) :
    (m.erase key).get? k = if k = key then none else m.get? k := by
  show (m.entries.filter fun e => e.1 != key).lookup k
    = if k = key then none else m.entries.lookup k
  induction m.entries with
  | nil => simp
  | cons e es ih =>
    rw [List.filter_cons, lookup_cons_eq_ite]
    by_cases he : e.1 = key
    · rw [if_neg (by simp [he]), ih]
      by_cases hk : k = key <;> simp [he, hk]
    · rw [if_pos (by simp [he]), lookup_cons_eq_ite, ih]
      by_cases hk : k = e.1
      · simp [hk, he]
      · simp [hk]

/-- A key that is not allowed is the same as one that was taken out. -/
theorem markAll_seeded_filter_ne (keys used : List String) (key : String) :
    (seeded (keys.filter (· != key))).markAll used
      = ((seeded keys).markAll used).erase key := by
  refine ext_get? fun k => ?_
  rw [get?_erase, get?_markAll_seeded, get?_markAll_seeded]
  by_cases hk : k = key <;> simp [hk]

end SearchQuery.KeyMarks
