/-
SearchQuery/Proofs/KeyMarks/Canonical.lean

Records of the same keys.

A record says of a key no more than whether it was allowed and whether it was
used, so the order in which keys were allowed is lost in it, and so is how
often they were (`seeded_congr`).  What it lists are the keys themselves, each
once and in the order of their bytes, whatever has been marked since
(`lists_markAll_seeded`).
-/
import Mathlib.Data.Finset.Card
import SearchQuery.Proofs.KeyMarks.Erase
import SearchQuery.Proofs.Text.Utf8

namespace SearchQuery.KeyMarks

variable {keys keys' : List String}

theorem seeded_congr (h : ∀ key, key ∈ keys ↔ key ∈ keys') : seeded keys = seeded keys' := by
  refine ext_get? fun key => ?_
  rw [get?_seeded, get?_seeded]
  simp only [h key]

/-- What a record lists: the given keys and no others, in strictly ascending
order of their bytes, so that none of them is listed twice. -/
structure Lists (m : KeyMarks) (keys : List String) : Prop where
  mem_iff : ∀ key, key ∈ m.entries.map Prod.fst ↔ key ∈ keys
  ascending : (m.entries.map fun e => Text.utf8 e.1).Pairwise (· < ·)
  size : m.size = keys.toFinset.card

/-- Listing is about the keys alone. -/
theorem lists_of_mem_iff {m : KeyMarks} (h : ∀ key, key ∈ m.entries.map Prod.fst ↔ key ∈ keys) :
    m.Lists keys where
  mem_iff := h
  ascending := by
    rw [List.pairwise_map]
    exact (List.pairwise_map.1 m.ascending).imp Text.utf8_lt_utf8
  size := by
    have hnodup : (m.entries.map Prod.fst).Nodup := m.ascending.imp String.ne_of_lt
    have hsame : (m.entries.map Prod.fst).toFinset = keys.toFinset := by
      ext key
      rw [List.mem_toFinset, List.mem_toFinset, h]
    rw [← hsame, List.toFinset_card_of_nodup hnodup, List.length_map]
    rfl

/-- **A record lists the keys that were allowed**, before and after keys have
been marked. -/
theorem lists_markAll_seeded (keys used : List String) :
    ((seeded keys).markAll used).Lists keys := by
  refine lists_of_mem_iff fun key => ?_
  rw [mem_keys_iff, isAllowed, get?_markAll_seeded]
  by_cases hkey : key ∈ keys <;> simp [hkey]

end SearchQuery.KeyMarks
