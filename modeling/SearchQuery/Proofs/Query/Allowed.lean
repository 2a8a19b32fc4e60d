/-
SearchQuery/Proofs/Query/Allowed.lean

The order of the allowed keys.

Compiling asks of a key whether it is allowed and marks it in a record that
has its own order.  So two lists of the same keys give the same queries and
the same errors, and what is found lists these keys in the order of their
bytes (`compile_congr_keys`).
-/
import SearchQuery.Proofs.KeyMarks.Canonical
import SearchQuery.Proofs.Query.Compile

namespace SearchQuery.Query

open Grammar

/-- **Neither the order of the allowed keys nor how often they are given
matters**: not for queries and errors, and not for the record of the keys,
which lists each of them once, in strictly ascending order of its bytes, before
and after any marks. -/
theorem compile_congr_keys :
    (∀ keys keys' text, (∀ key, key ∈ keys ↔ key ∈ keys') →
      compile keys text = compile keys' text) ∧
    (∀ keys used, ((KeyMarks.seeded keys).markAll used).Lists keys) ∧
    ∀ keys text q, compile keys text = .ok q → q.found.Lists keys := by
  refine ⟨?_, KeyMarks.lists_markAll_seeded, ?_⟩
  · intro keys keys' text h
    simp only [compile, KeyMarks.seeded_congr h]
  · intro keys text q h
    obtain ⟨roles, expr, -, rfl⟩ := compile_eq_ok_iff.1 h
    exact KeyMarks.lists_markAll_seeded keys (roles.filterMap Role.key?)

/-- U+FFFD comes before U+1D11E, though not in UTF-16. -/
theorem compile_congr_keys_astral :
    let keys := ["𝄞", "tag", "\uFFFD", "", "tag"]
    let keys' := ["tag", "", "\uFFFD", "𝄞"]
    let text := "a tag:go OR (𝄞:x TAG:y)"
    (∀ key, key ∈ keys ↔ key ∈ keys') ∧
      ∃ q, compile keys text = .ok q ∧ compile keys' text = .ok q ∧ q.found.Lists keys ∧
        q.found.entries
          = [("", false), ("tag", true), ("\uFFFD", false), ("𝄞", true)] := by
  intro keys keys' text
  obtain ⟨hsame, -, hlists⟩ := compile_congr_keys
  have hkeys : ∀ key, key ∈ keys ↔ key ∈ keys' := by
    intro key
    simp only [keys, keys', List.mem_cons, List.not_mem_nil, or_false]
    tauto
  have h : compile keys text = .ok
      { expr := some (.or [.and [.value "a", .filter ⟨"tag", "go"⟩],
          .and [.filter ⟨"𝄞", "x"⟩, .value "TAG:y"]])
        sort := []
        freeText := ["a", "TAG:y"]
        found := (KeyMarks.seeded keys).markAll ["tag", "𝄞"] } := by
    rw [compile_eq_lex]
    decide +kernel
  refine ⟨hkeys, _, h, ?_, hlists keys text _ h, by decide +kernel⟩
  rw [← hsame keys keys' text hkeys, h]

end SearchQuery.Query
