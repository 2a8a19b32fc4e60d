/-
SearchQuery/Proofs/Query/Unused.lean

A key that was not used had no influence.

A key that is allowed and was not met may be taken from the allowed keys, and
all that changes is that it is not reported any more (`compile_filter_ne`).
-/
import SearchQuery.Proofs.Grammar.Narrow
import SearchQuery.Proofs.KeyMarks.Erase
import SearchQuery.Proofs.Query.Compile

namespace SearchQuery.Query

open Grammar

/-- **A key that is reported as not found had no influence**: without it the
text compiles to the same query, in which the key is not reported. -/
theorem compile_filter_ne {keys : List String} {text : String} {q : Query} {key : String}
    (h : compile keys text = .ok q) (hkey : q.found.get? key = some false) :
    ∃ q', compile (keys.filter (· != key)) text = .ok q' ∧ q'.expr = q.expr ∧
      q'.sort = q.sort ∧ q'.freeText = q.freeText ∧ q'.found = q.found.erase key := by
  obtain ⟨roles, expr, hparse, rfl⟩ := compile_eq_ok_iff.1 h
  have hunused : key ∉ roles.filterMap Role.key? := by
    intro hused
    rw [ofReading, KeyMarks.get?_markAll_seeded] at hkey
    split at hkey <;> simp [hused] at hkey
  have hnarrow : Narrows (fun k => decide (k ∈ keys))
      (fun k => decide (k ∈ keys.filter (· != key))) roles := by
    constructor
    · intro k hk
      have hk : k ∉ keys := of_decide_eq_false hk
      exact decide_eq_false fun hmem => hk (List.mem_of_mem_filter hmem)
    · intro k hused hk
      have hne : k ≠ key := fun e => hunused (e ▸ hused)
      exact decide_eq_true (List.mem_filter.2 ⟨of_decide_eq_true hk, bne_iff_ne.2 hne⟩)
  exact ⟨_, compile_eq_ok_iff.2 ⟨roles, expr, parse_narrow hparse hnarrow, rfl⟩, rfl, rfl, rfl,
    KeyMarks.markAll_seeded_filter_ne keys _ key⟩

/-- A key that stands in a value and behind the end of the query, and one that
is found. -/
theorem compile_filter_ne_in_value :
    let text := "x tag: \"e:1\" (y or (z OR foo:2)) ) e:3"
    let q : Query :=
      { expr := some (.and [.value "x", .filter ⟨"tag", "e:1"⟩,
          .and [.value "y or", .or [.value "z", .value "foo:2"]]])
        sort := []
        freeText := ["x", "y or", "z", "foo:2"]
        found := (KeyMarks.seeded ["e", "tag"]).mark "tag" }
    compile ["e", "tag"] text = .ok q ∧ q.found.get? "e" = some false ∧
      q.found.get? "tag" = some true ∧
      ∃ q', compile ["tag"] text = .ok q' ∧ q'.expr = q.expr ∧ q'.sort = q.sort ∧
        q'.freeText = q.freeText ∧ q'.found = q.found.erase "e" ∧
        q'.found.entries = [("tag", true)] := by
  intro text q
  have h : compile ["e", "tag"] text = .ok q := by
    rw [compile_eq_lex]
    decide +kernel
  have hkey : q.found.get? "e" = some false := by decide
  have hkeys : ["e", "tag"].filter (· != "e") = ["tag"] := by decide
  obtain ⟨q', hq', hexpr, hsort, hfree, hfound⟩ := compile_filter_ne h hkey
  rw [hkeys] at hq'
  have hentries : (q.found.erase "e").entries = [("tag", true)] := by decide
  exact ⟨h, hkey, by decide, q', hq', hexpr, hsort, hfree, hfound, hfound ▸ hentries⟩

end SearchQuery.Query
