/-
SearchQuery/Proofs/Grammar/Words.lean

Texts of runs of words.

The words of a query have no blanks in them, so nothing is trimmed from the
text that they run together to (`isTrimmed_joinWords`), and this text has no
other characters than those of the words and the spaces between them
(`mem_joinWords`).
-/
import SearchQuery.Grammar.Operand
import SearchQuery.Proofs.Text.Trim

namespace SearchQuery.Grammar

/-! ### Words that go on with a run -/

theorem continuesRun_iff {allowed : String → Bool} {t : Token} :
    continuesRun allowed t = true ↔ t.quoted = false ∧ t.opens = false ∧ t.closes = false ∧
      t.isOperator = false ∧ ∀ key ∈ t.key?, allowed key = false := by
  have hany : t.key?.any allowed = false ↔ ∀ key ∈ t.key?, allowed key = false := by
    cases t.key? <;> simp
  simp only [continuesRun, Bool.and_eq_true, Bool.not_eq_true', and_assoc, hany]

/-! ### The text of a run -/

theorem joinWords_cons_cons (t u : Token) (ts : List Token) :
    joinWords (t :: u :: ts) = t.text ++ " " ++ joinWords (u :: ts) := by
  simp only [joinWords, List.map_cons, String.intercalate_cons_cons]

/-- There is nothing to trim from words without blanks. -/
theorem isTrimmed_joinWords {t : Token} {ts : List Token}
    (h : ∀ u ∈ t :: ts, u.text ≠ "" ∧ ∀ c ∈ u.text.toList, Text.isBlank c = false) :
    Text.IsTrimmed (joinWords (t :: ts)) ∧ joinWords (t :: ts) ≠ "" := by
  induction ts generalizing t with
  | nil =>
    obtain ⟨⟨hne, hblank⟩, -⟩ := List.forall_mem_cons.1 h
    have htext : joinWords [t] = t.text := String.intercalate_singleton
    rw [htext]
    exact ⟨⟨fun c hc => hblank c (List.mem_of_mem_head? hc),
      fun c hc => hblank c (List.mem_of_getLast? hc)⟩, hne⟩
  | cons u ts ih =>
    obtain ⟨⟨hne, hblank⟩, hts⟩ := List.forall_mem_cons.1 h
    obtain ⟨⟨-, hlast⟩, hrest⟩ := ih hts
    have hne : t.text.toList ≠ [] := by simpa using hne
    have hrest : (joinWords (u :: ts)).toList ≠ [] := by simpa using hrest
    rw [joinWords_cons_cons, Text.IsTrimmed]
    simp only [String.toList_append]
    -- the first word begins the text and the last one ends it
    refine ⟨⟨fun c hc => ?_, fun c hc => ?_⟩, by simp⟩
    · rw [List.append_assoc, List.head?_append_of_ne_nil _ hne] at hc
      exact hblank c (List.mem_of_mem_head? hc)
    · rw [List.getLast?_append_of_ne_nil _ hrest] at hc
      exact hlast c hc

theorem mem_joinWords {ts : List Token} {c : Char} (h : c ∈ (joinWords ts).toList) :
    c = ' ' ∨ ∃ t ∈ ts, c ∈ t.text.toList := by
  induction ts with
  | nil => cases h
  | cons t ts ih =>
    cases ts with
    | nil =>
      have htext : joinWords [t] = t.text := String.intercalate_singleton
      rw [htext] at h
      exact .inr ⟨t, List.mem_cons_self, h⟩
    | cons u ts =>
      rw [joinWords_cons_cons] at h
      simp only [String.toList_append, List.mem_append] at h
      rcases h with (h | h) | h
      · exact .inr ⟨t, List.mem_cons_self, h⟩
      · exact .inl (List.mem_singleton.1 h)
      · rcases ih h with h | ⟨t', ht', h⟩
        · exact .inl h
        · exact .inr ⟨t', List.mem_cons_of_mem _ ht', h⟩

end SearchQuery.Grammar
