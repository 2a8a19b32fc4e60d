/-
SearchQuery/Proofs/Token/Apart.lean

Tokens that are no operators and no parentheses.

None of the texts that separate operands has a colon or a space in it.  So a
token with one of these, and with that every token that has a key, begins an
operand and ends none (`apart_of_mem`).
-/
import SearchQuery.Token.Basic

namespace SearchQuery.Token

variable {t : Token} {c : Char}

theorem text_ne_of_mem (hmem : c ∈ t.text.toList) {s : String} (hs : c ∉ s.toList) :
    t.text ≠ s :=
  fun e => hs (e ▸ hmem)

/-- A colon or a space in a text makes it no operator and no parenthesis. -/
theorem apart_of_mem (hmem : c ∈ t.text.toList) (hc : c = ':' ∨ c = ' ') :
    t.isOperator = false ∧ t.opens = false ∧ t.alternates = false ∧ t.closes = false ∧
      t.joins = false := by
  have hne : ∀ s : String, ':' ∉ s.toList ∧ ' ' ∉ s.toList → (t.text == s) = false := by
    rintro s ⟨hcolon, hspace⟩
    refine beq_eq_false_iff_ne.2 (text_ne_of_mem hmem ?_)
    rcases hc with rfl | rfl
    · exact hcolon
    · exact hspace
  have hcaseless : ∀ s : String, ':' ∉ Text.folded s ∧ ' ' ∉ Text.folded s →
      Text.caseless t.text s = false := by
    rintro s ⟨hcolon, hspace⟩
    refine Text.caseless_eq_false_of_mem hmem ?_
    rcases hc with rfl | rfl
    · exact hcolon
    · exact hspace
  have hop : t.isOperator = false := by
    rw [isOperator, hne _ (by decide), hne _ (by decide), Bool.or_false]
  exact ⟨hop, hne _ (by decide), hcaseless _ (by decide), hne _ (by decide),
    hcaseless _ (by decide)⟩

theorem key?_eq_none_iff : t.key? = none ↔ Text.cutAtColon t.text = none :=
  Option.map_eq_none_iff

theorem key?_eq_some_iff {key : String} :
    t.key? = some key ↔ ∃ argument, Text.cutAtColon t.text = some (key, argument) := by
  simp [key?]

/-- A token with a key begins an operand wherever it stands. -/
theorem apart_of_key? {key : String} (h : t.key? = some key) :
    t.isOperator = false ∧ t.opens = false ∧ t.alternates = false ∧ t.closes = false ∧
      t.joins = false := by
  obtain ⟨argument, hcut⟩ := key?_eq_some_iff.1 h
  exact apart_of_mem (Text.mem_of_cutAtColon hcut) (.inl rfl)

/-! ### Parentheses -/

theorem isOperator_eq_false_of_opens (h : t.opens = true) : t.isOperator = false := by
  have htext : t.text = "(" := by simpa [opens] using h
  rw [isOperator, htext]
  decide

end SearchQuery.Token
