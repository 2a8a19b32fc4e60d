/-
SearchQuery/Proofs/Query/Separators.lean

What stands between two texts.

Outside quotes a text can be cut at blanks, at a parenthesis and at a phrase:
the tokens of the whole are those of the two sides, with the parenthesis or
the phrase between them.  Nothing of the first side is carried over, however
many quotes it has, as long as they are closed.

So blanks do no more than separate.  Any blanks may be put in the place of
others, and the query stays the same (`tokenize_append_separator`).
-/
import SearchQuery.Proofs.Query.Compile
import SearchQuery.Proofs.Token.Append

namespace SearchQuery.Query

open Token

/-- Blanks between two texts may be exchanged for other blanks. -/
theorem compile_exchange_gap (keys : List String) {a w w' : String}
    (heven : a.toList.count '"' % 2 = 0) (hw : IsGap w) (hw' : IsGap w') (b : String) :
    compile keys (a ++ w ++ b) = compile keys (a ++ w' ++ b) := by
  simp only [compile, tokenize_append_gap heven hw, tokenize_append_gap heven hw']

/-- **Behind a text without an open quote the tokens begin anew**: at blanks, at
a parenthesis, at a phrase, and at a phrase that is not closed, which is no
token if it is empty.  Which blanks there are between two texts makes no
difference to the query. -/
theorem tokenize_append_separator {a : String} (heven : a.toList.count '"' % 2 = 0) (b : String) :
    (∀ w, IsGap w → tokenize (a ++ w ++ b) = tokenize a ++ tokenize b) ∧
      (∀ c, c = '(' ∨ c = ')' →
        tokenize (a ++ String.singleton c ++ b)
          = tokenize a ++ [word (String.singleton c)] ++ tokenize b) ∧
      (∀ s : String, '"' ∉ s.toList →
        tokenize (a ++ "\"" ++ s ++ "\"" ++ b) = tokenize a ++ [phrase s] ++ tokenize b ∧
        tokenize (a ++ "\"" ++ s) = if s = "" then tokenize a else tokenize a ++ [phrase s]) ∧
      ∀ keys w w', IsGap w → IsGap w' →
        compile keys (a ++ w ++ b) = compile keys (a ++ w' ++ b) := by
  refine ⟨?_, ?_, ?_, ?_⟩
  · intro w hw
    exact tokenize_append_gap heven hw b
  · intro c hc
    rw [tokenize_append_paren heven hc, List.append_assoc, List.singleton_append]
  · intro s hs
    constructor
    · rw [tokenize_append_phrase heven hs, List.append_assoc, List.singleton_append]
    · rw [tokenize_append_open heven hs]
      split <;> simp only [List.append_nil]
  · intro keys w w' hw hw'
    exact compile_exchange_gap keys heven hw hw' b

/-- A parenthesis in quotes and a pending word in front, an open quote behind. -/
theorem tokenize_append_separator_pending :
    let a := "\"é (\"tag:"
    let b := "b\"c )"
    let w := "\u2003\t"
    let s := "or "
    (a.toList.count '"' % 2 = 0 ∧ IsGap w ∧ IsGap "\n" ∧ '"' ∉ s.toList) ∧
      tokenize (a ++ w ++ b) = [phrase "é (", word "tag:", word "b", phrase "c )"] ∧
      tokenize (a ++ String.singleton ')' ++ b)
        = [phrase "é (", word "tag:", word ")", word "b", phrase "c )"] ∧
      tokenize (a ++ "\"" ++ s ++ "\"" ++ b)
        = [phrase "é (", word "tag:", phrase "or ", word "b", phrase "c )"] ∧
      tokenize (a ++ "\"" ++ s) = [phrase "é (", word "tag:", phrase "or "] ∧
      tokenize (a ++ "\"" ++ "") = [phrase "é (", word "tag:"] ∧
      compile ["tag"] (a ++ w ++ b) = compile ["tag"] (a ++ "\n" ++ b) := by
  intro a b w s
  have heven : a.toList.count '"' % 2 = 0 := by decide
  have hw : IsGap w := by decide
  have hs : '"' ∉ s.toList := by decide
  have ha : tokenize a = [phrase "é (", word "tag:"] := by
    rw [tokenize_eq_lex]
    decide +kernel
  have hb : tokenize b = [word "b", phrase "c )"] := by
    rw [tokenize_eq_lex]
    decide +kernel
  obtain ⟨hgap, hparen, hphrase, hcompile⟩ := tokenize_append_separator heven b
  rw [ha, hb] at hgap hparen
  simp only [ha, hb] at hphrase
  exact ⟨⟨heven, hw, by decide, hs⟩, hgap w hw, hparen ')' (.inr rfl), (hphrase s hs).1,
    (hphrase s hs).2, (hphrase "" (by decide)).2, hcompile ["tag"] w "\n" hw (by decide)⟩

end SearchQuery.Query
