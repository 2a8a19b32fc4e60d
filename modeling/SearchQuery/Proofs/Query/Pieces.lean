/-
SearchQuery/Proofs/Query/Pieces.lean

Every word of a query has its place.

The tokens of a query up to where reading stops fall into pieces, and the
leaves of the expression are what the pieces come to, one by one and in
order (`exists_pieces_of_compile`).  Blanks at the ends of quoted texts and
of values are all that is lost: the words of a query have none, so a run of
words is their texts with single spaces between them.
-/
import SearchQuery.Proofs.Grammar.Pieces
import SearchQuery.Proofs.Grammar.Words
import SearchQuery.Proofs.Query.Compile

namespace SearchQuery

namespace Grammar

variable {allowed : String → Bool} {n : Nat} {spot : Spot} {ts : List Token}
variable {ps : List Piece}

/-! ### Runs of words among the pieces -/

/-- Every piece is an operand, an operator or a parenthesis. -/
theorem Cut.isOperand_of_words {t : Token} {us : List Token} (h : Cut allowed n spot ts ps)
    (hmem : .words t us ∈ ps) : ∃ rest, Piece.IsOperand allowed rest (.words t us) := by
  induction h with
  | done | stop => cases hmem
  | operand hp _ ih =>
    rcases List.mem_cons.1 hmem with rfl | hmem
    · exact ⟨_, hp⟩
    · exact ih hmem
  | opens _ _ ih | closes _ _ ih | joins _ _ ih | alternates _ _ ih =>
    rcases List.mem_cons.1 hmem with hmem | hmem
    · cases hmem
    · exact ih hmem
  | beside _ _ _ _ ih => exact ih hmem

/-- No word of a run is quoted. -/
theorem Cut.quoted_of_words {t : Token} {us : List Token} (h : Cut allowed n spot ts ps)
    (hmem : .words t us ∈ ps) : ∀ u ∈ t :: us, u.quoted = false := by
  obtain ⟨rest, hp⟩ := h.isOperand_of_words hmem
  cases hp with
  | words hquoted _ _ _ hwords _ =>
    exact List.forall_mem_cons.2 ⟨hquoted, fun u hu => (continuesRun_iff.1 (hwords u hu)).1⟩

/-- A run of well-formed words comes to the words with single spaces between
them. -/
theorem Cut.leaf?_words (h : Cut allowed n spot ts ps) (hts : ∀ t ∈ ts, t.WellFormed)
    {t : Token} {us : List Token} (hmem : .words t us ∈ ps) :
    (Piece.words t us).leaf? = some (.value (joinWords (t :: us))) := by
  have hwords : ∀ u ∈ t :: us, u ∈ ts := fun u hu =>
    h.tokens_prefix.subset (List.mem_flatMap.2 ⟨_, hmem, hu⟩)
  obtain ⟨htrim, hne⟩ := isTrimmed_joinWords fun u hu =>
    (hts u (hwords u hu)).not_blank (h.quoted_of_words hmem u hu)
  rw [Piece.leaf?, Text.trimmed?_eq_self htrim hne]
  rfl

end Grammar

namespace Query

open Grammar

/-! ### Queries -/

/-- **No text of an operand is lost, doubled or moved**: the tokens that were
read fall into pieces, and the leaves of the query are those of the pieces,
in order. -/
theorem exists_pieces_of_compile {keys : List String} {text : String} {q : Query}
    (h : compile keys text = .ok q) :
    ∃ ps, Cut (fun key => decide (key ∈ keys)) 0 .front (kept text) ps ∧
      ps.flatMap Piece.tokens
        = (kept text).take (parse (fun key => decide (key ∈ keys)) (kept text)).taken ∧
      q.leaves = ps.filterMap Piece.leaf? ∧
      ∀ t us, .words t us ∈ ps →
        (Piece.words t us).leaf? = some (.value (joinWords (t :: us))) := by
  obtain ⟨roles, expr, hparse, rfl⟩ := compile_eq_ok_iff.1 h
  obtain ⟨ps, hcut, hroles, hleaves⟩ := exists_cut_of_parse hparse
  refine ⟨ps, hcut, ?_, hleaves.symm, fun t us => hcut.leaf?_words fun u hu => ?_⟩
  · rw [hcut.tokens_eq_take, hroles, hparse]
    rfl
  · exact wellFormed_of_mem_kept hu

/-- A stray operator, a value that is another token, a key that is not allowed
by itself and in a run of words, a filter that is dropped, and a `)` outside
all groups. -/
theorem exists_pieces_of_compile_mixed :
    let text := "AND x tag:\"go lang\" foo:1 and y w:2 OR ( \" a b \" tag: ) ) z"
    ∃ q, compile ["tag"] text = .ok q ∧
      q.leaves = [.value "x", .filter ⟨"tag", "go lang"⟩, .value "foo:1", .value "y w:2",
        .value "a b"] ∧
      ∃ ps, Cut (fun key => decide (key ∈ ["tag"])) 0 .front (kept text) ps ∧
        q.leaves = ps.filterMap Piece.leaf? := by
  intro text
  have h : compile ["tag"] text = .ok
      { expr := some (.or [.and [.value "x", .filter ⟨"tag", "go lang"⟩, .value "foo:1",
          .value "y w:2"], .value "a b"])
        sort := []
        freeText := ["x", "foo:1", "y w:2", "a b"]
        found := (KeyMarks.seeded ["tag"]).mark "tag" } := by
    rw [compile_eq_lex]
    decide +kernel
  obtain ⟨ps, hcut, -, hleaves, -⟩ := exists_pieces_of_compile h
  exact ⟨_, h, rfl, ps, hcut, hleaves⟩

end Query

end SearchQuery
