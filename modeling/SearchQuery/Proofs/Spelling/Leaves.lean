/-
SearchQuery/Proofs/Spelling/Leaves.lean

How single leaves are read.

There are four ways to write a leaf: a text with a colon behind a key that
is not allowed, which stands as it is, a filter, a phrase, and a run of
words.  The first three are one token each and end by themselves, whatever
comes behind them.  A run ends where something does not go on with it
(`StopsRun`), and operators in capitals are such places, so between them
runs can be written too (`legible_capitals`).
-/
import SearchQuery.Proofs.Grammar.Pieces
import SearchQuery.Proofs.Grammar.Words
import SearchQuery.Proofs.Spelling.Legible

namespace SearchQuery.Spelling

open Grammar

variable {allowed : String → Bool} {inside : List Token → Reading (Option Expr)}

/-! ### Leaves of one token -/

/-- A text with a colon stands as it is if its key is not allowed. -/
theorem gives_literal {t : Token} {key argument : String}
    (hcut : Text.cutAtColon t.text = some (key, argument)) (hkey : allowed key = false)
    (ts : List Token) :
    Gives (operand allowed inside t ts) 1 [] (some (.value t.text)) :=
  ⟨[.literal], operand_of_isOperand (.literal hcut hkey) rfl, rfl, rfl⟩

/-- A filter is read as such wherever its key is allowed. -/
theorem gives_filter {t : Token} {f : Filter} (htext : t.text = f.render)
    (hcolon : ':' ∉ f.key.toList) (hkey : allowed f.key = true)
    (htrim : Text.IsTrimmed f.value) (hne : f.value ≠ "") (ts : List Token) :
    Gives (operand allowed inside t ts) 1 [f.key] (some (.filter f)) := by
  have hcut : Text.cutAtColon t.text = some (f.key, f.value) :=
    Text.cutAtColon_eq_some_iff.2 ⟨htext, hcolon⟩
  have hvalue : Text.trim f.value ≠ "" := by rwa [Text.trim_eq_self htrim]
  have hread : operand allowed inside t ts = .take [.filter f.key] _ :=
    operand_of_isOperand (.filter hcut hkey hvalue) rfl
  refine ⟨[.filter f.key], ?_, rfl, rfl⟩
  rw [hread, Piece.leaf?, Text.trimmed?_eq_self htrim hne]
  rfl

/-- A quoted text without a colon is read as what is left when it is
trimmed. -/
theorem gives_phrase {t : Token} {v : String} (hquoted : t.quoted = true)
    (hop : t.isOperator = false) (hopen : t.opens = false) (hcolon : ':' ∉ t.text.toList)
    (htrim : Text.trimmed? t.text = some v) (ts : List Token) :
    Gives (operand allowed inside t ts) 1 [] (some (.value v)) := by
  have hread : operand allowed inside t ts = .take [.phrase] _ :=
    operand_of_isOperand (.phrase hquoted hop hopen (Text.cutAtColon_eq_none_iff.2 hcolon)) rfl
  refine ⟨[.phrase], ?_, rfl, rfl⟩
  rw [hread, Piece.leaf?, htrim]
  rfl

/-! ### Runs of words -/

variable (allowed) in
/-- A run of words does not go on with what comes next. -/
def StopsRun (ts : List Token) : Prop :=
  ∀ t ∈ ts.head?, continuesRun allowed t = false

/-- Words are read as one text with single spaces in it. -/
theorem gives_run {t : Token} {ts rest : List Token} {v : String}
    (hquoted : t.quoted = false) (hop : t.isOperator = false) (hopen : t.opens = false)
    (hcolon : ':' ∉ t.text.toList) (hts : ∀ t ∈ ts, continuesRun allowed t = true)
    (hstop : StopsRun allowed rest) (htrim : Text.trimmed? (joinWords (t :: ts)) = some v) :
    Gives (operand allowed inside t (ts ++ rest)) (t :: ts).length [] (some (.value v)) := by
  have hcut := Text.cutAtColon_eq_none_iff.2 hcolon
  have hread : operand allowed inside t (ts ++ rest) = .take ((t :: ts).map fun _ => .word) _ :=
    operand_of_isOperand (.words hquoted hop hopen hcut hts hstop) rfl
  refine ⟨(t :: ts).map fun _ => .word, ?_, List.length_map .., ?_⟩
  · rw [hread, Piece.leaf?, htrim]
    rfl
  · rw [List.filterMap_map]
    exact List.filterMap_eq_nil_iff.2 fun _ _ => rfl

/-! ### Operators in capitals -/

/-- The manner in which `AND` and `OR` stand between operands as they are. -/
def capitals (leaf : Expr → List Token → Prop) : Manner where
  leaf := leaf
  gap ts := ts = [.word "AND"]
  alternative t := t = .word "OR"

variable {leaf : Expr → List Token → Prop}

theorem gap_capitals : (capitals leaf).gap [.word "AND"] := rfl

theorem alternative_capitals : (capitals leaf).alternative (.word "OR") := rfl

theorem legible_capitals
    (hleaf : ∀ {e ts}, leaf e ts → ∃ t us, ts = t :: us ∧
      ∀ inside rest, StopsRun allowed rest →
        Gives (operand allowed inside t (us ++ rest)) ts.length e.keys (some e)) :
    Legible allowed (StopsRun allowed) (capitals leaf) := by
  -- nothing that the manner puts behind a leaf goes on with a run
  have hword : ∀ s ∈ ["AND", "OR", ")"],
      (Token.word s).closes = true ∨ (Token.word s).isOperator = true := by decide
  have hstop : ∀ s ∈ ["AND", "OR", ")"], ∀ ts, StopsRun allowed (.word s :: ts) := by
    intro s hs ts t ht
    obtain rfl := Option.some_inj.1 ht
    rcases hword s hs with h | h <;> simp [continuesRun, h]
  refine ⟨?_, hstop _ (by simp), ?_, ?_, ?_, hleaf⟩
  · intro t ht
    cases ht
  · rintro o rfl
    exact ⟨by decide, hstop _ (by simp)⟩
  · rintro gap rfl
    exact .inr ⟨_, rfl, by decide, by decide, by decide, hstop _ (by simp)⟩
  · intro hgap
    cases hgap

theorem keeps_capitals {P : Token → Prop} (hleaf : ∀ {e ts}, leaf e ts → ∀ t ∈ ts, P t)
    (h : ∀ s ∈ ["AND", "OR", "(", ")"], P (.word s)) : (capitals leaf).Keeps P where
  leaf := hleaf
  gap := by
    rintro ts rfl
    exact List.forall_mem_singleton.2 (h _ (by simp))
  alternative := by
    rintro t rfl
    exact h _ (by simp)
  opens := h _ (by simp)
  closes := h _ (by simp)

end SearchQuery.Spelling
