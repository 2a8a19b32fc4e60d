/-
SearchQuery/Proofs/Spelling/Quoted.lean

Queries with all leaves in quotes.

A quoted leaf can hold any characters but quotes: what would be an operator,
a parenthesis or a sort directive as a word is a text there.  Two things are
left to see to.  A text that is exactly an operator is one in quotes too, so
texts are padded by a space on each side, which is trimmed away again.  And
a text with a colon in it is not trimmed but stands as it is, so this one is
not padded.

Quoted leaves end by themselves.  Operators between them may therefore be
written in any case, or left out between operands of a conjunction
(`legible_quoted`), and so may blanks.
-/
import SearchQuery.Proofs.Spelling.Leaves
import SearchQuery.Proofs.Spelling.Minimal

namespace SearchQuery.Spelling

open Grammar

/-! ### Quotable leaves -/

/-- A leaf that is read again from between quotes, given the keys that are
allowed. -/
inductive Quotable (keys : List String) : Expr → Prop
  | text {v : String} : '"' ∉ v.toList → ':' ∉ v.toList → Text.IsTrimmed v → v ≠ "" →
      Quotable keys (.value v)
  | literal {v key argument : String} : '"' ∉ v.toList →
      Text.cutAtColon v = some (key, argument) → key ∉ keys → Quotable keys (.value v)
  | filter {f : Filter} : f.key ∈ keys → ':' ∉ f.key.toList → '"' ∉ f.key.toList →
      '"' ∉ f.value.toList → Text.IsTrimmed f.value → f.value ≠ "" → Quotable keys (.filter f)

/-- What stands between the quotes for a leaf. -/
def quotation : Expr → String
  | .value text => if ':' ∈ text.toList then text else " " ++ text ++ " "
  | .filter condition => condition.render
  | .and _ | .or _ => ""

variable {keys : List String} {e : Expr}

namespace Quotable

theorem place (h : Quotable keys e) : e.place = .operand := by
  cases h <;> rfl

/-- Between the quotes there is a colon or a space, so it is no operator. -/
theorem exists_mem (h : Quotable keys e) :
    ∃ c ∈ (quotation e).toList, c = ':' ∨ c = ' ' := by
  cases h with
  | text _ hcolon => exact ⟨' ', by simp [quotation, hcolon], .inr rfl⟩
  | literal _ hcut =>
    have hmem := Text.mem_of_cutAtColon hcut
    exact ⟨':', by simp [quotation, hmem], .inl rfl⟩
  | filter => exact ⟨':', by simp [quotation, Filter.render], .inl rfl⟩

theorem not_mem (h : Quotable keys e) : '"' ∉ (quotation e).toList := by
  cases h with
  | text hquote hcolon => simp [quotation, hcolon, hquote]
  | literal hquote hcut => simpa [quotation, Text.mem_of_cutAtColon hcut] using hquote
  | filter _ _ hkey hvalue => simp [quotation, Filter.render, hkey, hvalue]

/-- A quotable leaf is read again, whatever comes behind it. -/
theorem gives (h : Quotable keys e) (inside : List Token → Reading (Option Expr))
    (ts : List Token) :
    Gives (operand (fun key => decide (key ∈ keys)) inside (.phrase (quotation e)) ts) 1 e.keys
      (some e) := by
  obtain ⟨c, hmem, hc⟩ := h.exists_mem
  obtain ⟨hop, hopen, -⟩ := Token.apart_of_mem (t := .phrase (quotation e)) hmem hc
  cases h with
  | @text v _ hcolon htrim hne =>
    -- the spaces around the text are trimmed away again
    have hquotation : quotation (.value v) = " " ++ v ++ " " := if_neg hcolon
    rw [hquotation] at hop hopen ⊢
    refine gives_phrase rfl hop hopen ?_ (Text.trimmed?_pad htrim hne) ts
    simp [Token.phrase, hcolon]
  | @literal v key argument _ hcut hkey =>
    have hquotation : quotation (.value v) = v := if_pos (Text.mem_of_cutAtColon hcut)
    rw [hquotation]
    exact gives_literal (t := .phrase v) hcut (decide_eq_false hkey) ts
  | filter hkey hcolon _ _ htrim hne =>
    exact gives_filter rfl hcolon (decide_eq_true hkey) htrim hne ts

end Quotable

/-- A leaf in quotes. -/
def IsQuoted (keys : List String) (e : Expr) (ts : List Token) : Prop :=
  Quotable keys e ∧ ts = [.phrase (quotation e)]

/-! ### The manner with all leaves in quotes -/

/-- The manner in which leaves are quoted, operators are written in any
case, and `AND` may be left out. -/
def quoted (keys : List String) : Manner where
  leaf := IsQuoted keys
  gap ts := ts = [] ∨ ∃ o, Text.caseless o "AND" = true ∧ ts = [.word o]
  alternative t := ∃ o, Text.caseless o "OR" = true ∧ t = .word o

theorem legible_quoted :
    Legible (fun key => decide (key ∈ keys)) (fun _ => True) (quoted keys) where
  follows_nil := trivial
  follows_close _ := trivial
  alternative := by
    rintro _ ⟨o, ho, rfl⟩
    exact ⟨ho, fun _ => trivial⟩
  gap := by
    rintro _ (rfl | ⟨o, ho, rfl⟩)
    · exact .inl rfl
    · -- in any case it is still an `AND`, and so nothing else
      have hfolded := Text.caseless_iff.1 ho
      have halt : (Token.word o).alternates = false := by
        refine Bool.eq_false_iff.2 fun h => ?_
        have := hfolded.symm.trans (Text.caseless_iff.1 h)
        exact absurd this (by decide)
      have hclose : (Token.word o).closes = false := by
        refine beq_eq_false_iff_ne.2 ?_
        rintro rfl
        exact absurd hfolded (by decide)
      exact .inr ⟨_, rfl, halt, hclose, ho, fun _ => trivial⟩
  beside _ := by
    refine ⟨fun _ => trivial, ?_⟩
    rintro e t ts ⟨he, hts⟩
    obtain ⟨rfl, rfl⟩ := List.cons.inj hts
    obtain ⟨c, hmem, hc⟩ := he.exists_mem
    exact (Token.apart_of_mem hmem hc).2.2
  leaf := by
    rintro e _ ⟨he, rfl⟩
    exact ⟨_, [], rfl, fun inside rest _ => he.gives inside rest⟩

/-- An operator is no directive, because it has no colon in it. -/
theorem directive?_of_caseless {o s : String} (ho : Text.caseless o s = true)
    (hs : ':' ∉ Text.folded s) : (Token.word o).directive? = none := by
  have hcolon : ':' ∉ o.toList := by
    intro hmem
    rw [Text.caseless_eq_false_of_mem hmem hs] at ho
    cases ho
  refine Token.directive?_word fun key hkey => ?_
  have hnone : (Token.word o).key? = none := by
    rw [Token.key?, Token.word, Text.cutAtColon_eq_none_iff.2 hcolon]
    rfl
  rw [hnone] at hkey
  cases hkey

theorem keeps_directive?_quoted : (quoted keys).Keeps fun t => t.directive? = none where
  leaf := by
    rintro e _ ⟨-, rfl⟩
    exact List.forall_mem_singleton.2 (Token.directive?_phrase _)
  gap := by
    rintro _ (rfl | ⟨o, ho, rfl⟩)
    · exact List.forall_mem_nil _
    · exact List.forall_mem_singleton.2 (directive?_of_caseless ho (by decide))
  alternative := by
    rintro _ ⟨o, ho, rfl⟩
    exact directive?_of_caseless ho (by decide)
  opens := by decide
  closes := by decide

/-! ### Every expression can be written -/

/-- Operators in capitals with quoted leaves between them, and parentheses
only where they have to stand. -/
theorem exists_spelled_quoted (he : e.Regular (Quotable keys)) :
    ∃ ts, Spelled (quoted keys) .query e.nesting e ts ∧ ∀ t ∈ ts, t.WellFormed := by
  have hquoted : Spelled (quoted keys) e.place e.nesting e
      (spell (fun e => [.phrase (quotation e)]) e) :=
    spelled_spell (.inr ⟨"AND", by decide, rfl⟩) ⟨"OR", by decide, rfl⟩ Quotable.place
      (fun he => ⟨he, rfl⟩) he (Nat.le_refl _)
  have hcapitals : Spelled (capitals (IsQuoted keys)) e.place e.nesting e
      (spell (fun e => [.phrase (quotation e)]) e) :=
    spelled_spell gap_capitals alternative_capitals Quotable.place (fun he => ⟨he, rfl⟩) he
      (Nat.le_refl _)
  -- the tokens are the same in both manners, and capitals are plain words
  refine ⟨_, hquoted.widen (Place.room_le_query _), hcapitals.forall_mem ?_⟩
  refine keeps_capitals ?_ (by decide)
  rintro e _ ⟨he, rfl⟩
  exact List.forall_mem_singleton.2 he.not_mem

/-- **Every expression with quotable leaves can be written with its leaves in
quotes**, and compiles to itself in each of the ways to do so, as long as
groups are not nested too deep. -/
theorem compile_of_spelled_quoted (he : e.Regular (Quotable keys)) :
    (∃ ts, Spelled (quoted keys) .query e.nesting e ts ∧
      Token.Layout ts (Token.writeAll ts).toList) ∧
    ∀ ts text, Spelled (quoted keys) .query maxDepth e ts → Token.Layout ts text.toList →
      ∃ q, Query.compile keys text = .ok q ∧ q.IsFor keys e := by
  constructor
  · obtain ⟨ts, hts, hwell⟩ := exists_spelled_quoted he
    exact ⟨ts, hts, Token.layout_writeAll hwell⟩
  · intro ts text hts htext
    exact compile_of_spelled legible_quoted keeps_directive?_quoted hts htext

/-- Texts that look like an operator, a parenthesis and a directive, with
operators in several cases and an `AND` left out. -/
theorem compile_quoted_operators :
    let e := Expr.or [.or [.value "AND", .value ")"],
      .and [.value "sort:x", .or [.filter ⟨"tag", "a b"⟩, .value "z"]]]
    e.Regular (Quotable ["tag"]) ∧
      ∃ q, Query.compile ["tag"]
          "\" AND \" oR \" ) \" Or \"sort:x\" ( \"tag:a b\" OR \" z \" )" = .ok q ∧
        q.IsFor ["tag"] e := by
  have hand : Quotable ["tag"] (.value "AND") :=
    .text (by decide) (by decide) (by decide) (by decide)
  have hclose : Quotable ["tag"] (.value ")") :=
    .text (by decide) (by decide) (by decide) (by decide)
  have hcut : Text.cutAtColon "sort:x" = some ("sort", "x") := by decide
  have hsort : Quotable ["tag"] (.value "sort:x") := .literal (by decide) hcut (by decide)
  have htag : Quotable ["tag"] (.filter ⟨"tag", "a b"⟩) :=
    .filter (by decide) (by decide) (by decide) (by decide) (by decide) (by decide)
  have hz : Quotable ["tag"] (.value "z") :=
    .text (by decide) (by decide) (by decide) (by decide)
  have hinner : Expr.Regular (Quotable ["tag"]) (.or [.filter ⟨"tag", "a b"⟩, .value "z"]) :=
    .or (.leaf htag) (.leaf hz)
  have hright : Expr.Regular (Quotable ["tag"]) (.and [.value "sort:x", _]) :=
    .and (by decide) (List.forall_mem_cons.2
      ⟨.leaf hsort, List.forall_mem_singleton.2 hinner⟩)
  have he := Expr.Regular.or (.or (.leaf hand) (.leaf hclose)) hright
  have hor : ∀ o, Text.caseless o "OR" = true → (quoted ["tag"]).alternative (.word o) :=
    fun o ho => ⟨o, ho, rfl⟩
  have hleaf : ∀ n e, Quotable ["tag"] e →
      Spelled (quoted ["tag"]) .operand n e [.phrase (quotation e)] :=
    fun _ _ he => .leaf ⟨he, rfl⟩
  have hgroup : Spelled (quoted ["tag"]) .query 127 (.or [_, _]) _ :=
    .or (.clause (.single (hleaf _ _ htag))) (hor "OR" (by decide)) (.single (hleaf _ _ hz))
  have hclause : Spelled (quoted ["tag"]) .clause maxDepth (.and [_, _]) _ :=
    .and (by decide) (.cons (hleaf _ _ hsort) (.inl rfl) (.last (.group hgroup)))
  have hspelled : Spelled (quoted ["tag"]) .query maxDepth (.or [.or [_, _], _]) _ :=
    .or (.or (.clause (.single (hleaf _ _ hand))) (hor "oR" (by decide))
      (.single (hleaf _ _ hclose))) (hor "Or" (by decide)) hclause
  refine ⟨he, (compile_of_spelled_quoted he).2 _ _ hspelled ?_⟩
  exact Token.layout_writeAll (by decide)

end SearchQuery.Spelling
