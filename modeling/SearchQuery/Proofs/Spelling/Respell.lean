/-
SearchQuery/Proofs/Spelling/Respell.lean

Results written back as queries.

Whatever a query compiles to can be written as a query again, with leaves in
quotes and parentheses only where they have to stand.  One kind of leaf
cannot be quoted: words may run together to a text whose beginning, up to a
colon, is an allowed key.  In quotes this text would be a filter, so it is
written as the words that it came from (`WordRun`); these are the tokens of
the text itself.

Results never need more groups than the query had, so there is always room
for those that are written, and what is written compiles to the same
expression (`compile_respell`).
-/
import SearchQuery.Proofs.Grammar.Results
import SearchQuery.Proofs.Spelling.Quoted

namespace SearchQuery

namespace Token

/-- A token that can be left of a query without its directives. -/
def IsKept (t : Token) : Prop :=
  t.WellFormed ∧ t.directive? = none

instance (t : Token) : Decidable t.IsKept :=
  inferInstanceAs (Decidable (_ ∧ _))

theorem isKept_of_mem_kept {text : String} {t : Token} (h : t ∈ Query.kept text) :
    t.IsKept :=
  ⟨Query.wellFormed_of_mem_kept h, (mem_extractSort h).2⟩

end Token

namespace Spelling

open Grammar

/-! ### Texts of words -/

theorem writeAll_eq_joinWords {ts : List Token} (h : ∀ t ∈ ts, t.quoted = false) :
    Token.writeAll ts = joinWords ts := by
  have hwrite : ts.map Token.write = ts.map Token.text :=
    List.map_congr_left fun t ht => by simp [Token.write, h t ht]
  rw [Token.writeAll, hwrite, joinWords]

/-! ### Leaves that stand as words -/

variable {keys : List String} {e : Expr} {ts : List Token}

/-- Words that run together to a text which would be a filter in quotes. -/
inductive WordRun (keys : List String) : Expr → List Token → Prop
  | mk {t ts key argument} : (∀ u ∈ t :: ts, u.IsKept ∧ u.quoted = false) →
      (∀ u ∈ ts, continuesRun (fun key => decide (key ∈ keys)) u = true) →
      t.isOperator = false → t.opens = false → ':' ∉ t.text.toList →
      Text.cutAtColon (joinWords (t :: ts)) = some (key, argument) → key ∈ keys →
      WordRun keys (.value (joinWords (t :: ts))) (t :: ts)

namespace WordRun

theorem isKept (h : WordRun keys e ts) : ∀ t ∈ ts, t.IsKept := by
  cases h with
  | mk hkept => exact fun t ht => (hkept t ht).1

/-- The words are the tokens of their text. -/
theorem tokenize_eq {text : String} (h : WordRun keys (.value text) ts) :
    tokenize text = ts := by
  cases h with
  | mk hkept =>
    rw [← writeAll_eq_joinWords fun t ht => (hkept t ht).2]
    exact Token.tokenize_of_layout (Token.layout_writeAll fun t ht => (hkept t ht).1.1)

theorem gives (h : WordRun keys e ts) : ∃ t us, ts = t :: us ∧ ∀ inside rest,
    StopsRun (fun key => decide (key ∈ keys)) rest →
      Gives (operand (fun key => decide (key ∈ keys)) inside t (us ++ rest)) ts.length e.keys
        (some e) := by
  cases h with
  | @mk t us _ _ hkept hcontinues hop hopen hcolon =>
    refine ⟨t, us, rfl, fun inside rest hstop => ?_⟩
    obtain ⟨htrim, hne⟩ := isTrimmed_joinWords fun u hu =>
      (hkept u hu).1.1.not_blank (hkept u hu).2
    exact gives_run (hkept t List.mem_cons_self).2 hop hopen hcolon hcontinues hstop
      (Text.trimmed?_eq_self htrim hne)

end WordRun

/-! ### Leaves of results -/

/-- The text of a value, seen by its first colon. -/
theorem quotable_or_allowed {text : String} (hquote : '"' ∉ text.toList)
    (htrim : Text.IsTrimmed text) (hne : text ≠ "") :
    Quotable keys (.value text) ∨
      ∃ key argument, Text.cutAtColon text = some (key, argument) ∧ key ∈ keys := by
  rcases hcut : Text.cutAtColon text with - | ⟨key, argument⟩
  · exact .inl (.text hquote (Text.cutAtColon_eq_none_iff.1 hcut) htrim hne)
  · by_cases hkey : key ∈ keys
    · exact .inr ⟨key, argument, rfl, hkey⟩
    · exact .inl (.literal hquote hcut hkey)

theorem quotable_filter {t : Token} (ht : t.WellFormed) {key argument : String}
    (hcut : Text.cutAtColon t.text = some (key, argument)) (hkey : key ∈ keys)
    {text value : String} (htext : '"' ∉ text.toList)
    (htrim : Text.trimmed? text = some value) : Quotable keys (.filter ⟨key, value⟩) := by
  obtain ⟨hsplit, hcolon⟩ := Text.cutAtColon_eq_some_iff.1 hcut
  obtain ⟨hvalue, hne, hchars⟩ := Text.isTrimmed_of_trimmed? htrim
  have hquote : '"' ∉ key.toList := by
    intro hmem
    refine ht.not_mem ?_
    rw [hsplit]
    simp [hmem]
  exact .filter hkey hcolon hquote (fun hmem => htext (hchars _ hmem)) hvalue hne

/-- A leaf that is read from a query can be quoted, or else it came from
words and can be written as these. -/
theorem quotable_or_wordRun
    (h : ReadLeaf (fun key => decide (key ∈ keys)) Token.IsKept e) :
    Quotable keys e ∨ ∃ ts, WordRun keys e ts := by
  cases h with
  | literal ht hcut hkey =>
    exact .inl (.literal ht.1.not_mem hcut (of_decide_eq_false hkey))
  | phrase ht _ hcut htrim =>
    obtain ⟨htext, hne, hchars⟩ := Text.isTrimmed_of_trimmed? htrim
    have hcolon := Text.cutAtColon_eq_none_iff.1 hcut
    exact .inl (.text (fun hmem => ht.1.not_mem (hchars _ hmem))
      (fun hmem => hcolon (hchars _ hmem)) htext hne)
  | @run t ts text ht hts hquoted hop hopen hcut htrim =>
    have hwords : ∀ u ∈ t :: ts, u.IsKept ∧ u.quoted = false := by
      refine List.forall_mem_cons.2 ⟨⟨ht, hquoted⟩, fun u hu => ⟨(hts u hu).1, ?_⟩⟩
      exact (continuesRun_iff.1 (hts u hu).2).1
    -- nothing is trimmed from words, so the text is the words themselves
    obtain ⟨htrimmed, hne⟩ := isTrimmed_joinWords fun u hu =>
      (hwords u hu).1.1.not_blank (hwords u hu).2
    obtain rfl : joinWords (t :: ts) = text :=
      Option.some_inj.1 ((Text.trimmed?_eq_self htrimmed hne).symm.trans htrim)
    have hquote : '"' ∉ (joinWords (t :: ts)).toList := by
      intro hmem
      rcases mem_joinWords hmem with hspace | ⟨u, hu, hmem⟩
      · exact absurd hspace (by decide)
      · exact (hwords u hu).1.1.not_mem hmem
    rcases quotable_or_allowed hquote htrimmed hne with h | ⟨key, argument, hkey, hmem⟩
    · exact .inl h
    · exact .inr ⟨t :: ts, .mk hwords (fun u hu => (hts u hu).2) hop hopen
        (Text.cutAtColon_eq_none_iff.1 hcut) hkey hmem⟩
  | @filter t key argument value ht hcut hkey htrim =>
    have htext : '"' ∉ argument.toList := by
      intro hmem
      refine ht.1.not_mem ?_
      rw [(Text.cutAtColon_eq_some_iff.1 hcut).1]
      simp [hmem]
    exact .inl (quotable_filter ht.1 hcut (of_decide_eq_true hkey) htext htrim)
  | argument ht hu hcut hkey _ htrim =>
    exact .inl (quotable_filter ht.1 hcut (of_decide_eq_true hkey) hu.1.not_mem htrim)

/-! ### Writing results -/

/-- The tokens in which a leaf is written back. -/
def respellLeaf (keys : List String) : Expr → List Token
  | .value text =>
    if (Token.word text).key?.any fun key => decide (key ∈ keys) then tokenize text
    else [.phrase (quotation (.value text))]
  | e => [.phrase (quotation e)]

/-- The tokens in which an expression is written back: leaves in quotes where
they can be, operators in capitals, and no parentheses without need. -/
def respell (keys : List String) (e : Expr) : List Token :=
  spell (respellLeaf keys) e

/-- The manner in which results are written. -/
def respelled (keys : List String) : Manner :=
  capitals fun e ts => IsQuoted keys e ts ∨ WordRun keys e ts

theorem Quotable.respellLeaf_eq (h : Quotable keys e) :
    respellLeaf keys e = [.phrase (quotation e)] := by
  cases h with
  | @text v _ hcolon =>
    have hkey : (Token.word v).key? = none := by
      rw [Token.key?, Token.word, Text.cutAtColon_eq_none_iff.2 hcolon]
      rfl
    rw [respellLeaf, hkey]
    rfl
  | @literal v key argument _ hcut hallowed =>
    have hkey : (Token.word v).key? = some key := by
      rw [Token.key?, Token.word, hcut]
      rfl
    rw [respellLeaf, hkey, Option.any_some, decide_eq_false hallowed,
      if_neg Bool.false_ne_true]
  | filter => rfl

theorem WordRun.respellLeaf_eq (h : WordRun keys e ts) : respellLeaf keys e = ts := by
  cases h with
  | @mk t us key argument hkept hcontinues hop hopen hcolon hcut hallowed =>
    have htokens := (mk hkept hcontinues hop hopen hcolon hcut hallowed).tokenize_eq
    have hkey : (Token.word (joinWords (t :: us))).key? = some key := by
      rw [Token.key?, Token.word, hcut]
      rfl
    rw [respellLeaf, hkey, Option.any_some, decide_eq_true hallowed, if_pos rfl]
    exact htokens

theorem legible_respelled :
    Legible (fun key => decide (key ∈ keys)) (StopsRun fun key => decide (key ∈ keys))
      (respelled keys) := by
  refine legible_capitals fun {e ts} h => ?_
  rcases h with ⟨he, rfl⟩ | h
  · exact ⟨_, [], rfl, fun inside rest _ => he.gives inside rest⟩
  · exact h.gives

theorem keeps_isKept_respelled : (respelled keys).Keeps Token.IsKept := by
  refine keeps_capitals (fun {e ts} h => ?_) (by decide)
  rcases h with ⟨he, rfl⟩ | h
  · exact List.forall_mem_singleton.2 ⟨he.not_mem, Token.directive?_phrase _⟩
  · exact h.isKept

theorem spelled_respell {used : List String}
    (h : Result (fun key => decide (key ∈ keys)) Token.IsKept .query maxDepth used e) :
    Spelled (respelled keys) .query maxDepth e (respell keys e) := by
  have hnesting : e.nesting ≤ maxDepth := by
    simpa only [Expr.nestingAt_query] using h.nesting
  -- `respellLeaf` makes the choice that the manner leaves open
  have hleaf : ∀ {e}, ReadLeaf (fun key => decide (key ∈ keys)) Token.IsKept e →
      (respelled keys).leaf e (respellLeaf keys e) := by
    intro e he
    rcases quotable_or_wordRun he with he | ⟨ts, hts⟩
    · exact .inl ⟨he, he.respellLeaf_eq⟩
    · exact .inr (hts.respellLeaf_eq.symm ▸ hts)
  exact (spelled_spell gap_capitals alternative_capitals ReadLeaf.place hleaf h.regular
    hnesting).widen (Place.room_le_query _)

/-- **Writing a result back gives the same result**: every text that shows
the tokens in which it is written compiles to the same expression and free
text, asks for no order, and marks no key that had not been marked. -/
theorem compile_respell {text : String} {q : Query} (h : Query.compile keys text = .ok q)
    (he : q.expr = some e) :
    Token.Layout (respell keys e) (Token.writeAll (respell keys e)).toList ∧
    ∀ text', Token.Layout (respell keys e) text'.toList →
      ∃ q', Query.compile keys text' = .ok q' ∧ q'.expr = some e ∧ q'.sort = [] ∧
        q'.freeText = q.freeText ∧
        ∀ key, q'.found.isFound key = true → q.found.isFound key = true := by
  obtain ⟨roles, expr, hparse, rfl⟩ := Query.compile_eq_ok_iff.1 h
  obtain rfl : expr = some e := he
  -- the first query bounds the groups that are needed now, and the keys that are met
  have hresult := result_parse (fun t ht => Token.isKept_of_mem_kept ht) hparse
  have hspelled := spelled_respell hresult
  have hkept := hspelled.forall_mem keeps_isKept_respelled
  refine ⟨Token.layout_writeAll fun t ht => (hkept t ht).1, fun text' htext' => ?_⟩
  obtain ⟨q', hq', hfor⟩ := compile_of_spelled legible_respelled
    (keeps_isKept_respelled.imp fun _ ht => ht.2) hspelled htext'
  refine ⟨q', hq', hfor.expr, hfor.sort, ?_, fun key hkey => ?_⟩
  · exact hfor.freeText.trans e.values_eq_texts.symm
  · obtain ⟨hallowed, hused⟩ := hfor.isFound_iff.1 hkey
    exact KeyMarks.isFound_markAll_seeded.2 ⟨hallowed, hresult.keys hused⟩

/-- Words that would be a filter on an allowed key in quotes, and a text that
would be an operator without blanks around it.  The parentheses are not
needed. -/
theorem compile_respell_words :
    let e := Expr.or [.value "a b:c", .value "AND"]
    ∃ q q', Query.compile ["a b"] "( a b:c ) OR ( \" AND \" )" = .ok q ∧ q.expr = some e ∧
      Query.compile ["a b"] "a b:c OR \" AND \"" = .ok q' ∧ q'.expr = some e := by
  have hwords : WordRun ["a b"] (.value "a b:c") [.word "a", .word "b:c"] :=
    @WordRun.mk ["a b"] (.word "a") [.word "b:c"] "a b" "c" (by decide) (by decide)
      (by decide) (by decide) (by decide) (by decide) (by decide)
  have hquotable : Quotable ["a b"] (.value "AND") :=
    .text (by decide) (by decide) (by decide) (by decide)
  have hleft : Spelled (respelled ["a b"]) .operand maxDepth (.value "a b:c") _ :=
    .group (.clause (.single (.leaf (.inr hwords))))
  have hright : Spelled (respelled ["a b"]) .operand maxDepth (.value "AND") _ :=
    .group (.clause (.single (.leaf (.inl ⟨hquotable, rfl⟩))))
  have hspelled : Spelled (respelled ["a b"]) .query maxDepth (.or [_, _]) _ :=
    .or (.clause (.single hleft)) alternative_capitals (.single hright)
  obtain ⟨q, hq, hfor⟩ := compile_of_spelled legible_respelled
    (keeps_isKept_respelled.imp fun _ ht => ht.2) hspelled (Token.layout_writeAll (by decide))
  have hrespell : respell ["a b"] (.or [.value "a b:c", .value "AND"])
      = [.word "a", .word "b:c", .word "OR", .phrase " AND "] := by
    rw [respell, spell, spell, spellBehind, spellBehind, spell, hwords.respellLeaf_eq,
      hquotable.respellLeaf_eq]
    rfl
  have hlayout : Token.Layout (respell ["a b"] (.or [.value "a b:c", .value "AND"]))
      "a b:c OR \" AND \"".toList := by
    rw [hrespell]
    exact Token.layout_writeAll (by decide)
  obtain ⟨q', hq', hexpr, -⟩ := (compile_respell hq hfor.expr).2 _ hlayout
  exact ⟨q, q', hq, hfor.expr, hq', hexpr⟩

end Spelling

end SearchQuery
