/-
SearchQuery/Proofs/Query/WellFormed.lean

What every compiled query looks like.

Groups of one operand, groups of none, stray operators, blank phrases and
filters without values leave no trace in the expression: its conjunctions
and alternatives join what is really there, and its leaves are texts and
filters that say something (`ProperLeaf`).  The record knows the allowed keys
and no others, and has marked those that the expression uses.

Main statement: every text that compiles comes to a well-formed query
(`wellFormed_of_compile`).
-/
import SearchQuery.Proofs.Grammar.Results
import SearchQuery.Proofs.Grammar.Words
import SearchQuery.Proofs.Query.Compile

namespace SearchQuery.Query

open Grammar

/-! ### Well-formed queries -/

/-- A leaf of a query with these keys and marks. -/
inductive ProperLeaf (keys : List String) (found : KeyMarks) : Expr → Prop
  | value {text} : (∃ c ∈ text.toList, Text.isBlank c = false) → '"' ∉ text.toList →
      (':' ∉ text.toList → Text.IsTrimmed text) → ProperLeaf keys found (.value text)
  | filter {key value} : key ∈ keys → ':' ∉ key.toList → value ≠ "" → Text.IsTrimmed value →
      found.get? key = some true → ProperLeaf keys found (.filter ⟨key, value⟩)

/-- What a query compiled with these keys looks like. -/
structure WellFormed (keys : List String) (q : Query) : Prop where
  expr : ∀ e ∈ q.expr, e.Regular (ProperLeaf keys q.found)
  found : ∀ key, key ∈ q.found.entries.map Prod.fst ↔ key ∈ keys
  freeText : q.freeText = q.leaves.filterMap Expr.asValue?
  isEmpty : q.isEmpty = true ↔ q.leaves = []

variable {keys : List String} {found : KeyMarks} {e : Expr}

theorem ProperLeaf.flatten_eq (h : ProperLeaf keys found e) : e.flatten = [e] := by
  cases h <;> rfl

/-! ### Leaves that were read -/

theorem flatten_of_readLeaf {allowed : String → Bool} {Q : Token → Prop}
    (h : ReadLeaf allowed Q e) : e.flatten = [e] := by
  cases h <;> rfl

theorem properLeaf_text {text : String} (htrim : Text.IsTrimmed text) (hne : text ≠ "")
    (hquote : '"' ∉ text.toList) : ProperLeaf keys found (.value text) :=
  .value (Text.exists_not_blank htrim hne) hquote fun _ => htrim

/-- A leaf that was read from a query is a proper one, if the key of a filter
has been marked. -/
theorem properLeaf_of_readLeaf
    (h : ReadLeaf (fun key => decide (key ∈ keys)) Token.WellFormed e)
    (hfound : ∀ condition, e = .filter condition → condition.key ∈ keys →
      found.get? condition.key = some true) :
    ProperLeaf keys found e := by
  cases h with
  | literal ht hcut =>
    have hcolon := Text.mem_of_cutAtColon hcut
    exact .value ⟨':', hcolon, by decide⟩ ht.not_mem (absurd hcolon)
  | phrase ht _ _ htrim =>
    obtain ⟨htext, hne, hchars⟩ := Text.isTrimmed_of_trimmed? htrim
    exact properLeaf_text htext hne fun hmem => ht.not_mem (hchars _ hmem)
  | run ht hts _ _ _ _ htrim =>
    obtain ⟨htext, hne, hchars⟩ := Text.isTrimmed_of_trimmed? htrim
    refine properLeaf_text htext hne fun hmem => ?_
    -- a quote in the text would be one in a word, or a space
    rcases mem_joinWords (hchars _ hmem) with hspace | ⟨u, hu, hmem⟩
    · exact absurd hspace (by decide)
    · rcases List.mem_cons.1 hu with rfl | hu
      · exact ht.not_mem hmem
      · exact (hts u hu).1.not_mem hmem
  | @filter t key argument value _ hcut hkey htrim =>
    obtain ⟨htext, hne, -⟩ := Text.isTrimmed_of_trimmed? htrim
    have hkey : key ∈ keys := of_decide_eq_true hkey
    exact .filter hkey (Text.cutAtColon_eq_some_iff.1 hcut).2 hne htext
      (hfound _ rfl hkey)
  | @argument t u key argument value _ _ hcut hkey _ htrim =>
    obtain ⟨htext, hne, -⟩ := Text.isTrimmed_of_trimmed? htrim
    have hkey : key ∈ keys := of_decide_eq_true hkey
    exact .filter hkey (Text.cutAtColon_eq_some_iff.1 hcut).2 hne htext
      (hfound _ rfl hkey)

/-! ### Queries -/

/-- **Every compiled query is well formed.** -/
theorem wellFormed_of_compile {text : String} {q : Query} (h : compile keys text = .ok q) :
    q.WellFormed keys := by
  obtain ⟨roles, expr, hparse, rfl⟩ := compile_eq_ok_iff.1 h
  have hregular : ∀ e ∈ expr,
      e.Regular (ProperLeaf keys (ofReading keys text roles expr).found) := by
    rintro e rfl
    have hresult := result_parse (fun t ht => wellFormed_of_mem_kept ht) hparse
    refine hresult.regular.imp (fun l hl => flatten_of_readLeaf hl) fun l hl hread => ?_
    refine properLeaf_of_readLeaf hread fun condition hcondition hkey => ?_
    subst hcondition
    -- the key of a filter in the expression was met while it was read
    have hused := hresult.keys (Expr.key_mem_keys hl)
    rw [ofReading, KeyMarks.get?_markAll_seeded, if_pos hkey, decide_eq_true hused]
  refine ⟨hregular, fun key => ?_, freeText_ofReading roles expr, ?_⟩
  · rw [KeyMarks.mem_keys_iff, KeyMarks.isAllowed, ofReading, KeyMarks.get?_markAll_seeded]
    by_cases hkey : key ∈ keys <;> simp [hkey]
  · cases expr with
    | none => exact iff_of_true rfl rfl
    | some e =>
      refine iff_of_false (by simp [isEmpty, ofReading]) fun hnil => ?_
      have := (hregular e rfl).flatten_ne_nil fun l hl => hl.flatten_eq
      refine this ?_
      simpa [leaves, ofReading, Expr.leavesOf, Expr.flattenAll] using hnil

/-- A group of one operand, a filter without a value, a key that is not
allowed, and a stray `)` behind which nothing counts. -/
theorem wellFormed_of_compile_nested :
    let text := "((x) AND tag:\"\") OR foo:1 tag:\" go \" ) AND ( y"
    ∃ q, compile ["tag"] text = .ok q ∧
      q.expr = some (.or [.value "x", .and [.value "foo:1", .filter ⟨"tag", "go"⟩]]) ∧
      q.WellFormed ["tag"] := by
  intro text
  have h : compile ["tag"] text = .ok
      { expr := some (.or [.value "x", .and [.value "foo:1", .filter ⟨"tag", "go"⟩]])
        sort := []
        freeText := ["x", "foo:1"]
        found := (KeyMarks.seeded ["tag"]).mark "tag" } := by
    rw [compile_eq_lex]
    decide +kernel
  exact ⟨_, h, rfl, wellFormed_of_compile h⟩

end SearchQuery.Query
