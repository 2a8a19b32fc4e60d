/-
SearchQuery/Proofs/Query/Endings.lean

Where a query ends.

A quote that is still open at the end might as well be closed there
(`compile_close_quote`).  If it is empty, there is one token more with the
quote closed: a directive that waits takes it for no ordering, and in any
other place it is read and nothing comes of it.

A group that is still open is an error, but one that can always be mended by
closing parentheses, and neither this nor the other error of the grammar is
met without parentheses that open groups (`compile_append_closes`).

A `)` outside all groups ends a query before its tokens end.  What comes
behind it is not read, so neither an error nor a filter is noticed there.
Only the orderings are taken from all of the text (`parse_cut_off`).
-/
import SearchQuery.Proofs.Directive.Append
import SearchQuery.Proofs.Grammar.Endings
import SearchQuery.Proofs.Query.Compile
import SearchQuery.Proofs.Token.Append

namespace SearchQuery.Query

open Grammar

variable {keys : List String} {text : String}

/-! ### Open quotes -/

/-- **A quote that is open at the end might as well be closed**, and the query
is the same, or the error. -/
theorem compile_close_quote (hodd : text.toList.count '"' % 2 = 1) :
    compile keys (text ++ "\"") = compile keys text := by
  rcases Token.tokenize_close_quote hodd with htokens | htokens
  · simp only [compile, htokens]
  rcases extractSort_append_empty (tokenize text) with hsorted | hsorted
  · simp only [compile, htokens, hsorted]
  · have hkept : kept (text ++ "\"") = kept text ++ [.phrase ""] := by
      rw [kept, htokens, hsorted, kept]
    obtain ⟨houtcome, hused⟩ := parse_append_empty (KeyMarks.seeded keys).isAllowed (kept text)
    apply compile_congr
    · rw [htokens, hsorted]
    · rw [hkept, houtcome]
    · rw [hkept, hused]

/-- A quote right behind a key that has no value yet, behind a directive that
waits and behind a run of words, and one in a group that is not closed. -/
theorem compile_close_quote_in_filter :
    let inFilter := "x OR \"y z\" tag: \""
    let inDirective := "tag:go sort: \""
    let inRun := "y  z\""
    let inGroup := "x OR (\"y z\" tag: \""
    let unused := KeyMarks.seeded ["tag"]
    let query : Query :=
      { expr := some (.or [.value "x", .value "y z"]), sort := [], freeText := ["x", "y z"]
        found := unused.mark "tag" }
    let ordered : Query :=
      { expr := some (.filter ⟨"tag", "go"⟩), sort := [], freeText := []
        found := unused.mark "tag" }
    let run : Query :=
      { expr := some (.value "y z"), sort := [], freeText := ["y z"], found := unused }
    (∀ text ∈ [inFilter, inDirective, inRun, inGroup],
        text.toList.count '"' % 2 = 1 ∧ compile ["tag"] (text ++ "\"") = compile ["tag"] text) ∧
      compile ["tag"] (inFilter ++ "\"") = .ok query ∧
      compile ["tag"] (inDirective ++ "\"") = .ok ordered ∧
      compile ["tag"] (inRun ++ "\"") = .ok run ∧
      compile ["tag"] (inGroup ++ "\"") = .error .unclosedGroup := by
  intro inFilter inDirective inRun inGroup unused query ordered run
  have hodd : ∀ text ∈ [inFilter, inDirective, inRun, inGroup],
      text.toList.count '"' % 2 = 1 := by
    decide
  refine ⟨fun text htext => ⟨hodd text htext, compile_close_quote (hodd text htext)⟩, ?_, ?_, ?_,
    ?_⟩
  all_goals
    rw [compile_eq_lex]
    decide +kernel

/-! ### Open groups -/

theorem countP_opens_kept_le (text : String) :
    (kept text).countP Token.opens ≤ (tokenize text).countP Token.opens :=
  (sublist_extractSort _).countP_le

/-- More parentheses than there are tokens that open a group close all of the
groups that are open, and they do not change the orderings. -/
theorem exists_compile_closed (heven : text.toList.count '"' % 2 = 0)
    (h : compile keys text = .error .unclosedGroup) {m : Nat}
    (hm : (tokenize text).countP Token.opens < m) :
    ∃ q, compile keys (text ++ String.ofList (List.replicate m ')')) = .ok q ∧
      q.sort = (extractSort (tokenize text)).2 := by
  have hsorted : extractSort (tokenize (text ++ String.ofList (List.replicate m ')')))
      = (kept text ++ List.replicate m (.word ")"), (extractSort (tokenize text)).2) := by
    rw [Token.tokenize_append_closes heven, extractSort_append_kept]
    · rfl
    · intro t ht
      rw [List.eq_of_mem_replicate ht]
      rfl
    · intro t ht
      rw [List.eq_of_mem_replicate ht]
      rfl
  have hmended := parse_append_closes (compile_eq_error_iff.1 h)
    (Nat.lt_of_le_of_lt (countP_opens_kept_le text) hm)
  obtain ⟨expr?, hparse⟩ := hmended
  have hkept : kept (text ++ String.ofList (List.replicate m ')'))
      = kept text ++ List.replicate m (.word ")") := by
    rw [kept, hsorted]
  rw [← hkept] at hparse
  obtain ⟨q, hq, hsort⟩ := exists_compile_eq_ok hparse
  refine ⟨q, hq, ?_⟩
  rw [hsort, hsorted]

/-- **A group that is not closed can be closed at the end**, and the query has
the orderings that it had.  Where no token opens a group there is no such
error, and there are no groups too many where less than 129 tokens do. -/
theorem compile_append_closes (keys : List String) :
    let allowed := (KeyMarks.seeded keys).isAllowed
    (∀ text m, text.toList.count '"' % 2 = 0 → compile keys text = .error .unclosedGroup →
      (tokenize text).countP Token.opens < m →
      ∃ q, compile keys (text ++ String.ofList (List.replicate m ')')) = .ok q ∧
        q.sort = (extractSort (tokenize text)).2) ∧
    (∀ ts, (parse allowed ts).outcome = .error .unclosedGroup → ∃ t ∈ ts, t.opens = true) ∧
    ∀ ts limit, (parse allowed ts).outcome = .error (.tooDeep limit) →
      129 ≤ ts.countP Token.opens := by
  intro allowed
  refine ⟨?_, ?_, ?_⟩
  · intro text m heven h hm
    exact exists_compile_closed heven h hm
  · intro ts h
    exact List.countP_pos_iff.1 (countP_opens_of_unclosedGroup h)
  · intro ts limit h
    exact countP_opens_of_tooDeep h

/-- Two groups behind an operator, with a parenthesis in quotes, where the
first one that is put in is a word; and a group too many. -/
theorem compile_append_closes_nested :
    let text := "a OR ( sort:x ( \"(\" \"y )\" tag: AND"
    let ts : List Token := List.replicate 129 (.word "(")
    let allowed := (KeyMarks.seeded ["tag"]).isAllowed
    (text.toList.count '"' % 2 = 0 ∧ compile ["tag"] text = .error .unclosedGroup ∧
        (tokenize text).countP Token.opens < 4 ∧
        (parse allowed (kept text)).outcome = .error .unclosedGroup ∧
        (parse allowed ts).outcome = .error (.tooDeep 128)) ∧
      (∃ q, compile ["tag"] (text ++ "))))") = .ok q ∧ q.sort = ["x"]) ∧
      (∃ t ∈ kept text, t.opens = true) ∧ 129 ≤ ts.countP Token.opens := by
  intro text ts allowed
  obtain ⟨hclose, hunclosed, hdeep⟩ := compile_append_closes ["tag"]
  have heven : text.toList.count '"' % 2 = 0 := by decide
  have herror : compile ["tag"] text = .error .unclosedGroup := by
    rw [compile_eq_lex]
    decide +kernel
  have hcount : (tokenize text).countP Token.opens < 4 := by
    rw [Token.tokenize_eq_lex]
    decide +kernel
  have hsort : (extractSort (tokenize text)).2 = ["x"] := by
    rw [Token.tokenize_eq_lex]
    decide +kernel
  have hfail : (parse allowed (kept text)).outcome = .error .unclosedGroup :=
    compile_eq_error_iff.1 herror
  have htoo : (parse allowed ts).outcome = .error (.tooDeep 128) := by decide +kernel
  refine ⟨⟨heven, herror, hcount, hfail, htoo⟩, ?_, hunclosed _ hfail, hdeep ts 128 htoo⟩
  rw [← hsort]
  exact hclose text 4 heven herror hcount

/-! ### Behind the end -/

/-- Behind a `)` at which a text ends, others can be put in its place, and the
query keeps all but the orderings that were asked for there. -/
theorem exists_compile_cut_off {q : Query} {p : Token} (h : compile keys text = .ok q)
    (hp : (kept text)[(parse (KeyMarks.seeded keys).isAllowed (kept text)).taken]? = some p) :
    ∃ before after, tokenize text = before ++ p :: after ∧
      (extractSort before).1
        = (kept text).take (parse (KeyMarks.seeded keys).isAllowed (kept text)).taken ∧
      q.sort = (extractSort before).2 ++ (extractSort after).2 ∧
      ∀ text' after', tokenize text' = before ++ p :: after' →
        compile keys text'
          = .ok { q with sort := (extractSort before).2 ++ (extractSort after').2 } := by
  obtain ⟨roles, expr?, hparse, hq⟩ := compile_eq_ok_iff.1 h
  obtain ⟨before, after, htokens, hlen, hbehind⟩ := exists_keptBehind hp
  have hkept : kept text = (extractSort before).1 ++ p :: (extractSort after).1 := by
    rw [kept, htokens, hbehind.extractSort_append]
  have hsort : (extractSort (tokenize text)).2
      = (extractSort before).2 ++ (extractSort after).2 := by
    rw [htokens, hbehind.extractSort_append]
  refine ⟨before, after, htokens, ?_, ?_, ?_⟩
  · rw [← hlen, hkept, List.take_left]
  · rw [hq]
    exact hsort
  · intro text' after' htokens'
    -- up to the parenthesis the tokens that are kept are those of `text`
    have hkept' : kept text' = (kept text).take
        ((parse (KeyMarks.seeded keys).isAllowed (kept text)).taken + 1)
          ++ (extractSort after').1 := by
      rw [kept, htokens', hbehind.extractSort_append, ← hlen, hkept,
        List.take_length_add_append, List.append_assoc]
      rfl
    have hok : (parse (KeyMarks.seeded keys).isAllowed (kept text)).outcome = .ok expr? := by
      rw [KeyMarks.isAllowed_seeded, hparse, Reading.outcome_take]
    have hsame := (parse_take_append hok hp).2 (extractSort after').1
    rw [← hkept'] at hsame
    rw [compile_eq_of_parse hsame, h, htokens', hbehind.extractSort_append]
    rfl

/-- **A `)` outside all groups ends the query.** Where tokens come to an
expression and some of them are left, the first of these is a `)`, and any
others behind it come to the same expression and mark the same keys.  A text
that is read up to a `)` can go on in any way as well, but for the orderings,
which come from both sides of the parenthesis. -/
theorem parse_cut_off (keys : List String) :
    let marks := KeyMarks.seeded keys
    let allowed := marks.isAllowed
    (∀ ts p expr?, (parse allowed ts).outcome = .ok expr? →
      ts[(parse allowed ts).taken]? = some p →
      p.text = ")" ∧ ∀ us,
        let r := parse allowed (ts.take ((parse allowed ts).taken + 1) ++ us)
        r.outcome = .ok expr? ∧ r.taken = (parse allowed ts).taken ∧
          marks.markAll r.used = marks.markAll (parse allowed ts).used) ∧
    ∀ text q p, compile keys text = .ok q →
      (kept text)[(parse allowed (kept text)).taken]? = some p →
      ∃ before after, tokenize text = before ++ p :: after ∧
        (extractSort before).1 = (kept text).take (parse allowed (kept text)).taken ∧
        q.sort = (extractSort before).2 ++ (extractSort after).2 ∧
        ∀ text' after', tokenize text' = before ++ p :: after' →
          compile keys text'
            = .ok { q with sort := (extractSort before).2 ++ (extractSort after').2 } := by
  intro marks allowed
  constructor
  · intro ts p expr? h hp
    obtain ⟨hclose, hsame⟩ := parse_take_append h hp
    refine ⟨eq_of_beq hclose, fun us => ?_⟩
    show (parse allowed _).outcome = _ ∧ (parse allowed _).taken = _ ∧
      marks.markAll (parse allowed _).used = _
    rw [hsame us]
    exact ⟨h, rfl, rfl⟩
  · intro text q p h hp
    exact exists_compile_cut_off h hp

/-- Behind the parenthesis stand too many groups, a filter and an operator, and
in the text a group that is not closed. -/
theorem parse_cut_off_unbalanced :
    let marks := KeyMarks.seeded ["tag"]
    let allowed := marks.isAllowed
    let ts : List Token := [.word "a", .word ")", .word "b"]
    let us : List Token := List.replicate 129 (.word "(") ++ [.word "tag:go", .word "OR"]
    let text := "sort:x \"a\" ) sort:y ( tag:go"
    let q : Query := ⟨some (.value "a"), ["x", "y"], ["a"], marks⟩
    let p : Token := .word ")"
    ((parse allowed ts).outcome = .ok (some (.value "a")) ∧
        ts[(parse allowed ts).taken]? = some p ∧ compile ["tag"] text = .ok q ∧
        (kept text)[(parse allowed (kept text)).taken]? = some p) ∧
      ((parse allowed (ts.take ((parse allowed ts).taken + 1) ++ us)).outcome
          = .ok (some (.value "a")) ∧
        marks.markAll (parse allowed (ts.take ((parse allowed ts).taken + 1) ++ us)).used
          = marks.markAll (parse allowed ts).used) ∧
      ∃ before after, tokenize text = before ++ p :: after ∧
        q.sort = (extractSort before).2 ++ (extractSort after).2 := by
  intro marks allowed ts us text q p
  obtain ⟨hread, hcompile⟩ := parse_cut_off ["tag"]
  have hok : (parse allowed ts).outcome = .ok (some (.value "a")) := by decide +kernel
  have hts : ts[(parse allowed ts).taken]? = some p := by decide +kernel
  have htext : compile ["tag"] text = .ok q := by
    rw [compile_eq_lex]
    decide +kernel
  have hkept : (kept text)[(parse allowed (kept text)).taken]? = some p := by
    rw [kept, Token.tokenize_eq_lex]
    decide +kernel
  refine ⟨⟨hok, hts, htext, hkept⟩, ?_, ?_⟩
  · obtain ⟨-, hsame⟩ := hread ts p _ hok hts
    obtain ⟨houtcome, -, hmarks⟩ := hsame us
    exact ⟨houtcome, hmarks⟩
  · obtain ⟨before, after, htokens, -, hsort, -⟩ := hcompile text q p htext hkept
    exact ⟨before, after, htokens, hsort⟩

end SearchQuery.Query
