/-
SearchQuery/Proofs/Query/Orderings.lean

It does not matter where a directive is written.

A directive with an argument is one token wherever it is put between blanks,
it takes no other token with it, and the tokens on its two sides are
neighbours again when it is taken out.  So a query with such a directive is
the query without it, and asks for one ordering more
(`compile_directive`).
-/
import SearchQuery.Proofs.Directive.Append
import SearchQuery.Proofs.Query.Compile
import SearchQuery.Proofs.Token.Append

namespace SearchQuery

/-! ### Names in another case -/

theorem Text.isAlpha_of_isAlpha_toLower {c : Char} (h : c.toLower.isAlpha = true) :
    c.isAlpha = true := by
  by_cases hupper : c.isUpper = true
  · exact Bool.or_eq_true_iff.2 (.inl hupper)
  · have hlower : c.toLower = c := dif_neg fun hrange => hupper (decide_eq_true hrange)
    rwa [hlower] at h

/-- A name has nothing but letters in any case. -/
theorem Text.isAlpha_of_caseless {a b : String} (h : caseless a b = true)
    (hb : (folded b).all Char.isAlpha = true) : ∀ c ∈ a.toList, c.isAlpha = true := by
  intro c hc
  have hmem : c.toLower ∈ folded a := List.mem_map_of_mem hc
  rw [caseless_iff.1 h] at hmem
  exact isAlpha_of_isAlpha_toLower (List.all_eq_true.1 hb _ hmem)

/-! ### A directive as it is written -/

/-- A directive with an argument, in one word. -/
structure IsDirective (name argument : String) : Prop where
  name : Text.caseless name "sort" = true
  argument : Token.IsPlain argument

namespace IsDirective

variable {name argument : String}

theorem isAlpha (h : IsDirective name argument) : ∀ c ∈ name.toList, c.isAlpha = true :=
  Text.isAlpha_of_caseless h.name rfl

theorem isPlain (h : IsDirective name argument) : Token.IsPlain (name ++ ":" ++ argument) := by
  apply Token.IsPlain.colon _ h.argument
  intro c hc
  exact Token.isDelimiter_eq_false_of_isAlpha (h.isAlpha c hc)

theorem directive?_eq (h : IsDirective name argument) :
    (Token.word (name ++ ":" ++ argument)).directive? = some argument := by
  have hcolon : ':' ∉ name.toList := fun hmem => absurd (h.isAlpha _ hmem) (by decide)
  have hcut : Text.cutAtColon (Token.word (name ++ ":" ++ argument)).text = some (name, argument) :=
    Text.cutAtColon_eq_some_iff.2 ⟨rfl, hcolon⟩
  have hquoted : (Token.word (name ++ ":" ++ argument)).quoted = false := rfl
  simp only [Token.directive?, hquoted, hcut, h.name, Bool.false_eq_true, if_false, if_true]

theorem trimmed?_eq (h : IsDirective name argument) : Text.trimmed? argument = some argument :=
  Text.trimmed?_eq_self h.argument.isTrimmed h.argument.1

/-- It asks for its argument and is not waiting for another. -/
theorem extractSort_cons (h : IsDirective name argument) (ts : List Token) :
    extractSort (Token.word (name ++ ":" ++ argument) :: ts)
      = ((extractSort ts).1, argument :: (extractSort ts).2) := by
  have hwait : (Token.word (name ++ ":" ++ argument)).awaitsOrdering = false := by
    simp [Token.awaitsOrdering, h.directive?_eq, h.trimmed?_eq]
  have hone : extractSort [Token.word (name ++ ":" ++ argument)] = ([], [argument]) := by
    simp [extractSort, Sorting.step, Sorting.ask, h.directive?_eq, h.trimmed?_eq]
  rw [← List.singleton_append, extractSort_append, hone]
  · rfl
  · intro t ht hwaits
    obtain rfl : Token.word (name ++ ":" ++ argument) = t := Option.some.inj ht
    rw [hwait] at hwaits
    cases hwaits

end IsDirective

namespace Query

variable {before after : String}

/-- Two parts of a query with a blank between them are sorted each on its
own. -/
theorem extractSort_append_space (heven : before.toList.count '"' % 2 = 0)
    (hfree : ∀ t ∈ (tokenize before).getLast?, t.awaitsOrdering = true →
      ∀ u ∈ (tokenize after).head?, u.quoted = false) :
    extractSort (tokenize (before ++ " " ++ after))
      = ((extractSort (tokenize before)).1 ++ (extractSort (tokenize after)).1,
          (extractSort (tokenize before)).2 ++ (extractSort (tokenize after)).2) := by
  rw [Token.tokenize_append_space heven, extractSort_append hfree]

/-- **A directive may be written anywhere**: a query with a directive between
two of its parts asks for what the two parts ask for without it, reports the
same keys or the same error, and has the argument among its orderings where
the directive stands.  A directive without an argument at the end of the first
part must not find one at the beginning of the second. -/
theorem compile_directive {keys : List String} {name argument : String}
    (heven : before.toList.count '"' % 2 = 0) (h : IsDirective name argument)
    (hfree : ∀ t ∈ (tokenize before).getLast?, t.awaitsOrdering = true →
      ∀ u ∈ (tokenize after).head?, u.quoted = false) :
    let sort₁ := (extractSort (tokenize before)).2
    let sort₂ := (extractSort (tokenize after)).2
    compile keys (before ++ " " ++ name ++ ":" ++ argument ++ " " ++ after)
        = (compile keys (before ++ " " ++ after)).map (fun q =>
            { q with sort := sort₁ ++ argument :: sort₂ }) ∧
      ∀ q, compile keys (before ++ " " ++ after) = .ok q → q.sort = sort₁ ++ sort₂ := by
  intro sort₁ sort₂
  have hwithout := extractSort_append_space heven hfree
  have htokens : tokenize (name ++ ":" ++ argument ++ " " ++ after)
      = .word (name ++ ":" ++ argument) :: tokenize after := Token.tokenize_plain_space h.isPlain after
  have htext : before ++ " " ++ name ++ ":" ++ argument ++ " " ++ after
      = before ++ " " ++ (name ++ ":" ++ argument ++ " " ++ after) := by
    simp only [String.append_assoc]
  have hwith : extractSort (tokenize (before ++ " " ++ name ++ ":" ++ argument ++ " " ++ after))
      = ((extractSort (tokenize before)).1 ++ (extractSort (tokenize after)).1,
          sort₁ ++ argument :: sort₂) := by
    -- the directive is not in quotes, so nothing before it waits for it
    have hword : ∀ u ∈ (tokenize (name ++ ":" ++ argument ++ " " ++ after)).head?,
        u.quoted = false := by
      rw [htokens]
      intro u hu
      obtain rfl : Token.word (name ++ ":" ++ argument) = u := Option.some.inj hu
      rfl
    rw [htext, extractSort_append_space heven fun _ _ _ => hword, htokens, h.extractSort_cons]
  constructor
  · have hkept : kept (before ++ " " ++ name ++ ":" ++ argument ++ " " ++ after)
        = kept (before ++ " " ++ after) := by
      rw [kept, kept, hwith, hwithout]
    rw [compile_eq_of_kept hkept, hwith]
  · intro q hq
    obtain ⟨roles, expr, -, rfl⟩ := compile_eq_ok_iff.1 hq
    show (extractSort (tokenize (before ++ " " ++ after))).2 = _
    rw [hwithout]

/-- A directive inside a group, between a key and its value in quotes. -/
theorem compile_directive_in_filter :
    let before := "sort:a (x TAG:1 tag:"
    let after := "\"v 1\") y ) sort: \" d \""
    (before.toList.count '"' % 2 = 0 ∧ IsDirective "SORT" "-b:c" ∧
        ∀ t ∈ (tokenize before).getLast?, t.awaitsOrdering = true →
          ∀ u ∈ (tokenize after).head?, u.quoted = false) ∧
      ∃ q, compile ["tag"] (before ++ " " ++ "SORT" ++ ":" ++ "-b:c" ++ " " ++ after) = .ok q ∧
        q.expr = some (.and [.and [.value "x TAG:1", .filter ⟨"tag", "v 1"⟩], .value "y"]) ∧
        q.sort = ["a", "-b:c", "d"] := by
  intro before after
  have heven : before.toList.count '"' % 2 = 0 := by decide
  have hdirective : IsDirective "SORT" "-b:c" := ⟨by decide, by decide⟩
  have hfree : ∀ t ∈ (tokenize before).getLast?, t.awaitsOrdering = true →
      ∀ u ∈ (tokenize after).head?, u.quoted = false := by
    rw [Token.tokenize_eq_lex, Token.tokenize_eq_lex]
    decide +kernel
  refine ⟨⟨heven, hdirective, hfree⟩, ?_⟩
  have hwithout : compile ["tag"] (before ++ " " ++ after) = .ok
      { expr := some (.and [.and [.value "x TAG:1", .filter ⟨"tag", "v 1"⟩], .value "y"])
        sort := ["a", "d"]
        freeText := ["x TAG:1", "y"]
        found := (KeyMarks.seeded ["tag"]).mark "tag" } := by
    rw [compile_eq_lex]
    decide +kernel
  obtain ⟨hwith, -⟩ := @compile_directive before after ["tag"] "SORT" "-b:c" heven hdirective hfree
  rw [hwith, hwithout]
  refine ⟨_, rfl, rfl, ?_⟩
  rw [Token.tokenize_eq_lex, Token.tokenize_eq_lex]
  decide +kernel

end Query

end SearchQuery
