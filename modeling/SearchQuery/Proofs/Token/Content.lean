/-
SearchQuery/Proofs/Token/Content.lean

What of a query is in its tokens.

A scanner that cuts slices out of a text may lose characters at the ends of a
slice, or take them twice.  This one does neither: the texts of the tokens, one
behind the other, are the query without its quotes and without the blanks that
separate, and these are the blanks with an even number of quotes before them
(`flatMap_chars_lex`).

How many of the tokens are quoted is told by the quotes alone.  Two quotes
enclose a phrase, also if there is nothing between them, and one that is left
over begins one more if anything follows (`countP_quoted_lex`).
-/
import SearchQuery.Proofs.Token.Append

namespace SearchQuery.Token

/-! ### Characters -/

/-- The characters of a token. -/
def chars (t : Token) : List Char :=
  t.text.toList

/-- Whether a character stands in a token, by the characters before it: a quote
does not, and a blank does if the quotes before it leave one open. -/
def isContent (before : List Char) (c : Char) : Bool :=
  c != '"' && !(Text.isBlank c && before.count '"' % 2 == 0)

/-- The characters of a text that stand in tokens, with others before it. -/
def contentBehind (before : List Char) : List Char → List Char
  | [] => []
  | c :: cs => (if isContent before c then [c] else []) ++ contentBehind (before ++ [c]) cs

/-- The characters of a text that stand in tokens. -/
def content (cs : List Char) : List Char :=
  contentBehind [] cs

variable {quoted : Bool} {pending before : List Char}

theorem openBehind_concat (quoted : Bool) (cs : List Char) (c : Char) :
    openBehind quoted (cs ++ [c]) = openAfter (openBehind quoted cs) c := by
  rw [openBehind, List.foldl_append]
  rfl

theorem isContent_quote (before : List Char) : isContent before '"' = false := rfl

/-- Where a quote is open all other characters are content, and elsewhere those
that are not blank. -/
theorem isContent_eq {c : Char} (hc : c ≠ '"') (before : List Char) :
    isContent before c = (openBehind false before || !Text.isBlank c) := by
  rw [openBehind_eq]
  rcases Nat.mod_two_eq_zero_or_one (before.count '"') with h | h <;>
    cases hblank : Text.isBlank c <;> simp [isContent, hc, h, hblank]

theorem chars_phrase (cs : List Char) : (phrase (String.ofList cs)).chars = cs :=
  String.toList_ofList

theorem chars_paren (c : Char) : (word (String.singleton c)).chars = [c] := by
  simp [chars, word]

theorem flatMap_chars_flushed (quoted : Bool) (pending : List Char) :
    (flushed quoted pending).flatMap chars = pending := by
  unfold flushed
  split
  · rename_i h
    rw [h]
    rfl
  · simp [chars]

/-- **The tokens have the pending text and the content behind it.** -/
theorem flatMap_chars_lex (h : openBehind false before = quoted) (pending cs : List Char) :
    (lex quoted pending cs).flatMap chars = pending ++ contentBehind before cs := by
  induction cs generalizing quoted pending before with
  | nil => rw [lex, flatMap_chars_flushed, contentBehind, List.append_nil]
  | cons c cs ih =>
    have hnext : openBehind false (before ++ [c]) = openAfter quoted c := by
      rw [openBehind_concat, h]
    rw [lex, contentBehind]
    by_cases hq : c = '"'
    · -- a quote is in no token, on whichever side of it the pending text is
      subst hq
      rw [if_pos rfl, isContent_quote, if_neg Bool.false_ne_true, List.nil_append]
      cases quoted with
      | true =>
        have hrest : (lex false [] cs).flatMap chars = contentBehind (before ++ ['"']) cs :=
          ih hnext []
        rw [if_pos rfl, List.flatMap_cons, chars_phrase, hrest]
      | false =>
        have hrest : (lex true [] cs).flatMap chars = contentBehind (before ++ ['"']) cs :=
          ih hnext []
        rw [if_neg Bool.false_ne_true, List.flatMap_append, flatMap_chars_flushed, hrest]
    rw [openAfter, if_neg hq] at hnext
    rw [if_neg hq, isContent_eq hq, h]
    cases quoted with
    | true => rw [if_pos rfl, Bool.true_or, if_pos rfl, ih hnext, List.append_assoc]
    | false =>
      have hrest : (lex false [] cs).flatMap chars = contentBehind (before ++ [c]) cs :=
        ih hnext []
      rw [if_neg Bool.false_ne_true, Bool.false_or]
      by_cases hparen : c = '(' ∨ c = ')'
      · have hblank : Text.isBlank c = false := by rcases hparen with rfl | rfl <;> decide
        rw [if_pos hparen, hblank, Bool.not_false, if_pos rfl, List.flatMap_append,
          flatMap_chars_flushed, List.flatMap_cons, chars_paren, hrest]
      rw [if_neg hparen]
      cases hblank : Text.isBlank c with
      | true =>
        rw [if_pos rfl, Bool.not_true, if_neg Bool.false_ne_true, List.flatMap_append,
          flatMap_chars_flushed, hrest, List.nil_append]
      | false =>
        rw [if_neg Bool.false_ne_true, Bool.not_false, if_pos rfl, ih hnext, List.append_assoc]

/-! ### Quoted tokens -/

/-- Whether a text ends in a character that is not a quote. -/
def goesOn (cs : List Char) : Bool :=
  cs.getLast?.any (· != '"')

theorem goesOn_append (front : List Char) {cs : List Char} (h : cs ≠ []) :
    goesOn (front ++ cs) = goesOn cs := by
  rw [goesOn, goesOn, List.getLast?_append_of_ne_nil _ h]

/-- What stands before a quote does not matter, nor does the quote. -/
theorem goesOn_append_quote (front cs : List Char) : goesOn (front ++ '"' :: cs) = goesOn cs := by
  rw [goesOn_append front (List.cons_ne_nil _ _)]
  cases cs with
  | nil => rfl
  | cons c cs => exact goesOn_append ['"'] (List.cons_ne_nil _ _)

/-- Where characters leave a quote open there are some. -/
theorem open_and_goesOn_append (front cs : List Char) :
    (openBehind false cs && goesOn (front ++ cs)) = (openBehind false cs && goesOn cs) := by
  cases cs with
  | nil => rfl
  | cons c cs => rw [goesOn_append front (List.cons_ne_nil _ _)]

theorem countP_quoted_flushed_false (pending : List Char) :
    (flushed false pending).countP Token.quoted = 0 := by
  unfold flushed
  split <;> rfl

theorem countP_quoted_flushed_true (h : '"' ∉ pending) :
    (flushed true pending).countP Token.quoted = (goesOn pending).toNat := by
  unfold flushed
  split
  · rename_i hnil
    rw [hnil]
    rfl
  · rename_i hne
    have hlast : goesOn pending = true := by
      have hmem : pending.getLast hne ≠ '"' := fun e => h (e ▸ List.getLast_mem hne)
      rw [goesOn, List.getLast?_eq_some_getLast hne]
      simpa using hmem
    rw [hlast]
    rfl

/-- Where a quote is open it counts with those that follow. -/
theorem countP_quoted_lex (h : IsPending quoted pending) (cs : List Char) :
    (lex quoted pending cs).countP Token.quoted
      = (cs.count '"' + quoted.toNat) / 2
        + (openBehind quoted cs && goesOn (pending ++ cs)).toNat := by
  induction cs generalizing quoted pending with
  | nil =>
    rw [lex, List.append_nil]
    cases quoted with
    | true => exact (countP_quoted_flushed_true h).trans (Nat.zero_add _).symm
    | false => exact countP_quoted_flushed_false pending
  | cons c cs ih =>
    have hopen : openBehind quoted (c :: cs) = openBehind (openAfter quoted c) cs := rfl
    rw [lex, hopen]
    by_cases hq : c = '"'
    · subst hq
      rw [if_pos rfl, List.count_cons_self, goesOn_append_quote]
      cases quoted with
      | true =>
        -- the second quote of a pair: a phrase ends
        rw [if_pos rfl, List.countP_cons_of_pos rfl, ih (isPending_nil false)]
        show cs.count '"' / 2 + _ + 1 = (cs.count '"' + 1 + 1) / 2 + _
        rw [Nat.add_right_comm, ← Nat.add_div_right _ Nat.two_pos]
        rfl
      | false =>
        rw [if_neg Bool.false_ne_true, List.countP_append, countP_quoted_flushed_false,
          ih (isPending_nil true), Nat.zero_add]
        rfl
    have hafter : openAfter quoted c = quoted := if_neg hq
    rw [if_neg hq, List.count_cons_of_ne hq, hafter]
    cases quoted with
    | true => rw [if_pos rfl, ih (h.concat_quoted hq), List.append_assoc, List.singleton_append]
    | false =>
      have hrest : (lex false [] cs).countP Token.quoted = (cs.count '"' + false.toNat) / 2
          + (openBehind false cs && goesOn (pending ++ c :: cs)).toNat := by
        rw [ih (isPending_nil false), List.append_cons, open_and_goesOn_append,
          open_and_goesOn_append]
      rw [if_neg Bool.false_ne_true]
      by_cases hparen : c = '(' ∨ c = ')'
      · have hword : ¬ (word (String.singleton c)).quoted = true := Bool.false_ne_true
        rw [if_pos hparen, List.countP_append, countP_quoted_flushed_false,
          List.countP_cons_of_neg hword, Nat.zero_add, hrest]
      rw [if_neg hparen]
      by_cases hblank : Text.isBlank c = true
      · rw [if_pos hblank, List.countP_append, countP_quoted_flushed_false, Nat.zero_add, hrest]
      · have hdelim : isDelimiter c = false := by
          simpa [isDelimiter, hq, not_or] using And.intro (not_or.1 hparen) hblank
        rw [if_neg hblank, ih (h.concat_word hdelim), List.append_assoc, List.singleton_append]

/-! ### Queries -/

/-- Whether the last quote has none to go with it and something behind it. -/
def EndsOpen (q : String) : Prop :=
  q.toList.count '"' % 2 = 1 ∧ q.toList.getLast? ≠ some '"'

instance (q : String) : Decidable (EndsOpen q) :=
  inferInstanceAs (Decidable (_ ∧ _))

theorem open_and_goesOn_eq (q : String) :
    (openBehind false q.toList && goesOn q.toList) = decide (EndsOpen q) := by
  rw [openBehind_eq, Bool.false_xor, Bool.eq_iff_iff, Bool.and_eq_true, decide_eq_true_iff,
    decide_eq_true_iff, EndsOpen]
  refine and_congr_right fun hodd => ?_
  cases hlast : q.toList.getLast? with
  | none =>
    -- without characters there is no quote
    rw [List.getLast?_eq_none_iff.1 hlast] at hodd
    cases hodd
  | some c => simp [goesOn, hlast]

/-- **No character is lost, added or moved.**  The texts of the tokens, one
behind the other, are the query without its quotes and without the blanks that
have an even number of quotes before them.  A token is quoted for every two
quotes, and one more for a quote that is left over, if anything follows it. -/
theorem tokenize_conserves (q : String) :
    String.join ((tokenize q).map Token.text) = String.ofList (content q.toList) ∧
      (tokenize q).countP Token.quoted
        = q.toList.count '"' / 2 + if EndsOpen q then 1 else 0 := by
  rw [tokenize_eq_lex]
  constructor
  · have hclosed : openBehind false [] = false := rfl
    apply String.toList_injective
    rw [String.toList_join, String.toList_ofList, List.flatMap_map]
    exact flatMap_chars_lex hclosed [] q.toList
  · rw [countP_quoted_lex (isPending_nil false), List.nil_append, open_and_goesOn_eq]
    by_cases h : EndsOpen q
    · rw [if_pos h, decide_eq_true h]
      rfl
    · rw [if_neg h, decide_eq_false h]
      rfl

/-- A blank inside quotes stays, and the last quote has nothing behind it. -/
example :
    String.ofList (content "a\"b c\" (d \"".toList) = "ab c(d" ∧ ¬ EndsOpen "a\"b c\" (d \"" := by
  decide +kernel

end SearchQuery.Token
