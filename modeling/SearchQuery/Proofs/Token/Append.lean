/-
SearchQuery/Proofs/Token/Append.lean

The tokens of two texts, one behind the other.

Behind some characters the scanner holds a pending text, and a quote is open
or it is not.  Which of the two depends on nothing but the number of quotes
(`openBehind_eq`), and what comes next does not change the tokens that are
already there (`exists_lex_append`).

So a text without an open quote can be cut off where a word ends
(`tokenize_append`): in front of blanks (`tokenize_append_gap`), of a
parenthesis and of a phrase.  Blanks around a text are between tokens
(`tokenize_trim`).  If a quote is left open, closing it at the end adds
nothing but the phrase that was pending, and that is a token already unless
it is empty (`tokenize_close_quote`).
-/
import SearchQuery.Proofs.Token.Layout

namespace SearchQuery.Token

/-! ### Open quotes -/

/-- Whether a quote is open behind a character. -/
def openAfter (quoted : Bool) (c : Char) : Bool :=
  if c = '"' then !quoted else quoted

/-- Whether a quote is open behind some characters. -/
def openBehind (quoted : Bool) (cs : List Char) : Bool :=
  cs.foldl openAfter quoted

/-- Every second quote closes one. -/
theorem openBehind_eq (quoted : Bool) (cs : List Char) :
    openBehind quoted cs = (quoted ^^ decide (cs.count '"' % 2 = 1)) := by
  induction cs generalizing quoted with
  | nil => simp [openBehind]
  | cons c cs ih =>
    show openBehind (openAfter quoted c) cs = _
    rw [ih, List.count_cons]
    by_cases hc : c = '"'
    · -- one quote more is another parity
      have hparity : decide ((cs.count '"' + 1) % 2 = 1) = !decide (cs.count '"' % 2 = 1) := by
        rcases Nat.mod_two_eq_zero_or_one (cs.count '"') with h | h
        · rw [Nat.add_mod, h]
          rfl
        · rw [Nat.add_mod, h]
          rfl
      rw [hc, if_pos (beq_self_eq_true _), hparity, openAfter, if_pos rfl]
      cases quoted <;> cases decide (cs.count '"' % 2 = 1) <;> rfl
    · rw [openAfter, if_neg hc, if_neg (by simpa using hc), Nat.add_zero]

theorem openBehind_of_even {cs : List Char} (h : cs.count '"' % 2 = 0) :
    openBehind false cs = false := by
  rw [openBehind_eq, h]
  rfl

theorem openBehind_of_odd {cs : List Char} (h : cs.count '"' % 2 = 1) :
    openBehind false cs = true := by
  rw [openBehind_eq, h]
  rfl

/-! ### Going on behind a text -/

/-- One character: some tokens, and another pending text. -/
theorem exists_lex_cons (quoted : Bool) (pending : List Char) (c : Char) :
    ∃ done pending', ∀ cs,
      lex quoted pending (c :: cs) = done ++ lex (openAfter quoted c) pending' cs := by
  simp only [lex, openAfter]
  by_cases hq : c = '"'
  · cases quoted with
    | true => exact ⟨[phrase (String.ofList pending)], [], fun cs => by simp [hq]⟩
    | false => exact ⟨flushed false pending, [], fun cs => by simp [hq]⟩
  cases quoted with
  | true => exact ⟨[], pending ++ [c], fun cs => by simp [hq]⟩
  | false =>
    by_cases hparen : c = '(' ∨ c = ')'
    · refine ⟨flushed false pending ++ [word (String.singleton c)], [], fun cs => ?_⟩
      simp [hq, hparen]
    by_cases hblank : Text.isBlank c = true
    · exact ⟨flushed false pending, [], fun cs => by simp [hq, hparen, hblank]⟩
    · exact ⟨[], pending ++ [c], fun cs => by simp [hq, hparen, hblank]⟩

/-- What comes behind some characters changes none of their tokens. -/
theorem exists_lex_append (quoted : Bool) (pending cs : List Char) :
    ∃ done pending', ∀ ds,
      lex quoted pending (cs ++ ds) = done ++ lex (openBehind quoted cs) pending' ds := by
  induction cs generalizing quoted pending with
  | nil => exact ⟨[], pending, fun ds => rfl⟩
  | cons c cs ih =>
    obtain ⟨first, pending₁, hfirst⟩ := exists_lex_cons quoted pending c
    obtain ⟨done, pending₂, hdone⟩ := ih (openAfter quoted c) pending₁
    refine ⟨first ++ done, pending₂, fun ds => ?_⟩
    rw [List.cons_append, hfirst, hdone, List.append_assoc]
    rfl

variable {a : String}

/-! ### Outside quotes -/

/-- **A text without an open quote has its tokens to itself**, if no word
grows together with what comes next. -/
theorem tokenize_append {b : String} (heven : a.toList.count '"' % 2 = 0)
    (hends : EndsWord b.toList) : tokenize (a ++ b) = tokenize a ++ tokenize b := by
  obtain ⟨done, pending, h⟩ := exists_lex_append false [] a.toList
  rw [openBehind_of_even heven] at h
  have ha : tokenize a = done ++ flushed false pending := by
    rw [tokenize_eq_lex, ← List.append_nil a.toList, h]
    rfl
  rw [tokenize_eq_lex, String.toList_append, h, lex_of_endsWord hends, ← List.append_assoc, ← ha,
    ← tokenize_eq_lex]

/-! ### Between two texts -/

theorem tokenize_of_blanks_before {before : String}
    (h : ∀ c ∈ before.toList, Text.isBlank c = true) (b : String) :
    tokenize (before ++ b) = tokenize b := by
  rw [tokenize_eq_lex, tokenize_eq_lex, String.toList_append]
  generalize before.toList = cs at h
  induction cs with
  | nil => rfl
  | cons c cs ih =>
    rw [List.cons_append, lex_cons_blank (h c List.mem_cons_self),
      ih fun d hd => h d (List.mem_cons_of_mem c hd)]

theorem count_quote_of_blanks {s : String} (h : ∀ c ∈ s.toList, Text.isBlank c = true) :
    s.toList.count '"' = 0 :=
  List.count_eq_zero.2 fun hmem => absurd (h _ hmem) (by decide)

theorem endsWord_of_blanks {cs : List Char} (h : ∀ c ∈ cs, Text.isBlank c = true) :
    EndsWord cs := by
  cases cs with
  | nil => trivial
  | cons c cs =>
    show isDelimiter c = true
    rw [isDelimiter, h c List.mem_cons_self, Bool.or_true]

/-- Blanks, one at least. -/
structure IsGap (w : String) : Prop where
  ne_empty : w ≠ ""
  blank : ∀ c ∈ w.toList, Text.isBlank c = true

instance (w : String) : Decidable (IsGap w) :=
  decidable_of_iff (w ≠ "" ∧ w.toList.all Text.isBlank = true)
    ⟨fun h => ⟨h.1, List.all_eq_true.1 h.2⟩, fun h => ⟨h.ne_empty, List.all_eq_true.2 h.blank⟩⟩

/-- A word ends in front of a gap, whatever comes behind it. -/
theorem IsGap.endsWord_append {w : String} (hw : IsGap w) (b : String) :
    EndsWord (w ++ b).toList := by
  obtain ⟨c, cs, hcs⟩ : ∃ c cs, w.toList = c :: cs :=
    List.exists_cons_of_ne_nil (by simpa using hw.ne_empty)
  have hblanks := endsWord_of_blanks hw.blank
  rw [String.toList_append, hcs]
  rwa [hcs] at hblanks

/-- Two texts with blanks between them have the tokens of both. -/
theorem tokenize_append_gap (heven : a.toList.count '"' % 2 = 0) {w : String} (hw : IsGap w)
    (b : String) : tokenize (a ++ w ++ b) = tokenize a ++ tokenize b := by
  rw [String.append_assoc, tokenize_append heven (hw.endsWord_append b),
    tokenize_of_blanks_before hw.blank]

theorem tokenize_append_space (heven : a.toList.count '"' % 2 = 0) (b : String) :
    tokenize (a ++ " " ++ b) = tokenize a ++ tokenize b :=
  tokenize_append_gap heven (by decide) b

/-- A parenthesis between two texts is a token between theirs. -/
theorem tokenize_append_paren (heven : a.toList.count '"' % 2 = 0) {c : Char}
    (hc : c = '(' ∨ c = ')') (b : String) :
    tokenize (a ++ String.singleton c ++ b)
      = tokenize a ++ word (String.singleton c) :: tokenize b := by
  have hchars : (String.singleton c ++ b).toList = c :: b.toList := by simp
  have hends : EndsWord (String.singleton c ++ b).toList := by
    rw [hchars]
    show isDelimiter c = true
    rcases hc with rfl | rfl <;> decide
  rw [String.append_assoc, tokenize_append heven hends, tokenize_eq_lex (String.singleton c ++ b),
    hchars, lex_cons_paren hc, ← tokenize_eq_lex]

theorem endsWord_quote (cs : List Char) : EndsWord ('"' :: cs) := by
  show isDelimiter '"' = true
  decide

/-- A quoted text between two texts is a phrase between their tokens. -/
theorem tokenize_append_phrase (heven : a.toList.count '"' % 2 = 0) {s : String}
    (hs : '"' ∉ s.toList) (b : String) :
    tokenize (a ++ "\"" ++ s ++ "\"" ++ b) = tokenize a ++ phrase s :: tokenize b := by
  have htext : a ++ "\"" ++ s ++ "\"" ++ b = a ++ ("\"" ++ s ++ "\"" ++ b) := by
    simp only [String.append_assoc]
  have hchars : ("\"" ++ s ++ "\"" ++ b).toList = '"' :: (s.toList ++ '"' :: b.toList) := by simp
  have hends : EndsWord ("\"" ++ s ++ "\"" ++ b).toList := hchars ▸ endsWord_quote _
  rw [htext, tokenize_append heven hends, tokenize_eq_lex ("\"" ++ s ++ "\"" ++ b), hchars,
    lex_cons_phrase hs, ← tokenize_eq_lex, String.ofList_toList]

/-! ### Blanks around a text -/

/-- **A text has the tokens that are left when it is trimmed**, unless a quote
is open at its end. -/
theorem tokenize_trim (heven : a.toList.count '"' % 2 = 0) :
    tokenize (Text.trim a) = tokenize a := by
  obtain ⟨before, after, ha, hbefore, hafter⟩ := Text.exists_blanks_around a
  have hcount : a.toList.count '"' = (Text.trim a).toList.count '"' := by
    have h := congrArg (fun s : String => s.toList.count '"') ha
    simpa [count_quote_of_blanks hbefore, count_quote_of_blanks hafter] using h
  have hnone : tokenize after = [] := by
    have h := tokenize_of_blanks_before hafter ""
    rw [String.append_empty] at h
    rw [h, tokenize_eq_lex]
    rfl
  symm
  calc tokenize a = tokenize (before ++ (Text.trim a ++ after)) := by
        rw [← String.append_assoc, ← ha]
    _ = tokenize (Text.trim a ++ after) := tokenize_of_blanks_before hbefore _
    _ = tokenize (Text.trim a) ++ tokenize after :=
        tokenize_append (hcount ▸ heven) (endsWord_of_blanks hafter)
    _ = tokenize (Text.trim a) := by rw [hnone, List.append_nil]

/-! ### Single tokens -/

theorem tokenize_of_isPlain {w : String} (hw : IsPlain w) : tokenize w = [word w] := by
  have hlayout : Layout [word w] (w.toList ++ []) := .word hw trivial .nil
  rw [List.append_nil] at hlayout
  exact tokenize_of_layout hlayout

theorem tokenize_plain_space {w : String} (hw : IsPlain w) (b : String) :
    tokenize (w ++ " " ++ b) = word w :: tokenize b := by
  have hquote : '"' ∉ w.toList := fun hmem => absurd (hw.2 _ hmem) (by decide)
  have heven : w.toList.count '"' % 2 = 0 := by rw [List.count_eq_zero.2 hquote]
  rw [tokenize_append_space heven, tokenize_of_isPlain hw]
  rfl

/-- Closing parentheses are tokens one by one. -/
theorem tokenize_append_closes (heven : a.toList.count '"' % 2 = 0) (m : Nat) :
    tokenize (a ++ String.ofList (List.replicate m ')'))
      = tokenize a ++ List.replicate m (word ")") := by
  have hlayout : Layout (List.replicate m (word ")")) (List.replicate m ')') := by
    induction m with
    | zero => exact .nil
    | succ m ih => exact .paren (.inr rfl) ih
  have hends : EndsWord (List.replicate m ')') := by
    cases m with
    | zero => trivial
    | succ m =>
      show isDelimiter ')' = true
      decide
  rw [← String.toList_ofList (l := List.replicate m ')')] at hlayout hends
  rw [tokenize_append heven hends, tokenize_of_layout hlayout]

/-! ### Inside quotes -/

theorem lex_quoted {s : List Char} (h : '"' ∉ s) (pending : List Char) :
    lex true pending s = flushed true (pending ++ s) := by
  induction s generalizing pending with
  | nil => rw [List.append_nil, lex]
  | cons c s ih =>
    obtain ⟨hc, hs⟩ := not_or.1 fun h' => h (List.mem_cons.2 h')
    rw [lex, if_neg (Ne.symm hc), if_pos rfl, ih hs, List.append_assoc]
    rfl

/-- A phrase that is not closed is the last token, unless it is empty. -/
theorem tokenize_append_open (heven : a.toList.count '"' % 2 = 0) {s : String}
    (hs : '"' ∉ s.toList) :
    tokenize (a ++ "\"" ++ s) = tokenize a ++ if s = "" then [] else [phrase s] := by
  have hchars : ("\"" ++ s).toList = '"' :: s.toList := by simp
  have hends : EndsWord ("\"" ++ s).toList := hchars ▸ endsWord_quote _
  have hopen : tokenize ("\"" ++ s) = flushed true s.toList := by
    rw [tokenize_eq_lex, hchars, lex, if_pos rfl, if_neg Bool.false_ne_true, lex_quoted hs]
    rfl
  rw [String.append_assoc, tokenize_append heven hends, hopen]
  simp [flushed, phrase]

/-- **An open quote can be closed at the end**: at most an empty phrase is
added by it. -/
theorem tokenize_close_quote (hodd : a.toList.count '"' % 2 = 1) :
    tokenize (a ++ "\"") = tokenize a ∨ tokenize (a ++ "\"") = tokenize a ++ [phrase ""] := by
  obtain ⟨done, pending, h⟩ := exists_lex_append false [] a.toList
  rw [openBehind_of_odd hodd] at h
  have hclosed : tokenize (a ++ "\"") = done ++ [phrase (String.ofList pending)] := by
    rw [tokenize_eq_lex, String.toList_append]
    exact h ['"']
  have hopen : tokenize a = done ++ flushed true pending := by
    rw [tokenize_eq_lex, ← List.append_nil a.toList, h]
    rfl
  rw [hclosed, hopen]
  by_cases hp : pending = []
  · right
    rw [hp, flushed_nil, List.append_nil, String.ofList_nil]
  · left
    rw [flushed, if_neg hp]
    rfl

end SearchQuery.Token
