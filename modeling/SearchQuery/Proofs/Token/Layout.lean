/-
SearchQuery/Proofs/Token/Layout.lean

Tokens on the page.

`Layout ts cs` says that the characters `cs` show the tokens `ts`, in any of
the ways in which blanks may be put between them: a phrase stands between
quotes, a parenthesis stands alone, and a word stands as it is where
something behind it ends it.  It is the other side of the scanner, which
reads every layout of some tokens as these tokens (`tokenize_of_layout`).

The tokens that have layouts are those that a query can be cut into
(`wellFormed_of_mem_tokenize`), and one layout of them is to put single
spaces between them (`layout_writeAll`).  So any list of well-formed tokens
is the tokens of some query (`tokenize_writeAll`).
-/
import SearchQuery.Proofs.Text.Trim
import SearchQuery.Proofs.Token.Buffer

namespace SearchQuery.Token

/-! ### Words and phrases -/

/-- Whether a character ends a word. -/
def isDelimiter (c : Char) : Bool :=
  c == '"' || c == '(' || c == ')' || Text.isBlank c

/-- A text without characters that end a word. -/
def Undelimited (w : String) : Prop :=
  ∀ c ∈ w.toList, isDelimiter c = false

/-- A text that stands outside quotes as one word. -/
def IsPlain (w : String) : Prop :=
  w ≠ "" ∧ Undelimited w

instance (w : String) : Decidable (Undelimited w) :=
  decidable_of_iff (w.toList.all fun c => !isDelimiter c) (by simp [Undelimited])

instance (w : String) : Decidable (IsPlain w) :=
  inferInstanceAs (Decidable (_ ∧ _))

/-- Whether a word may end in front of some characters. -/
def EndsWord : List Char → Prop
  | [] => True
  | c :: _ => isDelimiter c = true

theorem endsWord_space (cs : List Char) : EndsWord (' ' :: cs) := by
  show isDelimiter ' ' = true
  decide

/-- A token that a query can hold. -/
def WellFormed (t : Token) : Prop :=
  if t.quoted then '"' ∉ t.text.toList
  else t.text = "(" ∨ t.text = ")" ∨ IsPlain t.text

instance (t : Token) : Decidable t.WellFormed :=
  inferInstanceAs (Decidable (if t.quoted then _ else _))

theorem IsPlain.not_blank {w : String} (h : IsPlain w) :
    ∀ c ∈ w.toList, Text.isBlank c = false := by
  intro c hc
  have := h.2 c hc
  simp only [isDelimiter, Bool.or_eq_false_iff] at this
  exact this.2

/-- Nothing is trimmed from a word. -/
theorem IsPlain.isTrimmed {w : String} (h : IsPlain w) : Text.IsTrimmed w :=
  ⟨fun c hc => h.not_blank c (List.mem_of_mem_head? hc),
    fun c hc => h.not_blank c (List.mem_of_getLast? hc)⟩

/-- Two words are one with a colon between them. -/
theorem IsPlain.colon {key argument : String} (hkey : Undelimited key)
    (hargument : IsPlain argument) : IsPlain (key ++ ":" ++ argument) := by
  constructor
  · -- there is the colon at least
    intro h
    have hmem : ':' ∈ (key ++ ":" ++ argument).toList := by simp
    rw [h] at hmem
    cases hmem
  · intro c hc
    simp only [String.toList_append, List.mem_append] at hc
    rcases hc with (hc | hc) | hc
    · exact hkey c hc
    · obtain rfl := List.mem_singleton.1 hc
      decide
    · exact hargument.2 c hc

/-- No letter ends a word. -/
theorem isDelimiter_eq_false_of_isAlpha {c : Char} (h : c.isAlpha = true) :
    isDelimiter c = false := by
  have hrange : (65 ≤ c.toNat ∧ c.toNat ≤ 90) ∨ (97 ≤ c.toNat ∧ c.toNat ≤ 122) := by
    rcases Bool.or_eq_true_iff.1 h with hupper | hlower
    · obtain ⟨hfirst, hlast⟩ : 'A'.val ≤ c.val ∧ c.val ≤ 'Z'.val := of_decide_eq_true hupper
      exact .inl ⟨UInt32.le_iff_toNat_le.1 hfirst, UInt32.le_iff_toNat_le.1 hlast⟩
    · obtain ⟨hfirst, hlast⟩ := Bool.and_eq_true_iff.1 hlower
      exact .inr ⟨UInt32.le_iff_toNat_le.1 (of_decide_eq_true hfirst),
        UInt32.le_iff_toNat_le.1 (of_decide_eq_true hlast)⟩
  have hblank : Text.isBlank c = false := by
    simp [Text.isBlank, Text.blankRanges]
    omega
  have hne : ∀ d : Char, d.isAlpha = false → (c == d) = false := by
    intro d hd
    refine beq_eq_false_iff_ne.2 ?_
    rintro rfl
    rw [hd] at h
    cases h
  simp only [isDelimiter, hne '"' rfl, hne '(' rfl, hne ')' rfl, hblank, Bool.or_false]

/-- No token has a quote in it. -/
theorem WellFormed.not_mem {t : Token} (h : t.WellFormed) : '"' ∉ t.text.toList := by
  unfold WellFormed at h
  split at h
  · exact h
  · rcases h with h | h | h
    · rw [h]
      decide
    · rw [h]
      decide
    · intro hmem
      exact absurd (h.2 _ hmem) (by decide)

/-- There is no blank in a token outside quotes. -/
theorem WellFormed.not_blank {t : Token} (h : t.WellFormed) (hquoted : t.quoted = false) :
    t.text ≠ "" ∧ ∀ c ∈ t.text.toList, Text.isBlank c = false := by
  rw [WellFormed, hquoted, if_neg Bool.false_ne_true] at h
  rcases h with h | h | h
  · rw [h]
    exact ⟨by decide, List.forall_mem_singleton.2 (by decide)⟩
  · rw [h]
    exact ⟨by decide, List.forall_mem_singleton.2 (by decide)⟩
  · exact ⟨h.1, h.not_blank⟩

/-! ### Layouts -/

/-- Characters that show some tokens. -/
inductive Layout : List Token → List Char → Prop
  | nil : Layout [] []
  | blank {c ts cs} : Text.isBlank c = true → Layout ts cs → Layout ts (c :: cs)
  | paren {c ts cs} : c = '(' ∨ c = ')' → Layout ts cs →
      Layout (word (String.singleton c) :: ts) (c :: cs)
  | phrase {s ts cs} : '"' ∉ s.toList → Layout ts cs →
      Layout (phrase s :: ts) ('"' :: (s.toList ++ '"' :: cs))
  | word {w ts cs} : IsPlain w → EndsWord cs → Layout ts cs →
      Layout (word w :: ts) (w.toList ++ cs)

theorem EndsWord.append {cs ds : List Char} (hcs : EndsWord cs) (hds : EndsWord ds) :
    EndsWord (cs ++ ds) := by
  cases cs with
  | nil => exact hds
  | cons c cs => exact hcs

/-- Two layouts side by side, if no word grows by it. -/
theorem Layout.append {ts us : List Token} {cs ds : List Char} (hds : EndsWord ds)
    (hts : Layout ts cs) (hus : Layout us ds) : Layout (ts ++ us) (cs ++ ds) := by
  induction hts with
  | nil => exact hus
  | blank hc _ ih => exact .blank hc ih
  | paren hc _ ih => exact .paren hc ih
  | phrase hs _ ih =>
    rw [List.cons_append, List.cons_append, List.append_assoc, List.cons_append]
    exact .phrase hs ih
  | word hw hcs _ ih =>
    rw [List.cons_append, List.append_assoc]
    exact .word hw (hcs.append hds) ih

/-- A word with a space on each side. -/
theorem Layout.spaced {w : String} {ts : List Token} {cs : List Char} (hw : IsPlain w)
    (h : Layout ts cs) : Layout (Token.word w :: ts) (' ' :: (w.toList ++ ' ' :: cs)) := by
  have hblank : Text.isBlank ' ' = true := by decide
  exact .blank hblank (.word hw (endsWord_space cs) (.blank hblank h))

/-- A group, without blanks inside its parentheses. -/
theorem Layout.group {ts : List Token} {cs : List Char} (h : Layout ts cs) :
    Layout (.word "(" :: (ts ++ [.word ")"])) ('(' :: (cs ++ [')'])) := by
  refine .paren (.inl rfl) (.append ?_ h (.paren (.inr rfl) .nil))
  show isDelimiter ')' = true
  decide

/-! ### Reading a layout -/

theorem flushed_nil (quoted : Bool) : flushed quoted [] = [] := rfl

/-- A word ends where a delimiter follows. -/
theorem lex_of_endsWord {cs : List Char} (h : EndsWord cs) (pending : List Char) :
    lex false pending cs = flushed false pending ++ lex false [] cs := by
  cases cs with
  | nil => simp [lex, flushed_nil]
  | cons c cs =>
    have hc : isDelimiter c = true := h
    simp only [lex, flushed_nil, List.nil_append, Bool.false_eq_true, if_false]
    by_cases hq : c = '"'
    · simp [hq]
    by_cases hparen : c = '(' ∨ c = ')'
    · simp [hq, hparen]
    have hblank : Text.isBlank c = true := by
      rw [not_or] at hparen
      simpa [isDelimiter, hq, hparen] using hc
    simp [hq, hparen, hblank]

theorem lex_append_plain {w : List Char} (h : ∀ c ∈ w, isDelimiter c = false)
    (pending cs : List Char) : lex false pending (w ++ cs) = lex false (pending ++ w) cs := by
  induction w generalizing pending with
  | nil => simp
  | cons c w ih =>
    have hc := h c List.mem_cons_self
    simp only [isDelimiter, Bool.or_eq_false_iff, beq_eq_false_iff_ne] at hc
    obtain ⟨⟨⟨hq, hopen⟩, hclose⟩, hblank⟩ := hc
    rw [List.cons_append, lex, if_neg hq, if_neg Bool.false_ne_true,
      if_neg (not_or.2 ⟨hopen, hclose⟩), hblank, if_neg Bool.false_ne_true,
      ih (fun c hc => h c (List.mem_cons_of_mem _ hc)), List.append_assoc]
    rfl

theorem lex_append_quoted {s : List Char} (h : '"' ∉ s) (pending cs : List Char) :
    lex true pending (s ++ '"' :: cs)
      = phrase (String.ofList (pending ++ s)) :: lex false [] cs := by
  induction s generalizing pending with
  | nil => simp [lex]
  | cons c s ih =>
    obtain ⟨hc, hs⟩ := not_or.1 (fun h' => h (List.mem_cons.2 h'))
    rw [List.cons_append, lex, if_neg (Ne.symm hc), if_pos rfl, ih hs, List.append_assoc]
    rfl

/-- A blank between words is passed over. -/
theorem lex_cons_blank {c : Char} (h : Text.isBlank c = true) (cs : List Char) :
    lex false [] (c :: cs) = lex false [] cs := by
  -- a blank is neither a quote nor a parenthesis
  have hq : c ≠ '"' := fun e => by subst e; exact absurd h (by decide)
  have hparen : ¬ (c = '(' ∨ c = ')') := by
    rintro (rfl | rfl)
    · exact absurd h (by decide)
    · exact absurd h (by decide)
  rw [lex, if_neg hq, if_neg Bool.false_ne_true, if_neg hparen, if_pos h]
  rfl

theorem lex_cons_paren {c : Char} (h : c = '(' ∨ c = ')') (cs : List Char) :
    lex false [] (c :: cs) = word (String.singleton c) :: lex false [] cs := by
  have hq : c ≠ '"' := fun e => by subst e; exact absurd h (by decide)
  rw [lex, if_neg hq, if_neg Bool.false_ne_true, if_pos h]
  rfl

theorem lex_cons_phrase {s : List Char} (h : '"' ∉ s) (cs : List Char) :
    lex false [] ('"' :: (s ++ '"' :: cs)) = phrase (String.ofList s) :: lex false [] cs := by
  rw [lex, if_pos rfl, if_neg Bool.false_ne_true, lex_append_quoted h]
  rfl

/-- Every layout of some tokens is read as these tokens. -/
theorem lex_of_layout {ts : List Token} {cs : List Char} (h : Layout ts cs) :
    lex false [] cs = ts := by
  induction h with
  | nil => rfl
  | blank hc _ ih => rw [lex_cons_blank hc, ih]
  | paren hc _ ih => rw [lex_cons_paren hc, ih]
  | phrase hs _ ih => rw [lex_cons_phrase hs, ih, String.ofList_toList]
  | @word w ts cs hw hcs _ ih =>
    -- the word is pending until what ends it is seen
    have hne : w.toList ≠ [] := by simpa using hw.1
    rw [lex_append_plain hw.2, lex_of_endsWord hcs, ih]
    simp [flushed, hne, Token.word]

/-- **The scanner reads every layout of some tokens as these tokens.** -/
theorem tokenize_of_layout {ts : List Token} {q : String} (h : Layout ts q.toList) :
    tokenize q = ts := by
  rw [tokenize_eq_lex, lex_of_layout h]

/-! ### Writing tokens -/

/-- How a token stands in a query. -/
def write (t : Token) : String :=
  if t.quoted then "\"" ++ t.text ++ "\"" else t.text

/-- Tokens with a space between each two. -/
def writeAll (ts : List Token) : String :=
  " ".intercalate (ts.map write)

theorem Layout.write {t : Token} {ts : List Token} {cs : List Char} (ht : t.WellFormed)
    (hcs : EndsWord cs) (h : Layout ts cs) : Layout (t :: ts) (t.write.toList ++ cs) := by
  obtain ⟨text, quoted⟩ := t
  cases quoted with
  | true =>
    have hq : '"' ∉ text.toList := ht
    have hwrite : (Token.write ⟨text, true⟩).toList ++ cs
        = '"' :: (text.toList ++ '"' :: cs) := by
      simp [Token.write]
    rw [hwrite]
    exact .phrase hq h
  | false =>
    have hword : text = "(" ∨ text = ")" ∨ IsPlain text := ht
    rcases hword with rfl | rfl | hplain
    · exact .paren (.inl rfl) h
    · exact .paren (.inr rfl) h
    · exact .word hplain hcs h

/-- Single spaces between tokens make a layout of them. -/
theorem layout_writeAll {ts : List Token} (h : ∀ t ∈ ts, t.WellFormed) :
    Layout ts (writeAll ts).toList := by
  unfold writeAll
  induction ts with
  | nil => exact .nil
  | cons t ts ih =>
    have ht := h t List.mem_cons_self
    have hts := ih fun t ht => h t (List.mem_cons_of_mem _ ht)
    cases ts with
    | nil =>
      have hnil : EndsWord [] := trivial
      simpa using Layout.write ht hnil .nil
    | cons u us =>
      -- the space ends the first token, and is a blank of its own
      rw [List.map_cons, List.map_cons, String.intercalate_cons_cons, ← List.map_cons]
      rw [String.append_assoc, String.toList_append, String.toList_append]
      exact .write ht (endsWord_space _) (.blank (by decide) hts)

/-! ### The tokens of a query -/

/-- Pending characters that can become a token. -/
def IsPending (quoted : Bool) (pending : List Char) : Prop :=
  if quoted then '"' ∉ pending else ∀ c ∈ pending, isDelimiter c = false

theorem isPending_nil (quoted : Bool) : IsPending quoted [] := by
  cases quoted with
  | true => exact List.not_mem_nil
  | false => exact List.forall_mem_nil _

theorem IsPending.concat_quoted {pending : List Char} (h : IsPending true pending) {c : Char}
    (hc : c ≠ '"') : IsPending true (pending ++ [c]) := by
  show '"' ∉ pending ++ [c]
  have hpending : '"' ∉ pending := h
  simpa [hpending] using Ne.symm hc

theorem IsPending.concat_word {pending : List Char} (h : IsPending false pending) {c : Char}
    (hc : isDelimiter c = false) : IsPending false (pending ++ [c]) :=
  List.forall_mem_append.2 ⟨h, List.forall_mem_singleton.2 hc⟩

theorem wellFormed_of_mem_flushed {quoted : Bool} {pending : List Char}
    (h : IsPending quoted pending) {t : Token} (ht : t ∈ flushed quoted pending) :
    t.WellFormed := by
  unfold flushed at ht
  split at ht
  · cases ht
  · rename_i hne
    obtain rfl := List.mem_singleton.1 ht
    cases quoted with
    | true => simpa [WellFormed, IsPending] using h
    | false => exact .inr (.inr ⟨by simpa using hne, by simpa [IsPending, Undelimited] using h⟩)

theorem wellFormed_of_mem_lex {quoted : Bool} {pending cs : List Char}
    (h : IsPending quoted pending) {t : Token} (ht : t ∈ lex quoted pending cs) :
    t.WellFormed := by
  induction cs generalizing quoted pending with
  | nil => exact wellFormed_of_mem_flushed h ht
  | cons c cs ih =>
    rw [lex] at ht
    by_cases hq : c = '"'
    · -- a quote makes what is pending a token, or nothing if there is none
      rw [if_pos hq] at ht
      cases quoted with
      | true =>
        rcases List.mem_cons.1 ht with rfl | ht
        · simpa [WellFormed, Token.phrase, IsPending] using h
        · exact ih (isPending_nil false) ht
      | false =>
        rcases List.mem_append.1 ht with ht | ht
        · exact wellFormed_of_mem_flushed h ht
        · exact ih (isPending_nil true) ht
    rw [if_neg hq] at ht
    cases quoted with
    | true => exact ih (h.concat_quoted hq) ht
    | false =>
      -- outside quotes only what is no delimiter goes on with a word
      rw [if_neg Bool.false_ne_true] at ht
      by_cases hparen : c = '(' ∨ c = ')'
      · rw [if_pos hparen] at ht
        rcases List.mem_append.1 ht with ht | ht
        · exact wellFormed_of_mem_flushed h ht
        rcases List.mem_cons.1 ht with rfl | ht
        · rcases hparen with rfl | rfl
          · exact .inl rfl
          · exact .inr (.inl rfl)
        · exact ih (isPending_nil false) ht
      rw [if_neg hparen] at ht
      by_cases hblank : Text.isBlank c = true
      · rw [if_pos hblank] at ht
        rcases List.mem_append.1 ht with ht | ht
        · exact wellFormed_of_mem_flushed h ht
        · exact ih (isPending_nil false) ht
      · rw [if_neg hblank] at ht
        rw [not_or] at hparen
        exact ih (h.concat_word (by simp [isDelimiter, hq, hparen, hblank])) ht

/-- A query is cut into nothing but well-formed tokens. -/
theorem wellFormed_of_mem_tokenize {q : String} {t : Token} (ht : t ∈ tokenize q) :
    t.WellFormed := by
  rw [tokenize_eq_lex] at ht
  exact wellFormed_of_mem_lex (isPending_nil false) ht

/-- **Cutting a query into tokens can be undone**: what a query is cut into are
well-formed tokens, and any such tokens, written with single spaces between
them, are a query that is cut into these tokens again. -/
theorem tokenize_writeAll :
    (∀ q, ∀ t ∈ tokenize q, t.WellFormed) ∧
      ∀ ts : List Token, (∀ t ∈ ts, t.WellFormed) → tokenize (writeAll ts) = ts := by
  constructor
  · intro q t ht
    exact wellFormed_of_mem_tokenize ht
  · intro ts hts
    exact tokenize_of_layout (layout_writeAll hts)

/-- Phrases with a parenthesis, of nothing, and of blanks, glued to each other
and to words. -/
theorem tokenize_writeAll_glued :
    let q := "tag:\" (é  b\"\"\")x(\" \u2003"
    let ts := [word "tag:", phrase " (é  b", phrase "", word ")", word "x", word "(", phrase " \u2003"]
    (phrase "" ∈ tokenize q ∧ (phrase "").WellFormed) ∧ (∀ t ∈ ts, t.WellFormed) ∧
      writeAll ts = "tag: \" (é  b\" \"\" ) x ( \" \u2003\"" ∧
      tokenize (writeAll ts) = ts ∧ tokenize q = ts := by
  intro q ts
  obtain ⟨hread, hwrite⟩ := tokenize_writeAll
  have hq : tokenize q = ts := by
    rw [tokenize_eq_lex]
    decide +kernel
  have hmem : phrase "" ∈ tokenize q := by
    rw [hq]
    decide
  have hts : ∀ t ∈ ts, t.WellFormed := by decide
  exact ⟨⟨hmem, hread q _ hmem⟩, hts, by decide, hwrite ts hts, hq⟩

end SearchQuery.Token
