/-
SearchQuery/Proofs/Json/Spelling.lean

Texts as spellings of lexemes.

`Spells ls cs` says that the characters `cs` spell the lexemes `ls`, without
saying how they are told apart: there may be blanks anywhere between lexemes,
a string is spelled code point by code point, and a bare word has a delimiter
or the end of the text behind it.  The scanner finds the lexemes of every
spelling (`scan?_of_spells`).  Spellings are put one behind the other where a
word ends (`Spells.append`).
-/
import SearchQuery.Json.Lexeme

namespace SearchQuery.Json

/-! ### Characters of numbers -/

/-- The characters that a number can have. -/
def isNumberChar (c : Char) : Bool :=
  c.isDigit || c == '-' || c == '+' || c == '.' || c == 'e' || c == 'E'

theorem isNumberChar_of_isDigit {c : Char} (h : c.isDigit = true) : isNumberChar c = true := by
  simp [isNumberChar, h]

theorem isNumberChar_of_isDigits {cs : List Char} (h : isDigits cs = true) :
    ∀ c ∈ cs, isNumberChar c = true := by
  cases cs with
  | nil => cases h
  | cons d ds =>
    obtain ⟨hd, hds⟩ := (Bool.and_eq_true _ _).mp h
    refine List.forall_mem_cons.2 ⟨isNumberChar_of_isDigit hd, ?_⟩
    intro c hc
    exact isNumberChar_of_isDigit (List.all_eq_true.1 hds c hc)

theorem isNumberChar_of_isExponent {cs : List Char} (h : isExponent cs = true) :
    ∀ c ∈ cs, isNumberChar c = true := by
  cases cs with
  | nil => exact fun _ hc => absurd hc List.not_mem_nil
  | cons e rest =>
    obtain ⟨he, hrest⟩ := (Bool.and_eq_true _ _).mp h
    refine List.forall_mem_cons.2 ⟨?_, ?_⟩
    · rcases (Bool.or_eq_true _ _).mp he with he | he <;> simp [isNumberChar, he]
    · split at hrest
      · exact List.forall_mem_cons.2 ⟨rfl, isNumberChar_of_isDigits hrest⟩
      · exact List.forall_mem_cons.2 ⟨rfl, isNumberChar_of_isDigits hrest⟩
      · exact isNumberChar_of_isDigits hrest

/-- Digits, and behind them what a number can have. -/
theorem isNumberChar_of_dropWhile {cs : List Char}
    (h : ∀ c ∈ cs.dropWhile Char.isDigit, isNumberChar c = true) :
    ∀ c ∈ cs, isNumberChar c = true := by
  intro c hc
  rw [← List.takeWhile_append_dropWhile (p := Char.isDigit) (l := cs)] at hc
  rcases List.mem_append.1 hc with hc | hc
  · exact isNumberChar_of_isDigit (List.all_eq_true.1 List.all_takeWhile c hc)
  · exact h c hc

theorem isNumberChar_of_isFraction {cs : List Char} (h : isFraction cs = true) :
    ∀ c ∈ cs, isNumberChar c = true := by
  unfold isFraction at h
  split at h
  · obtain ⟨hd, hrest⟩ := (Bool.and_eq_true _ _).mp h
    refine List.forall_mem_cons.2 ⟨rfl, List.forall_mem_cons.2 ⟨isNumberChar_of_isDigit hd, ?_⟩⟩
    exact isNumberChar_of_dropWhile (isNumberChar_of_isExponent hrest)
  · exact isNumberChar_of_isExponent h

theorem isNumberChar_of_isUnsigned {cs : List Char} (h : isUnsigned cs = true) :
    ∀ c ∈ cs, isNumberChar c = true := by
  unfold isUnsigned at h
  split at h
  · exact List.forall_mem_cons.2 ⟨rfl, isNumberChar_of_isFraction h⟩
  · obtain ⟨hd, hrest⟩ := (Bool.and_eq_true _ _).mp h
    refine List.forall_mem_cons.2 ⟨isNumberChar_of_isDigit hd, ?_⟩
    exact isNumberChar_of_dropWhile (isNumberChar_of_isFraction hrest)
  · cases h

theorem isNumberChar_of_isNumber {cs : List Char} (h : isNumber cs = true) :
    ∀ c ∈ cs, isNumberChar c = true := by
  unfold isNumber at h
  split at h
  · exact List.forall_mem_cons.2 ⟨rfl, isNumberChar_of_isUnsigned h⟩
  · exact isNumberChar_of_isUnsigned h

namespace Lexeme

/-! ### Words -/

/-- The characters that end a bare word. -/
def isDelimiter (c : Char) : Bool :=
  isGap c || c == '"' || (ofMark? c).isSome

/-- Whether a bare word is over where a text begins. -/
def EndsWord (cs : List Char) : Prop :=
  ∀ c ∈ cs.head?, isDelimiter c = true

theorem endsWord_nil : EndsWord [] :=
  nofun

theorem endsWord_cons {c : Char} (h : isDelimiter c = true) (cs : List Char) :
    EndsWord (c :: cs) := by
  rintro _ ⟨⟩
  exact h

theorem EndsWord.append {cs ds : List Char} (h : EndsWord cs) (h' : EndsWord ds) :
    EndsWord (cs ++ ds) := by
  cases cs with
  | nil => exact h'
  | cons c cs => exact h

theorem mem_of_isDelimiter {c : Char} (h : isDelimiter c = true) :
    c ∈ [' ', '\t', '\n', '\r', '"', '[', ']', '{', '}', ',', ':'] := by
  unfold isDelimiter isGap ofMark? at h
  split at h <;> simp_all [or_assoc]

theorem isDelimiter_of_isNumberChar {c : Char} (h : isNumberChar c = true) :
    isDelimiter c = false := by
  cases hc : isDelimiter c with
  | false => rfl
  | true =>
    have hmem := mem_of_isDelimiter hc
    simp only [List.mem_cons, List.not_mem_nil, or_false] at hmem
    rcases hmem with rfl | rfl | rfl | rfl | rfl | rfl | rfl | rfl | rfl | rfl | rfl <;> cases h

/-- What stands for something has a character, and none that ends words. -/
theorem isDelimiter_of_ofWord? {word : List Char} {l : Lexeme} (h : ofWord? word = some l) :
    word ≠ [] ∧ ∀ c ∈ word, isDelimiter c = false := by
  have hletters : ∀ {cs : List Char}, (cs.all fun c => !isDelimiter c) = true →
      ∀ c ∈ cs, isDelimiter c = false := by
    intro cs hcs c hc
    exact Bool.not_eq_true' _ ▸ List.all_eq_true.1 hcs c hc
  unfold ofWord? at h
  split at h
  · subst word
    exact ⟨List.cons_ne_nil _ _, hletters rfl⟩
  split at h
  · subst word
    exact ⟨List.cons_ne_nil _ _, hletters rfl⟩
  split at h
  · subst word
    exact ⟨List.cons_ne_nil _ _, hletters rfl⟩
  split at h
  · rename_i hnumber
    refine ⟨?_, fun c hc => isDelimiter_of_isNumberChar (isNumberChar_of_isNumber hnumber c hc)⟩
    rintro rfl
    cases hnumber
  · cases h

/-! ### Spellings -/

/-- The characters of one code point of a string. -/
inductive SpellsUnit : Nat → List Char → Prop
  | plain {c} : c ≠ '"' → c ≠ '\\' → 0x20 ≤ c.toNat → SpellsUnit c.toNat [c]
  | short {letter c} : ofShortEscape? letter = some c → SpellsUnit c.toNat ['\\', letter]
  | hex {a b c d i j k l} : hexValue? a = some i → hexValue? b = some j → hexValue? c = some k →
      hexValue? d = some l →
      SpellsUnit (0x1000 * i + 0x100 * j + 0x10 * k + l) ['\\', 'u', a, b, c, d]

/-- The characters of a string between its quotes. -/
inductive SpellsUnits : List Nat → List Char → Prop
  | nil : SpellsUnits [] []
  | cons {u us cs ds} : SpellsUnit u cs → SpellsUnits us ds → SpellsUnits (u :: us) (cs ++ ds)

/-- The characters of some lexemes. -/
inductive Spells : List Lexeme → List Char → Prop
  | nil : Spells [] []
  | gap {c ls cs} : isGap c = true → Spells ls cs → Spells ls (c :: cs)
  | mark {c l ls cs} : ofMark? c = some l → Spells ls cs → Spells (l :: ls) (c :: cs)
  | string {us body ls cs} : SpellsUnits us body → Spells ls cs →
      Spells (ofUnits us :: ls) ('"' :: (body ++ '"' :: cs))
  | word {w l ls cs} : ofWord? w = some l → EndsWord cs → Spells ls cs → Spells (l :: ls) (w ++ cs)

/-- One spelling behind another. -/
theorem Spells.append {ls ls' : List Lexeme} {cs cs' : List Char} (h : Spells ls cs)
    (hends : EndsWord cs') (h' : Spells ls' cs') : Spells (ls ++ ls') (cs ++ cs') := by
  induction h with
  | nil => exact h'
  | gap hgap _ ih => exact .gap hgap ih
  | mark hmark _ ih => exact .mark hmark ih
  | @string us body ls cs hbody _ ih =>
    rw [List.cons_append, List.cons_append, List.append_assoc, List.cons_append]
    exact .string hbody ih
  | word hword hcs _ ih =>
    rw [List.append_assoc]
    exact .word hword (hcs.append hends) ih

/-- Blanks in front of a spelling. -/
theorem Spells.gaps {gaps : List Char} (hgaps : ∀ c ∈ gaps, isGap c = true) {ls : List Lexeme}
    {cs : List Char} (h : Spells ls cs) : Spells ls (gaps ++ cs) := by
  induction gaps with
  | nil => exact h
  | cons c gaps ih =>
    obtain ⟨hc, hgaps⟩ := List.forall_mem_cons.1 hgaps
    exact .gap hc (ih hgaps)

theorem endsWord_gaps {gaps : List Char} (h : ∀ c ∈ gaps, isGap c = true) : EndsWord gaps := by
  intro c hc
  simp [isDelimiter, h c (List.mem_of_mem_head? hc)]

theorem endsWord_mark {c : Char} {l : Lexeme} (h : ofMark? c = some l) (cs : List Char) :
    EndsWord (c :: cs) :=
  endsWord_cons (by simp [isDelimiter, h]) cs

/-! ### Scanning -/

variable {done : List Lexeme}

theorem step?_mark {c : Char} {l : Lexeme} (h : ofMark? c = some l) :
    Scan.step? ⟨done, .nothing⟩ c = some ⟨l :: done, .nothing⟩ := by
  unfold ofMark? at h
  split at h <;> cases h <;> rfl

theorem foldlM_unit {u : Nat} {cs : List Char} (h : SpellsUnit u cs) (units : List Nat)
    (rest : List Char) :
    (cs ++ rest).foldlM Scan.step? ⟨done, .string units⟩
      = rest.foldlM Scan.step? ⟨done, .string (u :: units)⟩ := by
  cases h with
  | plain hquote hescape hprintable =>
    simp [List.foldlM_cons, Scan.step?, hquote, hescape, Nat.not_lt.2 hprintable]
  | @short letter c h =>
    have hletter : letter ≠ 'u' := by
      rintro rfl
      cases h
    simp [List.foldlM_cons, Scan.step?, hletter, h]
  | @hex a b c d i j k l ha hb hc hd =>
    have hvalue : 16 * (16 * (16 * i + j) + k) + l = 0x1000 * i + 0x100 * j + 0x10 * k + l := by
      omega
    simp [List.foldlM_cons, Scan.step?, ha, hb, hc, hd, hvalue]

theorem foldlM_units {us : List Nat} {body : List Char} (h : SpellsUnits us body)
    (units : List Nat) (rest : List Char) :
    (body ++ rest).foldlM Scan.step? ⟨done, .string units⟩
      = rest.foldlM Scan.step? ⟨done, .string (us.reverse ++ units)⟩ := by
  induction h generalizing units with
  | nil => rfl
  | cons hunit _ ih =>
    rw [List.append_assoc, foldlM_unit hunit, ih, List.reverse_cons, List.append_assoc,
      List.singleton_append]

/-- A character that ends no word is put to the word before it. -/
theorem step?_word {c : Char} (h : isDelimiter c = false) (read : List Char) :
    Scan.step? ⟨done, .word read⟩ c = some ⟨done, .word (c :: read)⟩ ∧
      Scan.step? ⟨done, .nothing⟩ c = some ⟨done, .word [c]⟩ := by
  simp only [isDelimiter, Bool.or_eq_false_iff, beq_eq_false_iff_ne, Option.isSome_eq_false_iff,
    Option.isNone_iff_eq_none] at h
  obtain ⟨⟨hgap, hquote⟩, hmark⟩ := h
  simp [Scan.step?, Scan.outside?, hgap, hquote, hmark]

theorem foldlM_word {word : List Char} (h : ∀ c ∈ word, isDelimiter c = false) (read : List Char)
    (rest : List Char) :
    (word ++ rest).foldlM Scan.step? ⟨done, .word read⟩
      = rest.foldlM Scan.step? ⟨done, .word (word.reverse ++ read)⟩ := by
  induction word generalizing read with
  | nil => rfl
  | cons c word ih =>
    obtain ⟨hc, hword⟩ := List.forall_mem_cons.1 h
    rw [List.cons_append, List.foldlM_cons, (step?_word hc read).1, Option.bind_eq_bind,
      Option.bind_some, ih hword, List.reverse_cons, List.append_assoc, List.singleton_append]

/-- What a scanner finds in the rest of a text. -/
def scanFrom? (s : Scan) (cs : List Char) : Option (List Lexeme) :=
  (cs.foldlM Scan.step? s).bind Scan.finish?

/-- Where a word ends, it is the same as if it had been a lexeme before. -/
theorem scanFrom?_word {read cs : List Char} {l : Lexeme} (hword : ofWord? read.reverse = some l)
    (h : EndsWord cs) : scanFrom? ⟨done, .word read⟩ cs = scanFrom? ⟨l :: done, .nothing⟩ cs := by
  have hend : Scan.endWord? ⟨done, .word read⟩ = some ⟨l :: done, .nothing⟩ := by
    simp [Scan.endWord?, hword, Scan.push]
  have hend' : Scan.endWord? ⟨l :: done, .nothing⟩ = some ⟨l :: done, .nothing⟩ := rfl
  cases cs with
  | nil => simp only [scanFrom?, List.foldlM_nil, Option.pure_def, Option.bind_some, Scan.finish?,
      hend, hend']
  | cons c cs =>
    have hstep : Scan.step? ⟨done, .word read⟩ c = Scan.step? ⟨l :: done, .nothing⟩ c := by
      have hc : isDelimiter c = true := h c rfl
      simp only [isDelimiter, Bool.or_eq_true, beq_iff_eq, Option.isSome_iff_exists] at hc
      simp only [Scan.step?, Scan.outside?, hend, hend']
      rcases hc with (hgap | hquote) | ⟨mark, hmark⟩
      · simp only [hgap, if_true]
      · simp only [hquote, if_true]
      · simp only [hmark]
    simp only [scanFrom?, List.foldlM_cons, hstep]

theorem scanFrom?_of_spells {ls : List Lexeme} {cs : List Char} (h : Spells ls cs) :
    scanFrom? ⟨done, .nothing⟩ cs = some (done.reverse ++ ls) := by
  induction h generalizing done with
  | nil => simp [scanFrom?, Scan.finish?, Scan.endWord?]
  | @gap c _ _ hgap _ ih =>
    have hstep : Scan.step? ⟨done, .nothing⟩ c = some ⟨done, .nothing⟩ := by
      simp [Scan.step?, Scan.outside?, hgap, Scan.endWord?]
    rw [scanFrom?, List.foldlM_cons, hstep]
    exact ih
  | @mark c l ls _ hmark _ ih =>
    rw [scanFrom?, List.foldlM_cons, step?_mark hmark]
    refine ih.trans ?_
    rw [List.reverse_cons, List.append_assoc, List.singleton_append]
  | @string us body ls cs hbody _ ih =>
    have hopen : Scan.step? ⟨done, .nothing⟩ '"' = some ⟨done, .string []⟩ := rfl
    have hclose : Scan.step? ⟨done, .string (us.reverse ++ [])⟩ '"'
        = some ⟨ofUnits us :: done, .nothing⟩ := by
      simp [Scan.step?, Scan.push]
    rw [scanFrom?, List.foldlM_cons, hopen, Option.bind_eq_bind, Option.bind_some,
      foldlM_units hbody, List.foldlM_cons, hclose]
    refine ih.trans ?_
    rw [List.reverse_cons, List.append_assoc, List.singleton_append]
  | @word w l ls cs hword hends _ ih =>
    obtain ⟨hne, hchars⟩ := isDelimiter_of_ofWord? hword
    obtain ⟨c, w, rfl⟩ := List.exists_cons_of_ne_nil hne
    obtain ⟨hc, hrest⟩ := List.forall_mem_cons.1 hchars
    have hfirst : Scan.step? ⟨done, .nothing⟩ c = some ⟨done, .word [c]⟩ := (step?_word hc []).2
    have hread : ofWord? (w.reverse ++ [c]).reverse = some l := by
      rw [List.reverse_append, List.reverse_reverse, List.reverse_singleton, List.singleton_append,
        hword]
    rw [scanFrom?, List.cons_append, List.foldlM_cons, hfirst, Option.bind_eq_bind,
      Option.bind_some, foldlM_word hrest]
    refine (scanFrom?_word hread hends).trans (ih.trans ?_)
    rw [List.reverse_cons, List.append_assoc, List.singleton_append]

/-- **The scanner finds the lexemes of every spelling.** -/
theorem scan?_of_spells {ls : List Lexeme} {cs : List Char} (h : Spells ls cs) :
    scan? cs = some ls :=
  scanFrom?_of_spells h

end Lexeme

end SearchQuery.Json
