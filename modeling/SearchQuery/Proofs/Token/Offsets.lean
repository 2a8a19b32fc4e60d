/-
SearchQuery/Proofs/Token/Offsets.lean

The scanner by byte offsets.

A position of the scanner lies between two characters because of its type, so
it cannot be seen from the scanner that nothing goes wrong where a character
has several bytes.  Here the same walk is made with plain numbers.  They count
bytes, a step over a mark adds one to them and a step over a blank adds its
bytes, and a slice of the query is had only if both of its ends lie between
characters and the first is not behind the second (`slice?`).

Nothing does go wrong: the numbers are the offsets of the cursor at every step
(`step?_offsets`), and what comes of them are the tokens of the query
(`scanOffsets?_eq`).
-/
import SearchQuery.Proofs.Token.Buffer

namespace SearchQuery.Token

/-! ### Slices -/

/-- Whether a byte offset lies between two characters of the query or at one of
its ends. -/
def Boundary (q : String) (n : Nat) : Prop :=
  String.Pos.Raw.IsValid q ⟨n⟩

instance (q : String) (n : Nat) : Decidable (Boundary q n) :=
  inferInstanceAs (Decidable (String.Pos.Raw.IsValid q ⟨n⟩))

/-- The text between two byte offsets.  There is none if one of them lies inside
of a character or outside of the query, or if the first is behind the second. -/
def slice? (q : String) (start stop : Nat) : Option String :=
  if h : start ≤ stop ∧ Boundary q start ∧ Boundary q stop then
    some (String.extract ⟨⟨start⟩, h.2.1⟩ ⟨⟨stop⟩, h.2.2⟩)
  else none

variable {q : String}

theorem boundary_offset (p : q.Pos) : Boundary q p.offset.byteIdx :=
  p.isValid

theorem slice?_offset {p p' : q.Pos} (h : p ≤ p') :
    slice? q p.offset.byteIdx p'.offset.byteIdx = some (String.extract p p') :=
  dif_pos ⟨h, boundary_offset p, boundary_offset p'⟩

theorem extract_next {p : q.Pos} (h : p ≠ q.endPos) :
    String.extract p (p.next h) = String.singleton (p.get h) := by
  rw [String.extract_eq_copy_slice _ _ String.Pos.le_next]
  have hnext := p.splits_next_right h
  exact (String.copy_slice_eq_iff_splits.2 ⟨_, _, hnext, hnext.next⟩).2

/-! ### The walk -/

/-- What is kept between two characters. -/
structure Offsets where
  /-- Where the pending text begins. -/
  start : Nat := 0
  /-- Whether a quote is open. -/
  quoted : Bool := false
  /-- The tokens so far. -/
  done : Array Token := #[]

namespace Offsets

variable (q)

/-- The tokens with the pending text behind them, unless it is empty. -/
def flush? (s : Offsets) (stop : Nat) : Option (Array Token) := do
  let text ← slice? q s.start stop
  pure (if text.isEmpty then s.done else s.done.push ⟨text, s.quoted⟩)

/-- Go past a character that stands at the offset `i`. -/
def step? (s : Offsets) (i : Nat) (c : Char) : Option Offsets :=
  if c = '"' then
    if s.quoted then do
      let text ← slice? q s.start i
      pure ⟨i + 1, false, s.done.push (phrase text)⟩
    else do
      let done ← s.flush? q i
      pure ⟨i + 1, true, done⟩
  else if s.quoted then pure s
  else if c = '(' ∨ c = ')' then do
    let done ← s.flush? q i
    let paren ← slice? q i (i + 1)
    pure ⟨i + 1, false, done.push (word paren)⟩
  else if Text.isBlank c then do
    let done ← s.flush? q i
    pure ⟨i + c.utf8Size, false, done⟩
  else pure s

/-- Go past characters, the first of which stands at the offset `i`. -/
def run? (s : Offsets) (i : Nat) : List Char → Option Offsets
  | [] => some s
  | c :: cs => do
    let s' ← s.step? q i c
    run? s' (i + c.utf8Size) cs

end Offsets

/-- The tokens of a query, by byte offsets. -/
def scanOffsets? (q : String) : Option (List Token) := do
  let s ← Offsets.run? q {} 0 q.toList
  let done ← s.flush? q q.utf8ByteSize
  pure done.toList

/-! ### The scanner makes the same walk -/

/-- The offsets of a cursor, and the tokens in front of it. -/
def Cursor.offsets (c : Cursor q) (done : Array Token) : Offsets :=
  ⟨c.start.offset.byteIdx, c.quoted, done⟩

variable {c : Cursor q} {done : Array Token}

theorem quoted_offsets (c : Cursor q) (done : Array Token) :
    (c.offsets done).quoted = c.quoted := rfl

theorem slice?_pending (c : Cursor q) (done : Array Token) :
    slice? q (c.offsets done).start c.here.offset.byteIdx = some c.pending :=
  slice?_offset c.start_le_here

theorem flush?_offsets (c : Cursor q) (done : Array Token) :
    (c.offsets done).flush? q c.here.offset.byteIdx = some (c.flush done) := by
  rw [Offsets.flush?, slice?_pending]
  rfl

theorem utf8Size_of_mark {ch : Char} (h : ch = '"' ∨ ch = '(' ∨ ch = ')') : ch.utf8Size = 1 := by
  rcases h with rfl | rfl | rfl <;> decide

/-- A step of the scanner, and the same step by offsets. -/
theorem step?_offsets (h : c.here ≠ q.endPos) (done : Array Token) :
    ∃ (c' : Cursor q) (done' : Array Token),
      (c.offsets done).step? q c.here.offset.byteIdx (c.here.get h) = some (c'.offsets done') ∧
        c'.here = c.here.next h ∧ scan c done = scan c' done' := by
  have hflush := flush?_offsets c done
  have hskip : ∀ quoted done', (c.skip h quoted).offsets done'
      = ⟨c.here.offset.byteIdx + (c.here.get h).utf8Size, quoted, done'⟩ := by
    intro quoted done'
    rw [← c.here.byteIdx_offset_next h]
    rfl
  rw [scan, dif_neg h, Offsets.step?, quoted_offsets]
  by_cases hq : c.here.get h = '"'
  · rw [utf8Size_of_mark (.inl hq)] at hskip
    by_cases hquoted : c.quoted = true
    · refine ⟨c.skip h false, done.push (phrase c.pending), ?_, rfl, ?_⟩
      · rw [if_pos hq, hskip, if_pos hquoted, slice?_pending]
        rfl
      · simp only [if_pos hq, if_pos hquoted]
    · refine ⟨c.skip h true, c.flush done, ?_, rfl, ?_⟩
      · rw [if_pos hq, hskip, if_neg hquoted, hflush]
        rfl
      · simp only [if_pos hq, if_neg hquoted]
  by_cases hquoted : c.quoted = true
  · refine ⟨c.take h, done, ?_, rfl, ?_⟩
    · rw [if_neg hq, if_pos hquoted]
      rfl
    · simp only [if_neg hq, if_pos hquoted]
  by_cases hparen : c.here.get h = '(' ∨ c.here.get h = ')'
  · -- the parenthesis is a slice of its own
    have hsize := utf8Size_of_mark (.inr hparen)
    have hnext := slice?_offset (String.Pos.le_next (p := c.here) (h := h))
    rw [extract_next h, c.here.byteIdx_offset_next h, hsize] at hnext
    rw [hsize] at hskip
    refine ⟨c.skip h false, (c.flush done).push (word (String.singleton (c.here.get h))), ?_, rfl, ?_⟩
    · rw [if_neg hq, if_neg hquoted, if_pos hparen, hskip, hflush, hnext]
      rfl
    · simp only [if_neg hq, if_neg hquoted, if_pos hparen]
  by_cases hblank : Text.isBlank (c.here.get h) = true
  · refine ⟨c.skip h false, c.flush done, ?_, rfl, ?_⟩
    · rw [if_neg hq, if_neg hquoted, if_neg hparen, if_pos hblank, hskip, hflush]
      rfl
    · simp only [if_neg hq, if_neg hquoted, if_neg hparen, if_pos hblank]
  · refine ⟨c.take h, done, ?_, rfl, ?_⟩
    · rw [if_neg hq, if_neg hquoted, if_neg hparen, if_neg hblank]
      rfl
    · simp only [if_neg hq, if_neg hquoted, if_neg hparen, if_neg hblank]

/-- Past some characters, with others still to come. -/
theorem run?_offsets {front : String} {before after : List Char}
    (h : c.here.Splits front (String.ofList (before ++ after))) (done : Array Token) :
    ∃ (c' : Cursor q) (done' : Array Token),
      Offsets.run? q (c.offsets done) c.here.offset.byteIdx before = some (c'.offsets done') ∧
        c'.here.Splits (front ++ String.ofList before) (String.ofList after) ∧
        scan c done = scan c' done' := by
  induction before generalizing c front done with
  | nil => exact ⟨c, done, rfl, by simpa using h, rfl⟩
  | cons ch before ih =>
    rw [List.cons_append, String.ofList_cons] at h
    obtain ⟨hne, hget⟩ := get_of_splits h
    obtain ⟨c₁, done₁, hstep, hhere, hscan⟩ := step?_offsets hne done
    have hsplits : c₁.here.Splits (front ++ String.singleton ch)
        (String.ofList (before ++ after)) := by
      rw [hhere]
      exact h.next
    obtain ⟨c₂, done₂, hrun, hrest, hscan₂⟩ := ih hsplits done₁
    refine ⟨c₂, done₂, ?_, ?_, hscan.trans hscan₂⟩
    · rw [hget] at hstep
      have hoffset : c.here.offset.byteIdx + ch.utf8Size = c₁.here.offset.byteIdx := by
        rw [hhere, c.here.byteIdx_offset_next hne, hget]
      rw [Offsets.run?, hstep, Option.bind_eq_bind, Option.bind_some, hoffset, hrun]
    · rw [String.ofList_cons, ← String.append_assoc]
      exact hrest

/-- Through the whole query. -/
theorem scanOffsets?_eq (q : String) : scanOffsets? q = some (tokenize q) := by
  have hsplits : (Cursor.atStart q).here.Splits "" (String.ofList (q.toList ++ [])) := by
    rw [List.append_nil, String.ofList_toList]
    exact String.splits_startPos q
  obtain ⟨c, done, hrun, hend, hscan⟩ := run?_offsets hsplits #[]
  have hhere : c.here = q.endPos := hend.eq_endPos_iff.2 String.ofList_nil
  have hflush := flush?_offsets c done
  rw [hhere] at hflush
  have htokens : tokenize q = (c.flush done).toList := by
    rw [tokenize, hscan, scan, dif_pos hhere]
  rw [htokens, scanOffsets?]
  show (Offsets.run? q ((Cursor.atStart q).offsets #[]) (Cursor.atStart q).here.offset.byteIdx
    q.toList).bind _ = _
  rw [hrun, Option.bind_some]
  show (Offsets.flush? q (c.offsets done) q.endPos.offset.byteIdx).bind _ = _
  rw [hflush]
  rfl

/-! ### All offsets are in their places -/

/-- The offsets with which a character `ch` at the offset `i` is met: the text
from the first to the second can be had, and so can the character. -/
structure Offsets.InPlace (q : String) (s : Offsets) (i : Nat) (ch : Char) : Prop where
  start_le : s.start ≤ i
  start : Boundary q s.start
  here : Boundary q i
  behind : Boundary q (i + ch.utf8Size)
  /-- A mark is one byte. -/
  behind_mark : ch = '"' ∨ ch = '(' ∨ ch = ')' → Boundary q (i + 1)

theorem inPlace_offsets (h : c.here ≠ q.endPos) (done : Array Token) :
    (c.offsets done).InPlace q c.here.offset.byteIdx (c.here.get h) := by
  have hbehind : Boundary q (c.here.offset.byteIdx + (c.here.get h).utf8Size) := by
    rw [← c.here.byteIdx_offset_next h]
    exact boundary_offset _
  refine ⟨c.start_le_here, boundary_offset c.start, boundary_offset c.here, hbehind, ?_⟩
  intro hmark
  rwa [utf8Size_of_mark hmark] at hbehind

/-- **The walk by byte offsets never goes wrong, and its tokens are those of the
buffer.**  In front of every character the scanner has come to a cursor with the
offsets of the walk, and all of them are in their places; no slice is missing on
the way, and what comes of the slices is what comes of adding one character
after the other to a buffer. -/
theorem tokenize_by_offsets (q : String) :
    (∀ before ch after, q.toList = before ++ ch :: after →
      let i := (String.ofList before).utf8ByteSize
      ∃ (c : Cursor q) (done : Array Token),
        scan (Cursor.atStart q) #[] = scan c done ∧ c.here.offset.byteIdx = i ∧
        Offsets.run? q {} 0 before = some (c.offsets done) ∧ (c.offsets done).InPlace q i ch) ∧
      scanOffsets? q = some (tokenize q) ∧ tokenize q = lex false [] q.toList := by
  refine ⟨?_, scanOffsets?_eq q, tokenize_eq_lex q⟩
  intro before ch after hq i
  have hsplits : (Cursor.atStart q).here.Splits "" (String.ofList (before ++ ch :: after)) := by
    rw [← hq, String.ofList_toList]
    exact String.splits_startPos q
  obtain ⟨c, done, hrun, hrest, hscan⟩ := run?_offsets hsplits #[]
  rw [String.empty_append] at hrest
  have hi : c.here.offset.byteIdx = i := congrArg String.Pos.Raw.byteIdx hrest.offset_eq_rawEndPos
  rw [String.ofList_cons] at hrest
  obtain ⟨hne, hget⟩ := get_of_splits hrest
  refine ⟨c, done, hscan, hi, hrun, ?_⟩
  rw [← hi, ← hget]
  exact inPlace_offsets hne done

/-- Characters of two and of three bytes, one of them a blank and one the last
of the query. -/
theorem tokenize_by_offsets_multibyte :
    let q := "é\u2003(ü\"x )\"é"
    q.toList = ['é', '\u2003'] ++ '(' :: "ü\"x )\"é".toList ∧
      (∃ s, Offsets.run? q {} 0 ['é', '\u2003'] = some s ∧ s.InPlace q 5 '(') ∧
      scanOffsets? q = some [word "é", word "(", word "ü", phrase "x )", word "é"] ∧
      tokenize q = [word "é", word "(", word "ü", phrase "x )", word "é"] := by
  intro q
  have hq : q.toList = ['é', '\u2003'] ++ '(' :: "ü\"x )\"é".toList := by decide
  obtain ⟨hsteps, hscan, hlex⟩ := tokenize_by_offsets q
  obtain ⟨c, done, -, -, hrun, hplace⟩ := hsteps ['é', '\u2003'] '(' _ hq
  have hsize : (String.ofList ['é', '\u2003']).utf8ByteSize = 5 := by decide
  have htokens : tokenize q = [word "é", word "(", word "ü", phrase "x )", word "é"] := by
    rw [hlex]
    decide +kernel
  rw [hsize] at hplace
  exact ⟨hq, ⟨_, hrun, hplace⟩, by rw [hscan, htokens], htokens⟩

end SearchQuery.Token
