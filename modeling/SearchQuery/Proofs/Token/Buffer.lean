/-
SearchQuery/Proofs/Token/Buffer.lean

The tokens of a query, read character by character with a buffer.

The scanner of queries goes by positions and cuts every token out of the
query as one slice.  `lex` is the same machine without positions: the
characters read since the last token are a list, and so are those still to
come.  That is the form for proofs, since a list can be cut anywhere.

The bridge is `Cursor.At`: the query falls into three parts, what lies
before the pending text, the pending text, and what is still to come.  One
step of the scanner moves one character from the third part to the second
or to the first (`Cursor.At.take`, `Cursor.At.skip`).
-/
import SearchQuery.Token.Scan

namespace SearchQuery.Token

variable {q : String}

/-! ### The machine -/

/-- The pending characters as a token, unless there are none. -/
def flushed (quoted : Bool) (pending : List Char) : List Token :=
  if pending = [] then [] else [⟨String.ofList pending, quoted⟩]

/-- The tokens of some characters, behind a pending text. -/
def lex (quoted : Bool) (pending : List Char) : List Char → List Token
  | [] => flushed quoted pending
  | c :: cs =>
    if c = '"' then
      if quoted then phrase (String.ofList pending) :: lex false [] cs
      else flushed false pending ++ lex true [] cs
    else if quoted then lex quoted (pending ++ [c]) cs
    else if c = '(' ∨ c = ')' then
      flushed false pending ++ word (String.singleton c) :: lex false [] cs
    else if Text.isBlank c then flushed false pending ++ lex false [] cs
    else lex quoted (pending ++ [c]) cs

/-! ### Where a cursor stands -/

/-- In front of a character a position is not the end, and the character is
the one there. -/
theorem get_of_splits {p : q.Pos} {front rest : String} {ch : Char}
    (h : p.Splits front (String.singleton ch ++ rest)) :
    ∃ hne : p ≠ q.endPos, p.get hne = ch := by
  have hne : p ≠ q.endPos := fun hend => by
    have hempty := h.eq_endPos_iff.1 hend
    simp at hempty
  refine ⟨hne, ?_⟩
  have hhead := congrArg (fun s : String => s.toList.head?) (h.eq_right (p.splits_next_right hne))
  simpa using hhead.symm

namespace Cursor

/-- The parts of the query before the pending text, of the pending text and
behind it. -/
structure At (c : Cursor q) (before pending rest : String) : Prop where
  start_splits : c.start.Splits before (pending ++ rest)
  here_splits : c.here.Splits (before ++ pending) rest

variable {c : Cursor q} {before pending rest : String}

theorem at_atStart (q : String) : (atStart q).At "" "" q where
  start_splits := String.splits_startPos q
  here_splits := String.splits_startPos q

namespace At

theorem pending_eq (h : c.At before pending rest) : c.pending = pending := by
  rw [Cursor.pending, String.extract_eq_copy_slice _ _ c.start_le_here]
  exact (String.copy_slice_eq_iff_splits.2 ⟨_, _, h.start_splits, h.here_splits⟩).2

theorem here_eq_endPos_iff (h : c.At before pending rest) :
    c.here = q.endPos ↔ rest = "" :=
  h.here_splits.eq_endPos_iff

variable {ch : Char}

theorem take (h : c.At before pending (String.singleton ch ++ rest))
    (hne : c.here ≠ q.endPos) :
    (c.take hne).At before (pending ++ String.singleton ch) rest where
  start_splits := by
    rw [String.append_assoc]
    exact h.start_splits
  here_splits := by
    rw [← String.append_assoc]
    exact h.here_splits.next

theorem skip (h : c.At before pending (String.singleton ch ++ rest))
    (hne : c.here ≠ q.endPos) (quoted : Bool) :
    (c.skip hne quoted).At (before ++ pending ++ String.singleton ch) "" rest where
  start_splits := h.here_splits.next
  here_splits := by
    rw [String.append_empty]
    exact h.here_splits.next

theorem toList_flush (h : c.At before pending rest) (done : Array Token) :
    (c.flush done).toList = done.toList ++ flushed c.quoted pending.toList := by
  unfold flush
  rw [h.pending_eq]
  by_cases hp : pending = ""
  · simp [hp, flushed]
  · simp [hp, flushed]

end At

end Cursor

/-! ### The scanner is the machine -/

theorem toList_scan {c : Cursor q} {before pending : String} (cs : List Char)
    (h : c.At before pending (String.ofList cs)) (done : Array Token) :
    (scan c done).toList = done.toList ++ lex c.quoted pending.toList cs := by
  induction cs generalizing c before pending done with
  | nil =>
    have hend : c.here = q.endPos := h.here_eq_endPos_iff.2 rfl
    rw [scan, dif_pos hend, h.toList_flush, lex]
  | cons ch cs ih =>
    rw [String.ofList_cons] at h
    obtain ⟨hne, hget⟩ := get_of_splits h.here_splits
    have htake := ih (h.take hne)
    have hskip := fun quoted => ih (h.skip hne quoted)
    have hflush := h.toList_flush done
    rw [scan, dif_neg hne, lex]
    simp only [hget]
    by_cases hq : ch = '"'
    · -- a quote ends the phrase, or ends what came before it and begins one
      rw [if_pos hq, if_pos hq]
      by_cases hquoted : c.quoted = true
      · rw [if_pos hquoted, if_pos hquoted, hskip]
        simp [h.pending_eq, Cursor.skip]
      · rw [if_neg hquoted, if_neg hquoted, hskip, hflush]
        simp [hquoted, Cursor.skip]
    rw [if_neg hq, if_neg hq]
    -- inside quotes every other character is pending
    by_cases hquoted : c.quoted = true
    · rw [if_pos hquoted, if_pos hquoted, htake]
      simp [Cursor.take]
    rw [if_neg hquoted, if_neg hquoted]
    -- outside, a parenthesis and a blank end a word, and only the first stays
    by_cases hparen : ch = '(' ∨ ch = ')'
    · rw [if_pos hparen, if_pos hparen, hskip]
      simp [hflush, hquoted, Cursor.skip]
    rw [if_neg hparen, if_neg hparen]
    by_cases hblank : Text.isBlank ch = true
    · rw [if_pos hblank, if_pos hblank, hskip, hflush]
      simp [hquoted, Cursor.skip]
    · rw [if_neg hblank, if_neg hblank, htake]
      simp [Cursor.take]

/-- **The scanner by positions is the machine with a buffer.** -/
theorem tokenize_eq_lex (q : String) : tokenize q = lex false [] q.toList := by
  have h : (Cursor.atStart q).At "" "" (String.ofList q.toList) := by
    rw [String.ofList_toList]
    exact Cursor.at_atStart q
  rw [tokenize, toList_scan q.toList h]
  rfl

end SearchQuery.Token
