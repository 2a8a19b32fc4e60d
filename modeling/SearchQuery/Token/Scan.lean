/-
SearchQuery/Token/Scan.lean

Cutting a query into tokens.

Only quotes, blanks and parentheses matter here; operators, filters and
directives are recognised later, from the texts of the tokens.

The scanner walks over the positions of the query and remembers where the
pending text began, so a token is one slice of the query and no text is
built up character by character.  Positions lie between whole characters
by their type, so a slice cannot cut a character in two; that the pending
text begins no later than the scanner stands is kept with the cursor
(`Cursor.start_le_here`).

An unclosed quote is no error: what follows it is the last token.
-/
import SearchQuery.Text.Blank
import SearchQuery.Token.Basic

namespace SearchQuery.Token

variable {q : String}

/-! ### The cursor -/

/-- A scanner on its way through the query `q`. -/
structure Cursor (q : String) where
  /-- Where the pending text begins. -/
  start : q.Pos
  /-- The position before the next character. -/
  here : q.Pos
  /-- Whether a quote is open. -/
  quoted : Bool
  start_le_here : start ≤ here

namespace Cursor

/-- In front of the query, outside quotes. -/
def atStart (q : String) : Cursor q :=
  ⟨q.startPos, q.startPos, false, String.Pos.le_refl _⟩

/-- The text read since the last token. -/
def pending (c : Cursor q) : String :=
  q.extract c.start c.here

/-- The tokens with the pending text behind them, unless it is empty. -/
def flush (c : Cursor q) (done : Array Token) : Array Token :=
  let text := c.pending
  if text.isEmpty then done else done.push ⟨text, c.quoted⟩

variable (c : Cursor q) (h : c.here ≠ q.endPos)

/-- Take the next character into the pending text. -/
def take : Cursor q :=
  { c with
    here := c.here.next h
    start_le_here := String.Pos.le_trans c.start_le_here String.Pos.le_next }

/-- Go past the next character and start afresh behind it. -/
def skip (quoted : Bool) : Cursor q :=
  ⟨c.here.next h, c.here.next h, quoted, String.Pos.le_refl _⟩

end Cursor

/-! ### The scanner -/

/-- The tokens `done` and those from the cursor on.  A quote changes sides:
the one that closes gives a token even of no text, the one that opens ends
the pending word.  Outside quotes a parenthesis is a token of its own, and
a blank only separates. -/
def scan (c : Cursor q) (done : Array Token) : Array Token :=
  if h : c.here = q.endPos then c.flush done
  else
    let next := c.here.get h
    if next = '"' then
      if c.quoted then scan (c.skip h false) (done.push (phrase c.pending))
      else scan (c.skip h true) (c.flush done)
    else if c.quoted then scan (c.take h) done
    else if next = '(' ∨ next = ')' then
      scan (c.skip h false) ((c.flush done).push (word (String.singleton next)))
    else if Text.isBlank next then scan (c.skip h false) (c.flush done)
    else scan (c.take h) done
termination_by c.here
decreasing_by all_goals exact String.Pos.lt_next (h := h)

end SearchQuery.Token

namespace SearchQuery

/-- The tokens of a query, left to right. -/
def tokenize (q : String) : List Token :=
  (Token.scan (Token.Cursor.atStart q) #[]).toList

end SearchQuery
