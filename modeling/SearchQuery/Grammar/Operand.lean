/-
SearchQuery/Grammar/Operand.lean

The operands of a query.

The first token of an operand says what it is, and the tests come in this
order: an operator in upper case is stray and stands for nothing; `(`
begins a group; a text with a colon is a filter if its key is allowed, and
otherwise stands as it is; a quoted token is a phrase; any other token
begins a run of words.  Only the last two look at the quoting, and a `)`
is a word like any other here.

Operands without text are dropped: an empty phrase, a filter without a
value.  A filter that is dropped still counts as a use of its key.

The rules for groups are left open: `inside` reads a group whose `(` has
been seen but not taken, given the tokens behind it.
-/
import SearchQuery.Expr.Basic
import SearchQuery.Grammar.Reading
import SearchQuery.Text.Blank
import SearchQuery.Token.Basic

namespace SearchQuery.Grammar

variable (allowed : String → Bool)

/-! ### Texts and filters -/

/-- Free text without the blanks around it, unless nothing is left. -/
def freeText? (text : String) : Option Expr :=
  (Text.trimmed? text).map .value

/-- The filter that asks `key` for `text`, unless the text is blank. -/
def filterOn? (key text : String) : Option Expr :=
  (Text.trimmed? text).map fun value => .filter ⟨key, value⟩

/-- A filter on `key` with `argument` behind the colon and the tokens `ts`
behind that.  A blank argument gives way to the next token, if quoted. -/
def filter (key argument : String) (ts : List Token) : Reading (Option Expr) :=
  match filterOn? key argument, ts with
  | none, t :: _ =>
    if t.quoted then .take [.filter key, .argument] (filterOn? key t.text)
    else .take [.filter key] none
  | operand?, _ => .take [.filter key] operand?

theorem filter_of_some {key argument : String} {e : Expr}
    (h : filterOn? key argument = some e) (ts : List Token) :
    filter key argument ts = .take [.filter key] (some e) := by
  unfold filter
  rw [h]

theorem filter_nil (key argument : String) :
    filter key argument [] = .take [.filter key] (filterOn? key argument) := by
  unfold filter
  split
  · rename_i h
    cases h
  · rfl

theorem filter_cons_of_none {key argument : String} (h : filterOn? key argument = none)
    (t : Token) (ts : List Token) :
    filter key argument (t :: ts)
      = if t.quoted then .take [.filter key, .argument] (filterOn? key t.text)
        else .take [.filter key] none := by
  unfold filter
  rw [h]

/-! ### Runs of words -/

/-- Whether a run of words goes on with a token: not with a quoted one, not
with a parenthesis or an operator, not with a filter. -/
def continuesRun (t : Token) : Bool :=
  !t.quoted && !t.opens && !t.closes && !t.isOperator && !t.key?.any allowed

/-- The text of words: one space between each two. -/
def joinWords (words : List Token) : String :=
  " ".intercalate (words.map Token.text)

/-- A run of words that begins with `t`. -/
def run (t : Token) (ts : List Token) : Reading (Option Expr) :=
  let words := t :: ts.takeWhile (continuesRun allowed)
  .take (words.map fun _ => .word) (freeText? (joinWords words))

/-! ### Operands -/

/-- The operand that begins with `t` and may go on in the tokens `ts`. -/
def operand (inside : List Token → Reading (Option Expr)) (t : Token) (ts : List Token) :
    Reading (Option Expr) :=
  if t.isOperator then .take [.stray] none
  else if t.opens then inside ts
  else match Text.cutAtColon t.text with
    | some (key, argument) =>
      if allowed key then filter key argument ts
      else .take [.literal] (some (.value t.text))
    | none =>
      if t.quoted then .take [.phrase] (freeText? t.text)
      else run allowed t ts

end SearchQuery.Grammar
