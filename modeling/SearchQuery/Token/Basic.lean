/-
SearchQuery/Token/Basic.lean

The tokens of a query: a text, and whether it stood in double quotes.

Quoting is a mark beside the text and not part of it.  Most rules look at
the text alone, so a quoted `"OR"` between two operands is an operator and
a quoted `"tag:go"` is a filter; the rules that do look at the mark say so.
-/
import SearchQuery.Text.Caseless
import SearchQuery.Text.Colon

namespace SearchQuery

/-- A token of a query. -/
structure Token where
  text : String
  quoted : Bool
  deriving DecidableEq

namespace Token

/-- A token that stood outside quotes. -/
def word (text : String) : Token := ⟨text, false⟩

/-- A token that stood in quotes. -/
def phrase (text : String) : Token := ⟨text, true⟩

/-! ### What the text of a token says -/

/-- An opening parenthesis. -/
def opens (t : Token) : Bool := t.text == "("

/-- A closing parenthesis. -/
def closes (t : Token) : Bool := t.text == ")"

/-- An operator where an operand is expected: upper case only. -/
def isOperator (t : Token) : Bool := t.text == "AND" || t.text == "OR"

/-- `AND` between two operands, in any case. -/
def joins (t : Token) : Bool := Text.caseless t.text "AND"

/-- `OR` between two operands, in any case. -/
def alternates (t : Token) : Bool := Text.caseless t.text "OR"

/-- The text before the first colon, if there is a colon. -/
def key? (t : Token) : Option String := (Text.cutAtColon t.text).map Prod.fst

end Token

end SearchQuery
