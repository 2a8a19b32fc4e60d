/-
SearchQuery/Json/Basic.lean

JSON values.

Objects keep their members in order, repeated names included; what to make
of a repeated name is left to those who read the object.

A string is held as the text that it spells.  Escapes can also spell what
is no text, half of a surrogate pair; such a string is `none`.  It is good
enough for a value that nobody looks at.
-/
import SearchQuery.Json.Number

namespace SearchQuery

/-- What a string spells, if that is a text. -/
abbrev Json.Text := Option String

/-- A value without parts. -/
inductive Json.Primitive where
  | null
  | bool (value : Bool)
  | number (value : Number)
  | text (value : Text)
  deriving DecidableEq

/-- A JSON value. -/
inductive Json where
  | primitive (value : Json.Primitive)
  | array (items : List Json)
  | object (members : List (Json.Text × Json))

namespace Json

/-- The string that spells a text. -/
def ofString (s : String) : Json :=
  .primitive (.text (some s))

/-- An array of strings. -/
def ofStrings (ss : List String) : Json :=
  .array (ss.map ofString)

/-- The text of a string. -/
def string? : Json → Option String
  | .primitive (.text value) => value
  | _ => none

/-- The texts of an array of strings. -/
def strings? : Json → Option (List String)
  | .array items => items.mapM string?
  | _ => none

end Json

end SearchQuery
