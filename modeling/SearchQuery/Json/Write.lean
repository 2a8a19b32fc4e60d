/-
SearchQuery/Json/Write.lean

Writing JSON.

One writer serves both layouts.  A layout says what stands between the
parts of an array or an object at a given depth; the compact layout puts
nothing there, the indented one a line break and two spaces for each level.
Arrays and objects without parts have nothing to lay out.

In a string, quotes, backslashes and the characters below U+0020 are
escaped, and no others: those with a short escape get it, the rest get four
hexadecimal digits in lower case.
-/
import SearchQuery.Json.Basic

namespace SearchQuery.Json

/-! ### Strings -/

/-- The written form of one character of a string. -/
def escape (c : Char) : List Char :=
  if c = '"' then ['\\', '"']
  else if c = '\\' then ['\\', '\\']
  else if c = '\x08' then ['\\', 'b']
  else if c = '\x0c' then ['\\', 'f']
  else if c = '\n' then ['\\', 'n']
  else if c = '\r' then ['\\', 'r']
  else if c = '\t' then ['\\', 't']
  else if c.toNat < 0x20 then
    ['\\', 'u', '0', '0', Nat.digitChar (c.toNat / 16), Nat.digitChar (c.toNat % 16)]
  else [c]

/-- A string between its quotes.  One that spells no text is written as the
shortest such string. -/
def Text.write : Text → String
  | some s => "\"" ++ String.ofList (s.toList.flatMap escape) ++ "\""
  | none => "\"\\ud800\""

/-- The written form of a value without parts. -/
def Primitive.write : Primitive → String
  | .null => "null"
  | .bool true => "true"
  | .bool false => "false"
  | .number value => String.ofList value.written
  | .text value => value.write

/-! ### Layouts -/

/-- What is written between the lexemes of a value. -/
structure Layout where
  /-- In front of a part or of the closing bracket, at a depth. -/
  line : Nat → String
  /-- Between the colon of a member and its value. -/
  afterColon : String

/-- Nothing between lexemes. -/
def Layout.compact : Layout where
  line _ := ""
  afterColon := ""

/-- Each part on a line of its own, indented by two spaces a level. -/
def Layout.indented : Layout where
  line depth := "\n" ++ String.ofList (List.replicate (2 * depth) ' ')
  afterColon := " "

/-! ### Values -/

variable (layout : Layout)

/-- Parts in brackets with commas between them. -/
def enclose (opening closing : String) (depth : Nat) : List String → String
  | [] => opening ++ closing
  | parts =>
    opening ++ layout.line (depth + 1)
      ++ ("," ++ layout.line (depth + 1)).intercalate parts
      ++ layout.line depth ++ closing

mutual

/-- The written form of a value at a depth. -/
def writeAt (depth : Nat) : Json → String
  | .primitive value => value.write
  | .array items => enclose layout "[" "]" depth (writeItems (depth + 1) items)
  | .object members =>
    enclose layout "\x7b" "\x7d" depth (writeMembers (depth + 1) members)

/-- The written forms of the items of an array. -/
def writeItems (depth : Nat) : List Json → List String
  | [] => []
  | item :: items => writeAt depth item :: writeItems depth items

/-- The written forms of the members of an object. -/
def writeMembers (depth : Nat) : List (Text × Json) → List String
  | [] => []
  | (name, value) :: members =>
    (name.write ++ ":" ++ layout.afterColon ++ writeAt depth value)
      :: writeMembers depth members

end

/-- The written form of a value. -/
def write (j : Json) : String :=
  writeAt layout 0 j

end SearchQuery.Json
