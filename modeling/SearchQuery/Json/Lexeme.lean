/-
SearchQuery/Json/Lexeme.lean

The lexemes of a JSON text.

The text is gone through once, character by character, and the state says
what the characters so far have left open: a bare word, a string, an escape
in a string.  Bare words are judged when they end, so a word is a literal,
a number or an error as a whole.

Blanks are the four of JSON.  Others, and the byte order mark, begin a bare
word, which is then no literal and no number.
-/
import SearchQuery.Json.Basic
import SearchQuery.Json.Surrogate

namespace SearchQuery.Json

/-- A lexeme: a bracket, a mark, or a value without parts. -/
inductive Lexeme where
  | beginArray
  | endArray
  | beginObject
  | endObject
  | comma
  | colon
  | primitive (value : Primitive)
  deriving DecidableEq

namespace Lexeme

/-! ### Classes of characters -/

/-- The blanks between lexemes. -/
def isGap (c : Char) : Bool :=
  c == ' ' || c == '\t' || c == '\n' || c == '\r'

/-- The lexemes of one character. -/
def ofMark? : Char → Option Lexeme
  | '[' => some .beginArray
  | ']' => some .endArray
  | '{' => some .beginObject
  | '}' => some .endObject
  | ',' => some .comma
  | ':' => some .colon
  | _ => none

/-- What a bare word stands for. -/
def ofWord? (word : List Char) : Option Lexeme :=
  if word = ['n', 'u', 'l', 'l'] then some (.primitive .null)
  else if word = ['t', 'r', 'u', 'e'] then some (.primitive (.bool true))
  else if word = ['f', 'a', 'l', 's', 'e'] then some (.primitive (.bool false))
  else if h : isNumber word then some (.primitive (.number ⟨word, h⟩))
  else none

/-- The string of some code points. -/
def ofUnits (units : List Nat) : Lexeme :=
  .primitive (.text ((joinSurrogates? units).map String.ofList))

/-! ### Escapes -/

/-- The character that a backslash and a letter stand for. -/
def ofShortEscape? : Char → Option Char
  | '"' => some '"'
  | '\\' => some '\\'
  | '/' => some '/'
  | 'b' => some '\x08'
  | 'f' => some '\x0c'
  | 'n' => some '\n'
  | 'r' => some '\r'
  | 't' => some '\t'
  | _ => none

/-- The value of a hexadecimal digit, in either case. -/
def hexValue? (c : Char) : Option Nat :=
  if '0' ≤ c ∧ c ≤ '9' then some (c.toNat - '0'.toNat)
  else if 'a' ≤ c ∧ c ≤ 'f' then some (c.toNat - 'a'.toNat + 10)
  else if 'A' ≤ c ∧ c ≤ 'F' then some (c.toNat - 'A'.toNat + 10)
  else none

/-! ### The scanner -/

/-- What is still open.  Characters, code points and lexemes that were read
are held with the last one first. -/
inductive Pending where
  /-- Nothing. -/
  | nothing
  /-- A bare word. -/
  | word (read : List Char)
  /-- A string. -/
  | string (units : List Nat)
  /-- A string whose last character is a backslash. -/
  | escape (units : List Nat)
  /-- A string and an escape in it of which `missing + 1` digits are still
  to come. -/
  | hex (units : List Nat) (value missing : Nat)

/-- A scanner on its way through a text. -/
structure Scan where
  done : List Lexeme := []
  pending : Pending := .nothing

namespace Scan

/-- Put a lexeme behind the others. -/
def push (s : Scan) (l : Lexeme) : Scan :=
  ⟨l :: s.done, .nothing⟩

/-- End a bare word, if there is one. -/
def endWord? (s : Scan) : Option Scan :=
  match s.pending with
  | .word read => (ofWord? read.reverse).map s.push
  | _ => some s

/-- Read a character outside strings. -/
def outside? (s : Scan) (c : Char) : Option Scan :=
  if isGap c then s.endWord?
  else if c = '"' then s.endWord?.map fun s => { s with pending := .string [] }
  else match ofMark? c with
    | some mark => s.endWord?.map fun s => s.push mark
    | none =>
      match s.pending with
      | .word read => some { s with pending := .word (c :: read) }
      | _ => some { s with pending := .word [c] }

/-- Read a character. -/
def step? (s : Scan) (c : Char) : Option Scan :=
  match s.pending with
  | .nothing | .word _ => s.outside? c
  | .string units =>
    if c = '"' then some (s.push (ofUnits units.reverse))
    else if c = '\\' then some { s with pending := .escape units }
    else if c.toNat < 0x20 then none
    else some { s with pending := .string (c.toNat :: units) }
  | .escape units =>
    if c = 'u' then some { s with pending := .hex units 0 3 }
    else (ofShortEscape? c).map fun d => { s with pending := .string (d.toNat :: units) }
  | .hex units value missing =>
    (hexValue? c).map fun digit =>
      let value := 16 * value + digit
      match missing with
      | 0 => { s with pending := .string (value :: units) }
      | missing + 1 => { s with pending := .hex units value missing }

/-- The lexemes at the end of a text, unless a string is open. -/
def finish? (s : Scan) : Option (List Lexeme) :=
  match s.pending with
  | .nothing | .word _ => s.endWord?.map fun s => s.done.reverse
  | _ => none

end Scan

/-- The lexemes of a text. -/
def scan? (cs : List Char) : Option (List Lexeme) :=
  (cs.foldlM Scan.step? {}).bind Scan.finish?

end Lexeme

end SearchQuery.Json
