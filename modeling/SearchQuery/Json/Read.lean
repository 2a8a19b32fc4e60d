/-
SearchQuery/Json/Read.lean

Reading JSON.

The lexemes of a text are put together from left to right.  Arrays and
objects that are still open wait on a stack, so the depth of a text is
bounded by nothing but its length.  Only lexemes that may come next are
taken: no comma stands in front of a closing bracket, and nothing follows
the value.
-/
import SearchQuery.Json.Lexeme

namespace SearchQuery.Json

/-- An array or an object that waits for a value.  What it has so far is
held with the last part first. -/
inductive Open where
  | array (items : List Json)
  | object (members : List (Text × Json)) (name : Text)

/-- What has been read, and so what may come next. -/
inductive Progress where
  /-- A value comes next, or, if the array on top has just been opened, its
  end. -/
  | value (stack : List Open) (opened : Bool)
  /-- The name of a member comes next, or, if the object has just been
  opened, its end. -/
  | name (stack : List Open) (members : List (Text × Json)) (opened : Bool)
  /-- The colon of a member comes next. -/
  | colon (stack : List Open) (members : List (Text × Json)) (name : Text)
  /-- A value has been read. -/
  | after (stack : List Open) (value : Json)

namespace Progress

/-- Read a lexeme. -/
def step? : Progress → Lexeme → Option Progress
  | .value stack _, .primitive v => some (.after stack (.primitive v))
  | .value stack _, .beginArray => some (.value (.array [] :: stack) true)
  | .value stack _, .beginObject => some (.name stack [] true)
  | .value (.array items :: stack) true, .endArray =>
    some (.after stack (.array items.reverse))
  | .name stack members _, .primitive (.text text) => some (.colon stack members text)
  | .name stack members true, .endObject =>
    some (.after stack (.object members.reverse))
  | .colon stack members text, .colon =>
    some (.value (.object members text :: stack) false)
  | .after (.array items :: stack) v, .comma =>
    some (.value (.array (v :: items) :: stack) false)
  | .after (.array items :: stack) v, .endArray =>
    some (.after stack (.array (v :: items).reverse))
  | .after (.object members text :: stack) v, .comma =>
    some (.name stack ((text, v) :: members) false)
  | .after (.object members text :: stack) v, .endObject =>
    some (.after stack (.object ((text, v) :: members).reverse))
  | _, _ => none

/-- The value at the end of a text, unless something is open. -/
def finish? : Progress → Option Json
  | .after [] v => some v
  | _ => none

end Progress

/-- The value that lexemes make up. -/
def ofLexemes? (ls : List Lexeme) : Option Json :=
  (ls.foldlM Progress.step? (.value [] false)).bind Progress.finish?

/-- Read a text as one value with nothing but blanks around it. -/
def read? (text : String) : Option Json :=
  (Lexeme.scan? text.toList).bind ofLexemes?

end SearchQuery.Json
