/-
SearchQuery/Settings.lean

The settings of a page: the keys that it allows as filters, and how its
results are ordered when a query does not say so.

Settings are written as a JSON object with two members.  A reader takes the
members in either order, takes a missing one for an empty list, and passes
over members with other names; a repeated member, or one that is no list
of texts, is an error.  An array of the two lists is read as well, and
there, too, lists may be missing at the end.
-/
import SearchQuery.Json.Read
import SearchQuery.Json.Write
import SearchQuery.Query

namespace SearchQuery

/-- The settings of a page. -/
structure Settings where
  allowedFilters : List String := []
  defaultSort : List String := []
  deriving DecidableEq

namespace Settings

/-! ### Queries -/

/-- Compile a query with the allowed keys. -/
def compile (s : Settings) (text : String) : Except ParseError Query :=
  Query.compile s.allowedFilters text

/-- The order of results where nothing else is asked for. -/
def newestFirst : String := "created_at desc"

/-- The orderings for a query: its own, else those of the settings, else the
newest first. -/
def orderBy (s : Settings) (q : Query) : List String :=
  if !q.sort.isEmpty then q.sort
  else if !s.defaultSort.isEmpty then s.defaultSort
  else [newestFirst]

/-- Allow more keys and add to the default orderings. -/
def extend (s : Settings) (allowed sort : List String) : Settings :=
  ⟨s.allowedFilters ++ allowed, s.defaultSort ++ sort⟩

/-! ### Written form -/

/-- Settings as a JSON value. -/
def toJson (s : Settings) : Json :=
  .object [
    (some "allowed_filters", .ofStrings s.allowedFilters),
    (some "default_sort", .ofStrings s.defaultSort)]

/-- The list that members have under a name. -/
def member? (name : String) (members : List (Json.Text × Json)) : Option (List String) :=
  match members.filter (·.1 == some name) with
  | [] => some []
  | [m] => m.2.strings?
  | _ => none

/-- The settings that a JSON value stands for. -/
def ofJson? : Json → Option Settings
  | .object members => do
    guard (members.all (·.1.isSome))
    let allowed ← member? "allowed_filters" members
    let sort ← member? "default_sort" members
    pure ⟨allowed, sort⟩
  | .array [] => some {}
  | .array [allowed] => do
    pure ⟨← allowed.strings?, []⟩
  | .array [allowed, sort] => do
    pure ⟨← allowed.strings?, ← sort.strings?⟩
  | _ => none

/-- Settings in their written form. -/
def write (s : Settings) : String :=
  s.toJson.write .compact

/-- Read settings. -/
def read? (text : String) : Option Settings :=
  (Json.read? text).bind ofJson?

end Settings

end SearchQuery
