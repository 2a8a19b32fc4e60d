/-
SearchQuery/Directive.lean

Sort directives: the tokens that say how results are ordered.

A directive is an unquoted token whose text before the first colon is
`sort`, in any case; what follows the colon is its argument.  A directive
with a blank argument takes the token right behind it for its argument,
if that token is quoted.  Directives may stand anywhere in a query, inside
groups too, and leave no trace in the tokens that are kept.

The tokens are gone through once.  All that one token hands on to the next
is whether the directive before it still waits for its argument, so two
lists of tokens can be gone through one after the other.
-/
import SearchQuery.Text.Blank
import SearchQuery.Token.Basic

namespace SearchQuery

/-- The argument of a directive; nothing for any other token. -/
def Token.directive? (t : Token) : Option String :=
  if t.quoted then none
  else match Text.cutAtColon t.text with
    | some (key, argument) => if Text.caseless key "sort" then some argument else none
    | none => none

/-- Tokens sorted into those kept and the orderings asked for. -/
structure Sorting where
  kept : Array Token := #[]
  sort : Array String := #[]
  /-- Whether the last token was a directive that still has no argument. -/
  waiting : Bool := false

namespace Sorting

/-- The ordering that `argument` asks for; a blank one asks for none. -/
def ask (s : Sorting) (argument : String) : Sorting :=
  match Text.trimmed? argument with
  | some ordering => { s with sort := s.sort.push ordering, waiting := false }
  | none => { s with waiting := false }

/-- Go past one token. -/
def step (s : Sorting) (t : Token) : Sorting :=
  if s.waiting && t.quoted then s.ask t.text
  else match t.directive? with
    | none => { s with kept := s.kept.push t, waiting := false }
    | some argument =>
      { s.ask argument with waiting := (Text.trimmed? argument).isNone }

end Sorting

/-- Take the directives out of a list of tokens: the tokens kept and the
orderings asked for, each in order. -/
def extractSort (tokens : List Token) : List Token × List String :=
  let s := tokens.foldl Sorting.step {}
  (s.kept.toList, s.sort.toList)

end SearchQuery
