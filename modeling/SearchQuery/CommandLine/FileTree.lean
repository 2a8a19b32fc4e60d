/-
SearchQuery/CommandLine/FileTree.lean

A tree of files held in memory, and how a path is followed in it.

A location is the list of the names that lead to it from the root.  Only
the files and the directories that would otherwise be empty are held: that
something lies below a location makes it a directory.

A path is followed one part at a time, and every part asks again what lies
where the last one led to.  Nothing is shortened beforehand, so a path
that leaves a place again still needs that place to be there:
`missing/../settings` leads nowhere, and no path goes on behind a file, so
`settings/..` does not lead to where the file `settings` lies.  The first
part that cannot be followed decides what is reported.
-/
import SearchQuery.CommandLine.Failure

namespace SearchQuery.CommandLine

/-- The names that lead from the root to a file or directory. -/
abbrev Location := List String

/-- The files that there are, and where the user stands among them. -/
structure FileTree where
  files : List (Location × String) := []
  /-- Directories, whether or not anything lies below them. -/
  directories : List Location := []
  /-- Where paths begin that do not begin at the root. -/
  here : Location := []

/-- What lies at a location. -/
inductive Entry where
  | file (text : String)
  | directory
  deriving DecidableEq

namespace FileTree

/-- The most bytes that a name can have. -/
def longestName : Nat := 255

/-- The most bytes that a path can have. -/
def longestPath : Nat := 4095

/-- The parts of a path, between its slashes. -/
def parts (path : String) : List String :=
  (path.toList.splitOn '/').map String.ofList

/-- What lies at a location, if anything does. -/
def entry? (t : FileTree) (l : Location) : Option Entry :=
  match t.files.lookup l with
  | some text => some (.file text)
  | none =>
    if (t.here :: t.directories ++ t.files.map Prod.fst).any l.isPrefixOf then some .directory
    else none

/-- The text that the parts of a path lead to. -/
def follow (t : FileTree) (l : Location) : List String → Except ReadFailure String
  | [] =>
    match t.entry? l with
    | none => .error .notFound
    | some .directory => .error .isDirectory
    | some (.file text) => .ok text
  | part :: rest =>
    match t.entry? l with
    | none => .error .notFound
    | some (.file _) => .error .notDirectory
    | some .directory =>
      if part = "" ∨ part = "." then t.follow l rest
      else if part = ".." then t.follow l.dropLast rest
      else if longestName < part.utf8ByteSize then .error .nameTooLong
      else t.follow (l ++ [part]) rest

/-- The text of the file that a path names. -/
def read (t : FileTree) (path : String) : Except ReadFailure String :=
  if path.toList.contains '\x00' then .error .nulInName
  else if path.isEmpty then .error .notFound
  else if longestPath < path.utf8ByteSize then .error .nameTooLong
  else t.follow (if path.toList.head? = some '/' then [] else t.here) (parts path)

end FileTree

end SearchQuery.CommandLine
