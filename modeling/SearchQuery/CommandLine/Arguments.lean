/-
SearchQuery/CommandLine/Arguments.lean

The arguments of the command.

Arguments are read from left to right, and the first that is out of place
decides.  The value of an option stands behind an equals sign or in the
next argument.  The next argument is no value if it begins with a dash, so
that a forgotten value does not swallow an option; a dash alone is one.
After `--` nothing is an option any more.
-/
import SearchQuery.Report

namespace SearchQuery.CommandLine

/-- What the command is asked to do. -/
structure Arguments where
  /-- Keys to allow besides those of the settings. -/
  allow : List String := []
  /-- Default orderings besides those of the settings. -/
  defaultSort : List String := []
  /-- The file that holds the settings. -/
  config : Option String := none
  form : Report.Form := .text
  /-- The query, unless queries are read from the input. -/
  query : Option String := none
  deriving DecidableEq

/-- What a list of arguments asks for. -/
inductive Request where
  | run (arguments : Arguments)
  | help
  deriving DecidableEq

namespace Arguments

/-! ### Options -/

/-- The options that have a value. -/
inductive Valued where
  | allow
  | defaultSort
  | config
  deriving DecidableEq

/-- What an argument is. -/
inductive Kind where
  /-- An option with its value. -/
  | valued (option : Valued) (value : String)
  /-- An option whose value is the next argument. -/
  | awaiting (option : Valued)
  | json
  | help
  /-- The end of the options. -/
  | endOfOptions
  | positional
  | unknown
  deriving DecidableEq

/-- The option of a name, if it is one that has a value. -/
def valued? (name : List Char) : Option Valued :=
  match String.ofList name with
  | "allow" => some .allow
  | "default-sort" => some .defaultSort
  | "config" => some .config
  | _ => none

/-- What an argument is, as long as options are looked for. -/
def kind (argument : String) : Kind :=
  match argument.toList with
  | ['-', '-'] => .endOfOptions
  | '-' :: '-' :: name =>
    match name.dropWhile (· != '=') with
    | _ :: value =>
      match valued? (name.takeWhile (· != '=')) with
      | some option => .valued option (String.ofList value)
      | none => .unknown
    | [] =>
      match valued? name with
      | some option => .awaiting option
      | none =>
        if String.ofList name = "json" then .json
        else if String.ofList name = "help" then .help
        else .unknown
  | '-' :: 'h' :: _ => .help
  | '-' :: _ :: _ => .unknown
  | _ => .positional

/-- Whether an argument can be the value of the option before it. -/
def isValue (argument : String) : Bool :=
  match argument.toList with
  | '-' :: _ :: _ => false
  | _ => true

/-! ### Reading -/

/-- Give an option its value.  There is one file at most, and its name is not
empty. -/
def set? (a : Arguments) (value : String) : Valued → Option Arguments
  | .allow => some { a with allow := a.allow ++ [value] }
  | .defaultSort => some { a with defaultSort := a.defaultSort ++ [value] }
  | .config =>
    if a.config.isSome || value.isEmpty then none else some { a with config := some value }

/-- Ask for the form for programs, which can be done once. -/
def setJson? (a : Arguments) : Option Arguments :=
  if a.form = .json then none else some { a with form := .json }

/-- Give the query, which can be done once. -/
def setQuery? (a : Arguments) (text : String) : Option Arguments :=
  if a.query.isSome then none else some { a with query := some text }

/-- Read arguments; nothing if one is out of place. -/
def readOn? (a : Arguments) : List String → Option Request
  | [] => some (.run a)
  | argument :: rest =>
    match kind argument with
    | .valued option value => do readOn? (← a.set? value option) rest
    | .awaiting option =>
      match rest with
      | value :: rest => do
        guard (isValue value)
        readOn? (← a.set? value option) rest
      | [] => none
    | .json => do readOn? (← a.setJson?) rest
    | .help => some .help
    | .endOfOptions => (rest.foldlM setQuery? a).map .run
    | .positional => do readOn? (← a.setQuery? argument) rest
    | .unknown => none

/-- Read a list of arguments. -/
def read? (arguments : List String) : Option Request :=
  readOn? {} arguments

end Arguments

end SearchQuery.CommandLine
