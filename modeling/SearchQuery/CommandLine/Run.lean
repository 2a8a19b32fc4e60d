/-
SearchQuery/CommandLine/Run.lean

A run of the command, from its arguments, the files and the input to what
it prints and the code it ends with.

Not every text that a run prints is the command's own.  How arguments are
to be used, and what is wrong with a file that holds no settings, is said by
the readers of arguments and of JSON, in words of theirs (`Wording`).
-/
import SearchQuery.CommandLine.Arguments
import SearchQuery.CommandLine.Prompt

namespace SearchQuery.CommandLine

/-- What a run leaves behind. -/
structure Outcome where
  code : UInt32 := 0
  printed : String := ""
  complaints : String := ""
  deriving DecidableEq

/-- A run that a failure ended before anything was printed. -/
def Failure.outcome (f : Failure) : Outcome :=
  { code := 1, complaints := f.message }

/-- The words of those who read arguments and settings for the command.  They
say nothing unless they are given words. -/
structure Wording where
  /-- What is said about arguments of which one is out of place. -/
  usage : List String → String := fun _ => ""
  /-- The help for arguments that ask for it. -/
  help : List String → String := fun _ => ""
  /-- What is wrong with a text that holds no settings, in one line. -/
  flaw : String → Option String := fun _ => none

/-- A run that the arguments kept from beginning. -/
def misuse (arguments : List String) (wording : Wording := {}) : Outcome :=
  { code := 2, complaints := wording.usage arguments }

/-- A run that only helps. -/
def helped (arguments : List String) (wording : Wording := {}) : Outcome :=
  { printed := wording.help arguments }

/-- How a file is read. -/
abbrev Files := String → Except ReadFailure String

/-- The settings of a run: those of the file, if one is named, and those of
the options behind them. -/
def settings (a : Arguments) (read : Files) (wording : Wording := {}) :
    Except Failure Settings := do
  let base ← match a.config with
    | none => pure {}
    | some file =>
      match read file with
      | .error why => throw (.unreadableSettings file why)
      | .ok text =>
        match Settings.read? text with
        | none => throw (.malformedSettings file (wording.flaw text))
        | some s => pure s
  pure (base.extend a.allow a.defaultSort)

/-- Answer the query of the command line. -/
def answer (s : Settings) (form : Report.Form) (text : String) : Outcome :=
  match s.compile text with
  | .ok q => { printed := Report.write s q form ++ "\n" }
  | .error why => (Failure.malformedQuery why).outcome

/-- Answer the queries of the input. -/
def converse (s : Settings) (form : Report.Form) (input : List UInt8) : Outcome :=
  let rs := replies s form (lines input)
  { code := (rs.getLast?.map Reply.code).getD 0
    printed := String.join (rs.map fun r => prompt ++ r.shown)
    complaints := String.join (rs.map Reply.complaint) }

/-- A run with the arguments that were given. -/
def runWith (a : Arguments) (read : Files) (input : List UInt8) (wording : Wording := {}) :
    Outcome :=
  match settings a read wording with
  | .error f => f.outcome
  | .ok s =>
    match a.query with
    | some text => answer s a.form text
    | none => converse s a.form input

/-- A run of the command. -/
def run (arguments : List String) (read : Files) (input : List UInt8)
    (wording : Wording := {}) : Outcome :=
  match Arguments.read? arguments with
  | none => misuse arguments wording
  | some .help => helped arguments wording
  | some (.run a) => runWith a read input wording

end SearchQuery.CommandLine
