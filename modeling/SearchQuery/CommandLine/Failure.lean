/-
SearchQuery/CommandLine/Failure.lean

What ends a run early, and what the user is then told.
-/
import SearchQuery.Grammar.Reading

namespace SearchQuery.CommandLine

/-- Why a file cannot be read as text. -/
inductive ReadFailure where
  | notFound
  /-- Reading it is not permitted. -/
  | denied
  /-- The path goes on behind a file. -/
  | notDirectory
  | isDirectory
  | nameTooLong
  /-- No file has the character U+0000 in its name. -/
  | nulInName
  | notText
  /-- Any other reason, in the words of the system. -/
  | other (reason : String)
  deriving DecidableEq

/-- The reason in words. -/
def ReadFailure.message : ReadFailure → String
  | .notFound => "No such file or directory (os error 2)"
  | .denied => "Permission denied (os error 13)"
  | .notDirectory => "Not a directory (os error 20)"
  | .isDirectory => "Is a directory (os error 21)"
  | .nameTooLong => "File name too long (os error 36)"
  | .nulInName => "file name contained an unexpected NUL byte"
  | .notText => "stream did not contain valid UTF-8"
  | .other reason => reason

/-- What ends a run early. -/
inductive Failure where
  /-- The settings cannot be read. -/
  | unreadableSettings (file : String) (why : ReadFailure)
  /-- The file holds no settings.  Why it does not is told in the words of the
  reader, if they are known. -/
  | malformedSettings (file : String) (why : Option String)
  /-- The query on the command line cannot be compiled. -/
  | malformedQuery (why : ParseError)
  /-- The input is no text. -/
  | unreadableInput
  deriving DecidableEq

namespace Failure

/-- What went wrong, and its cause if there is one to tell. -/
def parts : Failure → String × Option String
  | .unreadableSettings file why => ("Failed to read config " ++ file, some why.message)
  | .malformedSettings file why => ("Failed to parse config " ++ file, why)
  | .malformedQuery why => ("Failed to parse query", some why.message)
  | .unreadableInput => ("Failed to read stdin", some ReadFailure.notText.message)

/-- What the user is told. -/
def message (f : Failure) : String :=
  "Error: " ++ f.parts.1 ++ "\n"
    ++ match f.parts.2 with
      | some cause => "\nCaused by:\n    " ++ cause ++ "\n"
      | none => ""

theorem message_of_cause {f : Failure} {what cause : String} (h : f.parts = (what, some cause)) :
    f.message = "Error: " ++ what ++ "\n\nCaused by:\n    " ++ cause ++ "\n" := by
  have hwords : "\n\nCaused by:\n    " = "\n" ++ "\nCaused by:\n    " := by decide +kernel
  simp only [message, h, hwords, String.append_assoc]

theorem message_malformedQuery (why : ParseError) :
    (malformedQuery why).message =
      "Error: Failed to parse query\n\nCaused by:\n    " ++ why.message ++ "\n" := by
  have hwords : "Error: Failed to parse query\n\nCaused by:\n    "
      = "Error: " ++ "Failed to parse query" ++ "\n\nCaused by:\n    " := by
    decide +kernel
  rw [message_of_cause rfl, hwords]

theorem message_unreadableSettings (file : String) (why : ReadFailure) :
    (unreadableSettings file why).message =
      "Error: Failed to read config " ++ file ++ "\n\nCaused by:\n    " ++ why.message
        ++ "\n" := by
  have hwords : "Error: Failed to read config " = "Error: " ++ "Failed to read config " := by
    decide +kernel
  rw [message_of_cause rfl, hwords]
  simp only [String.append_assoc]

theorem message_malformedSettings (file : String) (why : Option String) :
    (malformedSettings file why).message =
      "Error: Failed to parse config " ++ file ++ "\n"
        ++ (why.map fun cause => "\nCaused by:\n    " ++ cause ++ "\n").getD "" := by
  have hwords : "Error: Failed to parse config " = "Error: " ++ "Failed to parse config " := by
    decide +kernel
  have hfile : "Error: Failed to parse config " ++ file
      = "Error: " ++ ("Failed to parse config " ++ file) := by
    rw [hwords, String.append_assoc]
  rw [hfile]
  cases why with
  | none => rfl
  | some cause => rfl

end Failure

end SearchQuery.CommandLine
