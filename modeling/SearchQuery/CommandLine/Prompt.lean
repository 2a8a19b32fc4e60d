/-
SearchQuery/CommandLine/Prompt.lean

Queries from the input, one on a line.

The input is bytes.  It is cut into lines first, each line is decoded on
its own, and the reply to a line depends on that line alone.  A line that
is no text ends the run when its turn comes and not before; what comes
after the last line that is answered is never looked at.
-/
import SearchQuery.CommandLine.Failure
import SearchQuery.Report

namespace SearchQuery.CommandLine

/-! ### Lines -/

/-- A line as it stands in the input. -/
abbrev Line := List UInt8

/-- The lines of an input.  A line ends behind a line feed or where the
input ends, so none is empty. -/
def lines : List UInt8 → List Line
  | [] => []
  | b :: bs =>
    if b = 0x0A then [b] :: lines bs
    else match lines bs with
      | [] => [[b]]
      | line :: rest => (b :: line) :: rest

/-- The text of a line, if it is one. -/
def Line.text? (line : Line) : Option String :=
  String.fromUTF8? ⟨line.toArray⟩

/-! ### Replies -/

/-- What a prompt is answered with. -/
inductive Reply where
  /-- The line was blank. -/
  | silence
  /-- The report on a query. -/
  | report (text : String)
  /-- The query could not be compiled. -/
  | problem (why : ParseError)
  /-- The user said good-bye. -/
  | farewell
  /-- The line is no text. -/
  | unreadable
  /-- There is no line any more. -/
  | endOfInput
  deriving DecidableEq

namespace Reply

/-- Whether a reply is the last one. -/
def isLast : Reply → Bool
  | .farewell | .unreadable | .endOfInput => true
  | .silence | .report _ | .problem _ => false

/-- What is printed with a reply. -/
def shown : Reply → String
  | .report text => text ++ "\n"
  | _ => ""

/-- What is said about problems with a reply. -/
def complaint : Reply → String
  | .problem why => "Failed to parse: " ++ why.message ++ "\n"
  | .unreadable => Failure.unreadableInput.message
  | _ => ""

/-- The exit code of a run that ends with a reply. -/
def code : Reply → UInt32
  | .unreadable => 1
  | _ => 0

end Reply

variable (s : Settings) (form : Report.Form)

/-- The reply to a text without blanks at its ends. -/
def replyToText (text : String) : Reply :=
  if text.isEmpty then .silence
  else if text = "/bye" then .farewell
  else match s.compile text with
    | .ok q => .report (Report.write s q form)
    | .error why => .problem why

/-- The reply to a line. -/
def reply (line : Line) : Reply :=
  match line.text? with
  | some text => replyToText s form (Text.trim text)
  | none => .unreadable

/-- The replies to lines, up to the last. -/
def replies : List Line → List Reply
  | [] => [.endOfInput]
  | line :: rest =>
    let r := reply s form line
    if r.isLast then [r] else r :: replies rest

/-! ### The prompt -/

/-- What asks for a line. -/
def prompt : String := "> "

end SearchQuery.CommandLine
