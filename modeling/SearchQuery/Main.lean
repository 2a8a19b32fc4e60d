/-
SearchQuery/Main.lean

The command itself.

Only what has to happen in the world happens here: files and lines are
read, texts are printed.  What is printed is settled elsewhere, and no words
are given to those who have words of their own (`Wording`), so that usage and
help are empty.  A line is read byte by byte, because whether it is a text is
known only when all of it is there.
-/
import SearchQuery.CommandLine.Run

namespace SearchQuery.CommandLine

/-- Why the system did not let a file be read.  Failures to open a file
bear the negated number of the error. -/
def ReadFailure.ofError (e : IO.Error) : ReadFailure :=
  match e with
  | .noFileOrDirectory .. => .notFound
  | .permissionDenied .. => .denied
  | .inappropriateType _ code _ => if code = -20 then .notDirectory else .isDirectory
  | .invalidArgument _ code _ => if code = -36 then .nameTooLong else .other (toString e)
  | _ => .other (toString e)

/-- Read a file as text. -/
def readFile (path : String) : IO (Except ReadFailure String) := do
  try
    let bytes ← IO.FS.readBinFile path
    match String.fromUTF8? bytes with
    | some text => pure (.ok text)
    | none => pure (.error .notText)
  catch e => pure (.error (.ofError e))

/-- Read on to the end of the line; nothing is read at the end of the
input. -/
partial def readLine (input : IO.FS.Stream) (read : ByteArray) : IO Line := do
  let next ← input.read 1
  let read := read ++ next
  if next.isEmpty || next[0]? == some 0x0A then pure read.toList
  else readLine input read

/-- Answer the lines of the input one by one. -/
partial def serve (s : Settings) (form : Report.Form) (input output : IO.FS.Stream) :
    IO UInt32 := do
  output.putStr prompt
  output.flush
  let line ← readLine input .empty
  let r := if line.isEmpty then Reply.endOfInput else reply s form line
  output.putStr r.shown
  IO.eprint r.complaint
  if r.isLast then
    output.flush
    pure r.code
  else serve s form input output

/-- Leave an outcome behind. -/
def leave (o : Outcome) : IO UInt32 := do
  IO.print o.printed
  IO.eprint o.complaints
  pure o.code

/-- Do what the arguments ask for. -/
def perform (a : Arguments) : IO UInt32 := do
  let file ← match a.config with
    | some path => readFile path
    | none => pure (.error .notFound)
  match settings a fun _ => file with
  | .error f => leave f.outcome
  | .ok s =>
    match a.query with
    | some text => leave (answer s a.form text)
    | none => serve s a.form (← IO.getStdin) (← IO.getStdout)

end SearchQuery.CommandLine

open SearchQuery.CommandLine in
/-- Answer one query, or the queries of the input. -/
def main (arguments : List String) : IO UInt32 :=
  match Arguments.read? arguments with
  | none => leave (misuse arguments)
  | some .help => leave (helped arguments)
  | some (.run a) => perform a
