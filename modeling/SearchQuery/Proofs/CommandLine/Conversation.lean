/-
SearchQuery/Proofs/CommandLine/Conversation.lean

A conversation, line by line.

What a line is answered with depends on nothing but the line and the settings
(`Line.answer`), and a line that says good-bye or is no text is the last one
that is looked at (`Line.isLast`).  `transcript` puts a conversation together
from these: it is what the prompt leaves behind (`converse_eq_transcript`), so
no line has an influence on a later one.
-/
import SearchQuery.CommandLine.Run
import SearchQuery.Proofs.CommandLine.Lines
import SearchQuery.Proofs.Query.Compile
import SearchQuery.Proofs.Text.Utf8

namespace SearchQuery.CommandLine

variable (s : Settings) (form : Report.Form)

/-! ### One line -/

/-- What a line asks for, if it is text. -/
def Line.request? (line : Line) : Option String :=
  line.text?.map Text.trim

/-- Whether a conversation ends with a line. -/
def Line.isLast (line : Line) : Bool :=
  match line.request? with
  | some request => request == "/bye"
  | none => true

/-- What is printed for a line, and the problem that there is with it. -/
def Line.answer (line : Line) : Outcome :=
  match line.request? with
  | none => {}
  | some request =>
    if request = "" then {}
    else match s.compile request with
      | .ok q => { printed := Report.write s q form ++ "\n" }
      | .error why => { complaints := "Failed to parse: " ++ why.message ++ "\n" }

theorem reply_eq (line : Line) :
    reply s form line = (line.request?.map (replyToText s form)).getD .unreadable := by
  rw [reply, Line.request?]
  cases line.text? with
  | none => simp only [Option.map_none, Option.getD_none]
  | some text => simp only [Option.map_some, Option.getD_some]

variable {s form} {line : Line}

theorem reply_of_isLast (h : line.isLast = true) :
    reply s form line = if line.request? = none then .unreadable else .farewell := by
  rw [reply_eq]
  unfold Line.isLast at h
  split at h
  · rename_i request hrequest
    obtain rfl : request = "/bye" := eq_of_beq h
    simp [hrequest, replyToText]
  · rename_i hrequest
    rw [hrequest]
    rfl

/-- A line that is not the last has an answer, and the conversation goes on. -/
theorem reply_of_not_isLast (h : line.isLast = false) :
    (reply s form line).isLast = false ∧
      (reply s form line).shown = (line.answer s form).printed ∧
      (reply s form line).complaint = (line.answer s form).complaints := by
  rw [reply_eq]
  unfold Line.isLast at h
  split at h
  · rename_i request hrequest
    have hbye : request ≠ "/bye" := ne_of_beq_false h
    simp only [Line.answer, hrequest, Option.map_some, Option.getD_some, replyToText,
      String.isEmpty_iff, if_neg hbye]
    by_cases hblank : request = ""
    · simp only [if_pos hblank]
      exact ⟨rfl, rfl, rfl⟩
    · simp only [if_neg hblank]
      cases s.compile request <;> exact ⟨rfl, rfl, rfl⟩
  · cases h

/-! ### All lines -/

/-- What is left behind by one thing after the other.  The code is that of the
last. -/
instance : Append Outcome where
  append o o' :=
    { code := o'.code
      printed := o.printed ++ o'.printed
      complaints := o.complaints ++ o'.complaints }

theorem Outcome.append_def (o o' : Outcome) :
    o ++ o' = { code := o'.code
                printed := o.printed ++ o'.printed
                complaints := o.complaints ++ o'.complaints } :=
  rfl

theorem Outcome.append_assoc (o o' o'' : Outcome) : o ++ o' ++ o'' = o ++ (o' ++ o'') := by
  simp only [Outcome.append_def, String.append_assoc]

/-- What is said of an input that is no text. -/
def unreadable : String :=
  "Error: Failed to read stdin\n\nCaused by:\n    stream did not contain valid UTF-8\n"

variable (s form) in
/-- A conversation over some lines: a prompt and an answer for each line before
the last one that counts, and the prompt that this one is read at.  It is an
error if that line is no text. -/
def transcript (ls : List Line) : Outcome :=
  let earlier := ls.takeWhile fun line => !line.isLast
  let failed := (ls.find? Line.isLast).any fun line => line.request? == none
  { code := if failed then 1 else 0
    printed := String.join (earlier.map fun line => "> " ++ (line.answer s form).printed) ++ "> "
    complaints := String.join (earlier.map fun line => (line.answer s form).complaints)
      ++ if failed then unreadable else "" }

/-- What replies leave behind. -/
def told (rs : List Reply) : Outcome where
  code := (rs.getLast?.map Reply.code).getD 0
  printed := String.join (rs.map fun r => prompt ++ r.shown)
  complaints := String.join (rs.map Reply.complaint)

/-- Behind the last prompt nothing is printed. -/
theorem told_last :
    told [.endOfInput] = { printed := "> " } ∧ told [.farewell] = { printed := "> " } ∧
      told [.unreadable] = { code := 1, printed := "> ", complaints := unreadable } := by
  decide +kernel

/-- A reply and what comes behind it. -/
theorem told_cons {rs : List Reply} (r : Reply) (h : rs ≠ []) :
    told (r :: rs) = { printed := prompt ++ r.shown, complaints := r.complaint } ++ told rs := by
  obtain ⟨r', rs, rfl⟩ := List.exists_cons_of_ne_nil h
  simp only [told, Outcome.append_def, List.getLast?_cons_cons, List.map_cons, String.join_cons]

theorem replies_ne_nil (ls : List Line) : replies s form ls ≠ [] := by
  cases ls with
  | nil => exact List.cons_ne_nil _ _
  | cons line ls =>
    rw [replies]
    split <;> exact List.cons_ne_nil _ _

/-- One round of the prompt: a line that goes on is answered, and what comes
next is a conversation of its own. -/
theorem told_replies_cons (h : line.isLast = false) (ls : List Line) :
    told (replies s form (line :: ls)) =
      { printed := "> " } ++ line.answer s form ++ told (replies s form ls) := by
  obtain ⟨hlast, hshown, hcomplaint⟩ := @reply_of_not_isLast s form line h
  rw [replies, hlast, if_neg Bool.false_ne_true, told_cons _ (replies_ne_nil ls), hshown,
    hcomplaint]
  simp only [Outcome.append_def, String.empty_append, prompt]

/-- The last round: nothing is answered, and no more lines are looked at. -/
theorem told_replies_last (h : line.isLast = true) (ls : List Line) :
    told (replies s form (line :: ls)) =
      { code := if line.request? = none then 1 else 0
        printed := "> "
        complaints := if line.request? = none then unreadable else "" } := by
  have hlast : (reply s form line).isLast = true := by
    rw [reply_of_isLast h]
    split <;> rfl
  obtain ⟨-, hfarewell, hunreadable⟩ := told_last
  rw [replies, hlast, if_pos rfl, reply_of_isLast h]
  by_cases hrequest : line.request? = none
  · simp only [if_pos hrequest, hunreadable]
  · simp only [if_neg hrequest, hfarewell]

theorem transcript_nil : transcript s form [] = { printed := "> " } := by
  simp [transcript]

theorem transcript_cons (h : line.isLast = false) (ls : List Line) :
    transcript s form (line :: ls) =
      { printed := "> " } ++ line.answer s form ++ transcript s form ls := by
  simp [transcript, Outcome.append_def, h, String.append_assoc]

/-- A line between others that the prompt gets to is answered between them. -/
theorem transcript_append_cons {before : List Line} (hbefore : ∀ line ∈ before, line.isLast = false)
    (hline : line.isLast = false) (rest : List Line) :
    transcript s form (before ++ line :: rest) =
      transcript s form before ++ line.answer s form ++ transcript s form rest := by
  induction before with
  | nil => rw [List.nil_append, transcript_cons hline, transcript_nil]
  | cons first before ih =>
    obtain ⟨hfirst, hbefore⟩ := List.forall_mem_cons.1 hbefore
    rw [List.cons_append, transcript_cons hfirst, ih hbefore, transcript_cons hfirst]
    simp only [Outcome.append_assoc]

theorem told_replies_eq_transcript (ls : List Line) :
    told (replies s form ls) = transcript s form ls := by
  induction ls with
  | nil => rw [replies, told_last.1, transcript_nil]
  | cons line ls ih =>
    cases h : line.isLast with
    | true =>
      rw [told_replies_last h]
      simp [transcript, h]
    | false => rw [told_replies_cons h, ih, transcript_cons h]

/-- **The prompt is a map over lines.** -/
theorem converse_eq_transcript (input : List UInt8) :
    converse s form input = transcript s form (lines input) :=
  told_replies_eq_transcript (lines input)

/-- Behind the last line that counts it does not matter what comes. -/
theorem transcript_append_last (h : line.isLast = true) (before after after' : List Line) :
    transcript s form (before ++ line :: after) = transcript s form (before ++ line :: after') := by
  simp [transcript, List.takeWhile_append, h]

/-- **A run that is given no query is a map over the lines of its input.** The
lines are the input cut behind each line feed.  Those before the first that
says good-bye or is no text are answered one by one, each on its own, and what
stands behind that line is never looked at. -/
theorem runWith_eq_transcript {a : Arguments} {files : Files} {wording : Wording}
    (hsettings : settings a files wording = .ok s) (hquery : a.query = none)
    (input : List UInt8) :
    (∀ ls, Lines input ls ↔ ls = lines input) ∧
      runWith a files input wording = transcript s a.form (lines input) ∧
      ∀ before (line : Line) after rest, lines input = before ++ line :: after →
        line.isLast = true → Ended line →
        runWith a files (before.flatten ++ line ++ rest) wording
          = runWith a files input wording := by
  have hrun : ∀ bytes, runWith a files bytes wording = transcript s a.form (lines bytes) := by
    intro bytes
    simp only [runWith, hsettings, hquery, converse_eq_transcript]
  refine ⟨fun ls => lines_iff, hrun input, ?_⟩
  intro before line after rest hlines hlast hended
  have hinput : Lines input (before ++ line :: after) := lines_iff.2 hlines.symm
  have hrest := (hinput.exchange hended (lines_spec rest)).eq_lines
  rw [hrun, hrun, hlines, ← hrest]
  exact transcript_append_last hlast before _ _

/-- A query, a blank line, a group that is not closed, bytes that are no text,
and good-bye. -/
theorem runWith_eq_transcript_unreadable :
    let a : Arguments := { allow := ["tag"] }
    let files : Files := fun _ => .error .notFound
    let before := [Text.utf8 "tag:go x\n", Text.utf8 " \u2003\n", Text.utf8 "(\u00A0a\n"]
    let line : Line := [0x62, 0xFF, 0x0A]
    let input := before.flatten ++ line ++ Text.utf8 "/bye\ny"
    (settings a files = .ok ⟨["tag"], []⟩ ∧ a.query = none ∧
        lines input = before ++ line :: [Text.utf8 "/bye\n", Text.utf8 "y"] ∧
        line.isLast = true ∧ Ended line) ∧
      runWith a files input =
        { code := 1
          printed := "> expr: (tag:go AND x)\nsort: created_at desc\nfilters: tag=true\n"
            ++ "free text: x\n> > > "
          complaints := "Failed to parse: expected ')'\nError: Failed to read stdin\n\n"
            ++ "Caused by:\n    stream did not contain valid UTF-8\n" } ∧
      runWith a files (before.flatten ++ line ++ Text.utf8 "z") = runWith a files input := by
  intro a files before line input
  have hsettings : settings a files = .ok ⟨["tag"], []⟩ := rfl
  have hlines : lines input = before ++ line :: [Text.utf8 "/bye\n", Text.utf8 "y"] := by
    decide +kernel
  have hlast : line.isLast = true := by decide +kernel
  have hended : Ended line := by
    intro b hb
    exact (Option.some.inj hb).symm
  obtain ⟨-, hrun, hrest⟩ := runWith_eq_transcript hsettings rfl input
  refine ⟨⟨hsettings, rfl, hlines, hlast, hended⟩, ?_,
    hrest before line _ (Text.utf8 "z") hlines hlast hended⟩
  rw [hrun]
  simp only [transcript, Line.answer, Settings.compile, Query.compile_eq_lex]
  decide +kernel

end SearchQuery.CommandLine
