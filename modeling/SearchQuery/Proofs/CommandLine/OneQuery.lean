/-
SearchQuery/Proofs/CommandLine/OneQuery.lean

A query on the command line and the same query on a line of the input.

The prompt takes away the blanks around a line, the command line leaves them
where they are.  As long as no quote is open at the end of the query these
blanks are between tokens, so both compile the same (`compile_trim`), and the
report or the reason why there is none is the same in both
(`runWith_query_agrees`).  A line is put between two parts of an input without
changing what comes of either (`converse_insert`).
-/
import SearchQuery.Proofs.CommandLine.Conversation
import SearchQuery.Proofs.Token.Append

namespace SearchQuery

/-- Blanks around a text do not change what it compiles to, if no quote is
open at its end. -/
theorem Query.compile_trim (keys : List String) {text : String}
    (heven : text.toList.count '"' % 2 = 0) :
    compile keys (Text.trim text) = compile keys text := by
  simp only [compile, Token.tokenize_trim heven]

/-- In an open quote they count: a parenthesis with a blank behind it is text,
and alone it opens a group. -/
example :
    (Query.compile [] "\"( ").toOption.map Query.freeText = some ["("] ∧
      Query.compile [] (Text.trim "\"( ") = .error .unclosedGroup := by
  simp only [Query.compile_eq_lex]
  decide +kernel

namespace CommandLine

variable {s : Settings} {form : Report.Form}

/-! ### A line for a query -/

theorem text?_utf8 (q : String) : Line.text? (Text.utf8 q) = some q := by
  have hbytes : ByteArray.mk (Text.utf8 q).toArray = q.toByteArray := by
    rw [Text.utf8, Array.toArray_toList]
  rw [Line.text?, hbytes, String.fromUTF8?, dif_pos q.isValidUTF8]
  rfl

/-- The two lines that a query can be, with its line feed and without. -/
theorem request?_utf8 {q : String} {line : Line}
    (h : line = Text.utf8 q ++ [0x0A] ∨ line = Text.utf8 q) :
    line.request? = some (Text.trim q) := by
  rcases h with rfl | rfl
  · have hline : Text.utf8 q ++ [0x0A] = Text.utf8 (q ++ "\n") := (Text.utf8_append q "\n").symm
    have htrim : Text.trim (q ++ "\n") = Text.trim q := by
      have hchars : (q ++ "\n").toList = q.toList ++ ['\n'] := by simp
      rw [← String.toList_inj, Text.toList_trim, Text.toList_trim, hchars,
        Text.trimChars_append_singleton (by decide)]
    rw [hline, Line.request?, text?_utf8, Option.map_some, htrim]
  · rw [Line.request?, text?_utf8, Option.map_some]

theorem lineFeed_not_mem_utf8 {q : String} (h : '\n' ∉ q.toList) : 0x0A ∉ Text.utf8 q := by
  intro hmem
  obtain ⟨c, hc, hcode⟩ := Text.exists_mem_of_mem_utf8 (by decide) hmem
  obtain rfl : c = '\n' := Char.toNat_inj.1 hcode
  exact h hc

/-! ### A line in an input -/

/-- An input that the prompt answers to its end, and that ends with a line. -/
structure LeadsOn (before : List UInt8) : Prop where
  ended : Ended before
  isLast : ∀ line ∈ lines before, line.isLast = false

/-- **A line may be put between two parts of an input**: its answer comes
between what the two leave behind. -/
theorem converse_insert {before rest : List UInt8} {line : Line} (hbefore : LeadsOn before)
    (hline : line.isLast = false) (hlines : lines (line ++ rest) = line :: lines rest) :
    converse s form (before ++ line ++ rest) =
      converse s form before ++ line.answer s form ++ converse s form rest := by
  have hall : lines (before ++ line ++ rest) = lines before ++ line :: lines rest := by
    rw [List.append_assoc, lines_append hbefore.ended, hlines]
  simp only [converse_eq_transcript, hall]
  exact transcript_append_cons hbefore.isLast hline (lines rest)

/-- The lines of a query stand by themselves, whatever comes behind them. -/
theorem lines_query {q : String} (hfeed : '\n' ∉ q.toList) (hblank : Text.trim q ≠ "")
    {line : Line} {rest : List UInt8}
    (h : line = Text.utf8 q ++ [0x0A] ∨ line = Text.utf8 q ∧ rest = []) :
    lines (line ++ rest) = line :: lines rest := by
  have hbody := lineFeed_not_mem_utf8 hfeed
  rcases h with rfl | ⟨rfl, rfl⟩
  · rw [List.append_assoc, List.singleton_append, lines_ended hbody]
  · have hne : Text.utf8 q ≠ [] := by
      intro hnil
      have hrequest := request?_utf8 (q := q) (.inr hnil.symm)
      have hempty : Line.request? [] = some "" := by decide +kernel
      exact hblank (Option.some.inj (hrequest.symm.trans hempty))
    rw [List.append_nil, lines_last hne hbody, lines]

/-! ### One answer -/

/-- What a line with a query is answered with. -/
theorem answer_of_request {line : Line} {q : String} (hrequest : line.request? = some (Text.trim q))
    (heven : q.toList.count '"' % 2 = 0) (hblank : Text.trim q ≠ "") :
    line.answer s form = match s.compile q with
      | .ok query => { printed := Report.write s query form ++ "\n" }
      | .error why => { complaints := "Failed to parse: " ++ why.message ++ "\n" } := by
  have hcompile : s.compile (Text.trim q) = s.compile q := Query.compile_trim s.allowedFilters heven
  cases h : s.compile q <;> simp only [Line.answer, hrequest, if_neg hblank, hcompile, h]

/-- **A query is answered with the same on the command line and on a line of
the input**, if no quote is open at its end. -/
theorem runWith_query_agrees :
    (∀ keys (q : String), q.toList.count '"' % 2 = 0 →
      Query.compile keys (Text.trim q) = Query.compile keys q) ∧
    ∀ (a : Arguments) (files : Files) (wording : Wording) (s : Settings) (q : String),
      settings a files wording = .ok s →
      q.toList.count '"' % 2 = 0 → '\n' ∉ q.toList → Text.trim q ≠ "" → Text.trim q ≠ "/bye" →
      let once := fun input => runWith { a with query := some q } files input wording
      let session := fun input => runWith { a with query := none } files input wording
      ∀ (before : List UInt8) (line : Line) (rest : List UInt8), LeadsOn before →
        (line = Text.utf8 q ++ [0x0A] ∨ line = Text.utf8 q ∧ rest = []) →
        (∃ query, s.compile q = .ok query ∧
          let report : Outcome := { printed := Report.write s query a.form ++ "\n" }
          (∀ input, once input = report) ∧
            session (before ++ line ++ rest) = session before ++ report ++ session rest) ∨
        ∃ why : ParseError, s.compile q = .error why ∧
          (∀ input, once input =
            { code := 1
              complaints := "Error: Failed to parse query\n\nCaused by:\n    " ++ why.message
                ++ "\n" }) ∧
          session (before ++ line ++ rest) =
            session before ++ { complaints := "Failed to parse: " ++ why.message ++ "\n" }
              ++ session rest := by
  refine ⟨fun keys q => Query.compile_trim keys, ?_⟩
  intro a files wording s q hsettings heven hfeed hblank hbye once session before line rest
    hbefore hline
  -- the settings do not depend on the query
  have hsame : ∀ query, settings { a with query } files wording = .ok s := fun _ => hsettings
  have honce : ∀ input, once input = CommandLine.answer s a.form q := by
    intro input
    simp only [once, runWith, hsame (some q)]
  have hsession : ∀ input, session input = converse s a.form input := by
    intro input
    simp only [session, runWith, hsame none]
  have hrequest : line.request? = some (Text.trim q) := request?_utf8 (hline.imp_right And.left)
  have hlast : line.isLast = false := by
    simp only [Line.isLast, hrequest, beq_eq_false_iff_ne.2 hbye]
  have hbetween : converse s a.form (before ++ line ++ rest)
      = converse s a.form before ++ line.answer s a.form ++ converse s a.form rest :=
    converse_insert hbefore hlast (lines_query hfeed hblank hline)
  rw [answer_of_request hrequest heven hblank] at hbetween
  simp only [honce, hsession]
  cases hcompile : s.compile q with
  | ok query =>
    rw [hcompile] at hbetween
    refine .inl ⟨query, rfl, ?_, hbetween⟩
    intro _
    simp only [CommandLine.answer, hcompile]
  | error why =>
    rw [hcompile] at hbetween
    refine .inr ⟨why, rfl, ?_, hbetween⟩
    intro _
    simp only [CommandLine.answer, hcompile, Failure.outcome, Failure.message_malformedQuery]

/-- A query and a group that is not closed, each with blanks around it, behind
two other lines.  The first is followed by good-bye, the second by nothing. -/
theorem runWith_query_agrees_blanks :
    let files : Files := fun _ => .error .notFound
    let once (q : String) := runWith { allow := ["tag"], query := some q } files []
    let session := runWith { allow := ["tag"] } files
    let good := "\u2003tag:go \"a  b\"\u00A0"
    let bad := " (x\t"
    let before := Text.utf8 "x\n(\n"
    let report : Outcome :=
      { printed := "expr: (tag:go AND a  b)\nsort: created_at desc\nfilters: tag=true\n"
          ++ "free text: a  b\n" }
    (settings { allow := ["tag"] } files = .ok ⟨["tag"], []⟩ ∧ LeadsOn before ∧
        ∀ q ∈ [good, bad], q.toList.count '"' % 2 = 0 ∧ '\n' ∉ q.toList ∧ Text.trim q ≠ "" ∧
          Text.trim q ≠ "/bye") ∧
      (once good = report ∧
        session (before ++ (Text.utf8 good ++ [0x0A]) ++ Text.utf8 "/bye")
          = session before ++ report ++ session (Text.utf8 "/bye")) ∧
      once bad =
          { code := 1
            complaints := "Error: Failed to parse query\n\nCaused by:\n    " ++ "expected ')'"
              ++ "\n" } ∧
        session (before ++ Text.utf8 bad ++ []) =
          session before ++ { complaints := "Failed to parse: " ++ "expected ')'" ++ "\n" }
            ++ session [] := by
  intro files once session good bad before report
  have hsettings : settings { allow := ["tag"] } files = .ok ⟨["tag"], []⟩ := rfl
  have hbefore : LeadsOn before := by
    refine ⟨?_, by decide +kernel⟩
    intro b hb
    exact (Option.some.inj hb).symm
  have hqueries : ∀ q ∈ [good, bad], q.toList.count '"' % 2 = 0 ∧ '\n' ∉ q.toList ∧
      Text.trim q ≠ "" ∧ Text.trim q ≠ "/bye" := by
    decide +kernel
  refine ⟨⟨hsettings, hbefore, hqueries⟩, ?_, ?_⟩
  · obtain ⟨heven, hfeed, hblank, hbye⟩ := hqueries good (by simp)
    have hreport : (Settings.compile ⟨["tag"], []⟩ good).toOption.map
        (fun query => Report.write ⟨["tag"], []⟩ query .text ++ "\n") = some report.printed := by
      simp only [Settings.compile, Query.compile_eq_lex]
      decide +kernel
    obtain ⟨query, hquery, honce, hsession⟩ | ⟨why, hwhy, -⟩ :=
      runWith_query_agrees.2 { allow := ["tag"] } files {} _ good hsettings heven hfeed hblank hbye
        before _ (Text.utf8 "/bye") hbefore (.inl rfl)
    · rw [hquery] at hreport
      have hprinted : Report.write ⟨["tag"], []⟩ query .text ++ "\n" = report.printed :=
        Option.some.inj hreport
      dsimp only at honce hsession
      rw [hprinted] at honce hsession
      exact ⟨honce [], hsession⟩
    · rw [hwhy] at hreport
      cases hreport
  · obtain ⟨heven, hfeed, hblank, hbye⟩ := hqueries bad (by simp)
    have hfails : Settings.compile ⟨["tag"], []⟩ bad = .error .unclosedGroup := by
      simp only [Settings.compile, Query.compile_eq_lex]
      decide +kernel
    obtain ⟨query, hquery, -⟩ | ⟨why, hwhy, honce, hsession⟩ :=
      runWith_query_agrees.2 { allow := ["tag"] } files {} _ bad hsettings heven hfeed hblank hbye
        before _ [] hbefore (.inr ⟨rfl, rfl⟩)
    · rw [hfails] at hquery
      cases hquery
    · obtain rfl : ParseError.unclosedGroup = why := Except.error.inj (hfails.symm.trans hwhy)
      exact ⟨honce [], hsession⟩

end CommandLine

end SearchQuery
