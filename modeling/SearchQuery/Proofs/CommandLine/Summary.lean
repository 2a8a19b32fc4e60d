/-
SearchQuery/Proofs/CommandLine/Summary.lean

What a run depends on.

A run asks two things of its settings: whether a key is allowed, and what the
default orderings are.  Settings that give the same answers (`Settings.Agrees`)
lead to the same queries, the same reports and the same conversations.  The
settings of the options come behind those of the file, so in which order keys
are allowed, how often, and what else is mentioned between them makes no
difference.

Main statement: runs with arguments that say the same, however they are spelled
and ordered, leave the same behind (`run_congr`).  What that is can be told from
the settings of the file and of the options (`AnswersWith`), or it is why the
file cannot be used.
-/
import SearchQuery.Proofs.CommandLine.Conversation
import SearchQuery.Proofs.CommandLine.FileTree
import SearchQuery.Proofs.CommandLine.Mentions
import SearchQuery.Proofs.KeyMarks.Canonical
import SearchQuery.Proofs.Query.Compile
import SearchQuery.Proofs.Report.ReadBack

namespace SearchQuery

/-! ### Settings that agree -/

/-- Settings with the same keys, in any order, and the same default
orderings. -/
structure Settings.Agrees (s s' : Settings) : Prop where
  mem_iff : ∀ key, key ∈ s.allowedFilters ↔ key ∈ s'.allowedFilters
  defaultSort : s.defaultSort = s'.defaultSort

namespace Settings.Agrees

variable {s s' : Settings}

theorem extend (base : Settings) {allowed allowed' : List String}
    (h : ∀ key, key ∈ allowed ↔ key ∈ allowed') (sort : List String) :
    (base.extend allowed sort).Agrees (base.extend allowed' sort) where
  mem_iff key := by simp only [Settings.extend, List.mem_append, h key]
  defaultSort := rfl

theorem compile_eq (h : s.Agrees s') (text : String) : s.compile text = s'.compile text := by
  simp only [compile, Query.compile, KeyMarks.seeded_congr h.mem_iff]

theorem orderBy_eq (h : s.Agrees s') (q : Query) : s.orderBy q = s'.orderBy q := by
  simp only [orderBy, h.defaultSort]

theorem write_eq (h : s.Agrees s') (q : Query) (form : Report.Form) :
    Report.write s q form = Report.write s' q form := by
  cases form with
  | text => simp only [Report.write, Report.toText, h.orderBy_eq]
  | json => simp only [Report.write, Report.toJson, h.orderBy_eq]

end Settings.Agrees

namespace CommandLine

/-! ### Runs with settings that agree -/

section

variable {s s' : Settings} {form : Report.Form}

theorem answer_congr (h : s.Agrees s') (text : String) :
    answer s form text = answer s' form text := by
  simp only [answer, h.compile_eq, h.write_eq]

theorem reply_congr (h : s.Agrees s') (line : Line) :
    reply s form line = reply s' form line := by
  simp only [reply, replyToText, h.compile_eq, h.write_eq]

theorem replies_congr (h : s.Agrees s') (ls : List Line) :
    replies s form ls = replies s' form ls := by
  induction ls with
  | nil => rfl
  | cons line ls ih => simp only [replies, reply_congr h, ih]

theorem converse_congr (h : s.Agrees s') (input : List UInt8) :
    converse s form input = converse s' form input := by
  simp only [converse, replies_congr h]

end

/-! ### Settings of a run -/

/-- The settings that a run begins with: those of the file, if one is named. -/
inductive Base (files : Files) : Option String → Settings → Prop
  | none : Base files none {}
  | file {path text s} : files path = .ok text → Settings.read? text = some s →
      Base files (some path) s

variable {files : Files} {wording : Wording} {base : Settings} {a : Arguments}

/-- The options come behind the settings that a run begins with. -/
theorem settings_of_base (h : Base files a.config base) :
    settings a files wording = .ok (base.extend a.allow a.defaultSort) := by
  unfold settings
  generalize a.config = config at h
  cases h with
  | none => rfl
  | file hfile hread => simp only [hfile, hread]; rfl

theorem settings_of_unreadable {path : String} {why : ReadFailure} (hconfig : a.config = some path)
    (hfile : files path = .error why) :
    settings a files wording = .error (.unreadableSettings path why) := by
  unfold settings
  simp only [hconfig, hfile]
  rfl

theorem settings_of_malformed {path text : String} (hconfig : a.config = some path)
    (hfile : files path = .ok text) (hread : Settings.read? text = none) :
    settings a files wording = .error (.malformedSettings path (wording.flaw text)) := by
  unfold settings
  simp only [hconfig, hfile, hread]
  rfl

/-- Without such settings the run fails, and only the file decides how. -/
theorem exists_base_or_failure (files : Files) (wording : Wording) (config : Option String) :
    (∃ base, Base files config base) ∨
      ∃ f, ∀ a : Arguments, a.config = config → settings a files wording = .error f := by
  cases config with
  | none => exact .inl ⟨{}, .none⟩
  | some path =>
    cases hfile : files path with
    | error why => exact .inr ⟨_, fun a ha => settings_of_unreadable ha hfile⟩
    | ok text =>
      cases hread : Settings.read? text with
      | some base => exact .inl ⟨base, .file hfile hread⟩
      | none => exact .inr ⟨_, fun a ha => settings_of_malformed ha hfile hread⟩

theorem runWith_of_failure {f : Failure} (h : settings a files wording = .error f)
    (input : List UInt8) :
    runWith a files input wording = { code := 1, complaints := f.message } := by
  simp only [runWith, h, Failure.outcome]

/-- What a run with such settings leaves behind. -/
theorem runWith_of_base (h : Base files a.config base) (input : List UInt8) :
    runWith a files input wording =
      let s := base.extend a.allow a.defaultSort
      a.query.elim (converse s a.form input) (answer s a.form) := by
  rw [runWith, settings_of_base h]
  cases a.query <;> rfl

/-- Keys may be allowed in any order, and more than once. -/
theorem runWith_congr (a : Arguments) {allow' : List String}
    (h : ∀ key, key ∈ a.allow ↔ key ∈ allow') (files : Files) (input : List UInt8)
    (wording : Wording) :
    runWith a files input wording = runWith { a with allow := allow' } files input wording := by
  rcases exists_base_or_failure files wording a.config with ⟨base, hbase⟩ | ⟨f, hfailure⟩
  · have hagrees := Settings.Agrees.extend base h a.defaultSort
    have hbase' : Base files { a with allow := allow' }.config base := hbase
    rw [runWith_of_base hbase, runWith_of_base hbase']
    cases a.query with
    | none => simp only [Option.elim_none, converse_congr hagrees]
    | some text => simp only [Option.elim_some, answer_congr hagrees]
  · rw [runWith, runWith, hfailure a rfl, hfailure { a with allow := allow' } rfl]

/-! ### What a run leaves behind -/

/-- What runs with the settings `s` leave behind: the report on their query, or
why there is none, and without a query a conversation. -/
structure AnswersWith (s : Settings) (a : Arguments) (run : List UInt8 → Outcome) : Prop where
  report : ∀ text q, a.query = some text → s.compile text = .ok q → ∀ input,
    run input = { printed := Report.write s q a.form ++ "\n" }
  problem : ∀ text why, a.query = some text → s.compile text = .error why → ∀ input,
    run input =
      { code := 1
        complaints := "Error: Failed to parse query\n\nCaused by:\n    " ++ why.message ++ "\n" }
  conversation : a.query = none → ∀ input, run input = transcript s a.form (lines input)

theorem answersWith_of_base (h : Base files a.config base) :
    AnswersWith (base.extend a.allow a.defaultSort) a
      (fun input => runWith a files input wording) where
  report text q hquery hcompile input := by
    simp only [runWith_of_base h, hquery, Option.elim_some, answer, hcompile]
  problem text why hquery hcompile input := by
    simp only [runWith_of_base h, hquery, Option.elim_some, answer, hcompile, Failure.outcome,
      Failure.message_malformedQuery]
  conversation hquery input := by
    simp only [runWith_of_base h, hquery, Option.elim_none, converse_eq_transcript]

/-- A query knows the keys that its settings allow. -/
theorem isAllowed_of_compile {s : Settings} {text : String} {q : Query}
    (h : s.compile text = .ok q) (key : String) :
    q.found.isAllowed key = true ↔ key ∈ s.allowedFilters := by
  obtain ⟨roles, expr, -, rfl⟩ := Query.compile_eq_ok_iff.1 h
  rw [← KeyMarks.mem_keys_iff]
  exact (KeyMarks.lists_markAll_seeded s.allowedFilters _).mem_iff key

theorem says_write_of_sort {q : Query} (s : Settings) (h : q.sort ≠ []) (form : Report.Form) :
    Report.Says (Report.write s q form) q q.sort form := by
  have horder : s.orderBy q = q.sort := by simp [Settings.orderBy, h]
  exact horder ▸ Report.says_write s q form

/-- A query that asks for no ordering gets the default ones. -/
theorem says_write_of_no_sort {q : Query} (s : Settings) (h : q.sort = []) (form : Report.Form) :
    Report.Says (Report.write s q form) q
      (if s.defaultSort = [] then ["created_at desc"] else s.defaultSort) form := by
  have horder : s.orderBy q
      = if s.defaultSort = [] then ["created_at desc"] else s.defaultSort := by
    by_cases hdefault : s.defaultSort = [] <;>
      simp [Settings.orderBy, Settings.newestFirst, h, hdefault]
  exact horder ▸ Report.says_write s q form

/-! ### Arguments that say the same -/

/-- Mentions of the same query, file and form, of the same default orderings in
the same order, and of the same keys. -/
structure SaySame (ms ms' : List Mention) : Prop where
  query : queries ms = queries ms'
  config : values .config ms = values .config ms'
  json : .json ∈ ms ↔ .json ∈ ms'
  defaultSort : values .defaultSort ms = values .defaultSort ms'
  allow : ∀ key, key ∈ values .allow ms ↔ key ∈ values .allow ms'

theorem SaySame.collect_eq {ms ms' : List Mention} (h : SaySame ms ms') :
    collect ms' = { collect ms with allow := values .allow ms' } := by
  simp only [collect, h.query, h.config, h.json, h.defaultSort]

theorem run_of_spells {ms : List Mention} {args : List String} (h : Spells ms args)
    (hproper : Proper ms) (files : Files) (input : List UInt8) (wording : Wording) :
    run args files input wording = runWith (collect ms) files input wording := by
  have hread := read?_eq_run_iff.2 ⟨ms, h, hproper, rfl⟩
  simp only [run, hread]

/-- **A run depends on what its arguments say**, and on nothing else about
them.  Arguments are accepted if they spell mentions of which none is out of
place, and runs with the same query, the same file, the same form, the same
default orderings and the same keys leave the same behind.

Where the file can be used, the keys and the default orderings of the options
come behind those of the file.  A query knows the keys of both, and its report
has the default orderings of both if it asks for none itself.  Where it cannot,
the run ends with the reason. -/
theorem run_congr :
    (∀ args a, Arguments.read? args = some (.run a) ↔
      ∃ ms, Spells ms args ∧ Proper ms ∧ a = collect ms) ∧
    (∀ ms ms' args args', Spells ms args → Proper ms → Spells ms' args' → Proper ms' →
      SaySame ms ms' → ∀ files input wording,
        run args files input wording = run args' files input wording) ∧
    ∀ ms args files wording, Spells ms args → Proper ms →
      let a := collect ms
      (∀ base, Base files a.config base →
        let defaults := base.defaultSort ++ values .defaultSort ms
        let s : Settings := ⟨base.allowedFilters ++ values .allow ms, defaults⟩
        AnswersWith s a (fun input => run args files input wording) ∧
        ∀ text q, s.compile text = .ok q →
          (∀ key, q.found.isAllowed key = true ↔
            key ∈ base.allowedFilters ∨ key ∈ values .allow ms) ∧
          (q.sort ≠ [] → Report.Says (Report.write s q a.form) q q.sort a.form) ∧
          (q.sort = [] → Report.Says (Report.write s q a.form) q
            (if defaults = [] then ["created_at desc"] else defaults) a.form)) ∧
      (∀ path why, a.config = some path → files path = .error why → ∀ input,
        run args files input wording =
          { code := 1
            complaints := "Error: Failed to read config " ++ path ++ "\n\nCaused by:\n    "
              ++ why.message ++ "\n" }) ∧
      ∀ path text, a.config = some path → files path = .ok text → Settings.read? text = none →
        ∀ input, run args files input wording =
          { code := 1
            complaints := "Error: Failed to parse config " ++ path ++ "\n"
              ++ ((wording.flaw text).map fun cause =>
                "\nCaused by:\n    " ++ cause ++ "\n").getD "" } := by
  refine ⟨fun args a => read?_eq_run_iff, ?_, ?_⟩
  · intro ms ms' args args' hms hproper hms' hproper' hsame files input wording
    -- all that is left of the second arguments are their keys
    rw [run_of_spells hms hproper, run_of_spells hms' hproper', hsame.collect_eq]
    exact runWith_congr (collect ms) hsame.allow files input wording
  · intro ms args files wording hms hproper a
    have hrun : ∀ input, run args files input wording = runWith a files input wording :=
      fun input => run_of_spells hms hproper files input wording
    simp only [hrun]
    refine ⟨?_, ?_, ?_⟩
    · intro base hbase
      refine ⟨answersWith_of_base hbase, fun text q hq => ⟨fun key => ?_, ?_, ?_⟩⟩
      · exact (isAllowed_of_compile hq key).trans List.mem_append
      · exact fun hsort => says_write_of_sort _ hsort a.form
      · exact fun hsort => says_write_of_no_sort _ hsort a.form
    · intro path why hconfig hfile input
      rw [runWith_of_failure (settings_of_unreadable hconfig hfile),
        Failure.message_unreadableSettings]
    · intro path text hconfig hfile hread input
      rw [runWith_of_failure (settings_of_malformed hconfig hfile hread),
        Failure.message_malformedSettings]

/-- Options on both sides of the query and all in front of it, values behind
an equals sign and in an argument of their own, and a key that is allowed once,
twice and by the file.  The same again for a program, with queries on lines of
which one has its own ordering, and with files that hold no settings and that
are not there. -/
theorem run_congr_reordered :
    let ms : List Mention := [.valued .allow "tag", .valued .defaultSort "title asc",
      .query "a tag:go", .valued .config "pages/page.json", .valued .allow "a"]
    let args := ["--allow=tag", "--default-sort", "title asc", "a tag:go",
      "--config=pages/page.json", "--allow", "a"]
    let ms' : List Mention := [.valued .config "pages/page.json", .valued .allow "a",
      .valued .allow "a", .valued .allow "tag", .valued .defaultSort "title asc",
      .query "a tag:go"]
    let args' := ["--config", "pages/page.json", "--allow", "a", "--allow=a", "--allow", "tag",
      "--default-sort=title asc", "--", "a tag:go"]
    let tree : FileTree :=
      { files := [(["home", "pages", "page.json"], "[[\"a\", \"kind\"], [\"date desc\"]]"),
          (["home", "half.json"], "[[\"a\"")]
        here := ["home"] }
    let wording : Wording := { flaw := fun _ => some "EOF while parsing a list at line 1 column 5" }
    let base : Settings := ⟨["a", "kind"], ["date desc"]⟩
    let q : Query :=
      { expr := some (.and [.value "a", .filter ⟨"tag", "go"⟩]), sort := [], freeText := ["a"]
        found := (KeyMarks.seeded ["a", "kind", "tag"]).mark "tag" }
    (Spells ms args ∧ Proper ms ∧ Spells ms' args' ∧ Proper ms' ∧ SaySame ms ms' ∧
        Base tree.read (collect ms).config base) ∧
      Arguments.read? args = some (.run (collect ms)) ∧
      (∀ input, run args tree.read input wording = run args' tree.read input wording) ∧
      (∀ input, run args tree.read input wording =
        { printed := "expr: (a AND tag:go)\nsort: date desc, title asc\n"
            ++ "filters: a=false kind=false tag=true\nfree text: a\n" }) ∧
      (∃ report, Report.read? report = some (q, ["date desc", "title asc"]) ∧
        ∀ input, run ("--json" :: args) tree.read input wording = { printed := report ++ "\n" }) ∧
      run ["--config=pages/page.json", "--default-sort=title asc"] tree.read
          (Text.utf8 "kind:x sort:rank\na\n") wording =
        { printed := "> expr: kind:x\nsort: rank\nfilters: a=false kind=true\nfree text: \n"
            ++ "> expr: a\nsort: date desc, title asc\nfilters: a=false kind=false\n"
            ++ "free text: a\n> " } ∧
      (∀ input, run ["--config=half.json"] tree.read input wording =
        { code := 1
          complaints := "Error: Failed to parse config half.json\n\nCaused by:\n"
            ++ "    EOF while parsing a list at line 1 column 5\n" }) ∧
      ∀ input, run ["--config", "half"] tree.read input wording =
        { code := 1
          complaints := "Error: Failed to read config half\n\nCaused by:\n"
            ++ "    No such file or directory (os error 2)\n" } := by
  intro ms args ms' args' tree wording base q
  obtain ⟨hread, hsame, hruns⟩ := run_congr
  have hms : Spells ms args :=
    .joined (.apart (by decide) (.query (by decide) (.joined (.apart (by decide) .nil))))
  have hms' : Spells ms' args' :=
    .apart (by decide) (.apart (by decide) (.joined (.apart (by decide)
      (.joined (.texts ["a tag:go"])))))
  have hproper : Proper ms := by decide
  have hproper' : Proper ms' := by decide
  have hsay : SaySame ms ms' := by
    refine ⟨rfl, rfl, by decide, rfl, fun key => ?_⟩
    show key ∈ ["tag", "a"] ↔ key ∈ ["a", "a", "tag"]
    simp only [List.mem_cons, List.not_mem_nil, or_false]
    tauto
  have hfile : tree.read "pages/page.json" = .ok "[[\"a\", \"kind\"], [\"date desc\"]]" := by
    refine (FileTree.read_eq_ok_iff (by decide) ⟨?_, ?_, ?_⟩ ?_ ?_).2 rfl <;> decide +kernel
  have hbase : Base tree.read (collect ms).config base := .file hfile (by decide +kernel)
  have hcompile : Settings.compile ⟨["a", "kind"] ++ ["tag", "a"], ["date desc", "title asc"]⟩
      "a tag:go" = .ok q := by
    simp only [Settings.compile, Query.compile_eq_lex]
    decide +kernel
  refine ⟨⟨hms, hproper, hms', hproper', hsay, hbase⟩, (hread _ _).2 ⟨ms, hms, hproper, rfl⟩,
    ?_, ?_, ?_, ?_, ?_, ?_⟩
  · intro input
    exact hsame ms ms' args args' hms hproper hms' hproper' hsay tree.read input wording
  · obtain ⟨hanswers, hreport⟩ := (hruns ms args tree.read wording hms hproper).1 base hbase
    obtain ⟨-, -, hsays⟩ := hreport "a tag:go" q hcompile
    intro input
    rw [hanswers.report "a tag:go" q rfl hcompile input, hsays rfl]
    decide +kernel
  · obtain ⟨hanswers, hreport⟩ := (hruns (.json :: ms) ("--json" :: args) tree.read wording
      (.json hms) (by decide)).1 base hbase
    obtain ⟨-, -, hsays⟩ := hreport "a tag:go" q hcompile
    exact ⟨_, hsays rfl, hanswers.report "a tag:go" q rfl hcompile⟩
  · obtain ⟨hanswers, -⟩ := (hruns
      [.valued .config "pages/page.json", .valued .defaultSort "title asc"]
      ["--config=pages/page.json", "--default-sort=title asc"] tree.read wording
      (.joined (.joined .nil)) (by decide)).1 base hbase
    rw [hanswers.conversation rfl]
    simp only [transcript, Line.answer, Settings.compile, Query.compile_eq_lex]
    decide +kernel
  · obtain ⟨-, -, hmalformed⟩ := hruns [.valued .config "half.json"] ["--config=half.json"]
      tree.read wording (.joined .nil) (by decide)
    intro input
    rw [hmalformed "half.json" "[[\"a\"" rfl (by decide +kernel) (by decide +kernel) input]
    decide +kernel
  · obtain ⟨-, hunreadable, -⟩ := hruns [.valued .config "half"] ["--config", "half"]
      tree.read wording (.apart (by decide) .nil) (by decide)
    intro input
    rw [hunreadable "half" .notFound rfl (by decide +kernel) input]
    decide +kernel

end CommandLine

end SearchQuery
