/-
SearchQuery/Proofs/Report/ReadBack.lean

Reading a report for programs back.

Each part of a query has an inverse to the way in which it is turned into JSON:
it takes exactly the values that come of a part and gives that part
(`Expr.ofJson?_eq_some_iff` and the like).  With the reader of JSON in front of
them they read a report back, whatever expression, texts and keys there are
(`Report.read?_write_json`), so the form for programs has everything that the
form for people may leave out.
-/
import SearchQuery.Proofs.Settings.Members
import SearchQuery.Report

namespace SearchQuery

/-! ### Expressions -/

/-- The filter that an object stands for. -/
def Filter.ofJson? : Json → Option Filter
  | .object [(some "key", key), (some "value", value)] => do
    pure ⟨← key.string?, ← value.string?⟩
  | _ => none

mutual

/-- The expression that an object of one member stands for. -/
def Expr.ofJson? : Json → Option Expr
  | .object [(some "value", text)] => text.string?.map .value
  | .object [(some "filter", condition)] => (Filter.ofJson? condition).map .filter
  | .object [(some "and", .array operands)] => (Expr.allOfJson? operands).map .and
  | .object [(some "or", .array operands)] => (Expr.allOfJson? operands).map .or
  | _ => none

/-- The expressions that several objects stand for. -/
def Expr.allOfJson? : List Json → Option (List Expr)
  | [] => some []
  | j :: js => do
    pure ((← Expr.ofJson? j) :: (← Expr.allOfJson? js))

end

/-- The expression of a query, which may have none. -/
def Expr.optionOfJson? : Json → Option (Option Expr)
  | .primitive .null => some none
  | j => (Expr.ofJson? j).map some

theorem Filter.ofJson?_eq_some_iff (j : Json) (f : Filter) :
    ofJson? j = some f ↔ j = f.toJson := by
  obtain ⟨key, value⟩ := f
  rw [toJson]
  unfold ofJson?
  split <;> simp_all [Option.bind_eq_some_iff, Json.string?_eq_some_iff]

mutual

/-- Of each kind of object there comes one kind of expression. -/
theorem Expr.ofJson?_eq_some_iff (j : Json) : (e : Expr) → (ofJson? j = some e ↔ j = e.toJson)
  | .value text => by
    rw [Expr.toJson]
    unfold ofJson?
    split <;> simp_all [Json.string?_eq_some_iff]
  | .filter condition => by
    rw [Expr.toJson]
    unfold ofJson?
    split <;> simp_all [Filter.ofJson?_eq_some_iff]
  | .and operands => by
    rw [Expr.toJson]
    unfold ofJson?
    split <;> simp_all [Expr.allOfJson?_eq_some_iff _ operands]
  | .or operands => by
    rw [Expr.toJson]
    unfold ofJson?
    split <;> simp_all [Expr.allOfJson?_eq_some_iff _ operands]

theorem Expr.allOfJson?_eq_some_iff (js : List Json) :
    (es : List Expr) → (allOfJson? js = some es ↔ js = allToJson es)
  | [] => by
    rw [Expr.allToJson]
    cases js <;> simp [allOfJson?, Option.bind_eq_some_iff]
  | e :: es => by
    rw [Expr.allToJson]
    cases js with
    | nil => simp [allOfJson?]
    | cons j js =>
      simp [allOfJson?, Option.bind_eq_some_iff, Expr.ofJson?_eq_some_iff j e,
        Expr.allOfJson?_eq_some_iff js es]

end

theorem Expr.optionOfJson?_eq_some_iff (j : Json) (e : Option Expr) :
    optionOfJson? j = some e ↔ j = (e.map toJson).getD (.primitive .null) := by
  -- an expression is never written as null
  have hnull : ofJson? (.primitive .null) = none := rfl
  cases e with
  | none =>
    unfold optionOfJson?
    split <;> simp_all
  | some e =>
    unfold optionOfJson?
    split
    · simp [← ofJson?_eq_some_iff, hnull]
    · simp [ofJson?_eq_some_iff]

/-! ### Keys and marks -/

/-- A key and its mark. -/
def KeyMarks.entry? : Json.Text × Json → Option (String × Bool)
  | (some key, .primitive (.bool mark)) => some (key, mark)
  | _ => none

/-- The keys and marks that an object stands for.  They must be in order. -/
def KeyMarks.ofJson? : Json → Option KeyMarks
  | .object members => do
    let entries ← members.mapM entry?
    if h : (entries.map Prod.fst).Pairwise (· < ·) then some ⟨entries, h⟩ else none
  | _ => none

theorem KeyMarks.entry?_eq_some_iff (member : Json.Text × Json) (e : String × Bool) :
    entry? member = some e ↔ member = (some e.1, .primitive (.bool e.2)) := by
  obtain ⟨key, mark⟩ := e
  unfold entry?
  split
  · simp
  · cases mark <;> simp_all

theorem KeyMarks.ofJson?_eq_some_iff (j : Json) (m : KeyMarks) :
    ofJson? j = some m ↔ j = m.toJson := by
  obtain ⟨entries, hentries⟩ := m
  rw [toJson]
  unfold ofJson?
  split
  · simp only [Option.bind_eq_bind, Option.bind_eq_some_iff, Json.object.injEq,
      mapM_eq_some_iff_eq_map entry?_eq_some_iff]
    constructor
    · rintro ⟨es, hes, hm⟩
      split at hm
      · obtain rfl : es = entries := congrArg KeyMarks.entries (Option.some.inj hm)
        exact hes
      · cases hm
    · intro h
      exact ⟨entries, h, dif_pos hentries⟩
  · simp_all

/-! ### Reports -/

namespace Report

/-- The query and the orderings that an object stands for. -/
def ofJson? : Json → Option (Query × List String)
  | .object [(some "expr", expr), (some "sort", sort), (some "free_text", freeText),
      (some "found_filters", found), (some "order_by", orderBy)] => do
    let q : Query :=
      { expr := ← Expr.optionOfJson? expr
        sort := ← sort.strings?
        freeText := ← freeText.strings?
        found := ← KeyMarks.ofJson? found }
    pure (q, ← orderBy.strings?)
  | _ => none

/-- Read a report for programs. -/
def read? (text : String) : Option (Query × List String) :=
  (Json.read? text).bind ofJson?

variable (s : Settings) (q : Query)

theorem ofJson?_eq_some_iff (j : Json) :
    ofJson? j = some (q, s.orderBy q) ↔ j = toJson s q := by
  rw [toJson]
  unfold ofJson?
  split
  · obtain ⟨expr, sort, freeText, found⟩ := q
    simp [Option.bind_eq_some_iff, Expr.optionOfJson?_eq_some_iff, Json.strings?_eq_some_iff,
      KeyMarks.ofJson?_eq_some_iff]
  · simp_all

theorem isText_write_json : Json.IsText (toJson s q) (write s q .json) :=
  Json.isText_write Json.Layout.isBlank_indented (toJson s q)

theorem read?_write : read? (write s q .json) = some (q, s.orderBy q) := by
  have hjson : Json.read? (write s q .json) = some (toJson s q) :=
    Json.read?_write Json.Layout.isBlank_indented (toJson s q)
  rw [read?, hjson, Option.bind_some, ofJson?_eq_some_iff]

/-- What a report has to say: a query, and the orderings that its results get.
People are told on four lines, programs can read it back. -/
def Says (report : String) (q : Query) (orders : List String) : Form → Prop
  | .text => report = "\n".intercalate [
      "expr: " ++ (q.expr.map Expr.render).getD "(none)",
      "sort: " ++ ", ".intercalate orders,
      "filters: " ++ " ".intercalate (q.found.entries.map fun e =>
        e.1 ++ "=" ++ if e.2 then "true" else "false"),
      "free text: " ++ " | ".intercalate q.freeText]
  | .json => read? report = some (q, orders)

theorem entry_eq (e : String × Bool) : entry e = e.1 ++ "=" ++ if e.2 then "true" else "false" := by
  obtain ⟨key, mark⟩ := e
  cases mark <;> simp only [entry, String.append_assoc] <;> rfl

theorem says_write (form : Form) : Says (write s q form) q (s.orderBy q) form := by
  cases form with
  | json => exact read?_write s q
  | text =>
    have hsort : "\nsort: " = "\n" ++ "sort: " := by decide +kernel
    have hfilters : "\nfilters: " = "\n" ++ "filters: " := by decide +kernel
    have hfree : "\nfree text: " = "\n" ++ "free text: " := by decide +kernel
    have hentries := List.map_congr_left fun e (_ : e ∈ q.found.entries) => entry_eq e
    simp only [Says, write, toText, hsort, hfilters, hfree, hentries,
      String.intercalate_cons_cons, String.intercalate_singleton, String.append_assoc]

/-- **The form for programs loses nothing.**  A report is the text of one JSON
value and of no other, an object of five members.  That object alone stands
for the query with its orderings, so these are what the report is read back
as, and reports on different queries differ. -/
theorem read?_write_json :
    (∃ members, Json.IsText (.object members) (write s q .json) ∧
      members.map Prod.fst =
        ["expr", "sort", "free_text", "found_filters", "order_by"].map some ∧
      (∀ j, Json.IsText j (write s q .json) → j = .object members) ∧
      ∀ j, ofJson? j = some (q, s.orderBy q) ↔ j = .object members) ∧
    read? (write s q .json) = some (q, s.orderBy q) ∧
    ∀ s' q', q ≠ q' → write s q .json ≠ write s' q' .json := by
  have hread := read?_write s q
  refine ⟨⟨_, isText_write_json s q, rfl, fun j h => h.unique (isText_write_json s q),
    ofJson?_eq_some_iff s q⟩, hread, ?_⟩
  intro s' q' hne heq
  rw [heq, read?_write s' q', Option.some.injEq, Prod.mk.injEq] at hread
  exact hne hread.1.symm

/-- Two queries that are the same to a person, with characters in them that
JSON has to escape. -/
theorem read?_write_json_escapes :
    let s : Settings := { defaultSort := ["a, b"] }
    let found := (KeyMarks.seeded ["\x00", "é"]).mark "é"
    let q : Query :=
      { expr := some (.or [.value "é:\"\\\n\x1f𝄞", .and []]), sort := [], freeText := [], found }
    let q' : Query :=
      { expr := some (.or [.filter ⟨"é", "\"\\\n\x1f𝄞"⟩, .and []]), sort := ["a", "b"],
        freeText := [], found }
    (q ≠ q' ∧ write s q .text = write s q' .text) ∧
      read? (write s q .json) = some (q, ["a, b"]) ∧
        read? (write s q' .json) = some (q', ["a", "b"]) ∧
        write s q .json ≠ write s q' .json := by
  intro s found q q'
  have hne : q ≠ q' := by decide +kernel
  have htext : write s q .text = write s q' .text := by decide +kernel
  exact ⟨⟨hne, htext⟩, (read?_write_json s q).2.1, (read?_write_json s q').2.1,
    (read?_write_json s q).2.2 s q' hne⟩

end Report

end SearchQuery
