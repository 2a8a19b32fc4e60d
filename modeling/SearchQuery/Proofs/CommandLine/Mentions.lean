/-
SearchQuery/Proofs/CommandLine/Mentions.lean

What arguments say.

Arguments mention options with their values, the form for programs and texts
that are to be the query.  The same mentions can be spelled in several ways:
a value stands behind an equals sign or in an argument of its own, and texts
may stand behind a `--`.  `Spells` lists these ways, and it is all that reading
sees of the arguments (`Spells.readOn?_eq`).

Main statement: arguments are accepted if they spell mentions of which none is
made too often, and they ask for what is mentioned, option by option
(`read?_eq_run_iff`).
-/
import Mathlib.Data.List.Induction
import Mathlib.Data.Option.Basic
import SearchQuery.CommandLine.Arguments

namespace SearchQuery.CommandLine

open Arguments (Valued Kind isValue kind valued? readOn?)

/-! ### Kinds of arguments -/

/-- The name of an option, without its dashes. -/
def Arguments.Valued.name : Valued → String
  | .allow => "allow"
  | .defaultSort => "default-sort"
  | .config => "config"

theorem valued?_eq_some_iff {name : List Char} {option : Valued} :
    valued? name = some option ↔ String.ofList name = option.name := by
  unfold valued?
  split <;> cases option <;> simp_all [Valued.name]

/-- How an argument of a kind is written. -/
inductive WrittenAs : Kind → String → Prop
  | valued {option : Valued} {value : String} :
      WrittenAs (.valued option value) ("--" ++ option.name ++ "=" ++ value)
  | awaiting {option : Valued} : WrittenAs (.awaiting option) ("--" ++ option.name)
  | json : WrittenAs .json "--json"
  | endOfOptions : WrittenAs .endOfOptions "--"
  | positional {text : String} : isValue text = true → WrittenAs .positional text

theorem equals_not_mem_name (option : Valued) : ∀ c ∈ option.name.toList, (c != '=') = true := by
  apply List.all_eq_true.1
  cases option <;> decide

theorem eq_cut_at_equals {name value : List Char} {c : Char}
    (h : name.dropWhile (· != '=') = c :: value) :
    name = name.takeWhile (· != '=') ++ '=' :: value := by
  obtain rfl : c = '=' := by
    have hhead := List.head?_dropWhile_not (· != '=') name
    simpa [h] using hhead
  rw [← h, List.takeWhile_append_dropWhile]

theorem eq_dashes_append {argument : String} {name : List Char}
    (h : argument.toList = '-' :: '-' :: name) : argument = "--" ++ String.ofList name := by
  rw [← String.toList_inj, h]
  simp

theorem WrittenAs.kind_eq {k : Kind} {argument : String} (h : WrittenAs k argument) :
    kind argument = k := by
  cases h with
  | @valued option value =>
    have hchars : ("--" ++ option.name ++ "=" ++ value).toList
        = '-' :: '-' :: (option.name.toList ++ '=' :: value.toList) := by
      simp
    have hname := equals_not_mem_name option
    have hvalued : valued? option.name.toList = some option :=
      valued?_eq_some_iff.2 String.ofList_toList
    unfold kind
    split
    · simp_all
    · rename_i name _ h
      obtain rfl : option.name.toList ++ '=' :: value.toList = name := by simpa [hchars] using h
      simp [List.dropWhile_append_of_pos hname, List.takeWhile_append_of_pos hname, hvalued]
    all_goals simp_all
  | @awaiting option => cases option <;> decide
  | json => decide
  | endOfOptions => decide
  | @positional text h =>
    unfold isValue at h
    unfold kind
    split at h
    · cases h
    · split <;> simp_all

/-- There is no other way to write them. -/
theorem writtenAs_of_kind {k : Kind} {argument : String} (h : kind argument = k)
    (hhelp : k ≠ .help) (hknown : k ≠ .unknown) : WrittenAs k argument := by
  -- the cases are those of the definition, in its order
  unfold kind at h
  split at h
  · rename_i hchars
    obtain rfl : argument = "--" := String.toList_inj.1 hchars
    exact h ▸ .endOfOptions
  · rename_i name _ hchars
    rw [eq_dashes_append hchars]
    split at h
    · rename_i c value hdrop
      split at h
      · rename_i option hvalued
        subst h
        have hname : String.ofList name = option.name ++ "=" ++ String.ofList value := by
          rw [eq_cut_at_equals hdrop, String.ofList_append, valued?_eq_some_iff.1 hvalued,
            ← String.toList_inj]
          simp
        rw [hname, ← String.append_assoc, ← String.append_assoc]
        exact .valued
      · exact absurd h.symm hknown
    · split at h
      · rename_i option hvalued
        rw [valued?_eq_some_iff.1 hvalued]
        exact h ▸ .awaiting
      · split at h
        · rename_i hjson
          rw [hjson]
          exact h ▸ .json
        · split at h
          · exact absurd h.symm hhelp
          · exact absurd h.symm hknown
  · exact absurd h.symm hhelp
  · exact absurd h.symm hknown
  · rename_i hother
    subst h
    refine .positional ?_
    unfold isValue
    split
    · rename_i hchars
      exact (hother _ _ hchars).elim
    · rfl

/-! ### Mentions -/

/-- What one or two arguments mention. -/
inductive Mention where
  /-- An option with its value. -/
  | valued (option : Valued) (value : String)
  /-- The form for programs. -/
  | json
  /-- A text that is to be the query. -/
  | query (text : String)
  deriving DecidableEq

namespace Mention

/-- The value that an option is given. -/
def value? (option : Valued) : Mention → Option String
  | valued o value => if o = option then some value else none
  | _ => none

/-- The text that is to be the query. -/
def query? : Mention → Option String
  | query text => some text
  | _ => none

/-- Note what is mentioned, unless it is out of place. -/
def note? (a : Arguments) : Mention → Option Arguments
  | valued option value => a.set? value option
  | json => a.setJson?
  | query text => a.setQuery? text

end Mention

/-- The ways in which mentions are spelled. -/
inductive Spells : List Mention → List String → Prop
  | nil : Spells [] []
  /-- An option and its value in one argument. -/
  | joined {option : Valued} {value ms args} : Spells ms args →
      Spells (.valued option value :: ms) (("--" ++ option.name ++ "=" ++ value) :: args)
  /-- An option and its value in two arguments. -/
  | apart {option : Valued} {value ms args} : isValue value = true → Spells ms args →
      Spells (.valued option value :: ms) (("--" ++ option.name) :: value :: args)
  | json {ms args} : Spells ms args → Spells (.json :: ms) ("--json" :: args)
  | query {text ms args} : isValue text = true → Spells ms args →
      Spells (.query text :: ms) (text :: args)
  /-- Behind `--` any text can be the query. -/
  | texts (texts : List String) : Spells (texts.map .query) ("--" :: texts)

variable {ms : List Mention} {args : List String}

theorem map_foldlM_note?_cons (a : Arguments) (m : Mention) (ms : List Mention) :
    ((m :: ms).foldlM Mention.note? a).map Request.run
      = (m.note? a).bind fun a' => (ms.foldlM Mention.note? a').map Request.run := by
  rw [List.foldlM_cons, Option.bind_eq_bind, Option.map_bind]
  rfl

/-- Reading notes what is mentioned, one after the other. -/
theorem Spells.readOn?_eq (h : Spells ms args) (a : Arguments) :
    readOn? a args = (ms.foldlM Mention.note? a).map .run := by
  induction h generalizing a with
  | nil => rfl
  | @joined option value ms args _ ih =>
    have hkind : kind ("--" ++ option.name ++ "=" ++ value) = .valued option value :=
      WrittenAs.valued.kind_eq
    rw [map_foldlM_note?_cons, readOn?, hkind]
    simp only [ih]
    rfl
  | @apart option value ms args hvalue _ ih =>
    have hkind : kind ("--" ++ option.name) = .awaiting option := WrittenAs.awaiting.kind_eq
    rw [map_foldlM_note?_cons, readOn?, hkind]
    simp only [hvalue, guard_true, ih]
    rfl
  | json _ ih =>
    rw [map_foldlM_note?_cons, readOn?, WrittenAs.json.kind_eq]
    simp only [ih]
    rfl
  | query hvalue _ ih =>
    rw [map_foldlM_note?_cons, readOn?, (WrittenAs.positional hvalue).kind_eq]
    simp only [ih]
    rfl
  | texts texts =>
    rw [readOn?, WrittenAs.endOfOptions.kind_eq, List.foldlM_map]
    rfl

/-- Arguments that are accepted spell mentions. -/
theorem exists_spells_of_readOn? {a b : Arguments} (h : readOn? a args = some (.run b)) :
    ∃ ms, Spells ms args := by
  fun_induction readOn? a args with
  | case1 => exact ⟨[], .nil⟩
  | case2 a argument rest option value hkind ih =>
    obtain ⟨a', -, hrest⟩ := Option.bind_eq_some_iff.1 h
    obtain ⟨ms, hms⟩ := ih a' hrest
    obtain ⟨⟩ := writtenAs_of_kind hkind nofun nofun
    exact ⟨_, .joined hms⟩
  | case3 a argument option hkind value rest ih =>
    obtain ⟨_, hguard, hrest⟩ := Option.bind_eq_some_iff.1 h
    have hvalue : isValue value = true := by simpa [guard] using hguard
    obtain ⟨a', -, hrest⟩ := Option.bind_eq_some_iff.1 hrest
    obtain ⟨ms, hms⟩ := ih a' hrest
    obtain ⟨⟩ := writtenAs_of_kind hkind nofun nofun
    exact ⟨_, .apart hvalue hms⟩
  | case5 a argument rest hkind ih =>
    obtain ⟨a', -, hrest⟩ := Option.bind_eq_some_iff.1 h
    obtain ⟨ms, hms⟩ := ih a' hrest
    obtain ⟨⟩ := writtenAs_of_kind hkind nofun nofun
    exact ⟨_, .json hms⟩
  | case7 a argument rest hkind =>
    obtain ⟨⟩ := writtenAs_of_kind hkind nofun nofun
    exact ⟨_, .texts rest⟩
  | case8 a argument rest hkind ih =>
    obtain ⟨a', -, hrest⟩ := Option.bind_eq_some_iff.1 h
    obtain ⟨ms, hms⟩ := ih a' hrest
    cases writtenAs_of_kind hkind nofun nofun with
    | positional hvalue => exact ⟨_, .query hvalue hms⟩
  | case4 | case6 | case9 => cases h

/-! ### What is asked for -/

/-- The values that an option is given, in order. -/
def values (option : Valued) (ms : List Mention) : List String :=
  ms.filterMap (Mention.value? option)

/-- The texts that are to be the query. -/
def queries (ms : List Mention) : List String :=
  ms.filterMap Mention.query?

/-- There is one query at most and one file, which has a name, and the form for
programs is mentioned once at most. -/
structure Proper (ms : List Mention) : Prop where
  query : (queries ms).length ≤ 1
  json : ms.count .json ≤ 1
  config : (values .config ms).length ≤ 1
  named : "" ∉ values .config ms

/-- What is mentioned, option by option. -/
def collect (ms : List Mention) : Arguments where
  allow := values .allow ms
  defaultSort := values .defaultSort ms
  config := (values .config ms).head?
  form := if .json ∈ ms then .json else .text
  query := (queries ms).head?

section

variable (option o : Valued) (value text : String) (ms' : List Mention)

theorem values_append : values option (ms ++ ms') = values option ms ++ values option ms' :=
  List.filterMap_append

theorem queries_append : queries (ms ++ ms') = queries ms ++ queries ms' :=
  List.filterMap_append

@[simp] theorem values_valued :
    values option [.valued o value] = if o = option then [value] else [] := by
  by_cases h : o = option <;> simp [values, Mention.value?, h]

@[simp] theorem values_json : values option [.json] = [] := rfl

@[simp] theorem values_query : values option [.query text] = [] := rfl

@[simp] theorem queries_valued : queries [.valued o value] = [] := rfl

@[simp] theorem queries_json : queries [.json] = [] := rfl

@[simp] theorem queries_query : queries [.query text] = [text] := rfl

end

theorem Proper.of_append {ms' : List Mention} (h : Proper (ms ++ ms')) : Proper ms := by
  obtain ⟨hquery, hjson, hconfig, hnamed⟩ := h
  rw [queries_append, List.length_append] at hquery
  rw [List.count_append] at hjson
  rw [values_append, List.length_append] at hconfig
  rw [values_append] at hnamed
  exact ⟨by omega, by omega, by omega, fun h => hnamed (List.mem_append_left _ h)⟩

theorem proper_iff : Proper ms ↔ (queries ms).length ≤ 1 ∧ ms.count .json ≤ 1 ∧
    (values .config ms).length ≤ 1 ∧ "" ∉ values .config ms :=
  ⟨fun h => ⟨h.query, h.json, h.config, h.named⟩, fun ⟨hq, hj, hc, hn⟩ => ⟨hq, hj, hc, hn⟩⟩

instance (ms : List Mention) : Decidable (Proper ms) :=
  decidable_of_iff _ proper_iff.symm

/-- A mention is out of place if it is one too many, and if it names no
file. -/
theorem proper_concat_iff (h : Proper ms) (m : Mention) :
    Proper (ms ++ [m]) ↔
      match m with
      | .valued .config value => values .config ms = [] ∧ value ≠ ""
      | .valued _ _ => True
      | .json => .json ∉ ms
      | .query _ => queries ms = [] := by
  obtain ⟨hquery, hjson, hconfig, hnamed⟩ := h
  rw [proper_iff, values_append, queries_append]
  match m with
  | .valued .config value =>
    have hname : "" = value ↔ ¬ value ≠ "" := by rw [eq_comm, ne_eq, not_not]
    simp [hquery, hjson, hnamed, hname]
  | .valued .allow value | .valued .defaultSort value => simp [hquery, hjson, hconfig, hnamed]
  | .json => simp [hquery, hconfig, hnamed, List.count_eq_zero]
  | .query text => simp [hjson, hconfig, hnamed]

theorem ite_none_eq_some_iff {α : Type} {c p : Prop} [Decidable c] {a b b' : α} (hp : p ↔ ¬ c)
    (ha : ¬ c → a = b') : (if c then none else some a) = some b ↔ p ∧ b = b' := by
  by_cases hc : c
  · simp [hp, hc]
  · simp [hp, hc, ha hc, eq_comm]

/-- One more mention is noted if it is not out of place. -/
theorem note?_collect (h : Proper ms) (m : Mention) (b : Arguments) :
    m.note? (collect ms) = some b ↔ Proper (ms ++ [m]) ∧ b = collect (ms ++ [m]) := by
  rw [proper_concat_iff h]
  match m with
  | .valued .allow value | .valued .defaultSort value =>
    rw [Mention.note?, Arguments.set?, Option.some_inj, eq_comm]
    simp [collect, values_append, queries_append]
  | .valued .config value =>
    refine ite_none_eq_some_iff ?_ fun hfirst => ?_
    · simp [collect]
    · obtain ⟨hnone, -⟩ : values .config ms = [] ∧ value ≠ "" := by simpa [collect] using hfirst
      simp [collect, values_append, queries_append, hnone]
  | .json =>
    refine ite_none_eq_some_iff ?_ fun hfirst => ?_
    · simp [collect]
    · simp [collect, values_append, queries_append]
  | .query text =>
    refine ite_none_eq_some_iff ?_ fun hfirst => ?_
    · simp [collect]
    · have hnone : queries ms = [] := by simpa [collect] using hfirst
      simp [collect, values_append, queries_append, hnone]

/-- Mentions are noted one after the other, and from the first that is out of
place there is no way back. -/
theorem foldlM_note? (ms : List Mention) (b : Arguments) :
    ms.foldlM Mention.note? {} = some b ↔ Proper ms ∧ b = collect ms := by
  induction ms using List.reverseRecOn generalizing b with
  | nil =>
    have hproper : Proper [] := ⟨Nat.zero_le 1, Nat.zero_le 1, Nat.zero_le 1, List.not_mem_nil⟩
    show some ({} : Arguments) = some b ↔ _
    rw [and_iff_right hproper, Option.some_inj, eq_comm]
    rfl
  | append_singleton ms m ih =>
    have hlast : (ms ++ [m]).foldlM Mention.note? {}
        = (ms.foldlM Mention.note? {}).bind m.note? := by
      simp
    rw [hlast, Option.bind_eq_some_iff]
    constructor
    · rintro ⟨a, ha, hb⟩
      obtain ⟨hproper, rfl⟩ := (ih a).1 ha
      exact (note?_collect hproper m b).1 hb
    · rintro ⟨hproper, hb⟩
      have hfront := hproper.of_append
      exact ⟨collect ms, (ih _).2 ⟨hfront, rfl⟩, (note?_collect hfront m b).2 ⟨hproper, hb⟩⟩

/-- **Arguments are accepted** if they spell mentions of which none is out of
place, and they ask for what is mentioned. -/
theorem read?_eq_run_iff {a : Arguments} :
    Arguments.read? args = some (.run a) ↔ ∃ ms, Spells ms args ∧ Proper ms ∧ a = collect ms := by
  have hread : ∀ {ms}, Spells ms args →
      (Arguments.read? args = some (.run a) ↔ Proper ms ∧ a = collect ms) := by
    intro ms hms
    rw [Arguments.read?, hms.readOn?_eq, Option.map_eq_some_iff, ← foldlM_note?]
    simp
  -- this holds of every spelling, so it is enough to have one
  constructor
  · intro h
    obtain ⟨ms, hms⟩ := exists_spells_of_readOn? h
    exact ⟨ms, hms, (hread hms).1 h⟩
  · rintro ⟨ms, hms, hproper⟩
    exact (hread hms).2 hproper

end SearchQuery.CommandLine
