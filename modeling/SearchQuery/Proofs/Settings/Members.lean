/-
SearchQuery/Proofs/Settings/Members.lean

Reading settings.

Of the members of an object, a reader of settings looks at those with the
names of the two lists, and it is told each of the lists if there is one such
member, or none and the list is empty (`ofJson?_object_eq_some_iff`).  In which
order they stand, and what stands between them, is not looked at.

Main statement: settings are read from every text of an object with members
for the two lists (`Written`), in either order, with or without those for
lists that are empty, with any other members and any blanks between them
(`read?_of_written`).  What is written for settings is one of these texts.
-/
import SearchQuery.Proofs.Json.Written
import SearchQuery.Settings

namespace SearchQuery

/-! ### Lists of texts -/

/-- Where `f` undoes `g` and takes nothing else, it does so along lists. -/
theorem mapM_eq_some_iff_eq_map {α β : Type} {f : α → Option β} {g : β → α}
    (h : ∀ x y, f x = some y ↔ x = g y) (xs : List α) (ys : List β) :
    xs.mapM f = some ys ↔ xs = ys.map g := by
  induction xs generalizing ys with
  | nil => cases ys <;> simp
  | cons x xs ih => cases ys <;> simp [Option.bind_eq_some_iff, h, ih]

theorem Json.string?_eq_some_iff (j : Json) (s : String) : j.string? = some s ↔ j = ofString s := by
  rw [ofString]
  unfold string?
  split <;> simp_all

theorem Json.strings?_eq_some_iff (j : Json) (ss : List String) :
    j.strings? = some ss ↔ j = ofStrings ss := by
  rw [ofStrings]
  unfold strings?
  split <;> simp_all [mapM_eq_some_iff_eq_map string?_eq_some_iff]

namespace Settings

/-! ### Members with a name -/

/-- The members that tell a list: one with its name, or none if the list is
empty. -/
inductive Tells (name : String) (ss : List String) : List (Json.Text × Json) → Prop
  | member : Tells name ss [(some name, .ofStrings ss)]
  | absent : ss = [] → Tells name ss []

/-- The members with a name. -/
def named (name : String) (members : List (Json.Text × Json)) : List (Json.Text × Json) :=
  members.filter (·.1 == some name)

variable {name : String} {ss : List String} {members known : List (Json.Text × Json)}

theorem member?_eq_some_iff :
    member? name members = some ss ↔ Tells name ss (named name members) := by
  have hname : ∀ m ∈ named name members, m.1 = some name := fun m hm => by
    simpa using (List.mem_filter.1 hm).2
  unfold member?
  rw [← named]
  generalize named name members = ms at hname ⊢
  rcases ms with - | ⟨⟨text, j⟩, - | ⟨m, ms⟩⟩
  · constructor
    · intro h
      exact .absent (Option.some.inj h).symm
    · intro h
      cases h with
      | absent h => rw [h]
  · obtain rfl : text = some name := hname _ List.mem_cons_self
    show j.strings? = some ss ↔ _
    rw [Json.strings?_eq_some_iff]
    constructor
    · rintro rfl
      exact .member
    · intro h
      cases h with
      | member => rfl
  · -- a list is not told twice
    constructor
    · intro h
      cases h
    · intro h
      cases h

/-- **The settings that an object stands for** are told by the members with the
names of the lists.  All other members need no more than a text for a name. -/
theorem ofJson?_object_eq_some_iff {s : Settings} :
    ofJson? (.object members) = some s ↔ (∀ m ∈ members, m.1.isSome = true) ∧
      Tells "allowed_filters" s.allowedFilters (named "allowed_filters" members) ∧
      Tells "default_sort" s.defaultSort (named "default_sort" members) := by
  obtain ⟨allowed, sort⟩ := s
  rw [← List.all_eq_true, ← member?_eq_some_iff, ← member?_eq_some_iff]
  unfold ofJson?
  by_cases hnames : (members.all fun m => m.1.isSome) = true
  · simp [guard, hnames, Option.bind_eq_some_iff, -List.all_eq_true]
  · simp [guard, hnames, -List.all_eq_true]

/-! ### Members as they may be written -/

/-- Members with other names put anywhere between some others. -/
inductive Extends : List (Json.Text × Json) → List (Json.Text × Json) → Prop
  | nil : Extends [] []
  | keep (m) {ms ns} : Extends ms ns → Extends (m :: ms) (m :: ns)
  | insert {name : String} (j : Json) {ms ns} : name ≠ "allowed_filters" →
      name ≠ "default_sort" → Extends ms ns → Extends ms ((some name, j) :: ns)

/-- Members that tell settings: those for the two lists, in either order, with
any others put between them. -/
inductive Written (s : Settings) : List (Json.Text × Json) → Prop
  | intro {allowed sort known members} : Tells "allowed_filters" s.allowedFilters allowed →
      Tells "default_sort" s.defaultSort sort → known.Perm (allowed ++ sort) →
      Extends known members → Written s members

theorem Extends.refl : (members : List (Json.Text × Json)) → Extends members members
  | [] => .nil
  | m :: ms => .keep m (refl ms)

theorem Extends.isSome (h : Extends known members) (hknown : ∀ m ∈ known, m.1.isSome = true) :
    ∀ m ∈ members, m.1.isSome = true := by
  induction h with
  | nil => exact hknown
  | keep m _ ih =>
    obtain ⟨hm, hms⟩ := List.forall_mem_cons.1 hknown
    exact List.forall_mem_cons.2 ⟨hm, ih hms⟩
  | insert j _ _ _ ih => exact List.forall_mem_cons.2 ⟨rfl, ih hknown⟩

/-- Nobody who looks for one of the lists sees the others. -/
theorem Extends.named_eq (h : Extends known members)
    (hname : name = "allowed_filters" ∨ name = "default_sort") :
    named name members = named name known := by
  induction h with
  | nil => rfl
  | keep m _ ih =>
    simp only [named, List.filter_cons] at ih ⊢
    rw [ih]
  | @insert other j _ _ hallowed hsort _ ih =>
    have hother : ((some other : Json.Text) == some name) = false := by
      rcases hname with rfl | rfl <;> simp [*]
    rw [← ih, named, List.filter_cons_of_neg (by simp [hother])]
    rfl

theorem Tells.isSome (h : Tells name ss members) : ∀ m ∈ members, m.1.isSome = true := by
  cases h with
  | member => exact List.forall_mem_singleton.2 rfl
  | absent => exact List.forall_mem_nil _

theorem Tells.named_self (h : Tells name ss members) : named name members = members := by
  cases h with
  | member => simp [named]
  | absent => rfl

theorem Tells.named_of_ne (h : Tells name ss members) {other : String} (hne : name ≠ other) :
    named other members = [] := by
  cases h with
  | member => simp [named, hne]
  | absent => rfl

/-- The order of one member or none does not matter. -/
theorem Tells.of_perm (h : Tells name ss members) (hperm : known.Perm members) :
    Tells name ss known := by
  cases h with
  | member =>
    rw [List.perm_singleton.1 hperm]
    exact .member
  | absent hnil =>
    rw [List.perm_nil.1 hperm]
    exact .absent hnil

/-- A list is told where other members stand that tell another list. -/
theorem Tells.named_of_perm {other : String} {ss' : List String}
    {others : List (Json.Text × Json)} (h : Tells name ss members)
    (hothers : Tells other ss' others) (hne : other ≠ name)
    (hperm : known.Perm (members ++ others)) : Tells name ss (named name known) := by
  have hnamed : named name (members ++ others) = members := by
    rw [named, List.filter_append, ← named, ← named, h.named_self, hothers.named_of_ne hne,
      List.append_nil]
  apply h.of_perm
  have hfilter := hperm.filter fun m => m.1 == some name
  rwa [← named, ← named, hnamed] at hfilter

variable {s : Settings}

theorem ofJson?_of_written (h : s.Written members) : ofJson? (.object members) = some s := by
  obtain @⟨allowed, sort, known, _, hallowed, hsort, hperm, hextends⟩ := h
  have hnames : ∀ m ∈ known, m.1.isSome = true := fun m hm =>
    List.forall_mem_append.2 ⟨hallowed.isSome, hsort.isSome⟩ m (hperm.subset hm)
  rw [ofJson?_object_eq_some_iff, hextends.named_eq (.inl rfl), hextends.named_eq (.inr rfl)]
  refine ⟨hextends.isSome hnames, ?_, ?_⟩
  · exact hallowed.named_of_perm hsort (by decide) hperm
  · exact hsort.named_of_perm hallowed (by decide) (hperm.trans List.perm_append_comm)

theorem written_toJson (s : Settings) :
    ∃ members, s.toJson = .object members ∧ s.Written members :=
  ⟨_, rfl, .intro .member .member (.refl _) (.refl _)⟩

/-- Settings are read from every text of an object that tells them. -/
theorem read?_of_isText {text : String} (h : s.Written members)
    (htext : Json.IsText (.object members) text) : read? text = some s := by
  rw [read?, Json.read?_of_isText htext, Option.bind_some]
  exact ofJson?_of_written h

/-- **Settings are read as they were written**, and as they may be written by
hand: the members for the two lists in either order, those for empty lists left
out, members with other names and blanks wherever there can be any. -/
theorem read?_of_written (s : Settings) :
    read? s.write = some s ∧ ∀ members text, s.Written members →
      Json.IsText (.object members) text → read? text = some s := by
  obtain ⟨members, hjson, hwritten⟩ := written_toJson s
  have htext : Json.IsText (.object members) s.write := by
    rw [← hjson]
    exact Json.isText_write Json.Layout.isBlank_compact s.toJson
  exact ⟨read?_of_isText hwritten htext, fun _ _ => read?_of_isText⟩

/-- The list of keys behind the orderings, members that nobody knows in front
of them and between them, and each on a line of its own. -/
theorem read?_of_written_reordered :
    let s : Settings := ⟨["tag", "\x00é"], ["\"𝄞\" desc"]⟩
    let members : List (Json.Text × Json) := [
      (some "x", .array [.primitive .null, .object [(none, .array [])]]),
      (some "default_sort", .ofStrings s.defaultSort),
      (some "x", .primitive (.number ⟨['-', '1', 'e', '9'], rfl⟩)),
      (some "allowed_filters", .ofStrings s.allowedFilters)]
    s.Written members ∧
      Json.IsText (.object members) ((Json.object members).write .indented) ∧
      read? ((Json.object members).write .indented) = some s := by
  intro s members
  have hwritten : s.Written members :=
    .intro .member .member (List.Perm.swap _ _ _)
      (.insert _ (by decide) (by decide) (.keep _ (.insert _ (by decide) (by decide)
        (.keep _ .nil))))
  have htext : Json.IsText (.object members) ((Json.object members).write .indented) :=
    Json.isText_write Json.Layout.isBlank_indented _
  exact ⟨hwritten, htext, (read?_of_written s).2 _ _ hwritten htext⟩

end Settings

end SearchQuery
