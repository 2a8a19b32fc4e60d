/-
SearchQuery/Grammar/Reading.lean

Readings: what the tokens at the front of a list were taken as, and what
came of it.

A reading names the role of each token that it took, also when it ends in
an error.  Roles tell how far reading got and which keys were met, so
neither is kept beside them.  What is left is `ts.drop r.taken`, which is
never longer than `ts` whatever was taken; the rules of the grammar end by
the length of the list for that reason alone.  And since a reading does not
hold what it left, lists that differ only there have equal readings.
-/
namespace SearchQuery

/-! ### Errors -/

/-- Why a query cannot be read. -/
inductive ParseError where
  /-- A group has no closing parenthesis. -/
  | unclosedGroup
  /-- Groups are nested more than `limit` levels deep. -/
  | tooDeep (limit : Nat)
  deriving DecidableEq

/-- What the user is told. -/
def ParseError.message : ParseError → String
  | .unclosedGroup => "expected ')'"
  | .tooDeep limit => "groups nested deeper than " ++ toString limit ++ " levels"

namespace Grammar

/-! ### Roles -/

/-- What a token is taken as. -/
inductive Role where
  /-- An `AND` between two operands. -/
  | joins
  /-- An `OR` between two clauses. -/
  | alternates
  /-- An operator where an operand should be. -/
  | stray
  /-- The `(` of a group. -/
  | opens
  /-- The `)` of a group. -/
  | closes
  /-- A filter on an allowed key. -/
  | filter (key : String)
  /-- The value of the filter before it. -/
  | argument
  /-- A text with a colon behind a key that is not allowed. -/
  | literal
  /-- A quoted text without a colon. -/
  | phrase
  /-- A word of a run of words. -/
  | word
  deriving DecidableEq

/-- The key that a token in this role makes use of. -/
def Role.key? : Role → Option String
  | .filter key => some key
  | _ => none

/-! ### Readings -/

/-- What tokens at the front of a list were read as. -/
structure Reading (α : Type) where
  /-- The roles of the tokens, up to where reading stopped. -/
  roles : List Role
  outcome : Except ParseError α

namespace Reading

variable {α β : Type}

/-- How many tokens were taken. -/
def taken (r : Reading α) : Nat :=
  r.roles.length

/-- The keys that were met, in order. -/
def used (r : Reading α) : List String :=
  r.roles.filterMap Role.key?

/-- Tokens in the given roles that come to a value. -/
def take (roles : List Role) (a : α) : Reading α :=
  ⟨roles, .ok a⟩

/-- An error in front of the next token. -/
def fail (why : ParseError) : Reading α :=
  ⟨[], .error why⟩

/-- One reading behind another.  Nothing is read behind an error. -/
def andThen (r : Reading α) (next : α → Reading β) : Reading β :=
  match r.outcome with
  | .ok a => ⟨r.roles ++ (next a).roles, (next a).outcome⟩
  | .error why => ⟨r.roles, .error why⟩

/-- The same tokens in the same roles, and another value. -/
def map (f : α → β) (r : Reading α) : Reading β :=
  ⟨r.roles, r.outcome.map f⟩

/-! ### Readings that come to a value -/

@[simp] theorem taken_take (roles : List Role) (a : α) :
    (take roles a).taken = roles.length := rfl

@[simp] theorem used_take (roles : List Role) (a : α) :
    (take roles a).used = roles.filterMap Role.key? := rfl

@[simp] theorem outcome_take (roles : List Role) (a : α) :
    (take roles a).outcome = .ok a := rfl

@[simp] theorem map_take (f : α → β) (roles : List Role) (a : α) :
    (take roles a).map f = take roles (f a) := rfl

theorem take_inj {roles rs : List Role} {a b : α} :
    take roles a = take rs b ↔ roles = rs ∧ a = b := by
  simp [take]

/-- A reading comes to a value or to an error. -/
theorem eq_take_or_error (r : Reading α) :
    (∃ a, r = take r.roles a) ∨ ∃ why, r.outcome = .error why := by
  obtain ⟨roles, why | a⟩ := r
  · exact .inr ⟨why, rfl⟩
  · exact .inl ⟨a, rfl⟩

theorem eq_take_of_outcome {r : Reading α} {a : α} (h : r.outcome = .ok a) :
    r = take r.roles a := by
  obtain ⟨roles, outcome⟩ := r
  obtain rfl : outcome = .ok a := h
  rfl

theorem take_andThen {rs rs' : List Role} {a : α} {b : β} {next : α → Reading β}
    (h : next a = take rs' b) : (take rs a).andThen next = take (rs ++ rs') b := by
  simp only [andThen, take, h]

theorem map_map {γ : Type} (f : α → β) (g : β → γ) (r : Reading α) :
    (r.map f).map g = r.map (g ∘ f) := by
  obtain ⟨rs, why | a⟩ := r <;> rfl

theorem map_andThen {γ : Type} (f : β → γ) (r : Reading α) (next : α → Reading β) :
    (r.andThen next).map f = r.andThen fun a => (next a).map f := by
  obtain ⟨rs, why | a⟩ := r <;> rfl

/-- Two readings, one behind the other, come to a value if both do. -/
theorem andThen_eq_take_iff {r : Reading α} {next : α → Reading β}
    {roles : List Role} {b : β} :
    r.andThen next = take roles b ↔
      ∃ rs a rs', r = take rs a ∧ next a = take rs' b ∧ roles = rs ++ rs' := by
  obtain ⟨rs, why | a⟩ := r
  · simp [andThen, take]
  · constructor
    · intro h
      refine ⟨rs, a, (next a).roles, rfl, ?_, ?_⟩
      · exact eq_take_of_outcome (congrArg outcome h)
      · exact (congrArg Reading.roles h).symm
    · rintro ⟨_, _, rs', e, h, rfl⟩
      obtain ⟨rfl, rfl⟩ := take_inj.1 e
      exact take_andThen h

theorem map_eq_take_iff {f : α → β} {r : Reading α} {roles : List Role} {b : β} :
    r.map f = take roles b ↔ ∃ a, r = take roles a ∧ f a = b := by
  obtain ⟨rs, why | a⟩ := r
  · simp [map, take, Except.map]
  · constructor
    · intro h
      obtain ⟨rfl, rfl⟩ := take_inj.1 h
      exact ⟨a, rfl, rfl⟩
    · rintro ⟨_, e, rfl⟩
      obtain ⟨rfl, rfl⟩ := take_inj.1 e
      rfl

end Reading

end Grammar

end SearchQuery
