/-
SearchQuery/Proofs/Grammar/Explicit.lean

Queries with every operator written out.

Between two operands of a clause the `AND` may be left out, and an operator
that separates operands may be written in any case and in quotes.  Which
tokens are operators, and where two operands stand side by side, depends on
everything that came before; but it can be seen from the roles in which the
tokens were read.  `expandAll` takes these roles and writes the tokens with an
`AND` wherever operands stand side by side, and every separating operator as
a word in upper case.

Main statement: tokens that are written out are read as they were before
(`parse_explicit`), to the same expression, the same marks or the same error,
and nothing is left in them to write out.  An `AND` that is put in changes
what stands behind a run of words and behind a filter without a value; the
proof follows two runs of the machine, which come to the same state behind
each token of the first (`Machine.read_expand`).

The roles tell where operands stand side by side, because the machine begins an
operand beside another just there (`Machine.sideBySide_iff_beside`).  So the
same tokens come of writing out along the run of the machine, where it is the
state in front of a token that decides (`Machine.WritesOut`).
-/
import SearchQuery.KeyMarks
import SearchQuery.Proofs.Grammar.Machine

namespace SearchQuery.Grammar

/-! ### Writing operators out -/

/-- Whether an operand, or a part of it, may end with a token in this role. -/
def Role.ends : Role → Bool
  | .joins | .alternates | .opens => false
  | _ => true

/-- Whether an operand may begin with a token in this role. -/
def Role.begins : Role → Bool
  | .joins | .alternates | .closes | .argument => false
  | _ => true

/-- Whether one operand ends and the next one begins between two tokens in
these roles.  Words next to each other are one operand. -/
def sideBySide (before role : Role) : Bool :=
  before.ends && role.begins && (before != .word || role != .word)

/-- A token that was read in some role behind one in the role `before`, with
its operator written out. -/
def expand (before role : Role) (t : Token) : List Token :=
  match role with
  | .joins => [.word "AND"]
  | .alternates => [.word "OR"]
  | _ => if sideBySide before role then [.word "AND", t] else [t]

/-- Tokens that were read in these roles, with their operators written out.
Tokens without a role stay as they are. -/
def expandAll (before : Role) : List Role → List Token → List Token
  | role :: roles, t :: ts => expand before role t ++ expandAll role roles ts
  | _, ts => ts

/-- The roles of the tokens that a reading came to.  A `(` that opens a group
too many is come to and not taken. -/
def Reading.reached {α : Type} (r : Reading α) : List Role :=
  match r.outcome with
  | .error (.tooDeep _) => r.roles ++ [.opens]
  | _ => r.roles

theorem Reading.filterMap_key?_reached {α : Type} (r : Reading α) :
    r.reached.filterMap Role.key? = r.used := by
  obtain ⟨roles, why | a⟩ := r
  · cases why with
    | unclosedGroup => rfl
    | tooDeep limit =>
      show (roles ++ [Role.opens]).filterMap Role.key? = roles.filterMap Role.key?
      rw [List.filterMap_append]
      exact List.append_nil _
  · rfl

theorem Reading.reached_take_andThen {α β : Type} (roles : List Role) (a : α)
    (next : α → Reading β) :
    ((take roles a).andThen next).reached = roles ++ (next a).reached := by
  rcases h : next a with ⟨roles', why | b⟩
  · cases why <;> simp [reached, andThen, take, h]
  · simp [reached, andThen, take, h]

/-- The tokens with the operators written out that were read as separators, or
left out.  A query begins as a group does, with an operand. -/
def explicit (allowed : String → Bool) (ts : List Token) : List Token :=
  expandAll .opens (parse allowed ts).reached ts

/-! ### The roles of tokens that are written out -/

/-- The roles of `expand`. -/
def expandRole (before role : Role) : List Role :=
  if sideBySide before role then [.joins, role] else [role]

/-- The roles of `expandAll`. -/
def expandRoles (before : Role) : List Role → List Role
  | [] => []
  | role :: roles => expandRole before role ++ expandRoles role roles

variable {before role : Role} {t : Token} {text : String}

theorem expand_of_not_sideBySide (h : sideBySide before role = false) (hjoin : role ≠ .joins)
    (halt : role ≠ .alternates) :
    expand before role t = [t] ∧ expandRole before role = [role] := by
  constructor
  · unfold expand
    split
    · exact absurd rfl hjoin
    · exact absurd rfl halt
    · rw [h, if_neg Bool.false_ne_true]
  · rw [expandRole, h, if_neg Bool.false_ne_true]

theorem expand_of_sideBySide (h : sideBySide before role = true) :
    expand before role t = [.word "AND", t] ∧ expandRole before role = [.joins, role] := by
  constructor
  · unfold expand
    split
    · simp [sideBySide, Role.begins] at h
    · simp [sideBySide, Role.begins] at h
    · rw [if_pos h]
  · rw [expandRole, if_pos h]

/-- No key is met in an `AND`. -/
theorem filterMap_key?_expandRoles (before : Role) (roles : List Role) :
    (expandRoles before roles).filterMap Role.key? = roles.filterMap Role.key? := by
  induction roles generalizing before with
  | nil => rfl
  | cons role roles ih =>
    have hrole : (expandRole before role).filterMap Role.key? = [role].filterMap Role.key? := by
      unfold expandRole
      split <;> rfl
    rw [expandRoles, List.filterMap_append, ih, hrole, ← List.filterMap_append]
    rfl

theorem expandAll_nil (before : Role) (roles : List Role) : expandAll before roles [] = [] := by
  cases roles <;> rfl

theorem expandAll_expandRole (before role : Role) (t : Token) (roles : List Role)
    (ts : List Token) :
    expandAll before (expandRole before role ++ roles) (expand before role t ++ ts)
      = expand before role t ++ expandAll role roles ts := by
  cases hside : sideBySide before role with
  | true =>
    obtain ⟨htokens, hroles⟩ : expand before role t = _ ∧ _ := expand_of_sideBySide hside
    -- behind the `AND` that is put in, the operand is expected
    have hjoined : sideBySide .joins role = false := rfl
    have hbegins : role ≠ .joins ∧ role ≠ .alternates := by
      constructor <;> rintro rfl <;> simp [sideBySide, Role.begins] at hside
    rw [htokens, hroles]
    simp only [expandAll, List.cons_append, List.nil_append,
      (expand_of_not_sideBySide hjoined hbegins.1 hbegins.2).1]
    rfl
  | false =>
    have hroles : expandRole before role = [role] := by
      rw [expandRole, hside, if_neg Bool.false_ne_true]
    rw [hroles]
    cases role with
    | joins => rfl
    | alternates => rfl
    | _ => simp [expand, expandAll, hside]

/-- Nothing is left to write out in tokens that are written out. -/
theorem expandAll_expandRoles (before : Role) (roles : List Role) (ts : List Token) :
    expandAll before (expandRoles before roles) (expandAll before roles ts)
      = expandAll before roles ts := by
  induction roles generalizing before ts with
  | nil => rfl
  | cons role roles ih =>
    cases ts with
    | nil => exact expandAll_nil _ _
    | cons t ts =>
      rw [expandAll, expandRoles, expandAll_expandRole, ih]

namespace Machine

/-! ### What the machine writes out -/

/-- How tokens are written out while the machine goes past them: an `AND` is
put in front of a token where an operand begins beside another one, and a token
that the machine takes as an operator between operands is written anew. -/
inductive WritesOut (allowed : String → Bool) : State → List Token → List Token → Prop
  | nil {s} : WritesOut allowed s [] []
  | joins {s s' t ts us} : step allowed s t = .ok (some (.joins, s')) →
      WritesOut allowed s' ts us → WritesOut allowed s (t :: ts) (.word "AND" :: us)
  | alternates {s s' t ts us} : step allowed s t = .ok (some (.alternates, s')) →
      WritesOut allowed s' ts us → WritesOut allowed s (t :: ts) (.word "OR" :: us)
  | beside {s s' t ts us role} : step allowed s t = .ok (some (role, s')) →
      Beside allowed s t → WritesOut allowed s' ts us →
      WritesOut allowed s (t :: ts) (.word "AND" :: t :: us)
  | stays {s s' t ts us role} : step allowed s t = .ok (some (role, s')) →
      ¬ Beside allowed s t → role ≠ .joins → role ≠ .alternates →
      WritesOut allowed s' ts us → WritesOut allowed s (t :: ts) (t :: us)
  /-- The query ends in front of the token. -/
  | stops {s t ts} : step allowed s t = .ok none → WritesOut allowed s (t :: ts) (t :: ts)
  | failsBeside {s t ts why} : step allowed s t = .error why → Beside allowed s t →
      WritesOut allowed s (t :: ts) (.word "AND" :: t :: ts)
  | fails {s t ts why} : step allowed s t = .error why → ¬ Beside allowed s t →
      WritesOut allowed s (t :: ts) (t :: ts)

variable {allowed : String → Bool} {s s' : State} {ts us : List Token}
variable {outer : List Level} {here : Level}

/-! ### Steps over operators that are written out -/

/-- An operator in upper case belongs to no operand. -/
theorem goOn?_word (hop : (Token.word text).isOperator = true) (s : State) :
    s.goOn? allowed (.word text) = none := by
  obtain ⟨outer, here, mode⟩ := s
  cases mode with
  | expect | after => rfl
  | words ws => simp [State.goOn?, continuesRun, hop]
  | bare key => rfl

theorem step_and (hmode : s.mode ≠ .expect) :
    step allowed s (.word "AND") = .ok (some (.joins, ⟨s.outer, s.settled, .expect⟩)) := by
  have hgo : s.goOn? allowed (.word "AND") = none := goOn?_word (by decide) s
  rw [step_of_goOn?_eq_none hmode hgo]
  rfl

theorem step_or (hmode : s.mode ≠ .expect) :
    step allowed s (.word "OR")
      = .ok (some (.alternates, ⟨s.outer, s.settled.alternate, .expect⟩)) := by
  have hgo : s.goOn? allowed (.word "OR") = none := goOn?_word (by decide) s
  rw [step_of_goOn?_eq_none hmode hgo]
  rfl

/-- Beside an operand another one begins as where one is expected. -/
theorem step_of_beside (h : Beside allowed s t) :
    step allowed s t = step allowed ⟨s.outer, s.settled, .expect⟩ t := by
  rw [step_of_goOn?_eq_none h.mode h.goOn?]
  simp only [behind, h.alternates, h.closes, h.joins, Bool.false_eq_true, if_false]
  rfl

/-! ### Roles and modes -/

/-- A state is in a mode behind a token in some role. -/
def Fits (s : State) (before : Role) : Prop :=
  match s.mode with
  | .expect => before.ends = false
  | .words _ => before = .word
  | .after | .bare _ => before.ends = true ∧ before ≠ .word

theorem Begins.fits {role : Role} (h : Begins allowed outer here t role s') : Fits s' role := by
  cases h with
  | stray | literal | phrase => exact ⟨rfl, Role.noConfusion⟩
  | opens | word => rfl
  | @filter key argument =>
    cases hfilter : filterOn? key argument with
    | some e => simp [behindKey, hfilter, Fits, Role.ends]
    | none => simp [behindKey, hfilter, Fits, Role.ends]

theorem Begins.role_begins {role : Role} (h : Begins allowed outer here t role s') :
    role.begins = true := by
  cases h <;> rfl

/-- A word that does not belong to a run of words does not begin one beside
it. -/
theorem Begins.ne_word {ws : List Token} {role : Role} (hmode : s.mode = .words ws)
    (hgo : s.goOn? allowed t = none) (h : Begins allowed outer here t role s')
    (hclose : t.closes = false) : role ≠ .word := by
  rintro rfl
  cases h with
  | word hquoted hop hopen hcut =>
    have hkey : t.key? = none := Token.key?_eq_none_iff.2 hcut
    have hrun : continuesRun allowed t = true := by
      simp [continuesRun, hquoted, hopen, hclose, hop, hkey]
    simp [State.goOn?, hmode, hrun] at hgo

/-- What begins beside an operand stands side by side with it. -/
theorem Beside.sideBySide (hbeside : Beside allowed s t) (hfits : Fits s before)
    (hbegins : role.begins = true) (hword : ∀ ws, s.mode = .words ws → role ≠ .word) :
    Grammar.sideBySide before role = true := by
  have hends : before.ends = true ∧ (before ≠ .word ∨ role ≠ .word) := by
    unfold Fits at hfits
    cases hmode : s.mode with
    | expect => exact absurd hmode hbeside.mode
    | after | bare _ =>
      simp only [hmode] at hfits
      exact ⟨hfits.1, .inl hfits.2⟩
    | words ws =>
      simp only [hmode] at hfits
      rw [hfits]
      exact ⟨rfl, .inr (hword ws hmode)⟩
  simp [Grammar.sideBySide, hbegins, hends]

theorem sideBySide_of_expect (hmode : s.mode = .expect) (hfits : Fits s before) :
    Grammar.sideBySide before role = false := by
  simp only [Fits, hmode] at hfits
  rw [Grammar.sideBySide, hfits, Bool.false_and, Bool.false_and]

/-- Behind a step the machine is in the mode of the role that it gave. -/
theorem fits_of_step (h : step allowed s t = .ok (some (role, s'))) : Fits s' role := by
  cases stepsTo_of_step h with
  | expected _ hbegins => exact hbegins.fits
  | goesOn hgo =>
    rcases goOn?_eq_some hgo with ⟨ws, -, rfl, rfl⟩ | ⟨key, -, rfl, rfl⟩
    · rfl
    · exact ⟨rfl, Role.noConfusion⟩
  | alternates | joins => rfl
  | closes => exact ⟨rfl, Role.noConfusion⟩
  | beside _ hbegins => exact hbegins.fits

/-- **Operands stand side by side where one begins behind another and no
`AND` was read between them.** -/
theorem sideBySide_iff_beside (hfits : Fits s before)
    (h : step allowed s t = .ok (some (role, s'))) :
    Grammar.sideBySide before role = true ↔ Beside allowed s t := by
  -- a role in which no operand begins
  have hbegun : ∀ role : Role, role.begins = false → Grammar.sideBySide before role = false := by
    intro role hrole
    rw [Grammar.sideBySide, hrole, Bool.and_false, Bool.false_and]
  cases stepsTo_of_step h with
  | expected hmode _ =>
    rw [sideBySide_of_expect hmode hfits]
    exact iff_of_false Bool.false_ne_true fun hbeside => hbeside.mode hmode
  | goesOn hgo =>
    have hnot : ¬ Beside allowed s t := fun hbeside => by
      rw [hbeside.goOn?] at hgo
      cases hgo
    rcases goOn?_eq_some hgo with ⟨ws, hmode, rfl, -⟩ | ⟨key, -, rfl, -⟩
    · have hword : before = .word := by simpa only [Fits, hmode] using hfits
      rw [hword]
      exact iff_of_false Bool.false_ne_true hnot
    · rw [hbegun _ rfl]
      exact iff_of_false Bool.false_ne_true hnot
  | alternates _ halt =>
    rw [hbegun _ rfl]
    exact iff_of_false Bool.false_ne_true fun hbeside => by simp [hbeside.alternates] at halt
  | closes _ hclose _ =>
    rw [hbegun _ rfl]
    exact iff_of_false Bool.false_ne_true fun hbeside => by simp [hbeside.closes] at hclose
  | joins _ _ _ hjoin =>
    rw [hbegun _ rfl]
    exact iff_of_false Bool.false_ne_true fun hbeside => by simp [hbeside.joins] at hjoin
  | beside hbeside hbegins =>
    refine iff_of_true (hbeside.sideBySide hfits hbegins.role_begins ?_) hbeside
    intro ws hmode
    exact hbegins.ne_word hmode hbeside.goOn? hbeside.closes

/-- A group too many is beside an operand where its role says so. -/
theorem sideBySide_opens_iff_beside {why : ParseError} (hfits : Fits s before)
    (h : step allowed s t = .error why) :
    Grammar.sideBySide before .opens = true ↔ Beside allowed s t := by
  cases stepsTo_of_step h with
  | tooDeep hspot _ _ =>
    rcases hspot with hmode | hbeside
    · rw [sideBySide_of_expect hmode hfits]
      exact iff_of_false Bool.false_ne_true fun hbeside => hbeside.mode hmode
    · exact iff_of_true (hbeside.sideBySide hfits rfl fun _ _ => Role.noConfusion) hbeside

/-! ### Roles and what the machine writes out -/

theorem reached_of_step (h : step allowed s t = .ok (some (role, s'))) (ts : List Token) :
    (read allowed s (t :: ts)).reached = role :: (read allowed s' ts).reached := by
  rw [read_cons_of_step h, Reading.reached_take_andThen]
  rfl

theorem reached_of_stop (h : step allowed s t = .ok none) (ts : List Token) :
    (read allowed s (t :: ts)).reached = [] := by
  rw [read, h]
  rfl

theorem eq_tooDeep_of_step {why : ParseError} (h : step allowed s t = .error why) :
    why = .tooDeep maxDepth := by
  cases stepsTo_of_step h
  rfl

theorem reached_of_error {why : ParseError} (h : step allowed s t = .error why)
    (ts : List Token) : (read allowed s (t :: ts)).reached = [.opens] := by
  obtain rfl := eq_tooDeep_of_step h
  rw [read, h]
  rfl

/-- The roles know all that the machine knew on its way. -/
theorem WritesOut.eq_expandAll (h : WritesOut allowed s ts us) (hfits : Fits s before) :
    us = expandAll before (read allowed s ts).reached ts := by
  -- each step hands on a role that fits its mode
  induction h generalizing before with
  | nil => exact (expandAll_nil _ _).symm
  | joins hstep _ ih =>
    rw [reached_of_step hstep, expandAll, ← ih (fits_of_step hstep)]
    rfl
  | alternates hstep _ ih =>
    rw [reached_of_step hstep, expandAll, ← ih (fits_of_step hstep)]
    rfl
  | beside hstep hbeside _ ih =>
    have hside := (sideBySide_iff_beside hfits hstep).2 hbeside
    rw [reached_of_step hstep, expandAll, ← ih (fits_of_step hstep),
      (expand_of_sideBySide hside).1]
    rfl
  | stays hstep hbeside hjoin halt _ ih =>
    have hside := Bool.eq_false_iff.2 (mt (sideBySide_iff_beside hfits hstep).1 hbeside)
    rw [reached_of_step hstep, expandAll, ← ih (fits_of_step hstep),
      (expand_of_not_sideBySide hside hjoin halt).1]
    rfl
  | stops hstep =>
    rw [reached_of_stop hstep]
    rfl
  | failsBeside hstep hbeside =>
    have hside := (sideBySide_opens_iff_beside hfits hstep).2 hbeside
    rw [reached_of_error hstep, expandAll, (expand_of_sideBySide hside).1]
    rfl
  | fails hstep hbeside =>
    have hside := Bool.eq_false_iff.2 (mt (sideBySide_opens_iff_beside hfits hstep).1 hbeside)
    rw [reached_of_error hstep, expandAll,
      (expand_of_not_sideBySide hside Role.noConfusion Role.noConfusion).1]
    rfl

theorem exists_writesOut (allowed : String → Bool) (s : State) (ts : List Token) :
    ∃ us, WritesOut allowed s ts us := by
  induction ts generalizing s with
  | nil => exact ⟨[], .nil⟩
  | cons t ts ih =>
    rcases hstep : step allowed s t with why | - | ⟨role, s'⟩
    · by_cases hbeside : Beside allowed s t
      · exact ⟨_, .failsBeside hstep hbeside⟩
      · exact ⟨_, .fails hstep hbeside⟩
    · exact ⟨_, .stops hstep⟩
    · obtain ⟨us, hus⟩ := ih s'
      by_cases hbeside : Beside allowed s t
      · exact ⟨_, .beside hstep hbeside hus⟩
      by_cases hjoin : role = .joins
      · exact ⟨_, .joins (hjoin ▸ hstep) hus⟩
      by_cases halt : role = .alternates
      · exact ⟨_, .alternates (halt ▸ hstep) hus⟩
      · exact ⟨_, .stays hstep hbeside hjoin halt hus⟩

/-- Tokens are written out in one way along a run, and it is the one that the
roles tell. -/
theorem writesOut_iff (hfits : Fits s before) :
    WritesOut allowed s ts us ↔ us = expandAll before (read allowed s ts).reached ts := by
  constructor
  · intro h
    exact h.eq_expandAll hfits
  · rintro rfl
    obtain ⟨us, h⟩ := exists_writesOut allowed s ts
    exact h.eq_expandAll hfits ▸ h

/-- The machine goes over a token that is written out to the same state as
over the token. -/
theorem read_expand (hfits : Fits s before) (h : step allowed s t = .ok (some (role, s')))
    (us : List Token) :
    read allowed s (expand before role t ++ us)
      = (Reading.take (expandRole before role) ()).andThen fun _ => read allowed s' us := by
  by_cases hbeside : Beside allowed s t
  · have hside := (sideBySide_iff_beside hfits h).2 hbeside
    obtain ⟨htokens, hroles⟩ : expand before role t = _ ∧ _ := expand_of_sideBySide hside
    rw [htokens, hroles]
    -- behind the `AND` the machine expects an operand, and this is one
    rw [step_of_beside hbeside] at h
    show read allowed s (.word "AND" :: t :: us) = _
    rw [read_cons_of_step (step_and hbeside.mode), read_cons_of_step h]
    rfl
  have hside : Grammar.sideBySide before role = false :=
    Bool.eq_false_iff.2 fun hside => hbeside ((sideBySide_iff_beside hfits h).1 hside)
  -- a token that separates nothing stays as it is
  have hself : role ≠ .joins → role ≠ .alternates →
      read allowed s (expand before role t ++ us)
        = (Reading.take (expandRole before role) ()).andThen fun _ => read allowed s' us := by
    intro hjoin halt
    obtain ⟨htokens, hroles⟩ : expand before role t = _ ∧ _ :=
      expand_of_not_sideBySide hside hjoin halt
    rw [htokens, hroles]
    exact read_cons_of_step h
  cases stepsTo_of_step h with
  | expected _ hbegins =>
    have hrole := hbegins.role_begins
    apply hself
    · rintro rfl
      cases hrole
    · rintro rfl
      cases hrole
  | goesOn hgo =>
    rcases goOn?_eq_some hgo with ⟨_, -, rfl, -⟩ | ⟨_, -, rfl, -⟩
    · exact hself Role.noConfusion Role.noConfusion
    · exact hself Role.noConfusion Role.noConfusion
  | closes => exact hself Role.noConfusion Role.noConfusion
  | alternates hended _ =>
    rw [expandRole, hside, if_neg Bool.false_ne_true]
    exact read_cons_of_step (step_or hended.mode)
  | joins hended _ _ _ =>
    rw [expandRole, hside, if_neg Bool.false_ne_true]
    exact read_cons_of_step (step_and hended.mode)
  | beside hbeside' _ => exact absurd hbeside' hbeside

/-- A group too many is one too many also behind an `AND`. -/
theorem read_expand_tooDeep (hfits : Fits s before)
    (h : step allowed s t = .error (.tooDeep maxDepth)) (us : List Token) :
    (read allowed s (expand before .opens t ++ us)).outcome = .error (.tooDeep maxDepth) ∧
      (read allowed s (expand before .opens t ++ us)).reached = expandRole before .opens := by
  have hside := sideBySide_opens_iff_beside hfits h
  by_cases hbeside : Beside allowed s t
  · obtain ⟨htokens, hroles⟩ : expand before .opens t = _ ∧ _ :=
      expand_of_sideBySide (hside.2 hbeside)
    rw [step_of_beside hbeside] at h
    rw [htokens, hroles, List.cons_append, read_cons_of_step (step_and hbeside.mode),
      List.singleton_append, read, h]
    exact ⟨rfl, rfl⟩
  · obtain ⟨htokens, hroles⟩ : expand before .opens t = _ ∧ _ :=
      expand_of_not_sideBySide (Bool.eq_false_iff.2 (mt hside.1 hbeside)) Role.noConfusion
        Role.noConfusion
    rw [htokens, hroles, List.singleton_append, read, h]
    exact ⟨rfl, rfl⟩

/-! ### Runs -/

/-- Reading is the same with the operators written out, and the roles are
written out with them. -/
theorem read_expandAll (hfits : Fits s before) :
    (read allowed s (expandAll before (read allowed s ts).reached ts)).outcome
        = (read allowed s ts).outcome ∧
      (read allowed s (expandAll before (read allowed s ts).reached ts)).reached
        = expandRoles before (read allowed s ts).reached := by
  induction ts generalizing s before with
  | nil =>
    have hreached : (read allowed s []).reached = [] := by
      rw [read]
      split <;> rfl
    rw [hreached]
    exact ⟨rfl, hreached⟩
  | cons t ts ih =>
    rcases hstep : step allowed s t with why | - | ⟨role, s'⟩
    · obtain rfl := eq_tooDeep_of_step hstep
      have hread : read allowed s (t :: ts) = .fail (.tooDeep maxDepth) := by rw [read, hstep]
      obtain ⟨houtcome, hreached⟩ := read_expand_tooDeep hfits hstep ts
      rw [hread]
      refine ⟨houtcome, hreached.trans ?_⟩
      exact (List.append_nil _).symm
    · rw [reached_of_stop hstep]
      exact ⟨rfl, reached_of_stop hstep ts⟩
    · have hexpand := read_expand hfits hstep (expandAll role (read allowed s' ts).reached ts)
      obtain ⟨houtcome, hreached⟩ := ih (fits_of_step hstep)
      rw [reached_of_step hstep, expandAll, expandRoles, hexpand, Reading.reached_take_andThen,
        hreached, read_cons_of_step hstep]
      exact ⟨houtcome, rfl⟩

end Machine

/-- **Writing operators out changes nothing**: tokens with an `AND` between
all operands of a clause, and with every operator between operands as a word in
upper case, come to the same expression and the same marks, or to the same
error.  There is nothing left in them to write out.  They are the tokens that
the machine writes out on its way, so an `AND` is put in exactly where an
operand begins beside another. -/
theorem parse_explicit (keys : List String) (ts : List Token) :
    let marks := KeyMarks.seeded keys
    let us := explicit marks.isAllowed ts
    (parse marks.isAllowed us).outcome = (parse marks.isAllowed ts).outcome ∧
      marks.markAll (parse marks.isAllowed us).used
        = marks.markAll (parse marks.isAllowed ts).used ∧
      explicit marks.isAllowed us = us ∧
      ∀ vs, Machine.WritesOut marks.isAllowed Machine.start ts vs ↔ vs = us := by
  intro marks us
  have hfits : Machine.Fits Machine.start .opens := rfl
  obtain ⟨houtcome, hreached⟩ :
      (parse marks.isAllowed us).outcome = (parse marks.isAllowed ts).outcome ∧
        (parse marks.isAllowed us).reached
          = expandRoles .opens (parse marks.isAllowed ts).reached := by
    simp only [us, explicit, parse_eq_read]
    exact Machine.read_expandAll hfits
  refine ⟨houtcome, ?_, ?_, ?_⟩
  · rw [← Reading.filterMap_key?_reached, hreached, filterMap_key?_expandRoles,
      Reading.filterMap_key?_reached]
  · show expandAll .opens (parse marks.isAllowed us).reached us = us
    rw [hreached]
    exact expandAll_expandRoles .opens _ ts
  · intro vs
    simp only [us, explicit, parse_eq_read]
    exact Machine.writesOut_iff hfits

/-- Two operands side by side, operators in lower case and in quotes, one that
is a value, one that is a word, and a group that is not closed. -/
example :
    explicit (KeyMarks.seeded ["tag"]).isAllowed
        [.phrase "a", .word "and", .word "tag:", .phrase "OR", .phrase "Or", .word "(", .word "b",
          .word "or", .word "c:1", .word "tag:x", .word ")", .word "(", .word "AND"]
      = [.phrase "a", .word "AND", .word "tag:", .phrase "OR", .word "OR", .word "(", .word "b",
          .word "or", .word "c:1", .word "AND", .word "tag:x", .word ")", .word "AND", .word "(",
          .word "AND"] := by
  decide +kernel

end SearchQuery.Grammar
