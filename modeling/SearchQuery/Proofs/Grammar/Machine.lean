/-
SearchQuery/Proofs/Grammar/Machine.lean

Reading without recursion: one token at a time, with a stack.

The rules of the grammar call each other, and what a rule has read so far is
in nobody's hands until it returns.  The machine has all of it in its state.
A level holds what has been read of a group, or of the query itself: the
clauses that are complete and the operands of the last one.  The groups that
are open stand on a stack of such levels, and the mode says what the last
token has left unfinished.  A step goes past one token and gives it its role.

That is the form for statements about two runs.  Tokens that are added, or
taken away, or changed, are met in a state of the machine, and two runs that
come to the same state go the same way from there on.

Main statement: the machine reads every list of tokens as the rules do
(`parse_eq_read`), with the same roles, the same expression and the same
error.  The proof follows the rules: `Paces s next ts r` says that the
machine in state `s` does to `ts` what the reading `r` does and goes on
behind it from the state `next a`, where `a` is the value of `r`.
-/
import SearchQuery.Proofs.Grammar.Steps
import SearchQuery.Proofs.Token.Apart

namespace SearchQuery.Grammar

/-! ### Readings one behind the other -/

namespace Reading

variable {α β γ : Type}

theorem andThen_assoc (r : Reading α) (f : α → Reading β) (g : β → Reading γ) :
    (r.andThen f).andThen g = r.andThen fun a => (f a).andThen g := by
  obtain ⟨roles, why | a⟩ := r
  · rfl
  · rcases h : f a with ⟨roles', why | b⟩
    · simp [andThen, h]
    · simp [andThen, h]

theorem andThen_congr {r : Reading α} {f g : α → Reading β}
    (h : ∀ a, r.outcome = .ok a → f a = g a) : r.andThen f = r.andThen g := by
  obtain ⟨roles, why | a⟩ := r
  · rfl
  · simp only [andThen, h a rfl]

theorem andThen_eq_self {r : Reading α} {f : α → Reading α}
    (h : ∀ a, r.outcome = .ok a → f a = take [] a) : r.andThen f = r := by
  obtain ⟨roles, why | a⟩ := r
  · rfl
  · simp only [andThen, h a rfl, take, List.append_nil]

theorem map_eq_andThen (f : α → β) (r : Reading α) :
    r.map f = r.andThen fun a => take [] (f a) := by
  obtain ⟨roles, why | a⟩ := r
  · rfl
  · simp [map, andThen, take, Except.map]

theorem taken_andThen {r : Reading α} {a : α} (h : r.outcome = .ok a) (f : α → Reading β) :
    (r.andThen f).taken = r.taken + (f a).taken := by
  simp only [andThen, h, taken, List.length_append]

end Reading

namespace Machine

/-! ### The state -/

/-- What has been read of a query or of a group. -/
structure Level where
  /-- What the clauses come to that are complete. -/
  before : Option Expr := none
  /-- The operands of the last clause. -/
  operands : List Expr := []

namespace Level

/-- What the clauses come to. -/
def expr? (l : Level) : Option Expr :=
  either? l.before (conjunction? l.operands)

/-- More operands for the last clause. -/
def add (l : Level) (es : List Expr) : Level :=
  { l with operands := l.operands ++ es }

/-- A new clause behind the last one. -/
def alternate (l : Level) : Level :=
  { before := l.expr? }

theorem expr?_toList (e : Option Expr) : expr? { operands := e.toList } = e := by
  cases e <;> rfl

@[simp] theorem add_nil (l : Level) : l.add [] = l := by
  simp only [add, List.append_nil]

@[simp] theorem add_add (l : Level) (es fs : List Expr) : (l.add es).add fs = l.add (es ++ fs) := by
  simp only [add, List.append_assoc]

end Level

/-- What the last token has left unfinished. -/
inductive Mode where
  /-- An operand has to come. -/
  | expect
  /-- An operand has ended. -/
  | after
  /-- A run of words. -/
  | words (ws : List Token)
  /-- A filter without a value. -/
  | bare (key : String)

/-- What the machine keeps. -/
structure State where
  /-- The levels around the groups that are open, the innermost first. -/
  outer : List Level
  /-- The level of the next token. -/
  here : Level
  mode : Mode

/-- In front of a query. -/
def start : State := ⟨[], {}, .expect⟩

/-- The level of the next token with the operand that is unfinished. -/
def State.settled (s : State) : Level :=
  match s.mode with
  | .words ws => s.here.add (freeText? (joinWords ws)).toList
  | _ => s.here

/-! ### The steps -/

/-- Behind a token with a key and this argument. -/
def behindKey (outer : List Level) (here : Level) (key argument : String) : State :=
  match filterOn? key argument with
  | some e => ⟨outer, here.add [e], .after⟩
  | none => ⟨outer, here, .bare key⟩

variable (allowed : String → Bool)

/-- Go past a token where an operand has to come. -/
def expectOperand (outer : List Level) (here : Level) (t : Token) :
    Except ParseError (Role × State) :=
  if t.isOperator then .ok (.stray, ⟨outer, here, .after⟩)
  else if t.opens then
    if outer.length = maxDepth then .error (.tooDeep maxDepth)
    else .ok (.opens, ⟨here :: outer, {}, .expect⟩)
  else match Text.cutAtColon t.text with
    | some (key, argument) =>
      if allowed key then .ok (.filter key, behindKey outer here key argument)
      else .ok (.literal, ⟨outer, here.add [.value t.text], .after⟩)
    | none =>
      if t.quoted then .ok (.phrase, ⟨outer, here.add (freeText? t.text).toList, .after⟩)
      else .ok (.word, ⟨outer, here, .words [t]⟩)

/-- Go past a token behind an operand.  Nothing comes of a `)` outside all
groups: the machine stops in front of it. -/
def behind (outer : List Level) (here : Level) (t : Token) :
    Except ParseError (Option (Role × State)) :=
  if t.alternates then .ok (some (.alternates, ⟨outer, here.alternate, .expect⟩))
  else if t.closes then
    match outer with
    | [] => .ok none
    | l :: ls => .ok (some (.closes, ⟨ls, l.add here.expr?.toList, .after⟩))
  else if t.joins then .ok (some (.joins, ⟨outer, here, .expect⟩))
  else (expectOperand allowed outer here t).map some

/-- Go past a token that belongs to the operand before it, if it does. -/
def State.goOn? (s : State) (t : Token) : Option (Role × State) :=
  match s.mode with
  | .expect | .after => none
  | .words ws =>
    if continuesRun allowed t then some (.word, { s with mode := .words (ws ++ [t]) }) else none
  | .bare key =>
    if t.quoted then
      some (.argument, ⟨s.outer, s.here.add (filterOn? key t.text).toList, .after⟩)
    else none

/-- Go past a token. -/
def step (s : State) (t : Token) : Except ParseError (Option (Role × State)) :=
  match s.mode with
  | .expect => (expectOperand allowed s.outer s.here t).map some
  | _ =>
    match s.goOn? allowed t with
    | some next => .ok (some next)
    | none => behind allowed s.outer s.settled t

/-- Read tokens from some state on.  At the end all groups have to be
closed. -/
def read (s : State) : List Token → Reading (Option Expr)
  | [] => if s.outer.isEmpty then .take [] s.settled.expr? else .fail .unclosedGroup
  | t :: ts =>
    match step allowed s t with
    | .error why => .fail why
    | .ok none => .take [] s.settled.expr?
    | .ok (some (role, s')) => (Reading.take [role] ()).andThen fun _ => read s' ts

variable {allowed}
variable {outer : List Level} {here : Level} {s s' : State} {t : Token} {ts : List Token}

theorem read_cons_of_step {role : Role} (h : step allowed s t = .ok (some (role, s'))) :
    read allowed s (t :: ts) = (Reading.take [role] ()).andThen fun _ => read allowed s' ts := by
  rw [read, h]

theorem step_of_expectOperand {role : Role}
    (h : expectOperand allowed outer here t = .ok (role, s')) :
    step allowed ⟨outer, here, .expect⟩ t = .ok (some (role, s')) := by
  show (expectOperand allowed outer here t).map some = _
  rw [h]
  rfl

theorem step_of_goOn? {next : Role × State} (h : s.goOn? allowed t = some next) :
    step allowed s t = .ok (some next) := by
  obtain ⟨outer, here, mode⟩ := s
  cases mode with
  | expect | after => cases h
  | words ws => simp only [step, h]
  | bare key => simp only [step, h]

/-- A token that does not belong to the operand before it is met behind this
operand. -/
theorem step_of_goOn?_eq_none (hmode : s.mode ≠ .expect) (h : s.goOn? allowed t = none) :
    step allowed s t = behind allowed s.outer s.settled t := by
  obtain ⟨outer, here, mode⟩ := s
  cases mode with
  | expect => exact absurd rfl hmode
  | after => rfl
  | words ws => simp only [step, h]
  | bare key => simp only [step, h]

/-- Where nothing belongs to the operand that is unfinished, it is finished. -/
theorem read_settled (hmode : s.mode ≠ .expect)
    (h : ∀ t ∈ ts.head?, s.goOn? allowed t = none) :
    read allowed s ts = read allowed ⟨s.outer, s.settled, .after⟩ ts := by
  cases ts with
  | nil => rfl
  | cons t ts =>
    have hstep : step allowed s t = step allowed ⟨s.outer, s.settled, .after⟩ t :=
      step_of_goOn?_eq_none hmode (h t rfl)
    simp only [read, hstep]
    rfl

/-! ### What a step can do -/

/-- What comes of a token that begins an operand. -/
inductive Begins (allowed : String → Bool) (outer : List Level) (here : Level) (t : Token) :
    Role → State → Prop
  | stray : t.isOperator = true → Begins allowed outer here t .stray ⟨outer, here, .after⟩
  | opens : t.opens = true → outer.length ≠ maxDepth →
      Begins allowed outer here t .opens ⟨here :: outer, {}, .expect⟩
  | filter {key argument} : Text.cutAtColon t.text = some (key, argument) →
      allowed key = true →
      Begins allowed outer here t (.filter key) (behindKey outer here key argument)
  | literal {key argument} : Text.cutAtColon t.text = some (key, argument) →
      allowed key = false →
      Begins allowed outer here t .literal ⟨outer, here.add [.value t.text], .after⟩
  | phrase : t.quoted = true → Text.cutAtColon t.text = none →
      Begins allowed outer here t .phrase ⟨outer, here.add (freeText? t.text).toList, .after⟩
  | word : t.quoted = false → t.isOperator = false → t.opens = false →
      Text.cutAtColon t.text = none → Begins allowed outer here t .word ⟨outer, here, .words [t]⟩

/-- A token begins an operand, unless it opens a group too many. -/
theorem expectOperand_cases (allowed : String → Bool) (outer : List Level) (here : Level)
    (t : Token) :
    (∃ role s', expectOperand allowed outer here t = .ok (role, s') ∧
      Begins allowed outer here t role s') ∨
      (expectOperand allowed outer here t = .error (.tooDeep maxDepth) ∧ t.opens = true ∧
        outer.length = maxDepth) := by
  -- the cases are those of the definition, in its order
  unfold expectOperand
  by_cases hop : t.isOperator = true
  · rw [if_pos hop]
    exact .inl ⟨_, _, rfl, .stray hop⟩
  rw [if_neg hop]
  by_cases hopen : t.opens = true
  · rw [if_pos hopen]
    by_cases hfull : outer.length = maxDepth
    · rw [if_pos hfull]
      exact .inr ⟨rfl, hopen, hfull⟩
    · rw [if_neg hfull]
      exact .inl ⟨_, _, rfl, .opens hopen hfull⟩
  rw [if_neg hopen]
  rcases hcut : Text.cutAtColon t.text with - | ⟨key, argument⟩
  · by_cases hquoted : t.quoted = true
    · simp only [hquoted, if_true]
      exact .inl ⟨_, _, rfl, .phrase hquoted hcut⟩
    · simp only [hquoted, Bool.false_eq_true, if_false]
      simp only [Bool.not_eq_true] at hop hopen hquoted
      exact .inl ⟨_, _, rfl, .word hquoted hop hopen hcut⟩
  · cases hkey : allowed key with
    | true =>
      simp only [hkey, if_true]
      exact .inl ⟨_, _, rfl, .filter hcut hkey⟩
    | false =>
      simp only [hkey, Bool.false_eq_true, if_false]
      exact .inl ⟨_, _, rfl, .literal hcut hkey⟩

theorem goOn?_eq_some {role : Role} (h : s.goOn? allowed t = some (role, s')) :
    (∃ ws, s.mode = .words ws ∧ role = .word ∧ s' = { s with mode := .words (ws ++ [t]) }) ∨
      ∃ key, s.mode = .bare key ∧ role = .argument ∧
        s' = ⟨s.outer, s.here.add (filterOn? key t.text).toList, .after⟩ := by
  obtain ⟨outer, here, mode⟩ := s
  cases mode with
  | expect | after => cases h
  | words ws =>
    obtain ⟨-, h⟩ := Option.ite_none_right_eq_some.1 h
    cases h
    exact .inl ⟨ws, rfl, rfl, rfl⟩
  | bare key =>
    obtain ⟨-, h⟩ := Option.ite_none_right_eq_some.1 h
    cases h
    exact .inr ⟨key, rfl, rfl, rfl⟩

/-- Behind an operand, in front of a token that does not belong to it. -/
structure Ended (allowed : String → Bool) (s : State) (t : Token) : Prop where
  mode : s.mode ≠ .expect
  goOn? : s.goOn? allowed t = none

/-- Behind an operand, in front of a token that separates nothing. -/
structure Beside (allowed : String → Bool) (s : State) (t : Token) : Prop
    extends Ended allowed s t where
  alternates : t.alternates = false
  closes : t.closes = false
  joins : t.joins = false

/-- What comes of a step. -/
inductive StepsTo (allowed : String → Bool) (s : State) (t : Token) :
    Except ParseError (Option (Role × State)) → Prop
  /-- An operand begins where one has to come. -/
  | expected {role s'} : s.mode = .expect → Begins allowed s.outer s.here t role s' →
      StepsTo allowed s t (.ok (some (role, s')))
  /-- An operand goes on. -/
  | goesOn {role s'} : s.goOn? allowed t = some (role, s') →
      StepsTo allowed s t (.ok (some (role, s')))
  | alternates : Ended allowed s t → t.alternates = true →
      StepsTo allowed s t (.ok (some (.alternates, ⟨s.outer, s.settled.alternate, .expect⟩)))
  | closes {l ls} : Ended allowed s t → t.closes = true → s.outer = l :: ls →
      StepsTo allowed s t (.ok (some (.closes, ⟨ls, l.add s.settled.expr?.toList, .after⟩)))
  /-- A `)` outside all groups. -/
  | stops : Ended allowed s t → t.closes = true → s.outer = [] → StepsTo allowed s t (.ok none)
  | joins : Ended allowed s t → t.alternates = false → t.closes = false → t.joins = true →
      StepsTo allowed s t (.ok (some (.joins, ⟨s.outer, s.settled, .expect⟩)))
  /-- An operand begins beside the one that has ended. -/
  | beside {role s'} : Beside allowed s t → Begins allowed s.outer s.settled t role s' →
      StepsTo allowed s t (.ok (some (role, s')))
  /-- A group too many. -/
  | tooDeep : s.mode = .expect ∨ Beside allowed s t → t.opens = true →
      s.outer.length = maxDepth → StepsTo allowed s t (.error (.tooDeep maxDepth))

theorem stepsTo_behind (h : Ended allowed s t) :
    StepsTo allowed s t (behind allowed s.outer s.settled t) := by
  unfold behind
  by_cases halt : t.alternates = true
  · rw [if_pos halt]
    exact .alternates h halt
  rw [if_neg halt]
  by_cases hclose : t.closes = true
  · rw [if_pos hclose]
    cases houter : s.outer with
    | nil => exact .stops h hclose houter
    | cons l ls => exact .closes h hclose houter
  rw [if_neg hclose]
  rw [Bool.not_eq_true] at halt hclose
  by_cases hjoin : t.joins = true
  · rw [if_pos hjoin]
    exact .joins h halt hclose hjoin
  rw [if_neg hjoin]
  have hbeside : Beside allowed s t := ⟨h, halt, hclose, Bool.not_eq_true _ ▸ hjoin⟩
  rcases expectOperand_cases allowed s.outer s.settled t with
    ⟨role, s', hexpect, hbegins⟩ | ⟨hexpect, hopen, hfull⟩
  · rw [hexpect]
    exact .beside hbeside hbegins
  · rw [hexpect]
    exact .tooDeep (.inr hbeside) hopen hfull

/-- These are all the steps there are. -/
theorem stepsTo_step (allowed : String → Bool) (s : State) (t : Token) :
    StepsTo allowed s t (step allowed s t) := by
  by_cases hmode : s.mode = .expect
  · have hstep : step allowed s t = (expectOperand allowed s.outer s.here t).map some := by
      unfold step
      rw [hmode]
    rw [hstep]
    rcases expectOperand_cases allowed s.outer s.here t with
      ⟨role, s', hexpect, hbegins⟩ | ⟨hexpect, hopen, hfull⟩
    · rw [hexpect]
      exact .expected hmode hbegins
    · rw [hexpect]
      exact .tooDeep (.inl hmode) hopen hfull
  · cases hgo : s.goOn? allowed t with
    | some next =>
      rw [step_of_goOn? hgo]
      exact .goesOn hgo
    | none =>
      rw [step_of_goOn?_eq_none hmode hgo]
      exact stepsTo_behind ⟨hmode, hgo⟩

theorem stepsTo_of_step {o : Except ParseError (Option (Role × State))}
    (h : step allowed s t = o) : StepsTo allowed s t o :=
  h ▸ stepsTo_step allowed s t

/-! ### Keeping pace with a reading -/

section

variable {α β : Type}

/-- The machine does to `ts` what the reading `r` does, and goes on behind it. -/
def Paces (allowed : String → Bool) (s : State) (next : α → State) (ts : List Token)
    (r : Reading α) : Prop :=
  read allowed s ts = r.andThen fun a => read allowed (next a) (ts.drop r.taken)

theorem Paces.andThen {next : α → State} {next' : β → State} {r : Reading α}
    {f : α → Reading β} (h : Paces allowed s next ts r)
    (hf : ∀ a, r.outcome = .ok a → Paces allowed (next a) next' (ts.drop r.taken) (f a)) :
    Paces allowed s next' ts (r.andThen f) := by
  show read allowed s ts = _
  rw [h, Reading.andThen_assoc]
  apply Reading.andThen_congr
  intro a ha
  rw [hf a ha, Reading.taken_andThen ha, List.drop_drop]

theorem Paces.map {next : β → State} {f : α → β} {r : Reading α}
    (h : Paces allowed s (next ∘ f) ts r) : Paces allowed s next ts (r.map f) := by
  rw [Reading.map_eq_andThen]
  exact h.andThen fun _ _ => rfl

/-- No token, where the machine need not change. -/
theorem Paces.none {next : α → State} {a : α} (h : next a = s) (ts : List Token) :
    Paces allowed s next ts (.take [] a) := by
  subst h
  rfl

/-- One token, if the step over it is known. -/
theorem Paces.one {next : α → State} {role : Role} {a : α}
    (h : step allowed s t = .ok (some (role, next a))) (ts : List Token) :
    Paces allowed s next (t :: ts) (.take [role] a) :=
  read_cons_of_step h

end

/-! ### Operands -/

theorem read_words (ws ts : List Token) :
    read allowed ⟨outer, here, .words ws⟩ ts
      = (Reading.take ((ts.takeWhile (continuesRun allowed)).map fun _ => .word) ()).andThen
          fun _ => read allowed
            ⟨outer, here.add (freeText? (joinWords (ws ++ ts.takeWhile (continuesRun allowed)))).toList,
              .after⟩ (ts.drop (ts.takeWhile (continuesRun allowed)).length) := by
  induction ts generalizing ws with
  | nil =>
    rw [List.takeWhile_nil, List.append_nil]
    exact read_settled (by simp) (by simp)
  | cons t ts ih =>
    by_cases h : continuesRun allowed t = true
    · have hstep : step allowed ⟨outer, here, .words ws⟩ t
          = .ok (some (.word, ⟨outer, here, .words (ws ++ [t])⟩)) := by
        simp [step, State.goOn?, h]
      rw [read_cons_of_step hstep, ih, List.takeWhile_cons_of_pos h, List.append_assoc]
      rfl
    · rw [List.takeWhile_cons_of_neg h, List.append_nil]
      refine read_settled (by simp) ?_
      simp [State.goOn?, h]

theorem paces_run (h : expectOperand allowed outer here t = .ok (.word, ⟨outer, here, .words [t]⟩))
    (ts : List Token) :
    Paces allowed ⟨outer, here, .expect⟩ (fun operand? => ⟨outer, here.add operand?.toList, .after⟩)
      (t :: ts) (run allowed t ts) := by
  have hdrop : (t :: ts).drop (run allowed t ts).taken
      = ts.drop (ts.takeWhile (continuesRun allowed)).length := by
    simp [run]
  show read _ _ _ = _
  rw [read_cons_of_step (step_of_expectOperand h), read_words, hdrop, List.singleton_append]
  rfl

/-- A filter without a value adds no operand. -/
theorem read_bare {key : String} (h : ∀ u ∈ ts.head?, u.quoted = false) :
    read allowed ⟨outer, here, .bare key⟩ ts = read allowed ⟨outer, here.add [], .after⟩ ts := by
  rw [Level.add_nil]
  apply read_settled
  · simp
  · intro u hu
    simp [State.goOn?, h u hu]

theorem paces_filter {key argument : String}
    (h : expectOperand allowed outer here t = .ok (.filter key, behindKey outer here key argument))
    (ts : List Token) :
    Paces allowed ⟨outer, here, .expect⟩ (fun operand? => ⟨outer, here.add operand?.toList, .after⟩)
      (t :: ts) (filter key argument ts) := by
  unfold behindKey at h
  cases hfilter : filterOn? key argument with
  | some e =>
    simp only [hfilter] at h
    rw [filter_of_some hfilter]
    apply Paces.one
    exact step_of_expectOperand h
  | none =>
    -- the filter has no value yet and takes the next token, if quoted
    simp only [hfilter] at h
    show read _ _ _ = _
    rw [read_cons_of_step (step_of_expectOperand h)]
    cases ts with
    | nil =>
      rw [filter_nil, hfilter, read_bare (by simp)]
      rfl
    | cons u ts =>
      rw [filter_cons_of_none hfilter]
      by_cases hq : u.quoted = true
      · have hvalue : step allowed ⟨outer, here, .bare key⟩ u
            = .ok (some (.argument, ⟨outer, here.add (filterOn? key u.text).toList, .after⟩)) := by
          simp [step, State.goOn?, hq]
        rw [if_pos hq, read_cons_of_step hvalue]
        rfl
      · rw [if_neg hq, read_bare (by simpa using hq)]
        rfl

/-- The machine keeps pace with groups, whatever stands before them. -/
def PacesGroups (allowed : String → Bool) (outer : List Level)
    (inside : List Token → Reading (Option Expr)) : Prop :=
  ∀ here t ts, t.opens = true →
    Paces allowed ⟨outer, here, .expect⟩ (fun expr? => ⟨outer, here.add expr?.toList, .after⟩)
      (t :: ts) (inside ts)

variable {inside : List Token → Reading (Option Expr)}

/-- The machine keeps pace with operands, if it does with groups. -/
theorem paces_operand (hin : PacesGroups allowed outer inside) (here : Level) (t : Token)
    (ts : List Token) :
    Paces allowed ⟨outer, here, .expect⟩ (fun operand? => ⟨outer, here.add operand?.toList, .after⟩)
      (t :: ts) (operand allowed inside t ts) := by
  -- both sides make the same tests in the same order
  unfold operand
  by_cases hop : t.isOperator = true
  · have hexpect : expectOperand allowed outer here t = .ok (.stray, ⟨outer, here, .after⟩) :=
      if_pos hop
    rw [if_pos hop]
    apply Paces.one
    rw [step_of_expectOperand hexpect, Option.toList_none, Level.add_nil]
  rw [if_neg hop]
  by_cases hopen : t.opens = true
  · rw [if_pos hopen]
    exact hin here t ts hopen
  rw [if_neg hopen]
  rcases hcut : Text.cutAtColon t.text with - | ⟨key, argument⟩
  · -- without a colon: a phrase, or the first word of a run
    cases hq : t.quoted with
    | true =>
      have hexpect : expectOperand allowed outer here t
          = .ok (.phrase, ⟨outer, here.add (freeText? t.text).toList, .after⟩) := by
        simp only [expectOperand, if_neg hop, if_neg hopen, hcut, hq, if_true]
      apply Paces.one
      exact step_of_expectOperand hexpect
    | false =>
      have hexpect : expectOperand allowed outer here t
          = .ok (.word, ⟨outer, here, .words [t]⟩) := by
        simp only [expectOperand, if_neg hop, if_neg hopen, hcut, hq, Bool.false_eq_true, if_false]
      exact paces_run hexpect ts
  · -- with a colon: a filter, or a text if the key is not allowed
    cases hkey : allowed key with
    | true =>
      have hexpect : expectOperand allowed outer here t
          = .ok (.filter key, behindKey outer here key argument) := by
        simp only [expectOperand, if_neg hop, if_neg hopen, hcut, hkey, if_true]
      simp only [hkey, if_true]
      exact paces_filter hexpect ts
    | false =>
      have hexpect : expectOperand allowed outer here t
          = .ok (.literal, ⟨outer, here.add [.value t.text], .after⟩) := by
        simp only [expectOperand, if_neg hop, if_neg hopen, hcut, hkey, Bool.false_eq_true,
          if_false]
      simp only [hkey, Bool.false_eq_true, if_false]
      apply Paces.one
      exact step_of_expectOperand hexpect

/-! ### Clauses -/

theorem paces_behindOperand
    (hclause : ∀ gap : List Role,
      Paces allowed ⟨outer, here, .expect⟩ (fun es => ⟨outer, here.add es, .after⟩)
        (ts.drop gap.length) (clause allowed inside (ts.drop gap.length))) :
    Paces allowed ⟨outer, here, .after⟩ (fun es => ⟨outer, here.add es, .after⟩) ts
      (behindOperand allowed inside ts) := by
  have hnone : (⟨outer, here.add [], .after⟩ : State) = ⟨outer, here, .after⟩ := by
    rw [Level.add_nil]
  cases ts with
  | nil => exact .none hnone []
  | cons t ts =>
    by_cases hends : t.alternates = true ∨ t.closes = true
    · rw [behindOperand_of_ends (gap?_of_ends hends ts)]
      exact .none hnone (t :: ts)
    obtain ⟨halt, hclose⟩ : t.alternates = false ∧ t.closes = false := by simpa using hends
    cases hjoin : t.joins with
    | true =>
      have hstep : step allowed ⟨outer, here, .after⟩ t
          = .ok (some (.joins, ⟨outer, here, .expect⟩)) := by
        simp [step, State.goOn?, behind, State.settled, halt, hclose, hjoin]
      rw [behindOperand_of_gap (gap?_of_joins halt hclose hjoin ts)]
      apply Paces.andThen (read_cons_of_step hstep)
      intro _ _
      exact hclause [.joins]
    | false =>
      rw [behindOperand_of_gap (gap?_of_beside halt hclose hjoin ts)]
      -- nothing is taken between the two, so the machine has to change its mode
      have hstep : step allowed ⟨outer, here, .after⟩ t = step allowed ⟨outer, here, .expect⟩ t := by
        simp [step, State.goOn?, behind, State.settled, halt, hclose, hjoin]
      have hread : read allowed ⟨outer, here, .after⟩ (t :: ts)
          = read allowed ⟨outer, here, .expect⟩ (t :: ts) := by
        simp only [read, hstep, State.settled]
      show read _ _ _ = _
      rw [hread]
      exact hclause []

theorem paces_clause (hprog : ∀ ts, Progresses (inside ts))
    (hin : PacesGroups allowed outer inside)
    (here : Level) (ts : List Token) :
    Paces allowed ⟨outer, here, .expect⟩ (fun es => ⟨outer, here.add es, .after⟩) ts
      (clause allowed inside ts) := by
  induction ts using rest_induction generalizing here with
  | step ts ih =>
    cases ts with
    | nil =>
      -- at the end the machine does not mind what it expects
      have hend : read allowed ⟨outer, here, .expect⟩ []
          = read allowed ⟨outer, here.add [], .after⟩ [] := by
        rw [Level.add_nil]
        rfl
      rw [clause]
      exact hend
    | cons t ts =>
      rw [clause_cons hprog]
      refine .andThen (paces_operand hin here t ts) fun operand? hop => .map ?_
      have hnext : (fun es => (⟨outer, here.add es, .after⟩ : State)) ∘ (operand?.toList ++ ·)
          = fun es => ⟨outer, (here.add operand?.toList).add es, .after⟩ := by
        funext es
        simp only [Function.comp_apply, Level.add_add]
      rw [hnext]
      apply paces_behindOperand
      intro gap
      -- an operand takes a token at least, so less is left than there was
      have hne := operand_progresses hprog t ts _ _ (Reading.eq_take_of_outcome hop)
      have hpos : 0 < (operand allowed inside t ts).taken := List.length_pos_iff.2 hne
      rw [List.drop_drop]
      refine ih _ ?_ _
      simp only [List.length_drop, List.length_cons]
      omega

/-! ### Queries and groups -/

theorem paces_clauses (hprog : ∀ ts, Progresses (inside ts))
    (hin : PacesGroups allowed outer inside)
    (l : Level) (ts : List Token) :
    Paces allowed ⟨outer, l.alternate, .expect⟩
      (fun css => ⟨outer, css.foldl (fun l es => l.alternate.add es) l, .after⟩) ts
      (clauses allowed inside ts) := by
  induction ts using rest_induction generalizing l with
  | step ts ih =>
    rw [clauses_eq]
    refine .andThen (paces_clause hprog hin l.alternate ts) fun es _ => .map ?_
    rcases hrest : ts.drop (clause allowed inside ts).taken with - | ⟨t, rest⟩
    · rfl
    cases halt : t.alternates with
    | true =>
      rw [behindClause_cons halt]
      have hstep : step allowed ⟨outer, l.alternate.add es, .after⟩ t
          = .ok (some (.alternates, ⟨outer, (l.alternate.add es).alternate, .expect⟩)) := by
        simp [step, State.goOn?, behind, State.settled, halt]
      apply Paces.andThen (read_cons_of_step hstep)
      intro _ _
      -- the next clause begins behind the `OR`, which is a tail of the whole list
      have hdrop : rest = ts.drop ((clause allowed inside ts).taken + 1) := by
        rw [← List.drop_drop, hrest]
        rfl
      have hlen := congrArg List.length hrest
      show Paces _ _ _ rest (clauses allowed inside rest)
      rw [hdrop]
      refine ih _ ?_ _
      simp only [List.length_drop, List.length_cons] at hlen ⊢
      omega
    | false =>
      have hahead : alternativeAhead (t :: rest) = false := halt
      rw [behindClause_of_ends hahead]
      rfl

/-- The expression of a level is that of its clauses. -/
theorem expr?_foldl (css : List (List Expr)) (l : Level) :
    (css.foldl (fun l es => l.alternate.add es) l).expr?
      = (css.map conjunction?).foldl either? l.expr? := by
  induction css generalizing l with
  | nil => rfl
  | cons es css ih =>
    rw [List.foldl_cons, ih]
    rfl

/-- Where a query or a group stops, all that goes on is its expression. -/
theorem read_of_stop {l l' : Level} (hexpr : l.expr? = l'.expr?)
    (h : ts = [] ∨ closeAhead ts = true) :
    read allowed ⟨outer, l, .after⟩ ts = read allowed ⟨outer, l', .after⟩ ts := by
  rcases h with rfl | h
  · simp only [read, State.settled, hexpr]
  · cases ts with
    | nil => cases h
    | cons t ts =>
      have hclose : t.closes = true := h
      have hstep : step allowed ⟨outer, l, .after⟩ t = step allowed ⟨outer, l', .after⟩ t := by
        simp only [step, State.goOn?, behind, State.settled, hclose, if_true, hexpr,
          alternates_eq_false_of_closes hclose, Bool.false_eq_true, if_false]
      simp only [read, hstep, State.settled, hexpr]

theorem paces_disjunction (hprog : ∀ ts, Progresses (inside ts))
    (hin : PacesGroups allowed outer inside)
    (ts : List Token) :
    Paces allowed ⟨outer, {}, .expect⟩ (fun expr? => ⟨outer, { operands := expr?.toList }, .after⟩)
      ts (disjunction allowed inside ts) := by
  have hclauses : Paces allowed ⟨outer, {}, .expect⟩ _ ts (clauses allowed inside ts) :=
    paces_clauses hprog hin {} ts
  apply Paces.map
  show read _ _ _ = _
  rw [hclauses]
  apply Reading.andThen_congr
  intro css hcss
  apply read_of_stop
  · rw [expr?_foldl, Level.expr?_toList]
    rfl
  · exact (clausesTake_of_eq hprog (Reading.eq_take_of_outcome hcss)).stop

/-- Outside all groups the machine stops where a query does. -/
theorem read_of_outermost {l : Level} (h : ts = [] ∨ closeAhead ts = true) :
    read allowed ⟨[], l, .after⟩ ts = .take [] l.expr? := by
  rcases h with rfl | h
  · rfl
  · cases ts with
    | nil => cases h
    | cons t ts =>
      have hclose : t.closes = true := h
      have hstep : step allowed ⟨[], l, .after⟩ t = .ok none := by
        simp [step, State.goOn?, behind, hclose, alternates_eq_false_of_closes hclose]
      simp only [read, hstep, State.settled]

theorem paces_close {l : Level} (h : closeAhead ts = true) {expr? : Option Expr} :
    Paces allowed ⟨l :: outer, { operands := expr?.toList }, .after⟩
      (fun expr? => ⟨outer, l.add expr?.toList, .after⟩) ts (.take [.closes] expr?) := by
  cases ts with
  | nil => cases h
  | cons t ts =>
    have hclose : t.closes = true := h
    refine .one ?_ ts
    simp [step, State.goOn?, behind, State.settled, hclose, alternates_eq_false_of_closes hclose,
      Level.expr?_toList]

/-- The machine counts the groups that are open, the rules those that may
still be opened. -/
theorem paces_group {depth : Nat} (hsum : depth + outer.length = maxDepth) :
    PacesGroups allowed outer (group allowed depth) := by
  induction depth generalizing outer with
  | zero =>
    intro here t ts ht
    have hop := Token.isOperator_eq_false_of_opens ht
    have hfull : outer.length = maxDepth := by omega
    have hstep : step allowed ⟨outer, here, .expect⟩ t = .error (.tooDeep maxDepth) := by
      simp [step, expectOperand, hop, ht, hfull, Except.map]
    show read _ _ _ = _
    rw [read, hstep]
    rfl
  | succ depth ih =>
    intro here t ts ht
    have hop := Token.isOperator_eq_false_of_opens ht
    have hroom : outer.length ≠ maxDepth := by omega
    have hstep : step allowed ⟨outer, here, .expect⟩ t
        = .ok (some (.opens, ⟨here :: outer, {}, .expect⟩)) := by
      simp [step, expectOperand, hop, ht, hroom, Except.map]
    have hsum : depth + (here :: outer).length = maxDepth := by
      rw [List.length_cons]
      omega
    have hinner := paces_disjunction (group_progresses depth) (ih hsum) ts
    rw [group]
    apply Paces.andThen (read_cons_of_step hstep)
    intro _ _
    apply Paces.andThen hinner
    intro expr? hexpr
    rcases eq_nil_or_closeAhead_behind_disjunction (group_progresses depth) hexpr with
      hnil | hclose
    · -- the group is still open at the end of the query
      show Paces _ _ _ (ts.drop (disjunction allowed (group allowed depth) ts).taken) _
      rw [hnil]
      rfl
    · show Paces _ _ _ (ts.drop (disjunction allowed (group allowed depth) ts).taken) _
      rw [if_pos hclose]
      exact paces_close hclose

end Machine

/-- **Reading with a stack is reading by the rules.** -/
theorem parse_eq_read (allowed : String → Bool) (ts : List Token) :
    parse allowed ts = Machine.read allowed Machine.start ts := by
  have hprog : ∀ ts, Progresses (group allowed maxDepth ts) := group_progresses maxDepth
  have hsum : maxDepth + ([] : List Machine.Level).length = maxDepth := rfl
  have hpace := Machine.paces_disjunction hprog (Machine.paces_group hsum) ts
  symm
  apply Eq.trans hpace
  apply Reading.andThen_eq_self
  intro expr? hexpr
  have hstop := eq_nil_or_closeAhead_behind_disjunction hprog hexpr
  rw [Machine.read_of_outermost hstop, Machine.Level.expr?_toList]

end SearchQuery.Grammar
