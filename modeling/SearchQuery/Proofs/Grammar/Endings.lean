/-
SearchQuery/Proofs/Grammar/Endings.lean

What is written at the end of a query.

The machine goes past the tokens that are there in the same way whatever
comes behind them (`Passes.read_append`), so tokens at the end are met in the
state in which the query has left the machine.  Two kinds of them are
followed here.  An empty phrase finishes what is unfinished and adds nothing
(`parse_append_empty`).  Closing parentheses close the groups that are open;
only where an operand has to come the first of them is a word
(`parse_append_closes`).

A query may also end before its tokens do, at a `)` outside all groups.  The
machine looks at this token and at none behind it, so what stands there can
be replaced by anything (`parse_take_append`).

How many groups can be open is told by the number of tokens that open one
(`Passes.length_outer_le`).  So a query cannot have an open group, or too
many, without enough of these tokens.
-/
import SearchQuery.Proofs.Grammar.Machine

namespace SearchQuery.Grammar

namespace Reading

variable {α β : Type}

@[simp] theorem outcome_take_andThen (roles : List Role) (a : α) (next : α → Reading β) :
    ((take roles a).andThen next).outcome = (next a).outcome := rfl

theorem used_take_andThen (roles : List Role) (a : α) (next : α → Reading β) :
    ((take roles a).andThen next).used = roles.filterMap Role.key? ++ (next a).used :=
  List.filterMap_append

end Reading

/-- How many groups are open behind a token in this role, if `n` are in front
of it. -/
def Role.openAfter (n : Nat) : Role → Nat
  | opens => n + 1
  | closes => n - 1
  | _ => n

namespace Machine

/-! ### Going past tokens -/

/-- The machine goes past some tokens, in these roles, from one state to
another. -/
inductive Passes (allowed : String → Bool) : State → List Token → List Role → State → Prop
  | nil {s} : Passes allowed s [] [] s
  | cons {s t role s₁ ts roles s₂} : step allowed s t = .ok (some (role, s₁)) →
      Passes allowed s₁ ts roles s₂ → Passes allowed s (t :: ts) (role :: roles) s₂

variable {allowed : String → Bool} {s s' : State} {t : Token} {ts : List Token}
variable {roles : List Role}

theorem Passes.read_append (h : Passes allowed s ts roles s') (us : List Token) :
    read allowed s (ts ++ us)
      = (Reading.take roles ()).andThen fun _ => read allowed s' us := by
  induction h with
  | nil => rfl
  | cons hstep _ ih =>
    rw [List.cons_append, read_cons_of_step hstep, ih]
    rfl

theorem Passes.read_eq (h : Passes allowed s ts roles s') :
    read allowed s ts = (Reading.take roles ()).andThen fun _ => read allowed s' [] := by
  have hread := h.read_append []
  rwa [List.append_nil] at hread

/-- One run behind another. -/
theorem Passes.append {us : List Token} {rs : List Role} {s'' : State}
    (h : Passes allowed s ts roles s') (h' : Passes allowed s' us rs s'') :
    Passes allowed s (ts ++ us) (roles ++ rs) s'' := by
  induction h with
  | nil => exact h'
  | cons hstep _ ih => exact .cons hstep (ih h')

theorem Passes.length_roles (h : Passes allowed s ts roles s') : roles.length = ts.length := by
  induction h with
  | nil => rfl
  | cons _ _ ih => rw [List.length_cons, List.length_cons, ih]

/-- The last of the tokens is gone past in the last of the roles. -/
theorem Passes.exists_last (h : Passes allowed s ts roles s') (hne : ts ≠ []) :
    ∃ s₁ t role, ts.getLast? = some t ∧ roles.getLast? = some role ∧
      step allowed s₁ t = .ok (some (role, s')) := by
  induction h with
  | nil => exact absurd rfl hne
  | @cons s t role s₁ ts roles s₂ hstep hpass ih =>
    cases hpass with
    | nil => exact ⟨s, t, role, rfl, rfl, hstep⟩
    | cons _ _ =>
      obtain ⟨s₁, u, last, hu, hlast, hstep'⟩ := ih (List.cons_ne_nil _ _)
      exact ⟨s₁, u, last, hu, hlast, hstep'⟩

/-- The machine does not go past a token. -/
def Halts (allowed : String → Bool) (s : State) (t : Token) : Prop :=
  ∀ next, step allowed s t ≠ .ok (some next)

/-- The machine goes past all tokens, or there is one that it does not go
past. -/
theorem passes_or_halts (allowed : String → Bool) (s : State) (ts : List Token) :
    (∃ roles s', Passes allowed s ts roles s') ∨
      ∃ before t behind roles s', ts = before ++ t :: behind ∧
        Passes allowed s before roles s' ∧ Halts allowed s' t := by
  induction ts generalizing s with
  | nil => exact .inl ⟨[], s, .nil⟩
  | cons t ts ih =>
    by_cases hhalt : Halts allowed s t
    · exact .inr ⟨[], t, ts, [], s, rfl, .nil, hhalt⟩
    obtain ⟨⟨role, s₁⟩, hstep⟩ : ∃ next, step allowed s t = .ok (some next) := by
      simpa [Halts] using hhalt
    rcases ih s₁ with ⟨roles, s', hpass⟩ | ⟨before, u, behind, roles, s', rfl, hpass, hhalt⟩
    · exact .inl ⟨role :: roles, s', .cons hstep hpass⟩
    · exact .inr ⟨t :: before, u, behind, role :: roles, s', rfl, .cons hstep hpass, hhalt⟩

/-- The machine halts at the end of the query, and at a group too many. -/
theorem read_of_halts (h : Halts allowed s t) :
    (∀ us, read allowed s (t :: us) = .take [] s.settled.expr?) ∨
      (∀ us, read allowed s (t :: us) = .fail (.tooDeep maxDepth)) ∧ t.opens = true ∧
        s.outer.length = maxDepth := by
  rcases hstep : step allowed s t with why | - | next
  · cases stepsTo_of_step hstep with
    | tooDeep _ hopen hfull =>
      refine .inr ⟨fun us => ?_, hopen, hfull⟩
      rw [read, hstep]
  · refine .inl fun us => ?_
    rw [read, hstep]
  · exact absurd hstep (h next)

/-- Outside all groups, at the end or in front of a token at which the machine
stops. -/
structure Stops (allowed : String → Bool) (s : State) (us : List Token) : Prop where
  outer : s.outer = []
  step : ∀ t ∈ us.head?, step allowed s t = .ok none

/-- In front of a token means in front of a `)`. -/
theorem Stops.closes {us : List Token} (h : Stops allowed s (t :: us)) : t.closes = true := by
  cases stepsTo_of_step (h.step t rfl) with
  | stops _ hclose _ => exact hclose

/-- What stands behind that token does not matter. -/
theorem Stops.of_cons {us : List Token} (h : Stops allowed s (t :: us)) (vs : List Token) :
    Stops allowed s (t :: vs) :=
  ⟨h.outer, h.step⟩

theorem Stops.read_eq {us : List Token} (h : Stops allowed s us) :
    read allowed s us = .take [] s.settled.expr? := by
  cases us with
  | nil =>
    rw [read, h.outer]
    rfl
  | cons t us => rw [read, h.step t rfl]

/-- The machine stops where it goes no further and there is no error. -/
theorem stops_of_ok {us : List Token} {expr? : Option Expr}
    (hhalt : ∀ t ∈ us.head?, Halts allowed s t) (h : (read allowed s us).outcome = .ok expr?) :
    Stops allowed s us := by
  cases us with
  | nil =>
    rw [read] at h
    split at h
    · rename_i houter
      exact ⟨List.isEmpty_iff.1 houter, fun t ht => by cases ht⟩
    · cases h
  | cons t us =>
    rcases hstep : Machine.step allowed s t with why | - | next
    · rw [read, hstep] at h
      cases h
    · cases stepsTo_of_step hstep with
      | stops _ _ houter =>
        refine ⟨houter, fun u hu => ?_⟩
        obtain rfl : t = u := Option.some.inj hu
        exact hstep
    · exact absurd hstep (hhalt t rfl next)

/-- Where reading comes to a value, the machine goes past the tokens up to the
place where it stops. -/
theorem exists_passes_of_read {expr? : Option Expr} (h : (read allowed s ts).outcome = .ok expr?) :
    ∃ before behind roles s', ts = before ++ behind ∧ Passes allowed s before roles s' ∧
      read allowed s ts = .take roles expr? ∧ Stops allowed s' behind ∧
      s'.settled.expr? = expr? := by
  obtain ⟨before, behind, roles, s', rfl, hpass, hhalt⟩ :
      ∃ before behind roles s', ts = before ++ behind ∧ Passes allowed s before roles s' ∧
        ∀ t ∈ behind.head?, Halts allowed s' t := by
    rcases passes_or_halts allowed s ts with
      ⟨roles, s', hpass⟩ | ⟨before, t, behind, roles, s', rfl, hpass, hhalt⟩
    · exact ⟨ts, [], roles, s', (List.append_nil _).symm, hpass, nofun⟩
    · refine ⟨before, t :: behind, roles, s', rfl, hpass, fun u hu => ?_⟩
      obtain rfl : t = u := Option.some.inj hu
      exact hhalt
  rw [hpass.read_append, Reading.outcome_take_andThen] at h
  have hstops := stops_of_ok hhalt h
  rw [hstops.read_eq] at h
  obtain rfl := Except.ok.inj h
  refine ⟨before, behind, roles, s', rfl, hpass, ?_, hstops, rfl⟩
  rw [hpass.read_append, hstops.read_eq]
  exact (Reading.take_andThen rfl).trans (congrArg (Reading.take · _) (List.append_nil _))

/-- Where reading takes all tokens, the machine goes past all of them and
leaves no group open. -/
theorem exists_passes_of_read_all {expr? : Option Expr}
    (h : read allowed s ts = .take roles expr?) (hall : roles.length = ts.length) :
    ∃ s', Passes allowed s ts roles s' ∧ s'.outer = [] ∧ s'.settled.expr? = expr? := by
  have hok : (read allowed s ts).outcome = .ok expr? := by rw [h, Reading.outcome_take]
  obtain ⟨before, behind, rs, s', rfl, hpass, hread, hstops, hexpr⟩ := exists_passes_of_read hok
  obtain ⟨rfl, -⟩ := Reading.take_inj.1 (h.symm.trans hread)
  obtain rfl : behind = [] := by
    rw [hpass.length_roles, List.length_append] at hall
    exact List.length_eq_zero_iff.1 (by omega)
  rw [List.append_nil]
  exact ⟨s', hpass, hstops.outer, hexpr⟩

/-! ### Open groups -/

@[simp] theorem outer_behindKey (outer : List Level) (here : Level) (key argument : String) :
    (behindKey outer here key argument).outer = outer := by
  unfold behindKey
  split <;> rfl

theorem Begins.length_outer {outer : List Level} {here : Level} {role : Role}
    (h : Begins allowed outer here t role s') :
    s'.outer.length = role.openAfter outer.length := by
  cases h with
  | opens => exact List.length_cons
  | filter => exact congrArg List.length (outer_behindKey _ _ _ _)
  | stray | literal | phrase | word => rfl

/-- A step opens and closes groups as the role of the token says. -/
theorem length_outer_of_step {role : Role} (h : step allowed s t = .ok (some (role, s'))) :
    s'.outer.length = role.openAfter s.outer.length := by
  cases stepsTo_of_step h with
  | expected _ hbegins | beside _ hbegins => exact hbegins.length_outer
  | goesOn hgo => rcases goOn?_eq_some hgo with ⟨_, _, rfl, rfl⟩ | ⟨_, _, rfl, rfl⟩ <;> rfl
  | alternates | joins => rfl
  | closes _ _ houter =>
    rw [houter]
    rfl

theorem opens_of_step (h : step allowed s t = .ok (some (.opens, s'))) : t.opens = true := by
  cases stepsTo_of_step h with
  | expected _ hbegins | beside _ hbegins =>
    cases hbegins with
    | opens hopen _ => exact hopen
  | goesOn hgo =>
    rcases goOn?_eq_some hgo with ⟨_, _, hrole, _⟩ | ⟨_, _, hrole, _⟩ <;> cases hrole

/-- A token opens one group at most. -/
theorem length_outer_le_of_step {role : Role} (h : step allowed s t = .ok (some (role, s'))) :
    s'.outer.length ≤ s.outer.length + [t].countP Token.opens := by
  rw [length_outer_of_step h]
  cases role with
  | opens =>
    rw [List.countP_cons_of_pos (opens_of_step h)]
    exact Nat.le_refl _
  | closes => exact Nat.le_trans (Nat.sub_le _ _) (Nat.le_add_right _ _)
  | _ => exact Nat.le_add_right _ _

theorem Passes.length_outer_le (h : Passes allowed s ts roles s') :
    s'.outer.length ≤ s.outer.length + ts.countP Token.opens := by
  induction h with
  | nil => exact Nat.le_add_right _ _
  | @cons s t role s₁ ts roles s₂ hstep _ ih =>
    have hone := length_outer_le_of_step hstep
    rw [← List.singleton_append, List.countP_append]
    omega

/-! ### Closing what is open -/

theorem goOn?_close (allowed : String → Bool) (s : State) : s.goOn? allowed (.word ")") = none := by
  obtain ⟨outer, here, mode⟩ := s
  cases mode with
  | expect | after | bare => rfl
  | words ws => simp [State.goOn?, continuesRun, Token.word, Token.closes]

/-- Where an operand has to come a closing parenthesis is a word. -/
theorem step_close_of_expect (allowed : String → Bool) (outer : List Level) (here : Level) :
    step allowed ⟨outer, here, .expect⟩ (.word ")")
      = .ok (some (.word, ⟨outer, here, .words [.word ")"]⟩)) :=
  step_of_expectOperand rfl

/-- Behind an operand as many parentheses as there are open groups are
enough. -/
theorem read_closes (hmode : s.mode ≠ .expect) {m : Nat} (h : s.outer.length ≤ m) :
    ∃ expr?, (read allowed s (List.replicate m (.word ")"))).outcome = .ok expr? := by
  induction m generalizing s with
  | zero =>
    have hnone : s.outer = [] := List.length_eq_zero_iff.1 (Nat.le_zero.1 h)
    refine ⟨s.settled.expr?, ?_⟩
    rw [List.replicate_zero, read, hnone]
    rfl
  | succ m ih =>
    have hstep := step_of_goOn?_eq_none hmode (goOn?_close allowed s)
    rw [List.replicate_succ]
    cases houter : s.outer with
    | nil =>
      -- the query ends at a parenthesis that closes nothing
      rw [houter] at hstep
      refine ⟨s.settled.expr?, ?_⟩
      rw [read, hstep]
      rfl
    | cons l ls =>
      rw [houter] at hstep h
      have hrest : ls.length ≤ m := Nat.le_of_succ_le_succ h
      rw [read_cons_of_step hstep]
      exact ih (s := ⟨ls, _, .after⟩) Mode.noConfusion hrest

/-- One more is enough anywhere: where an operand has to come, the first
parenthesis is a word. -/
theorem read_closes_of_lt {m : Nat} (h : s.outer.length < m) :
    ∃ expr?, (read allowed s (List.replicate m (.word ")"))).outcome = .ok expr? := by
  by_cases hmode : s.mode = .expect
  · obtain ⟨m, rfl⟩ : ∃ k, m = k + 1 := Nat.exists_eq_succ_of_ne_zero (Nat.ne_zero_of_lt h)
    obtain ⟨outer, here, mode⟩ := s
    obtain rfl : mode = .expect := hmode
    rw [List.replicate_succ, read_cons_of_step (step_close_of_expect allowed outer here)]
    exact read_closes (s := ⟨outer, here, .words _⟩) Mode.noConfusion (Nat.le_of_lt_succ h)
  · exact read_closes hmode (Nat.le_of_lt h)

/-! ### An empty phrase -/

/-- An empty phrase finishes what is unfinished, and nothing else comes of
it. -/
theorem step_empty (allowed : String → Bool) (s : State) :
    ∃ role, role.key? = none ∧
      step allowed s (.phrase "") = .ok (some (role, ⟨s.outer, s.settled, .after⟩)) := by
  have hexpect : ∀ outer here, expectOperand allowed outer here (.phrase "")
      = .ok (.phrase, ⟨outer, here, .after⟩) := by
    intro outer here
    show Except.ok (Role.phrase, State.mk outer (here.add []) .after) = _
    rw [Level.add_nil]
  have hbehind : ∀ outer here, behind allowed outer here (.phrase "")
      = .ok (some (.phrase, ⟨outer, here, .after⟩)) := by
    intro outer here
    show (expectOperand allowed outer here (.phrase "")).map some = _
    rw [hexpect]
    rfl
  obtain ⟨outer, here, mode⟩ := s
  cases mode with
  | expect => exact ⟨.phrase, rfl, step_of_expectOperand (hexpect outer here)⟩
  | after => exact ⟨.phrase, rfl, hbehind outer here⟩
  | words ws =>
    refine ⟨.phrase, rfl, ?_⟩
    rw [step_of_goOn?_eq_none Mode.noConfusion rfl, hbehind]
  | bare key =>
    -- the filter takes it and still has no value
    refine ⟨.argument, rfl, ?_⟩
    show Except.ok (some (Role.argument, State.mk outer (here.add []) .after)) = _
    rw [Level.add_nil]
    rfl

theorem read_append_empty (allowed : String → Bool) (s : State) (ts : List Token) :
    (read allowed s (ts ++ [.phrase ""])).outcome = (read allowed s ts).outcome ∧
      (read allowed s (ts ++ [.phrase ""])).used = (read allowed s ts).used := by
  rcases passes_or_halts allowed s ts with
    ⟨roles, s', hpass⟩ | ⟨before, t, behind, roles, s', rfl, hpass, hhalt⟩
  · obtain ⟨role, hrole, hstep⟩ := step_empty allowed s'
    have hend : read allowed s' [.phrase ""]
        = (Reading.take [role] ()).andThen fun _ => read allowed s' [] := by
      rw [read_cons_of_step hstep]
      rfl
    have hnone : [role].filterMap Role.key? = [] := by simp [hrole]
    rw [hpass.read_append, hpass.read_eq, hend]
    simp only [Reading.outcome_take_andThen, Reading.used_take_andThen, hnone, List.nil_append,
      and_self]
  · -- the end of the tokens is not reached
    have hread : read allowed s' (t :: behind ++ [.phrase ""]) = read allowed s' (t :: behind) := by
      rcases read_of_halts hhalt with h | ⟨h, -⟩
      · rw [List.cons_append, h, h]
      · rw [List.cons_append, h, h]
    rw [List.append_assoc, hpass.read_append, hread, hpass.read_append]
    exact ⟨rfl, rfl⟩

end Machine

/-! ### Endings of queries -/

variable {allowed : String → Bool} {ts : List Token}

/-- A query leaves the machine outside all groups, at the end or in front of a
token at which the machine stops. -/
theorem exists_passes_of_ok {expr? : Option Expr} (h : (parse allowed ts).outcome = .ok expr?) :
    ∃ before behind roles s', ts = before ++ behind ∧
      Machine.Passes allowed Machine.start before roles s' ∧
      parse allowed ts = .take roles expr? ∧ Machine.Stops allowed s' behind ∧
      s'.settled.expr? = expr? := by
  rw [parse_eq_read] at h ⊢
  exact Machine.exists_passes_of_read h

/-- A query that ends before its tokens do ends in front of a `)`, and **what
stands behind this token does not matter**: the same tokens are taken in the
same roles, and they come to the same expression. -/
theorem parse_take_append {expr? : Option Expr} {p : Token}
    (h : (parse allowed ts).outcome = .ok expr?) (hp : ts[(parse allowed ts).taken]? = some p) :
    p.closes = true ∧ ∀ us,
      parse allowed (ts.take ((parse allowed ts).taken + 1) ++ us) = parse allowed ts := by
  obtain ⟨before, behind, roles, s', rfl, hpass, hparse, hstops, rfl⟩ := exists_passes_of_ok h
  have htaken : (parse allowed (before ++ behind)).taken = before.length := by
    rw [hparse, Reading.taken_take, hpass.length_roles]
  rw [htaken] at hp ⊢
  cases behind with
  | nil => simp at hp
  | cons u behind =>
    obtain rfl : u = p := by simpa using hp
    refine ⟨hstops.closes, fun us => ?_⟩
    have hlist : (before ++ u :: behind).take (before.length + 1) ++ us = before ++ u :: us := by
      rw [List.take_length_add_append, List.append_assoc]
      rfl
    rw [hlist, parse_eq_read, parse_eq_read, hpass.read_append, hpass.read_append,
      (hstops.of_cons us).read_eq, hstops.read_eq]

/-- A query with an open group leaves the machine inside of it. -/
theorem exists_passes_of_unclosedGroup
    (h : (parse allowed ts).outcome = .error .unclosedGroup) :
    ∃ roles s', Machine.Passes allowed Machine.start ts roles s' ∧ s'.outer ≠ [] := by
  rw [parse_eq_read] at h
  rcases Machine.passes_or_halts allowed Machine.start ts with
    ⟨roles, s', hpass⟩ | ⟨before, t, behind, roles, s', rfl, hpass, hhalt⟩
  · refine ⟨roles, s', hpass, fun hnone => ?_⟩
    rw [hpass.read_eq, Machine.read, hnone] at h
    cases h
  · rw [hpass.read_append] at h
    rcases Machine.read_of_halts hhalt with hread | ⟨hread, -⟩
    · rw [hread] at h
      cases h
    · rw [hread] at h
      cases h

/-- There is no open group without a token that opens one. -/
theorem countP_opens_of_unclosedGroup
    (h : (parse allowed ts).outcome = .error .unclosedGroup) : 0 < ts.countP Token.opens := by
  obtain ⟨roles, s', hpass, hopen⟩ := exists_passes_of_unclosedGroup h
  have hle := hpass.length_outer_le
  have hpos := List.length_pos_iff.2 hopen
  simp only [Machine.start, List.length_nil] at hle
  omega

/-- There are not too many groups, one inside the other, without as many
tokens that open one. -/
theorem countP_opens_of_tooDeep {limit : Nat}
    (h : (parse allowed ts).outcome = .error (.tooDeep limit)) :
    maxDepth < ts.countP Token.opens := by
  rw [parse_eq_read] at h
  rcases Machine.passes_or_halts allowed Machine.start ts with
    ⟨roles, s', hpass⟩ | ⟨before, t, behind, roles, s', rfl, hpass, hhalt⟩
  · rw [hpass.read_eq, Reading.outcome_take_andThen, Machine.read] at h
    split at h <;> cases h
  · rw [hpass.read_append] at h
    rcases Machine.read_of_halts hhalt with hread | ⟨-, hopen, hfull⟩
    · rw [hread] at h
      cases h
    · -- the groups that are open, and one more
      have hle := hpass.length_outer_le
      rw [List.countP_append, List.countP_cons_of_pos hopen]
      simp only [Machine.start, List.length_nil] at hle
      omega

/-- **Open groups can be closed at the end** by more parentheses than there
are tokens that open a group. -/
theorem parse_append_closes (h : (parse allowed ts).outcome = .error .unclosedGroup) {m : Nat}
    (hm : ts.countP Token.opens < m) :
    ∃ expr?, (parse allowed (ts ++ List.replicate m (.word ")"))).outcome = .ok expr? := by
  obtain ⟨roles, s', hpass, -⟩ := exists_passes_of_unclosedGroup h
  have hle := hpass.length_outer_le
  have hlt : s'.outer.length < m := by
    simp only [Machine.start, List.length_nil] at hle
    omega
  rw [parse_eq_read, hpass.read_append]
  exact Machine.read_closes_of_lt hlt

/-- **An empty phrase at the end changes nothing.** -/
theorem parse_append_empty (allowed : String → Bool) (ts : List Token) :
    (parse allowed (ts ++ [.phrase ""])).outcome = (parse allowed ts).outcome ∧
      (parse allowed (ts ++ [.phrase ""])).used = (parse allowed ts).used := by
  rw [parse_eq_read, parse_eq_read]
  exact Machine.read_append_empty allowed Machine.start ts

end SearchQuery.Grammar
