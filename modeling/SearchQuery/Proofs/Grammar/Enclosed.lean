/-
SearchQuery/Proofs/Grammar/Enclosed.lean

Queries in parentheses.

What stands in a group is read as it would be outside of it.  A step asks of
the levels around the open groups how many there are, and a `)` brings back
the innermost of them; no more is ever looked at.  So tokens are gone past in
the same way with more levels around (`Passes.within`), up to the first
group for which there is no room any more (`Passes.read_within`).  How much
room is needed is told by the roles alone, since they say how many groups are
open at the same time (`mostOpen`).

Main statement: parentheses around a query that takes all of its tokens
change nothing, unless the query has a group too many now, or ends where an
operand has to come (`parse_enclosed`).
-/
import Mathlib.Data.List.Induction
import SearchQuery.KeyMarks
import SearchQuery.Proofs.Grammar.Endings

namespace SearchQuery.Grammar

/-! ### Open groups -/

/-- How many groups are open at the same time, at most, if `n` are in front of
the tokens. -/
def mostOpen : Nat → List Role → Nat
  | n, [] => n
  | n, role :: roles => max n (mostOpen (role.openAfter n) roles)

theorem le_mostOpen (n : Nat) (roles : List Role) : n ≤ mostOpen n roles := by
  cases roles with
  | nil => exact Nat.le_refl n
  | cons role roles => exact Nat.le_max_left _ _

namespace Machine

variable {allowed : String → Bool} {s s' : State} {t : Token} {ts : List Token}
variable {role : Role} {roles : List Role} {outer : List Level} {here : Level}

theorem Begins.mode_eq_expect_iff (h : Begins allowed outer here t role s') :
    s'.mode = .expect ↔ role = .joins ∨ role = .alternates ∨ role = .opens := by
  cases h with
  | @filter key argument =>
    unfold behindKey
    split <;> simp
  | opens | stray | literal | phrase | word => simp

/-- An operand has to come behind a separator and in a group, and nowhere
else. -/
theorem mode_of_step (h : step allowed s t = .ok (some (role, s'))) :
    s'.mode = .expect ↔ role = .joins ∨ role = .alternates ∨ role = .opens := by
  cases stepsTo_of_step h with
  | expected _ hbegins | beside _ hbegins => exact hbegins.mode_eq_expect_iff
  | goesOn hgo => rcases goOn?_eq_some hgo with ⟨_, _, rfl, rfl⟩ | ⟨_, _, rfl, rfl⟩ <;> simp
  | alternates | joins | closes => simp

/-! ### More levels around -/

/-- A state with more levels around. -/
def State.within (s : State) (ls : List Level) : State :=
  { s with outer := s.outer ++ ls }

variable {ls : List Level}

theorem behindKey_within (outer : List Level) (here : Level) (key argument : String)
    (ls : List Level) :
    behindKey (outer ++ ls) here key argument
      = (behindKey outer here key argument).within ls := by
  unfold behindKey
  split <;> rfl

/-- A step that goes to `s'` does so with more levels around as well, unless
there is no room left for a group. -/
def goInto (ls : List Level) (outer : List Level) (role : Role) (s' : State) :
    Except ParseError (Role × State) :=
  if role = .opens ∧ outer.length + ls.length = maxDepth then .error (.tooDeep maxDepth)
  else .ok (role, s'.within ls)

theorem goInto_of_ne (h : role ≠ .opens) : goInto ls outer role s' = .ok (role, s'.within ls) :=
  if_neg fun hfull => h hfull.1

theorem expectOperand_within (h : expectOperand allowed outer here t = .ok (role, s')) :
    expectOperand allowed (outer ++ ls) here t = goInto ls outer role s' := by
  -- the cases are those of the definition, and only a group is counted
  unfold expectOperand at h ⊢
  by_cases hop : t.isOperator = true
  · rw [if_pos hop] at h ⊢
    cases h
    rfl
  rw [if_neg hop] at h ⊢
  by_cases hopen : t.opens = true
  · rw [if_pos hopen] at h ⊢
    by_cases hfull : outer.length = maxDepth
    · rw [if_pos hfull] at h
      cases h
    · rw [if_neg hfull] at h
      cases h
      rw [List.length_append]
      simp only [goInto, true_and]
      rfl
  rw [if_neg hopen] at h ⊢
  rcases hcut : Text.cutAtColon t.text with - | ⟨key, argument⟩
  · simp only [hcut] at h ⊢
    by_cases hquoted : t.quoted = true
    · rw [if_pos hquoted] at h ⊢
      cases h
      rfl
    · rw [if_neg hquoted] at h ⊢
      cases h
      rfl
  · simp only [hcut] at h ⊢
    by_cases hkey : allowed key = true
    · rw [if_pos hkey] at h ⊢
      cases h
      rw [behindKey_within]
      rfl
    · rw [if_neg hkey] at h ⊢
      cases h
      rfl

theorem map_expectOperand_within
    (h : (expectOperand allowed outer here t).map some = .ok (some (role, s'))) :
    (expectOperand allowed (outer ++ ls) here t).map some = (goInto ls outer role s').map some := by
  cases hexpect : expectOperand allowed outer here t with
  | error why =>
    rw [hexpect] at h
    cases h
  | ok next =>
    rw [hexpect] at h
    cases h
    rw [expectOperand_within hexpect]

theorem behind_within (h : behind allowed outer here t = .ok (some (role, s'))) :
    behind allowed (outer ++ ls) here t = (goInto ls outer role s').map some := by
  unfold behind at h ⊢
  by_cases halt : t.alternates = true
  · rw [if_pos halt] at h ⊢
    cases h
    rfl
  rw [if_neg halt] at h ⊢
  by_cases hclose : t.closes = true
  · rw [if_pos hclose] at h ⊢
    cases outer with
    | nil => cases h
    | cons l outer =>
      cases h
      rfl
  rw [if_neg hclose] at h ⊢
  by_cases hjoin : t.joins = true
  · rw [if_pos hjoin] at h ⊢
    cases h
    rfl
  · rw [if_neg hjoin] at h ⊢
    exact map_expectOperand_within h

theorem goOn?_within (s : State) (ls : List Level) (t : Token) :
    (s.within ls).goOn? allowed t
      = (s.goOn? allowed t).map fun next => (next.1, next.2.within ls) := by
  obtain ⟨outer, here, mode⟩ := s
  cases mode with
  | expect | after => rfl
  | words ws =>
    show (if continuesRun allowed t = true then _ else _) = Option.map _ (if _ then _ else _)
    split <;> rfl
  | bare key =>
    show (if t.quoted = true then _ else _) = Option.map _ (if _ then _ else _)
    split <;> rfl

theorem step_within (ls : List Level) (h : step allowed s t = .ok (some (role, s'))) :
    step allowed (s.within ls) t = (goInto ls s.outer role s').map some := by
  by_cases hmode : s.mode = .expect
  · obtain ⟨outer, here, mode⟩ := s
    obtain rfl : mode = .expect := hmode
    exact map_expectOperand_within h
  cases hgo : s.goOn? allowed t with
  | some next =>
    rw [step_of_goOn? hgo] at h
    cases h
    have hwithin : (s.within ls).goOn? allowed t = some (role, s'.within ls) := by
      rw [goOn?_within, hgo]
      rfl
    have hrole : role ≠ .opens := by
      rcases goOn?_eq_some hgo with ⟨_, _, rfl, -⟩ | ⟨_, _, rfl, -⟩ <;> exact Role.noConfusion
    rw [step_of_goOn? hwithin, goInto_of_ne hrole]
    rfl
  | none =>
    rw [step_of_goOn?_eq_none hmode hgo] at h
    have hwithin : (s.within ls).goOn? allowed t = none := by
      rw [goOn?_within, hgo]
      rfl
    rw [step_of_goOn?_eq_none (s := s.within ls) hmode hwithin]
    exact behind_within h

/-- With more levels around a step is the same, if there is room for them. -/
theorem step_within_of_le (h : step allowed s t = .ok (some (role, s')))
    (hroom : s'.outer.length + ls.length ≤ maxDepth) :
    step allowed (s.within ls) t = .ok (some (role, s'.within ls)) := by
  rw [length_outer_of_step h] at hroom
  have hfits : ¬ (role = .opens ∧ s.outer.length + ls.length = maxDepth) := by
    rintro ⟨rfl, hfull⟩
    have hmore : s.outer.length + 1 + ls.length ≤ maxDepth := hroom
    omega
  rw [step_within ls h, goInto, if_neg hfits]
  rfl

/-- If there is no more room behind the step, it is an error. -/
theorem step_within_of_lt (h : step allowed s t = .ok (some (role, s')))
    (hroom : s.outer.length + ls.length ≤ maxDepth)
    (hfull : maxDepth < s'.outer.length + ls.length) :
    step allowed (s.within ls) t = .error (.tooDeep maxDepth) := by
  rw [length_outer_of_step h] at hfull
  have hopen : role = .opens ∧ s.outer.length + ls.length = maxDepth := by
    cases role with
    | opens =>
      have hmore : maxDepth < s.outer.length + 1 + ls.length := hfull
      exact ⟨rfl, by omega⟩
    | closes =>
      have hless : maxDepth < s.outer.length - 1 + ls.length := hfull
      omega
    | _ => exact absurd hfull (Nat.not_lt.2 hroom)
  rw [step_within ls h, goInto, if_pos hopen]
  rfl

/-! ### Runs -/

/-- Tokens that open no group too many are gone past in the same way with more
levels around. -/
theorem Passes.within (h : Passes allowed s ts roles s') (ls : List Level)
    (hroom : mostOpen s.outer.length roles + ls.length ≤ maxDepth) :
    Passes allowed (s.within ls) ts roles (s'.within ls) := by
  induction h with
  | nil => exact .nil
  | @cons s t role s₁ ts roles s₂ hstep _ ih =>
    rw [mostOpen, ← length_outer_of_step hstep] at hroom
    have hle := le_mostOpen s₁.outer.length roles
    apply Passes.cons
    · exact step_within_of_le hstep (by omega)
    · exact ih (by omega)

/-- Otherwise there is an error at the first group too many, whatever stands
behind the tokens. -/
theorem Passes.read_within (h : Passes allowed s ts roles s') (ls : List Level)
    (hroom : s.outer.length + ls.length ≤ maxDepth)
    (hfull : maxDepth < mostOpen s.outer.length roles + ls.length) (us : List Token) :
    (read allowed (s.within ls) (ts ++ us)).outcome = .error (.tooDeep maxDepth) := by
  induction h with
  | nil => exact absurd hfull (Nat.not_lt.2 hroom)
  | @cons s t role s₁ ts roles s₂ hstep _ ih =>
    rw [mostOpen, ← length_outer_of_step hstep] at hfull
    rw [List.cons_append]
    by_cases hroom₁ : s₁.outer.length + ls.length ≤ maxDepth
    · rw [read_cons_of_step (step_within_of_le hstep hroom₁), Reading.outcome_take_andThen]
      exact ih hroom₁ (by omega)
    · rw [read, step_within_of_lt hstep hroom (Nat.lt_of_not_le hroom₁)]
      rfl

/-- There are never too many groups open. -/
theorem Passes.mostOpen_le (h : Passes allowed s ts roles s') (hs : s.outer.length ≤ maxDepth) :
    mostOpen s.outer.length roles ≤ maxDepth := by
  apply Nat.le_of_not_lt
  intro hfull
  -- there is no error even without any more levels around
  have herror := h.read_within [] hs hfull []
  have hsame : s.within [] = s := by rw [State.within, List.append_nil]
  rw [hsame, List.append_nil, h.read_eq, Reading.outcome_take_andThen, read] at herror
  split at herror <;> cases herror

/-- Outside all groups an operand has to come behind a separator. -/
theorem Passes.expect_iff_getLast? (h : Passes allowed s ts roles s') (hne : ts ≠ [])
    (houter : s'.outer = []) :
    s'.mode = .expect ↔
      roles.getLast? = some .joins ∨ roles.getLast? = some .alternates := by
  obtain ⟨s₁, t, role, -, hlast, hstep⟩ := h.exists_last hne
  have hopen : role ≠ .opens := by
    rintro rfl
    have hlen := length_outer_of_step hstep
    rw [houter] at hlen
    cases hlen
  rw [mode_of_step hstep, hlast]
  simp [hopen]

/-- And it has to come in front of the query. -/
theorem Passes.expect_iff (h : Passes allowed start ts roles s') (houter : s'.outer = []) :
    s'.mode = .expect ↔
      ts = [] ∨ roles.getLast? = some .joins ∨ roles.getLast? = some .alternates := by
  by_cases hnil : ts = []
  · subst hnil
    cases h
    exact ⟨fun _ => .inl rfl, fun _ => rfl⟩
  · rw [h.expect_iff_getLast? hnil houter, or_iff_right hnil]

/-! ### The closing parenthesis -/

/-- Behind an operand it closes the group, which comes to what it would have
come to outside of the group. -/
theorem read_close (hmode : s.mode ≠ .expect) (houter : s.outer = []) :
    read allowed (s.within [{}]) [.word ")"] = .take [.closes] s.settled.expr? := by
  have hstep := step_of_goOn?_eq_none (s := s.within [{}]) hmode (goOn?_close allowed _)
  have houter' : (s.within [{}]).outer = [{}] := by
    rw [State.within, houter]
    rfl
  rw [houter'] at hstep
  rw [read_cons_of_step hstep]
  show Reading.take [.closes] (Level.expr? { operands := s.settled.expr?.toList }) = _
  rw [Level.expr?_toList]

/-- Where an operand has to come it is a word, and the group stays open. -/
theorem read_close_of_expect (hmode : s.mode = .expect) (houter : s.outer ≠ []) :
    (read allowed s [.word ")"]).outcome = .error .unclosedGroup := by
  obtain ⟨outer, here, mode⟩ := s
  obtain rfl : mode = .expect := hmode
  have hopen : ¬ outer.isEmpty = true := fun h => houter (List.isEmpty_iff.1 h)
  rw [read_cons_of_step (step_close_of_expect allowed outer here), Reading.outcome_take_andThen,
    read, if_neg hopen]
  rfl

end Machine

/-! ### The query -/

variable {allowed : String → Bool} {ts : List Token}

/-- Behind an opening parenthesis everything is read as in front of the query,
with a level around. -/
theorem parse_opens (allowed : String → Bool) (ts : List Token) :
    parse allowed (.word "(" :: ts)
      = (Reading.take [.opens] ()).andThen fun _ =>
          Machine.read allowed (Machine.start.within [{}]) ts := by
  have hstep : Machine.step allowed Machine.start (.word "(")
      = .ok (some (.opens, Machine.start.within [{}])) := Machine.step_of_expectOperand rfl
  rw [parse_eq_read, Machine.read_cons_of_step hstep]

/-- A query that takes all of its tokens goes past all of them and leaves no
group open. -/
theorem exists_passes_of_taken {expr? : Option Expr} (h : (parse allowed ts).outcome = .ok expr?)
    (hall : (parse allowed ts).taken = ts.length) :
    ∃ s', Machine.Passes allowed Machine.start ts (parse allowed ts).roles s' ∧ s'.outer = [] ∧
      s'.settled.expr? = expr? := by
  have hread := Reading.eq_take_of_outcome h
  rw [parse_eq_read] at hread hall ⊢
  exact Machine.exists_passes_of_read_all hread hall

/-- Tokens in parentheses. -/
def enclosed (ts : List Token) : List Token :=
  .word "(" :: (ts ++ [.word ")"])

theorem length_enclosed (ts : List Token) : (enclosed ts).length = ts.length + 2 := by
  simp [enclosed]

section

variable {roles : List Role} {s' : Machine.State}

/-- There is no room for another group around a query that needs all of it. -/
theorem parse_enclosed_of_full (h : Machine.Passes allowed Machine.start ts roles s')
    (hfull : mostOpen 0 roles = maxDepth) :
    (parse allowed (enclosed ts)).outcome = .error (.tooDeep maxDepth) := by
  rw [enclosed, parse_opens, Reading.outcome_take_andThen]
  apply h.read_within [{}]
  · decide
  · show maxDepth < mostOpen 0 roles + 1
    omega

/-- Around any other query the parenthesis at the end is met in the state in
which the query ends. -/
theorem parse_enclosed_of_room (h : Machine.Passes allowed Machine.start ts roles s')
    (hroom : mostOpen 0 roles ≠ maxDepth) :
    parse allowed (enclosed ts)
      = (Reading.take (.opens :: roles) ()).andThen fun _ =>
          Machine.read allowed (s'.within [{}]) [.word ")"] := by
  have hle : mostOpen 0 roles ≤ maxDepth := h.mostOpen_le (Nat.zero_le _)
  have hpass : Machine.Passes allowed (Machine.start.within [{}]) ts roles (s'.within [{}]) := by
    apply h.within [{}]
    show mostOpen 0 roles + 1 ≤ maxDepth
    omega
  rw [enclosed, parse_opens, hpass.read_append]
  rfl

end

/-- **Parentheses around a query**, one of which all tokens are taken.  They
are a group too many if the query has 128 groups inside of each other.  The
group is not closed if the query has no tokens, or if the last of them
separates: then an operand has to come, and the parenthesis is a word.  In all
other cases the query comes to the same expression as before, or to none as
before, and it marks the same keys. -/
theorem parse_enclosed (keys : List String) :
    let marks := KeyMarks.seeded keys
    let allowed := marks.isAllowed
    ∀ ts expr?,
      let r := parse allowed ts
      let r' := parse allowed (enclosed ts)
      r.outcome = .ok expr? → r.taken = ts.length →
      let dangling := ts = [] ∨ r.roles.getLast? = some .joins ∨
        r.roles.getLast? = some .alternates
      (mostOpen 0 r.roles = 128 → r'.outcome = .error (.tooDeep 128)) ∧
        (mostOpen 0 r.roles ≠ 128 → dangling → r'.outcome = .error .unclosedGroup) ∧
        (mostOpen 0 r.roles ≠ 128 → ¬ dangling →
          r'.outcome = .ok expr? ∧ r'.taken = (enclosed ts).length ∧
            marks.markAll r'.used = marks.markAll r.used) := by
  intro marks allowed ts expr? r r' h hall dangling
  obtain ⟨s', hpass, houter, hexpr⟩ := exists_passes_of_taken h hall
  have hexpect : s'.mode = .expect ↔ dangling := hpass.expect_iff houter
  refine ⟨?_, ?_, ?_⟩
  · intro hfull
    exact parse_enclosed_of_full hpass hfull
  · intro hroom hdangling
    show (parse allowed (enclosed ts)).outcome = _
    rw [parse_enclosed_of_room hpass hroom, Reading.outcome_take_andThen]
    apply Machine.read_close_of_expect
    · exact hexpect.2 hdangling
    · exact List.append_ne_nil_of_right_ne_nil _ (List.cons_ne_nil _ _)
  · intro hroom hdangling
    have hmode : s'.mode ≠ .expect := fun hmode => hdangling (hexpect.1 hmode)
    have hread : r' = .take (.opens :: (r.roles ++ [.closes])) expr? := by
      show parse allowed (enclosed ts) = _
      rw [parse_enclosed_of_room hpass hroom, Machine.read_close hmode houter, hexpr]
      rfl
    refine ⟨?_, ?_, ?_⟩
    · rw [hread, Reading.outcome_take]
    · rw [hread, Reading.taken_take, length_enclosed, ← hall, List.length_cons,
        List.length_append]
      rfl
    · rw [hread, Reading.used_take, filterMap_key?_enclosed]
      rfl

/-- As many groups as there may be, an operator that separates, and the same
operator with a stray one behind it. -/
theorem parse_enclosed_operators :
    let marks := KeyMarks.seeded ["tag"]
    let allowed := marks.isAllowed
    let deep : List Token :=
      List.replicate 128 (.word "(") ++ .word "a" :: List.replicate 128 (.word ")")
    let separated : List Token := [.word "tag:a", .word "and"]
    let strayed : List Token := [.word "tag:a", .word "and", .word "AND"]
    let e : Expr := .filter ⟨"tag", "a"⟩
    ((parse allowed deep).outcome = .ok (some (.value "a")) ∧
        (parse allowed deep).taken = deep.length ∧ mostOpen 0 (parse allowed deep).roles = 128) ∧
      ((parse allowed separated).outcome = .ok (some e) ∧
        (parse allowed separated).taken = separated.length ∧
        mostOpen 0 (parse allowed separated).roles ≠ 128 ∧
        (parse allowed separated).roles.getLast? = some .joins) ∧
      ((parse allowed strayed).outcome = .ok (some e) ∧
        (parse allowed strayed).taken = strayed.length ∧
        mostOpen 0 (parse allowed strayed).roles ≠ 128 ∧
        (parse allowed strayed).roles.getLast? = some .stray) ∧
      (parse allowed (enclosed deep)).outcome = .error (.tooDeep 128) ∧
      (parse allowed (enclosed separated)).outcome = .error .unclosedGroup ∧
      (parse allowed (enclosed strayed)).outcome = .ok (some e) ∧
      marks.markAll (parse allowed (enclosed strayed)).used
        = marks.markAll (parse allowed strayed).used := by
  intro marks allowed deep separated strayed e
  have hdeep : (parse allowed deep).outcome = .ok (some (.value "a")) ∧
      (parse allowed deep).taken = deep.length ∧
      mostOpen 0 (parse allowed deep).roles = 128 := by
    rw [parse_eq_read]
    decide +kernel
  have hseparated : (parse allowed separated).outcome = .ok (some e) ∧
      (parse allowed separated).taken = separated.length ∧
      mostOpen 0 (parse allowed separated).roles ≠ 128 ∧
      (parse allowed separated).roles.getLast? = some .joins := by decide +kernel
  have hstrayed : (parse allowed strayed).outcome = .ok (some e) ∧
      (parse allowed strayed).taken = strayed.length ∧
      mostOpen 0 (parse allowed strayed).roles ≠ 128 ∧
      (parse allowed strayed).roles.getLast? = some .stray := by decide +kernel
  obtain ⟨hfull, -, -⟩ := parse_enclosed ["tag"] deep _ hdeep.1 hdeep.2.1
  obtain ⟨-, hunclosed, -⟩ := parse_enclosed ["tag"] separated _ hseparated.1 hseparated.2.1
  obtain ⟨-, -, hsame⟩ := parse_enclosed ["tag"] strayed _ hstrayed.1 hstrayed.2.1
  have hends : ¬ (strayed = [] ∨ (parse allowed strayed).roles.getLast? = some .joins ∨
      (parse allowed strayed).roles.getLast? = some .alternates) := by
    rw [hstrayed.2.2.2]
    decide
  obtain ⟨hok, -, hmarks⟩ := hsame hstrayed.2.2.1 hends
  refine ⟨hdeep, hseparated, hstrayed, hfull hdeep.2.2, ?_, hok, hmarks⟩
  exact hunclosed hseparated.2.2.1 (.inr (.inl hseparated.2.2.2))

end SearchQuery.Grammar
