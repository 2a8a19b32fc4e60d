/-
SearchQuery/Proofs/Grammar/Scanner.lean

Whether a query can be read, and how far, found in one pass.

The rules of the grammar call each other, and the same token means
different things to them: a `)` ends a group behind an operand and is a
word where an operand should be, and `and` is an operator behind a phrase
and a word inside a run.  What decides is only what came before, and little
of that: how many groups are open, and whether an operand is expected, has
just ended, is a run of words, or is a filter that may still take a value.
`scan` keeps these two things and nothing else.

The scanner speaks of the texts of tokens and does not use the rules.

Main statement: reading and scanning agree (`verdict_parse`).  The proof
is one simulation: `KeepsPace s s' ts r` says that where the reading `r` of
`ts` comes to a value, the scanner goes from `s` to `s'` over the tokens
that `r` took, and where `r` ends in an error, so does the scanner.  Behind
a run of words, or behind a filter without a value, the scanner is in a
state of its own, which differs from that behind any other operand only in
tokens that the run or the filter would have taken.
-/
import SearchQuery.Proofs.Grammar.Steps
import SearchQuery.Proofs.KeyMarks.Lookup

namespace SearchQuery.Grammar

/-! ### The scanner -/

namespace Scanner

/-- What the scanner is in the middle of. -/
inductive Mode where
  /-- An operand has to come. -/
  | expect
  /-- An operand has ended. -/
  | after
  /-- A run of words. -/
  | run
  /-- A filter without a value. -/
  | bare
  deriving DecidableEq

/-- What the scanner keeps. -/
structure State where
  /-- How many groups are open. -/
  opened : Nat
  mode : Mode
  deriving DecidableEq

variable (allowed : String → Bool)

/-- Go past a token where an operand has to come. -/
def expectOperand (opened : Nat) (t : Token) : Except ParseError State :=
  if t.text = "AND" ∨ t.text = "OR" then .ok ⟨opened, .after⟩
  else if t.text = "(" then
    if opened = 128 then .error (.tooDeep 128) else .ok ⟨opened + 1, .expect⟩
  else match Text.cutAtColon t.text with
    | some (key, argument) =>
      if allowed key ∧ Text.trim argument = "" then .ok ⟨opened, .bare⟩
      else .ok ⟨opened, .after⟩
    | none => if t.quoted then .ok ⟨opened, .after⟩ else .ok ⟨opened, .run⟩

/-- Go past a token behind an operand.  Nothing comes of a `)` outside all
groups: the scanner stops in front of it. -/
def behindAny (opened : Nat) (t : Token) : Except ParseError (Option State) :=
  if Text.caseless t.text "OR" then .ok (some ⟨opened, .expect⟩)
  else if t.text = ")" then
    if opened = 0 then .ok none else .ok (some ⟨opened - 1, .after⟩)
  else if Text.caseless t.text "AND" then .ok (some ⟨opened, .expect⟩)
  else (expectOperand allowed opened t).map some

/-- Whether a token goes on with a run of words. -/
def goesOn (t : Token) : Bool :=
  !t.quoted && !(["(", ")", "AND", "OR"].contains t.text) &&
    match Text.cutAtColon t.text with
    | some (key, _) => !allowed key
    | none => true

/-- Go past a token. -/
def step (s : State) (t : Token) : Except ParseError (Option State) :=
  match s.mode with
  | .expect => (expectOperand allowed s.opened t).map some
  | .after => behindAny allowed s.opened t
  | .run => if goesOn allowed t then .ok (some s) else behindAny allowed s.opened t
  | .bare => if t.quoted then .ok (some ⟨s.opened, .after⟩) else behindAny allowed s.opened t

/-- Where the scanner stops, if it is in front of token number `i`.  At the
end all groups have to be closed. -/
def scan (i : Nat) (s : State) : List Token → Except ParseError Nat
  | [] => if s.opened = 0 then .ok i else .error .unclosedGroup
  | t :: ts => match step allowed s t with
    | .error why => .error why
    | .ok none => .ok i
    | .ok (some s') => scan (i + 1) s' ts

/-- In front of a query. -/
def start : State := ⟨0, .expect⟩

/-! ### Keeping pace with a reading -/

variable {allowed} {α β : Type}

/-- The scanner goes from `s` to `s'` over the tokens that a reading of `ts`
took, and ends in the same error if the reading does. -/
def KeepsPace (allowed : String → Bool) (s s' : State) (ts : List Token)
    (r : Reading α) : Prop :=
  ∀ i, scan allowed i s ts
    = match r.outcome with
      | .ok _ => scan allowed (i + r.taken) s' (ts.drop r.taken)
      | .error why => .error why

theorem KeepsPace.refl (s : State) (ts : List Token) (a : α) :
    KeepsPace allowed s s ts (.take [] a) :=
  fun _ => rfl

/-- One token, if the step over it is known. -/
theorem KeepsPace.one {s s' : State} {t : Token} (h : step allowed s t = .ok (some s'))
    (ts : List Token) (role : Role) (a : α) :
    KeepsPace allowed s s' (t :: ts) (.take [role] a) := by
  intro i
  simp [scan, h]

theorem KeepsPace.andThen {s s' s'' : State} {ts : List Token} {r : Reading α}
    {next : α → Reading β} (h : KeepsPace allowed s s' ts r)
    (hnext : ∀ a, r.outcome = .ok a →
      KeepsPace allowed s' s'' (ts.drop r.taken) (next a)) :
    KeepsPace allowed s s'' ts (r.andThen next) := by
  intro i
  obtain ⟨roles, why | a⟩ := r
  · exact h i
  · have h₁ := h i
    have h₂ := hnext a rfl (i + roles.length)
    simp only [Reading.andThen, Reading.taken, List.length_append] at h₁ h₂ ⊢
    rw [h₁, h₂, List.drop_drop, Nat.add_assoc]

theorem KeepsPace.map {s s' : State} {ts : List Token} {r : Reading α} (f : α → β)
    (h : KeepsPace allowed s s' ts r) : KeepsPace allowed s s' ts (r.map f) := by
  intro i
  obtain ⟨roles, why | a⟩ := r
  · exact h i
  · exact h i

/-! ### Operands -/

theorem goesOn_eq_continuesRun : goesOn allowed = continuesRun allowed := by
  funext t
  simp only [goesOn, continuesRun, Token.opens, Token.closes, Token.isOperator, Token.key?]
  cases Text.cutAtColon t.text <;> simp [Bool.and_assoc, Bool.beq_eq_decide_eq]

/-- A run of words ends where the next token does not go on with it, and
there the scanner does what it does behind any operand. -/
theorem scan_run (i opened : Nat) (ts : List Token) :
    scan allowed i ⟨opened, .run⟩ ts
      = scan allowed (i + (ts.takeWhile (continuesRun allowed)).length) ⟨opened, .after⟩
          (ts.drop (ts.takeWhile (continuesRun allowed)).length) := by
  induction ts generalizing i with
  | nil => rfl
  | cons t ts ih =>
    rw [← goesOn_eq_continuesRun] at ih ⊢
    by_cases h : goesOn allowed t = true
    · -- one more word, and the state stays
      have hstep : step allowed ⟨opened, .run⟩ t = .ok (some ⟨opened, .run⟩) := by
        simp [step, h]
      simp only [scan, hstep, List.takeWhile_cons_of_pos h, List.length_cons,
        List.drop_succ_cons]
      rw [ih, Nat.add_right_comm, Nat.add_assoc]
    · -- the run ends here, without a step of its own
      have hstep : step allowed ⟨opened, .run⟩ t = step allowed ⟨opened, .after⟩ t := by
        simp [step, h]
      simp only [scan, hstep, List.takeWhile_cons_of_neg h, List.length_nil, List.drop_zero,
        Nat.add_zero]

theorem keepsPace_run {opened : Nat} {t : Token}
    (h : step allowed ⟨opened, .expect⟩ t = .ok (some ⟨opened, .run⟩)) (ts : List Token) :
    KeepsPace allowed ⟨opened, .expect⟩ ⟨opened, .after⟩ (t :: ts) (run allowed t ts) := by
  intro i
  simp only [scan, h, run, Reading.outcome_take, Reading.taken_take, List.length_map,
    List.length_cons, List.drop_succ_cons]
  rw [scan_run, Nat.add_right_comm, Nat.add_assoc]

theorem keepsPace_filter {opened : Nat} {t : Token} {key argument : String}
    (h : step allowed ⟨opened, .expect⟩ t
      = .ok (some ⟨opened, if Text.trim argument = "" then .bare else .after⟩))
    (ts : List Token) :
    KeepsPace allowed ⟨opened, .expect⟩ ⟨opened, .after⟩ (t :: ts)
      (filter key argument ts) := by
  unfold filter filterOn?
  by_cases hblank : Text.trim argument = ""
  · -- the filter has no value yet and takes the next token, if quoted
    rw [if_pos hblank] at h
    rw [Text.trimmed?_eq_none_iff.2 hblank]
    intro i
    cases ts with
    | nil => simp [scan, h]
    | cons t' ts =>
      by_cases hq : t'.quoted = true
      · have hstep : step allowed ⟨opened, .bare⟩ t' = .ok (some ⟨opened, .after⟩) := by
          simp [step, hq]
        simp [scan, h, hstep, hq]
      · have hstep : step allowed ⟨opened, .bare⟩ t' = step allowed ⟨opened, .after⟩ t' := by
          simp [step, hq]
        simp [scan, h, hstep, hq]
  · rw [if_neg hblank] at h
    rw [Text.trimmed?_eq_some_iff.2 ⟨rfl, hblank⟩]
    exact .one h ts _ _

/-- The scanner keeps pace with operands, if it does with groups. -/
theorem keepsPace_operand {inside : List Token → Reading (Option Expr)} {opened : Nat}
    (hin : ∀ t ts, t.text = "(" →
      KeepsPace allowed ⟨opened, .expect⟩ ⟨opened, .after⟩ (t :: ts) (inside ts))
    (t : Token) (ts : List Token) :
    KeepsPace allowed ⟨opened, .expect⟩ ⟨opened, .after⟩ (t :: ts)
      (operand allowed inside t ts) := by
  have hstep : step allowed ⟨opened, .expect⟩ t
      = (expectOperand allowed opened t).map some := rfl
  -- both sides make the same tests in the same order
  unfold expectOperand at hstep
  unfold operand
  -- an operator where an operand has to come is passed over
  by_cases hop : t.isOperator = true
  · have hop' : t.text = "AND" ∨ t.text = "OR" := by simpa [Token.isOperator] using hop
    rw [if_pos hop'] at hstep
    rw [if_pos hop]
    exact .one hstep ts _ _
  have hop' : ¬ (t.text = "AND" ∨ t.text = "OR") := by simpa [Token.isOperator] using hop
  rw [if_neg hop'] at hstep
  rw [if_neg hop]
  by_cases hopen : t.text = "("
  · rw [if_pos (by simpa [Token.opens] using hopen)]
    exact hin t ts hopen
  rw [if_neg hopen] at hstep
  rw [if_neg (by simpa [Token.opens] using hopen)]
  rcases hcut : Text.cutAtColon t.text with - | ⟨key, argument⟩
  · -- without a colon: a phrase, or the first word of a run
    simp only [hcut] at hstep ⊢
    by_cases hq : t.quoted = true
    · rw [if_pos hq] at hstep ⊢
      exact .one hstep ts _ _
    · rw [if_neg hq] at hstep ⊢
      exact keepsPace_run hstep ts
  · -- with a colon: a filter, or a text if the key is not allowed
    simp only [hcut] at hstep ⊢
    by_cases hkey : allowed key = true
    · rw [if_pos hkey]
      refine keepsPace_filter ?_ ts
      rw [hstep]
      by_cases hblank : Text.trim argument = "" <;> simp [hkey, hblank, Except.map]
    · rw [if_neg (fun h => hkey h.1)] at hstep
      rw [if_neg hkey]
      exact .one hstep ts _ _

/-! ### Clauses -/

variable {inside : List Token → Reading (Option Expr)} {opened : Nat}

theorem step_after_of_joins {t : Token} (halt : t.alternates = false)
    (hclose : t.closes = false) (hjoin : t.joins = true) :
    step allowed ⟨opened, .after⟩ t = .ok (some ⟨opened, .expect⟩) := by
  have hclose : t.text ≠ ")" := by simpa [Token.closes] using hclose
  simp only [Token.alternates, Token.joins] at halt hjoin
  simp [step, behindAny, halt, hclose, hjoin]

/-- Behind an operand a token that separates nothing begins the next one. -/
theorem step_after_of_beside {t : Token} (halt : t.alternates = false)
    (hclose : t.closes = false) (hjoin : t.joins = false) :
    step allowed ⟨opened, .after⟩ t = step allowed ⟨opened, .expect⟩ t := by
  have hclose : t.text ≠ ")" := by simpa [Token.closes] using hclose
  simp only [Token.alternates, Token.joins] at halt hjoin
  simp [step, behindAny, halt, hclose, hjoin]

theorem keepsPace_behindOperand {ts : List Token}
    (hclause : ∀ gap : List Role, KeepsPace allowed ⟨opened, .expect⟩ ⟨opened, .after⟩
      (ts.drop gap.length) (clause allowed inside (ts.drop gap.length))) :
    KeepsPace allowed ⟨opened, .after⟩ ⟨opened, .after⟩ ts
      (behindOperand allowed inside ts) := by
  cases ts with
  | nil => exact .refl _ _ _
  | cons t ts =>
    by_cases hends : t.alternates = true ∨ t.closes = true
    · rw [behindOperand_of_ends (gap?_of_ends hends ts)]
      exact .refl _ _ _
    obtain ⟨halt, hclose⟩ : t.alternates = false ∧ t.closes = false := by
      simpa using hends
    cases hjoin : t.joins with
    | true =>
      rw [behindOperand_of_gap (gap?_of_joins halt hclose hjoin ts)]
      refine .andThen (.one (step_after_of_joins halt hclose hjoin) ts _ _) fun _ _ => ?_
      exact hclause [.joins]
    | false =>
      rw [behindOperand_of_gap (gap?_of_beside halt hclose hjoin ts)]
      -- nothing is taken between the two, so the scanner has to change its state
      intro i
      have hscan : scan allowed i ⟨opened, .after⟩ (t :: ts)
          = scan allowed i ⟨opened, .expect⟩ (t :: ts) := by
        simp only [scan, step_after_of_beside halt hclose hjoin]
      rw [hscan]
      exact hclause [] i

theorem keepsPace_clause (hprog : ∀ ts, Progresses (inside ts))
    (hin : ∀ t ts, t.text = "(" →
      KeepsPace allowed ⟨opened, .expect⟩ ⟨opened, .after⟩ (t :: ts) (inside ts))
    (ts : List Token) :
    KeepsPace allowed ⟨opened, .expect⟩ ⟨opened, .after⟩ ts (clause allowed inside ts) := by
  induction ts using rest_induction with
  | step ts ih =>
    cases ts with
    | nil =>
      rw [clause]
      exact fun i => rfl
    | cons t ts =>
      rw [clause_cons hprog]
      refine .andThen (keepsPace_operand hin t ts) fun operand? hop => .map _ ?_
      refine keepsPace_behindOperand fun gap => ?_
      -- an operand takes a token at least, so less is left than there was
      have hne := operand_progresses hprog t ts _ _ (Reading.eq_take_of_outcome hop)
      have hpos : 0 < (operand allowed inside t ts).taken := List.length_pos_iff.2 hne
      rw [List.drop_drop]
      refine ih _ ?_
      simp only [List.length_drop, List.length_cons]
      omega

theorem step_after_of_alternates {t : Token} (halt : t.alternates = true) :
    step allowed ⟨opened, .after⟩ t = .ok (some ⟨opened, .expect⟩) := by
  simp only [Token.alternates] at halt
  simp [step, behindAny, halt]

theorem keepsPace_clauses (hprog : ∀ ts, Progresses (inside ts))
    (hin : ∀ t ts, t.text = "(" →
      KeepsPace allowed ⟨opened, .expect⟩ ⟨opened, .after⟩ (t :: ts) (inside ts))
    (ts : List Token) :
    KeepsPace allowed ⟨opened, .expect⟩ ⟨opened, .after⟩ ts (clauses allowed inside ts) := by
  induction ts using rest_induction with
  | step ts ih =>
    rw [clauses_eq]
    refine .andThen (keepsPace_clause hprog hin ts) fun operands _ => .map _ ?_
    rcases hrest : ts.drop (clause allowed inside ts).taken with - | ⟨t, rest⟩
    · exact .refl _ _ _
    cases halt : t.alternates with
    | true =>
      rw [behindClause_cons halt]
      refine .andThen (.one (step_after_of_alternates halt) rest _ _) fun _ _ => ?_
      -- the next clause begins behind the `OR`, which is a tail of the whole list
      have hdrop : rest = ts.drop ((clause allowed inside ts).taken + 1) := by
        rw [← List.drop_drop, hrest]
        rfl
      have hlen := congrArg List.length hrest
      show KeepsPace _ _ _ rest (clauses allowed inside rest)
      rw [hdrop]
      refine ih _ ?_
      simp only [List.length_drop, List.length_cons] at hlen ⊢
      omega
    | false =>
      have hahead : alternativeAhead (t :: rest) = false := halt
      rw [behindClause_of_ends hahead]
      exact .refl _ _ _

/-! ### Groups -/

theorem caseless_close : Text.caseless ")" "OR" = false := by
  decide

theorem keepsPace_close {ts : List Token} (h : closeAhead ts = true) (a : α) :
    KeepsPace allowed ⟨opened + 1, .after⟩ ⟨opened, .after⟩ ts (.take [.closes] a) := by
  cases ts with
  | nil => cases h
  | cons t ts =>
    have hclose : t.text = ")" := by simpa [closeAhead, Token.closes] using h
    have hstep : step allowed ⟨opened + 1, .after⟩ t = .ok (some ⟨opened, .after⟩) := by
      simp [step, behindAny, hclose, caseless_close]
    exact .one hstep ts _ _

/-- The scanner counts the groups that are open, the rules those that may
still be opened; together they make 128. -/
theorem keepsPace_group {depth opened : Nat} (hsum : depth + opened = 128) (t : Token)
    (ts : List Token) (ht : t.text = "(") :
    KeepsPace allowed ⟨opened, .expect⟩ ⟨opened, .after⟩ (t :: ts)
      (group allowed depth ts) := by
  induction depth generalizing opened t ts with
  | zero =>
    -- no group is left, and the scanner has all of them open
    obtain rfl : opened = 128 := by omega
    have hstep : step allowed ⟨128, .expect⟩ t = .error (.tooDeep 128) := by
      simp [step, expectOperand, ht, Except.map]
    intro i
    simp [scan, hstep, group, Reading.fail, maxDepth]
  | succ depth ih =>
    have hstep : step allowed ⟨opened, .expect⟩ t
        = .ok (some ⟨opened + 1, .expect⟩) := by
      have : opened ≠ 128 := by omega
      simp [step, expectOperand, ht, Except.map, this]
    rw [group]
    refine .andThen (.one hstep ts _ _) fun _ _ => ?_
    have hinner : KeepsPace allowed ⟨opened + 1, .expect⟩ ⟨opened + 1, .after⟩ ts
        (disjunction allowed (group allowed depth) ts) :=
      .map _ (keepsPace_clauses (group_progresses depth)
        (fun t ts ht => ih (by omega) t ts ht) ts)
    refine .andThen hinner fun expr? hexpr => ?_
    show KeepsPace allowed ⟨opened + 1, .after⟩ ⟨opened, .after⟩
      (ts.drop (disjunction allowed (group allowed depth) ts).taken) _
    rcases eq_nil_or_closeAhead_behind_disjunction (group_progresses depth) hexpr with
      hnil | hclose
    · -- the group is still open at the end of the query
      rw [hnil]
      intro i
      simp [closeAhead, scan, Reading.fail]
    · rw [if_pos hclose]
      exact keepsPace_close hclose expr?

end Scanner

/-! ### Queries -/

/-- Where a reading stops, or why it does not come to a value. -/
def Reading.verdict {α : Type} (r : Reading α) : Except ParseError Nat :=
  r.outcome.map fun _ => r.taken

namespace Scanner

/-- Outside all groups the scanner stops where a query does. -/
theorem scan_of_stop {ts : List Token} (h : ts = [] ∨ closeAhead ts = true) (i : Nat) :
    scan allowed i ⟨0, .after⟩ ts = .ok i := by
  rcases h with rfl | h
  · rfl
  · cases ts with
    | nil => rfl
    | cons t ts =>
      have hclose : t.text = ")" := by simpa [closeAhead, Token.closes] using h
      have hstep : step allowed ⟨0, .after⟩ t = .ok none := by
        simp [step, behindAny, hclose, caseless_close]
      simp only [scan, hstep]

end Scanner

open Scanner in
/-- **Reading and scanning agree**: a query is read exactly if the scanner
gets through it, both stop in front of the same token, and where one ends
in an error so does the other, in the same. -/
theorem verdict_parse (keys : List String) (ts : List Token) :
    (parse (KeyMarks.seeded keys).isAllowed ts).verdict
      = scan (fun key => decide (key ∈ keys)) 0 start ts := by
  rw [KeyMarks.isAllowed_seeded]
  generalize (fun key => decide (key ∈ keys)) = allowed
  have hsum : maxDepth + 0 = 128 := rfl
  have hpace : KeepsPace allowed start ⟨0, .after⟩ ts (parse allowed ts) :=
    .map _ (keepsPace_clauses (group_progresses maxDepth) (keepsPace_group hsum) ts)
  rw [hpace 0, Reading.verdict]
  -- where reading comes to an end, the scanner stops as well
  rcases h : (parse allowed ts).outcome with why | expr?
  · rfl
  · have hstop := eq_nil_or_closeAhead_behind_disjunction (group_progresses maxDepth) h
    show Except.ok (parse allowed ts).taken = scan allowed (0 + (parse allowed ts).taken) _ _
    rw [Nat.zero_add]
    exact (scan_of_stop hstop _).symm

end SearchQuery.Grammar
