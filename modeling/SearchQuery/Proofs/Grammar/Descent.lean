/-
SearchQuery/Proofs/Grammar/Descent.lean

Calls come to what the rules read.

`Follows s control frames depth r` says that from the state `s` on the calls do
what the reading `r` does: they take its tokens in its roles, and come to
`control a`, where `a` is its value, with `frames` that wait and `depth` groups
that are open.  If the reading ends in an error, so do they, behind the same
tokens.  The proof goes along the rules, and groups are the only thing that it
needs to know before operands (`FollowsGroups`): the calls count how many are
open, and the rules how many may still be opened (`follows_group`).

Together with the bounds this is what there is to say of a call, at any place
among any tokens (`run_call`).
-/
import Mathlib.Data.List.TakeWhile
import SearchQuery.Proofs.Grammar.Calls
import SearchQuery.Proofs.Token.Apart

namespace SearchQuery.Grammar.Calls

variable {tokens : List Token}

/-! ### From one state to another -/

/-- One state comes some steps behind another. -/
def Leads (tokens : List Token) (s s' : State) : Prop :=
  ∃ n, run tokens n s = s'

namespace Leads

theorem trans {s s' s'' : State} (h : Leads tokens s s') (h' : Leads tokens s' s'') :
    Leads tokens s s'' := by
  obtain ⟨m, rfl⟩ := h
  obtain ⟨n, rfl⟩ := h'
  exact ⟨m + n, run_add m n s⟩

theorem next {s s' : State} (h : next tokens s = s') : Leads tokens s s' :=
  ⟨1, h⟩

/-- The end of a run is reached, and stays. -/
theorem run_eq {s s' : State} (h : Leads tokens s s') (hhalted : s'.halted = true) {n : Nat}
    (hn : s.potential tokens ≤ n) : run tokens n s = s' := by
  obtain ⟨m, rfl⟩ := h
  rcases Nat.le_total m n with hle | hle
  · obtain ⟨k, rfl⟩ := Nat.exists_eq_add_of_le hle
    rw [run_add, run_of_halted hhalted]
  · obtain ⟨k, rfl⟩ := Nat.exists_eq_add_of_le hle
    rw [run_add, run_of_halted (halted_run hn)]

end Leads

/-! ### Following a reading -/

section

variable {α β : Type}

/-- From a state on, the calls do what the reading does. -/
def Follows (tokens : List Token) (s : State) (control : α → Control) (frames : List Frame)
    (depth : Nat) (r : Reading α) : Prop :=
  match r.outcome with
  | .ok a => Leads tokens s ⟨control a, frames, depth, s.cursor.behind r.roles⟩
  | .error why =>
    ∃ frames depth, Leads tokens s ⟨.fail why, frames, depth, s.cursor.behind r.roles⟩

variable {s s' : State} {control : α → Control} {control' : β → Control}
variable {frames frames' : List Frame} {depth depth' : Nat}

/-- No token is taken, and another call follows the reading. -/
theorem Follows.of_leads {r : Reading α} (h : Leads tokens s s') (hcursor : s'.cursor = s.cursor)
    (hr : Follows tokens s' control frames depth r) :
    Follows tokens s control frames depth r := by
  unfold Follows at hr ⊢
  rw [hcursor] at hr
  obtain ⟨roles, why | a⟩ := r
  · obtain ⟨frames, depth, hfail⟩ := hr
    exact ⟨frames, depth, h.trans hfail⟩
  · exact h.trans hr

theorem Follows.take {roles : List Role} {a : α}
    (h : Leads tokens s ⟨control a, frames, depth, s.cursor.behind roles⟩) :
    Follows tokens s control frames depth (.take roles a) :=
  h

theorem Follows.fail {why : ParseError}
    (h : Leads tokens s ⟨.fail why, frames', depth', s.cursor⟩) :
    Follows tokens s control frames depth (.fail why) :=
  ⟨frames', depth', h⟩

theorem Follows.andThen {r : Reading α} {f : α → Reading β}
    (h : Follows tokens s control frames depth r)
    (hf : ∀ a, r.outcome = .ok a →
      Follows tokens ⟨control a, frames, depth, s.cursor.behind r.roles⟩ control' frames' depth'
        (f a)) :
    Follows tokens s control' frames' depth' (r.andThen f) := by
  obtain ⟨roles, why | a⟩ := r
  · exact h
  · have hf := hf a rfl
    unfold Follows at hf ⊢
    simp only [Reading.andThen, s.cursor.behind_behind] at hf ⊢
    cases houtcome : (f a).outcome with
    | ok b =>
      simp only [houtcome] at hf ⊢
      exact Leads.trans h hf
    | error why =>
      simp only [houtcome] at hf ⊢
      obtain ⟨frames, depth, hfail⟩ := hf
      exact ⟨frames, depth, Leads.trans h hfail⟩

/-- Some tokens are taken, and another call follows the rest. -/
theorem Follows.take_andThen {k : Control} {roles : List Role} {f : Unit → Reading β}
    (h : Leads tokens s ⟨k, frames, depth, s.cursor.behind roles⟩)
    (hf : Follows tokens ⟨k, frames, depth, s.cursor.behind roles⟩ control' frames' depth' (f ())) :
    Follows tokens s control' frames' depth' ((Reading.take roles ()).andThen f) := by
  have htake : Follows tokens s (fun _ : Unit => k) frames depth (.take roles ()) := .take h
  exact htake.andThen fun _ _ => hf

theorem Follows.map {r : Reading α} {f : α → β}
    (h : Follows tokens s (fun a => control' (f a)) frames depth r) :
    Follows tokens s control' frames depth (r.map f) := by
  obtain ⟨roles, why | a⟩ := r
  · exact h
  · exact h

end

/-! ### Operands -/

variable {allowed : String → Bool} {frames : List Frame} {depth : Nat} {c : Cursor}
variable {t : Token} {ts : List Token}

theorem next_operand (h : c.ahead tokens = t :: ts) :
    next tokens ⟨.call .operand, frames, depth, c⟩ = beginOperand frames depth c t := by
  show enter tokens frames depth c .operand = _
  rw [enter, h]

theorem ahead_behind_one (h : c.ahead tokens = t :: ts) (role : Role) :
    (c.behind [role]).ahead tokens = ts := by
  rw [c.ahead_behind, h]
  rfl

/-- A run of words goes on as long as the tokens do. -/
theorem leads_words (hallowed : c.marks.isAllowed = allowed) (h : c.ahead tokens = ts)
    (start : Nat) :
    Leads tokens ⟨.words start, frames, depth, c⟩
      ⟨.ret (freeText? (joinWords
          (tokens.extract start (c.pos + (ts.takeWhile (continuesRun allowed)).length)))),
        frames, depth, c.behind ((ts.takeWhile (continuesRun allowed)).map fun _ => .word)⟩ := by
  induction ts generalizing c with
  | nil =>
    apply Leads.next
    show goOn tokens frames depth c start = _
    rw [goOn, h]
    rfl
  | cons t ts ih =>
    by_cases ht : continuesRun allowed t = true
    · have hnext : next tokens ⟨.words start, frames, depth, c⟩
          = ⟨.words start, frames, depth, c.behind [.word]⟩ := by
        show goOn tokens frames depth c start = _
        rw [goOn, h, hallowed]
        exact if_pos ht
      have hrest := ih ((c.isAllowed_behind [.word]).trans hallowed) (ahead_behind_one h .word)
      rw [c.behind_behind, show (c.behind [.word]).pos = c.pos + 1 from rfl, Nat.add_assoc,
        Nat.add_comm 1] at hrest
      rw [List.takeWhile_cons_of_pos ht]
      exact (Leads.next hnext).trans hrest
    · rw [List.takeWhile_cons_of_neg ht]
      apply Leads.next
      show goOn tokens frames depth c start = _
      rw [goOn, h, hallowed]
      exact if_neg ht

theorem follows_run (hallowed : c.marks.isAllowed = allowed) (h : c.ahead tokens = t :: ts)
    (hbegin : beginOperand frames depth c t = ⟨.words c.pos, frames, depth, c.behind [.word]⟩) :
    Follows tokens ⟨.call .operand, frames, depth, c⟩ .ret frames depth
      (Grammar.run allowed t ts) := by
  have hwords : Leads tokens ⟨.words c.pos, frames, depth, c.behind [.word]⟩ _ :=
    leads_words ((c.isAllowed_behind [.word]).trans hallowed) (ahead_behind_one h .word) c.pos
  -- the slice is the run of words, from its first token on
  have hslice : tokens.extract c.pos
      ((c.behind [.word]).pos + (ts.takeWhile (continuesRun allowed)).length)
        = t :: ts.takeWhile (continuesRun allowed) := by
    have hlen : (c.behind [.word]).pos + (ts.takeWhile (continuesRun allowed)).length - c.pos
        = (ts.takeWhile (continuesRun allowed)).length + 1 := by
      show c.pos + 1 + _ - c.pos = _
      omega
    rw [List.extract_eq_take_drop, hlen, show tokens.drop c.pos = t :: ts from h,
      List.take_succ_cons, ← List.prefix_iff_eq_take.1 (List.takeWhile_prefix _)]
  rw [hslice, c.behind_behind] at hwords
  exact .take ((Leads.next ((next_operand h).trans hbegin)).trans hwords)

theorem follows_filter {key argument : String} (h : c.ahead tokens = t :: ts)
    (hbegin : beginOperand frames depth c t
      = ⟨behindKey key argument, frames, depth, c.behind [.filter key]⟩) :
    Follows tokens ⟨.call .operand, frames, depth, c⟩ .ret frames depth
      (filter key argument ts) := by
  have hbegun := Leads.next ((next_operand h).trans hbegin)
  unfold behindKey at hbegun
  cases hfilter : filterOn? key argument with
  | some e =>
    rw [hfilter] at hbegun
    rw [filter_of_some hfilter]
    exact .take hbegun
  | none =>
    -- the filter has no value yet and takes the next token, if quoted
    rw [hfilter] at hbegun
    have hlook {s : State}
        (h : lookForValue tokens frames depth (c.behind [.filter key]) key = s) :
        Leads tokens ⟨.call .operand, frames, depth, c⟩ s := hbegun.trans (Leads.next h)
    have hahead := ahead_behind_one h (.filter key)
    cases ts with
    | nil =>
      rw [filter_nil, hfilter]
      refine .take (hlook ?_)
      rw [lookForValue, hahead]
    | cons u us =>
      rw [filter_cons_of_none hfilter]
      by_cases hq : u.quoted = true
      · rw [if_pos hq]
        refine .take (hlook ?_)
        rw [lookForValue, hahead]
        exact (if_pos hq).trans (by rw [c.behind_behind]; rfl)
      · rw [if_neg hq]
        refine .take (hlook ?_)
        rw [lookForValue, hahead]
        exact if_neg hq

/-- The calls follow groups of that depth, whatever waits for them. -/
def FollowsGroups (tokens : List Token) (allowed : String → Bool) (depth : Nat)
    (inside : List Token → Reading (Option Expr)) : Prop :=
  ∀ frames c t ts, c.marks.isAllowed = allowed → c.ahead tokens = t :: ts → t.opens = true →
    Follows tokens ⟨.call .operand, frames, depth, c⟩ .ret frames depth (inside ts)

variable {inside : List Token → Reading (Option Expr)}

theorem follows_operand (hin : FollowsGroups tokens allowed depth inside)
    (hallowed : c.marks.isAllowed = allowed) (h : c.ahead tokens = t :: ts) :
    Follows tokens ⟨.call .operand, frames, depth, c⟩ .ret frames depth
      (operand allowed inside t ts) := by
  have hone {role : Role} {value : Option Expr}
      (hbegin : beginOperand frames depth c t = ⟨.ret value, frames, depth, c.behind [role]⟩) :
      Follows tokens ⟨.call .operand, frames, depth, c⟩ .ret frames depth (.take [role] value) :=
    .take (Leads.next ((next_operand h).trans hbegin))
  -- both sides make the same tests in the same order
  unfold operand
  by_cases hop : t.isOperator = true
  · rw [if_pos hop]
    exact hone (if_pos hop)
  rw [if_neg hop]
  by_cases hopen : t.opens = true
  · rw [if_pos hopen]
    exact hin frames c t ts hallowed h hopen
  rw [if_neg hopen]
  rcases hcut : Text.cutAtColon t.text with - | ⟨key, argument⟩
  · -- without a colon: a phrase, or the first word of a run
    cases hq : t.quoted with
    | true =>
      refine hone ?_
      simp only [beginOperand, if_neg hop, if_neg hopen, hcut, hq, if_true]
    | false =>
      refine follows_run hallowed h ?_
      simp only [beginOperand, if_neg hop, if_neg hopen, hcut, hq, Bool.false_eq_true, if_false]
  · -- with a colon: a filter, or a text if the key is not allowed
    cases hkey : allowed key with
    | true =>
      simp only [hkey, if_true]
      refine follows_filter h ?_
      simp only [beginOperand, if_neg hop, if_neg hopen, hcut, hallowed, hkey, if_true]
    | false =>
      simp only [hkey, Bool.false_eq_true, if_false]
      refine hone ?_
      simp only [beginOperand, if_neg hop, if_neg hopen, hcut, hallowed, hkey,
        Bool.false_eq_true, if_false]

/-! ### Clauses -/

variable {operands : List Expr} {value before : Option Expr}

theorem next_ret_clause :
    next tokens ⟨.ret value, .clause operands :: frames, depth, c⟩
      = match gap? (c.ahead tokens) with
        | none => ⟨.ret (conjunction? (operands ++ value.toList)), frames, depth, c⟩
        | some gap =>
          ⟨.call .operand, .clause (operands ++ value.toList) :: frames, depth, c.behind gap⟩ :=
  rfl

theorem follows_behindOperand
    (hclause : ∀ gap : List Role,
      Follows tokens
        ⟨.call .operand, .clause (operands ++ value.toList) :: frames, depth, c.behind gap⟩
        (fun es => .ret (conjunction? (operands ++ value.toList ++ es))) frames depth
        (clause allowed inside ((c.ahead tokens).drop gap.length))) :
    Follows tokens ⟨.ret value, .clause operands :: frames, depth, c⟩
      (fun es => .ret (conjunction? (operands ++ value.toList ++ es))) frames depth
      (behindOperand allowed inside (c.ahead tokens)) := by
  cases hgap : gap? (c.ahead tokens) with
  | none =>
    rw [behindOperand_of_ends hgap]
    refine .take (Leads.next ?_)
    rw [next_ret_clause, hgap, List.append_nil]
    rfl
  | some gap =>
    have hnext : Leads tokens ⟨.ret value, .clause operands :: frames, depth, c⟩
        ⟨.call .operand, .clause (operands ++ value.toList) :: frames, depth, c.behind gap⟩ := by
      apply Leads.next
      rw [next_ret_clause, hgap]
    rw [behindOperand_of_gap hgap]
    exact .take_andThen hnext (hclause gap)

theorem follows_clause (hprog : ∀ ts, Progresses (inside ts))
    (hin : FollowsGroups tokens allowed depth inside) (hallowed : c.marks.isAllowed = allowed)
    (h : c.ahead tokens = ts) (operands : List Expr) :
    Follows tokens ⟨.call .operand, .clause operands :: frames, depth, c⟩
      (fun es => .ret (conjunction? (operands ++ es))) frames depth
      (clause allowed inside ts) := by
  induction ts using rest_induction generalizing c operands with
  | step ts ih =>
    cases ts with
    | nil =>
      have hnone : Leads tokens ⟨.call .operand, .clause operands :: frames, depth, c⟩
          ⟨.ret none, .clause operands :: frames, depth, c⟩ := by
        apply Leads.next
        show enter tokens _ depth c .operand = _
        rw [enter, h]
      have hend : Leads tokens ⟨.ret none, .clause operands :: frames, depth, c⟩
          ⟨.ret (conjunction? (operands ++ [])), frames, depth, c⟩ := by
        apply Leads.next
        rw [next_ret_clause, h]
        rfl
      rw [clause]
      exact .take (hnone.trans hend)
    | cons t ts =>
      rw [clause_cons hprog]
      refine .andThen (follows_operand hin hallowed h) fun operand? hop => .map ?_
      simp only [← List.append_assoc]
      rw [← h, Reading.taken, ← c.ahead_behind]
      apply follows_behindOperand
      intro gap
      -- an operand takes a token at least, so less is left than there was
      have hne := operand_progresses hprog t ts _ _ (Reading.eq_take_of_outcome hop)
      have hpos := List.length_pos_iff.2 hne
      rw [c.ahead_behind, h, List.drop_drop, c.behind_behind]
      refine ih _ ?_ ((c.isAllowed_behind _).trans hallowed) ?_ _
      · simp only [List.length_drop, List.length_cons]
        omega
      · rw [c.ahead_behind, h, List.length_append]

/-! ### Queries and groups -/

theorem next_ret_query :
    next tokens ⟨.ret value, .query before :: frames, depth, c⟩
      = if alternativeAhead (c.ahead tokens) then
          ⟨.call .clause, .query (either? before value) :: frames, depth, c.behind [.alternates]⟩
        else ⟨.ret (either? before value), frames, depth, c⟩ :=
  rfl

theorem follows_clauses (hprog : ∀ ts, Progresses (inside ts))
    (hin : FollowsGroups tokens allowed depth inside) (hallowed : c.marks.isAllowed = allowed)
    (h : c.ahead tokens = ts) (before : Option Expr) :
    Follows tokens ⟨.call .clause, .query before :: frames, depth, c⟩
      (fun css => .ret ((css.map conjunction?).foldl either? before)) frames depth
      (clauses allowed inside ts) := by
  induction ts using rest_induction generalizing c before with
  | step ts ih =>
    have hfirst : Follows tokens ⟨.call .clause, .query before :: frames, depth, c⟩
        (fun es => .ret (conjunction? es)) (.query before :: frames) depth
        (clause allowed inside ts) :=
      .of_leads (Leads.next rfl) rfl (follows_clause hprog hin hallowed h [])
    rw [clauses_eq]
    refine .andThen hfirst fun es _ => .map ?_
    rw [← h, Reading.taken, ← c.ahead_behind, h]
    unfold behindClause
    by_cases hor :
        alternativeAhead ((c.behind (clause allowed inside ts).roles).ahead tokens) = true
    · have hnext : Leads tokens
          ⟨.ret (conjunction? es), .query before :: frames, depth,
            c.behind (clause allowed inside ts).roles⟩
          ⟨.call .clause, .query (either? before (conjunction? es)) :: frames, depth,
            (c.behind (clause allowed inside ts).roles).behind [.alternates]⟩ := by
        apply Leads.next
        rw [next_ret_query]
        exact if_pos hor
      rw [if_pos hor]
      refine .take_andThen hnext ?_
      -- a clause may be empty, but the `OR` behind it is not
      rw [c.ahead_behind, h] at hor
      have hpos : 0 < (ts.drop (clause allowed inside ts).roles.length).length :=
        List.length_pos_iff.2 fun e => by simp [e, alternativeAhead] at hor
      show Follows tokens
        ⟨_, _, _, (c.behind (clause allowed inside ts).roles).behind [.alternates]⟩ _ _ _ _
      rw [c.ahead_behind, h, List.drop_drop, c.behind_behind]
      refine ih _ ?_ ((c.isAllowed_behind _).trans hallowed) ?_ _
      · simp only [List.length_drop] at hpos ⊢
        omega
      · rw [c.ahead_behind, h, List.length_append]
        rfl
    · rw [if_neg hor]
      refine .take (Leads.next ?_)
      rw [next_ret_query]
      exact if_neg hor

theorem follows_disjunction (hprog : ∀ ts, Progresses (inside ts))
    (hin : FollowsGroups tokens allowed depth inside) (hallowed : c.marks.isAllowed = allowed)
    (h : c.ahead tokens = ts) :
    Follows tokens ⟨.call .query, frames, depth, c⟩ .ret frames depth
      (disjunction allowed inside ts) :=
  .map (.of_leads (Leads.next rfl) rfl (follows_clauses hprog hin hallowed h none))

theorem next_ret_group :
    next tokens ⟨.ret value, .group :: frames, depth, c⟩
      = if closeAhead (c.ahead tokens) then ⟨.ret value, frames, depth - 1, c.behind [.closes]⟩
        else ⟨.fail .unclosedGroup, frames, depth - 1, c⟩ :=
  rfl

/-- The calls count the groups that are open, the rules those that may still
be opened. -/
theorem follows_group {room : Nat} (hsum : room + depth = maxDepth) :
    FollowsGroups tokens allowed depth (group allowed room) := by
  induction room generalizing depth with
  | zero =>
    intro frames c t ts hallowed h hopen
    have hop := Token.isOperator_eq_false_of_opens hopen
    have hfull : maxDepth ≤ depth := by omega
    have hfail : Leads tokens ⟨.call .operand, frames, depth, c⟩
        ⟨.fail (.tooDeep maxDepth), frames, depth, c⟩ := by
      apply Leads.next
      rw [next_operand h]
      simp [beginOperand, hop, hopen, hfull]
    exact .fail hfail
  | succ room ih =>
    intro frames c t ts hallowed h hopen
    have hop := Token.isOperator_eq_false_of_opens hopen
    have hroom : ¬ maxDepth ≤ depth := by omega
    have hnext : Leads tokens ⟨.call .operand, frames, depth, c⟩
        ⟨.call .query, .group :: frames, depth + 1, c.behind [.opens]⟩ := by
      apply Leads.next
      rw [next_operand h]
      simp [beginOperand, hop, hopen, hroom]
    have hinner : Follows tokens
        ⟨.call .query, .group :: frames, depth + 1, c.behind [.opens]⟩ .ret (.group :: frames)
        (depth + 1) (disjunction allowed (group allowed room) ts) :=
      follows_disjunction (group_progresses room) (ih (by omega))
        ((c.isAllowed_behind _).trans hallowed) (ahead_behind_one h .opens)
    rw [group]
    refine .take_andThen hnext ?_
    refine .andThen hinner fun expr? _ => ?_
    -- behind the inner query stands a `)`, or the group is not closed
    rw [← ahead_behind_one h .opens, Reading.taken, ← (c.behind [.opens]).ahead_behind,
      ahead_behind_one h]
    by_cases hclose : closeAhead (((c.behind [.opens]).behind
        (disjunction allowed (group allowed room) ts).roles).ahead tokens) = true
    · rw [if_pos hclose]
      exact .take (Leads.next (next_ret_group.trans (if_pos hclose)))
    · rw [if_neg hclose]
      exact .fail (Leads.next (next_ret_group.trans (if_neg hclose)))

/-! ### Calls -/

/-- What a rule reads. -/
def Rule.read (rule : Rule) (allowed : String → Bool) (inside : List Token → Reading (Option Expr))
    (ts : List Token) : Reading (Option Expr) :=
  match rule, ts with
  | .query, ts => disjunction allowed inside ts
  | .clause, ts => (Grammar.clause allowed inside ts).map conjunction?
  | .operand, [] => .take [] none
  | .operand, t :: ts => Grammar.operand allowed inside t ts

theorem follows_call (rule : Rule) {room : Nat} (hsum : room + depth = maxDepth)
    (hallowed : c.marks.isAllowed = allowed) :
    Follows tokens ⟨.call rule, frames, depth, c⟩ .ret frames depth
      (rule.read allowed (group allowed room) (c.ahead tokens)) := by
  have hprog : ∀ ts, Progresses (group allowed room ts) := group_progresses room
  have hin : FollowsGroups tokens allowed depth (group allowed room) := follows_group hsum
  cases rule with
  | query => exact follows_disjunction hprog hin hallowed rfl
  | clause =>
    have hcall : Leads tokens ⟨.call .clause, frames, depth, c⟩
        ⟨.call .operand, .clause [] :: frames, depth, c⟩ := Leads.next rfl
    exact .map (.of_leads hcall rfl (follows_clause hprog hin hallowed rfl []))
  | operand =>
    rcases h : c.ahead tokens with - | ⟨t, ts⟩
    · refine .take (Leads.next ?_)
      show enter tokens frames depth c .operand = _
      rw [enter, h]
      rfl
    · exact follows_operand hin hallowed h

/-- An operand that comes to a value takes a token, if there is one. -/
theorem taken_pos_of_operand {room : Nat} {value : Option Expr} (hne : ts ≠ [])
    (h : (Rule.operand.read allowed (group allowed room) ts).outcome = .ok value) :
    0 < (Rule.operand.read allowed (group allowed room) ts).taken := by
  cases ts with
  | nil => exact absurd rfl hne
  | cons t ts =>
    exact List.length_pos_iff.2 (operand_progresses (group_progresses room) t ts _ _
      (Reading.eq_take_of_outcome h))

/-- A query that comes to a value stops at the end or in front of a `)`. -/
theorem text_eq_of_query {room : Nat} {value : Option Expr}
    (h : (Rule.query.read allowed (group allowed room) ts).outcome = .ok value) :
    ∀ t ∈ ts[(Rule.query.read allowed (group allowed room) ts).taken]?, t.text = ")" := by
  intro t ht
  have hstop := eq_nil_or_closeAhead_behind_disjunction (group_progresses room) h
  rw [Option.mem_def, ← List.head?_drop] at ht
  rcases hstop with hnil | hclose
  · rw [show ts.drop (Rule.query.read allowed (group allowed room) ts).taken = [] from hnil] at ht
    cases ht
  · obtain ⟨us, hus⟩ := List.head?_eq_some_iff.1 ht
    rw [show (disjunction allowed (group allowed room) ts).taken
      = (Rule.query.read allowed (group allowed room) ts).taken from rfl, hus] at hclose
    simpa [closeAhead, Token.closes] using hclose

/-- **A call ends, in bounds, with what its rule reads**, at any place among any
tokens and with any number of groups open around it.  All the time the cursor
is at most at the end, a run of words begins before it, and no group too many
is open.  The cursor only goes forward, and marks are only added.  After eight
steps for each token and seven more at most, the call has come to the value or
to the error of the reading, with the cursor behind its tokens and their keys
marked.  If it is a value, the groups that are open are those from before, an
operand has taken a token if there was one, and a query has stopped at the end
or in front of a `)`. -/
theorem run_call (tokens : List Token) (rule : Rule) (marks : KeyMarks) (pos depth : Nat)
    (hpos : pos ≤ tokens.length) (hdepth : depth ≤ maxDepth) :
    let start : State := ⟨.call rule, [], depth, ⟨pos, marks⟩⟩
    let r := rule.read marks.isAllowed (group marks.isAllowed (maxDepth - depth)) (tokens.drop pos)
    (∀ n, (run tokens n start).InBounds tokens depth) ∧
      (∀ m n, m ≤ n → (run tokens m start).cursor.Advances (run tokens n start).cursor) ∧
      ∃ last : State, (∀ n, 8 * (tokens.length - pos) + 7 ≤ n → run tokens n start = last) ∧
        last.cursor = ⟨pos + r.taken, marks.markAll r.used⟩ ∧
        match r.outcome with
        | .ok value =>
          last.control = .ret value ∧ last.frames = [] ∧ last.depth = depth ∧
            (rule = .operand → pos < tokens.length → pos < last.cursor.pos) ∧
            (rule = .query → ∀ t ∈ tokens[last.cursor.pos]?, t.text = ")")
        | .error why => last.control = .fail why := by
  intro start r
  have hbounds : start.InBounds tokens depth := ⟨hpos, rfl, hdepth, nofun⟩
  have hpotential : start.potential tokens ≤ 8 * (tokens.length - pos) + 7 := by
    have hwork := Control.work_le (.call rule) (start.cursor.ahead tokens)
    have hlen : (start.cursor.ahead tokens).length = tokens.length - pos :=
      start.cursor.length_ahead
    show 8 * _ + Control.work _ (.call rule) + 0 ≤ _
    omega
  have hfollows : Follows tokens start .ret [] depth r :=
    follows_call rule (Nat.sub_add_cancel hdepth) rfl
  refine ⟨inBounds_run hbounds, fun m n hle => advances_run hle start, ?_⟩
  unfold Follows at hfollows
  cases houtcome : r.outcome with
  | ok value =>
    simp only [houtcome] at hfollows
    refine ⟨_, fun n hn => hfollows.run_eq rfl (Nat.le_trans hpotential hn), rfl, rfl, rfl, rfl,
      ?_, ?_⟩
    · rintro rfl hlt
      have hne : tokens.drop pos ≠ [] := by simpa using hlt
      exact Nat.lt_add_of_pos_right (taken_pos_of_operand hne houtcome)
    · rintro rfl t ht
      refine text_eq_of_query houtcome t ?_
      rwa [List.getElem?_drop]
  | error why =>
    simp only [houtcome] at hfollows
    obtain ⟨frames, depth', hfail⟩ := hfollows
    exact ⟨_, fun n hn => hfail.run_eq rfl (Nat.le_trans hpotential hn), rfl, rfl⟩

/-- Behind a word, inside all groups but one that may be open: a quoted `(`
opens the last, a word with a blank in it is a word, and a filter has an empty
value.  The query stops in front of the second `)`. -/
theorem run_call_nested :
    let tokens : List Token := [.word "x", .phrase "(", .word "a b", .word "tag:", .phrase "",
      .word ")", .word ")", .word "c"]
    let marks := KeyMarks.seeded ["tag"]
    let start : State := ⟨.call .query, [], 127, ⟨1, marks⟩⟩
    1 ≤ tokens.length ∧ 127 ≤ maxDepth ∧
      ∀ n, 63 ≤ n → run tokens n start
        = ⟨.ret (some (.value "a b")), [], 127, ⟨6, marks.mark "tag"⟩⟩ := by
  intro tokens marks start
  have hpos : 1 ≤ tokens.length := by decide
  have hdepth : 127 ≤ maxDepth := by decide
  have hok : (Rule.query.read marks.isAllowed (group marks.isAllowed (maxDepth - 127))
      (tokens.drop 1)).outcome = .ok (some (.value "a b")) := by decide +kernel
  obtain ⟨-, -, ⟨control, frames, depth, c⟩, hlast, hcursor, houtcome⟩ :=
    run_call tokens .query marks 1 127 hpos hdepth
  rw [hok] at houtcome
  obtain ⟨rfl, rfl, rfl, -, -⟩ := houtcome
  refine ⟨hpos, hdepth, fun n hn => (hlast n hn).trans ?_⟩
  rw [show c = _ from hcursor]
  decide +kernel

end SearchQuery.Grammar.Calls
