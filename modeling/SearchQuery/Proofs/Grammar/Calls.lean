/-
SearchQuery/Proofs/Grammar/Calls.lean

The rules of the grammar as calls, with everything in the open that they share.

A rule works on a list that gets shorter, and what it gives is a reading.  So
nothing can be said of what happens before a rule returns: whether it looks
behind the last token, how many groups are open meanwhile, or how often it
calls another rule without taking a token.  Here the tokens stay where they
are, and there is a cursor among them.  The calls that wait for a value stand
on a stack of frames, the groups that are open are counted, and the marks of
the keys are kept with the cursor.  `next` does one thing at a time.

`Moves` are all the steps there are (`moves_next`), and what is said of a step
is read off from them.  It goes past the tokens that it takes, one at most, and
marks their keys (`Moves.exists_roles`), it stays in bounds
(`Moves.inBounds`), and the `potential` gets less (`Moves.potential_lt`).  A
rule may call another one in front of the same token, and an operand may come
to nothing, so no measure of the tokens alone would do.

By induction this holds of whole runs: all their states are in bounds
(`inBounds_run`), the cursor and the marks only go forward (`advances_run`),
and a run ends after as many steps as the potential allows (`halted_run`).
-/
import Mathlib.Logic.Function.Iterate
import SearchQuery.Proofs.Grammar.Steps
import SearchQuery.Proofs.KeyMarks.Lookup

namespace SearchQuery.Grammar.Calls

/-! ### The state -/

/-- The rules that call each other. -/
inductive Rule where
  | query
  | clause
  | operand
  deriving DecidableEq

/-- A call that waits for the value of another one. -/
inductive Frame where
  /-- A query, and what its clauses have come to. -/
  | query (before : Option Expr)
  /-- A clause, and its operands. -/
  | clause (operands : List Expr)
  /-- A group whose `(` has been taken. -/
  | group
  deriving DecidableEq

/-- What is to be done. -/
inductive Control where
  | call (rule : Rule)
  /-- Go on with the run of words that begins at `start`. -/
  | words (start : Nat)
  /-- Look for the value of a filter. -/
  | argument (key : String)
  | ret (value : Option Expr)
  | fail (why : ParseError)
  deriving DecidableEq

/-- A place among the tokens, and what has been marked before it. -/
structure Cursor where
  pos : Nat
  marks : KeyMarks
  deriving DecidableEq

/-- What is kept between two steps. -/
structure State where
  control : Control
  /-- The calls that wait, the innermost first. -/
  frames : List Frame
  /-- How many groups are open. -/
  depth : Nat
  cursor : Cursor
  deriving DecidableEq

/-! ### The cursor -/

variable {tokens : List Token}

namespace Cursor

/-- The tokens that are still to come. -/
def ahead (c : Cursor) (tokens : List Token) : List Token :=
  tokens.drop c.pos

/-- The cursor behind tokens in these roles. -/
def behind (c : Cursor) (roles : List Role) : Cursor :=
  ⟨c.pos + roles.length, c.marks.markAll (roles.filterMap Role.key?)⟩

variable (c : Cursor)

theorem behind_nil : c.behind [] = c := rfl

theorem behind_behind (rs rs' : List Role) : (c.behind rs).behind rs' = c.behind (rs ++ rs') := by
  simp only [behind, List.length_append, List.filterMap_append, Nat.add_assoc, KeyMarks.markAll,
    List.foldl_append]

theorem ahead_behind (roles : List Role) :
    (c.behind roles).ahead tokens = (c.ahead tokens).drop roles.length :=
  List.drop_drop.symm

theorem length_ahead : (c.ahead tokens).length = tokens.length - c.pos :=
  List.length_drop

/-- Which keys are allowed does not change. -/
theorem isAllowed_behind (roles : List Role) :
    (c.behind roles).marks.isAllowed = c.marks.isAllowed :=
  KeyMarks.isAllowed_markAll _ _

/-- A cursor that has gone forward: it stands no further back, it knows the
same keys, and no mark is gone. -/
structure Advances (c c' : Cursor) : Prop where
  pos_le : c.pos ≤ c'.pos
  keys_eq : c'.marks.entries.map Prod.fst = c.marks.entries.map Prod.fst
  isFound : ∀ key, c.marks.isFound key = true → c'.marks.isFound key = true

variable {c}

theorem Advances.refl (c : Cursor) : c.Advances c :=
  ⟨Nat.le_refl _, rfl, fun _ h => h⟩

theorem Advances.trans {c' c'' : Cursor} (h : c.Advances c') (h' : c'.Advances c'') :
    c.Advances c'' where
  pos_le := Nat.le_trans h.pos_le h'.pos_le
  keys_eq := h'.keys_eq.trans h.keys_eq
  isFound key hkey := h'.isFound key (h.isFound key hkey)

theorem advances_behind (c : Cursor) (roles : List Role) : c.Advances (c.behind roles) where
  pos_le := Nat.le_add_right _ _
  keys_eq := KeyMarks.keys_markAll _ _
  isFound _ h := KeyMarks.isFound_markAll h _

end Cursor

/-! ### The steps -/

section

variable (tokens) (frames : List Frame) (depth : Nat) (c : Cursor)

/-- Behind a token with a key and this argument. -/
def behindKey (key argument : String) : Control :=
  match filterOn? key argument with
  | some e => .ret (some e)
  | none => .argument key

/-- Go past the first token of an operand. -/
def beginOperand (t : Token) : State :=
  if t.isOperator then ⟨.ret none, frames, depth, c.behind [.stray]⟩
  else if t.opens then
    if maxDepth ≤ depth then ⟨.fail (.tooDeep maxDepth), frames, depth, c⟩
    else ⟨.call .query, .group :: frames, depth + 1, c.behind [.opens]⟩
  else match Text.cutAtColon t.text with
    | some (key, argument) =>
      if c.marks.isAllowed key then
        ⟨behindKey key argument, frames, depth, c.behind [.filter key]⟩
      else ⟨.ret (some (.value t.text)), frames, depth, c.behind [.literal]⟩
    | none =>
      if t.quoted then ⟨.ret (freeText? t.text), frames, depth, c.behind [.phrase]⟩
      else ⟨.words c.pos, frames, depth, c.behind [.word]⟩

/-- Call a rule. -/
def enter : Rule → State
  | .query => ⟨.call .clause, .query none :: frames, depth, c⟩
  | .clause => ⟨.call .operand, .clause [] :: frames, depth, c⟩
  | .operand =>
    match c.ahead tokens with
    | [] => ⟨.ret none, frames, depth, c⟩
    | t :: _ => beginOperand frames depth c t

/-- Go past one more word, or come to the text of those between `start` and
the cursor. -/
def goOn (start : Nat) : State :=
  if (c.ahead tokens).head?.any (continuesRun c.marks.isAllowed) then
    ⟨.words start, frames, depth, c.behind [.word]⟩
  else ⟨.ret (freeText? (joinWords (tokens.extract start c.pos))), frames, depth, c⟩

/-- Go past the value of a filter, if there is one. -/
def lookForValue (key : String) : State :=
  match c.ahead tokens with
  | [] => ⟨.ret none, frames, depth, c⟩
  | t :: _ =>
    if t.quoted then ⟨.ret (filterOn? key t.text), frames, depth, c.behind [.argument]⟩
    else ⟨.ret none, frames, depth, c⟩

/-- Hand a value to the call that waits for it. -/
def handOver (value : Option Expr) : List Frame → State
  | [] => ⟨.ret value, [], depth, c⟩
  | .query before :: frames =>
    if alternativeAhead (c.ahead tokens) then
      ⟨.call .clause, .query (either? before value) :: frames, depth, c.behind [.alternates]⟩
    else ⟨.ret (either? before value), frames, depth, c⟩
  | .clause operands :: frames =>
    match gap? (c.ahead tokens) with
    | none => ⟨.ret (conjunction? (operands ++ value.toList)), frames, depth, c⟩
    | some gap =>
      ⟨.call .operand, .clause (operands ++ value.toList) :: frames, depth, c.behind gap⟩
  | .group :: frames =>
    if closeAhead (c.ahead tokens) then ⟨.ret value, frames, depth - 1, c.behind [.closes]⟩
    else ⟨.fail .unclosedGroup, frames, depth - 1, c⟩

end

/-- Do one thing. -/
def next (tokens : List Token) (s : State) : State :=
  match s.control with
  | .call rule => enter tokens s.frames s.depth s.cursor rule
  | .words start => goOn tokens s.frames s.depth s.cursor start
  | .argument key => lookForValue tokens s.frames s.depth s.cursor key
  | .ret value => handOver tokens s.depth s.cursor value s.frames
  | .fail _ => s

/-- Whether nothing is left to be done: there is an error, or a value that no
call waits for. -/
def State.halted (s : State) : Bool :=
  match s.control with
  | .ret _ => s.frames.isEmpty
  | .fail _ => true
  | _ => false

/-- The state after so many steps. -/
def run (tokens : List Token) (n : Nat) (s : State) : State :=
  (next tokens)^[n] s

theorem next_of_halted {s : State} (h : s.halted = true) : next tokens s = s := by
  obtain ⟨control, frames, depth, c⟩ := s
  cases control with
  | fail why => rfl
  | ret value =>
    obtain rfl : frames = [] := List.isEmpty_iff.1 h
    rfl
  | call _ | words _ | argument _ => cases h

/-! ### What a step can do -/

/-- A step from one state to the next. -/
inductive Moves (tokens : List Token) : State → State → Prop
  /-- A query calls its first clause. -/
  | query {frames depth c} :
      Moves tokens ⟨.call .query, frames, depth, c⟩ ⟨.call .clause, .query none :: frames, depth, c⟩
  /-- A clause calls its first operand. -/
  | clause {frames depth c} :
      Moves tokens ⟨.call .clause, frames, depth, c⟩
        ⟨.call .operand, .clause [] :: frames, depth, c⟩
  /-- There is no operand at the end. -/
  | missing {frames depth c} : c.ahead tokens = [] →
      Moves tokens ⟨.call .operand, frames, depth, c⟩ ⟨.ret none, frames, depth, c⟩
  /-- An operand of one token. -/
  | one {frames depth c role value} : c.ahead tokens ≠ [] →
      Moves tokens ⟨.call .operand, frames, depth, c⟩ ⟨.ret value, frames, depth, c.behind [role]⟩
  /-- A filter whose value is still to come. -/
  | key {frames depth c key} : c.ahead tokens ≠ [] →
      Moves tokens ⟨.call .operand, frames, depth, c⟩
        ⟨.argument key, frames, depth, c.behind [.filter key]⟩
  /-- The first of a run of words. -/
  | word {frames depth c} : c.ahead tokens ≠ [] →
      Moves tokens ⟨.call .operand, frames, depth, c⟩
        ⟨.words c.pos, frames, depth, c.behind [.word]⟩
  /-- A group. -/
  | opens {frames depth c} : c.ahead tokens ≠ [] → depth < maxDepth →
      Moves tokens ⟨.call .operand, frames, depth, c⟩
        ⟨.call .query, .group :: frames, depth + 1, c.behind [.opens]⟩
  /-- A group too many. -/
  | tooDeep {frames depth c} : maxDepth ≤ depth →
      Moves tokens ⟨.call .operand, frames, depth, c⟩
        ⟨.fail (.tooDeep maxDepth), frames, depth, c⟩
  /-- One more word. -/
  | another {start frames depth c} : c.ahead tokens ≠ [] →
      Moves tokens ⟨.words start, frames, depth, c⟩ ⟨.words start, frames, depth, c.behind [.word]⟩
  /-- The end of a run of words. -/
  | text {start frames depth c} :
      Moves tokens ⟨.words start, frames, depth, c⟩
        ⟨.ret (freeText? (joinWords (tokens.extract start c.pos))), frames, depth, c⟩
  /-- The value of a filter. -/
  | argument {key frames depth c value} : c.ahead tokens ≠ [] →
      Moves tokens ⟨.argument key, frames, depth, c⟩
        ⟨.ret value, frames, depth, c.behind [.argument]⟩
  /-- A filter without a value. -/
  | bare {key frames depth c} :
      Moves tokens ⟨.argument key, frames, depth, c⟩ ⟨.ret none, frames, depth, c⟩
  /-- The next clause, behind an `OR`. -/
  | alternates {before value frames depth c} : c.ahead tokens ≠ [] →
      Moves tokens ⟨.ret value, .query before :: frames, depth, c⟩
        ⟨.call .clause, .query (either? before value) :: frames, depth, c.behind [.alternates]⟩
  /-- The end of a query. -/
  | disjunction {before value frames depth c} :
      Moves tokens ⟨.ret value, .query before :: frames, depth, c⟩
        ⟨.ret (either? before value), frames, depth, c⟩
  /-- The next operand of a clause, behind an `AND` or beside the one before. -/
  | gap {operands value gap frames depth c} : c.ahead tokens ≠ [] → gap.length ≤ 1 →
      Moves tokens ⟨.ret value, .clause operands :: frames, depth, c⟩
        ⟨.call .operand, .clause (operands ++ value.toList) :: frames, depth, c.behind gap⟩
  /-- The end of a clause. -/
  | conjunction {operands value frames depth c} :
      Moves tokens ⟨.ret value, .clause operands :: frames, depth, c⟩
        ⟨.ret (conjunction? (operands ++ value.toList)), frames, depth, c⟩
  /-- The end of a group. -/
  | closes {value frames depth c} : c.ahead tokens ≠ [] →
      Moves tokens ⟨.ret value, .group :: frames, depth, c⟩
        ⟨.ret value, frames, depth - 1, c.behind [.closes]⟩
  /-- A group without an end. -/
  | unclosed {value frames depth c} :
      Moves tokens ⟨.ret value, .group :: frames, depth, c⟩
        ⟨.fail .unclosedGroup, frames, depth - 1, c⟩

theorem moves_beginOperand {frames : List Frame} {depth : Nat} {c : Cursor}
    (h : c.ahead tokens ≠ []) (t : Token) :
    Moves tokens ⟨.call .operand, frames, depth, c⟩ (beginOperand frames depth c t) := by
  -- the cases are those of the definition, in its order
  unfold beginOperand
  by_cases hop : t.isOperator = true
  · rw [if_pos hop]
    exact .one h
  rw [if_neg hop]
  by_cases hopen : t.opens = true
  · rw [if_pos hopen]
    by_cases hfull : maxDepth ≤ depth
    · rw [if_pos hfull]
      exact .tooDeep hfull
    · rw [if_neg hfull]
      exact .opens h (Nat.lt_of_not_le hfull)
  rw [if_neg hopen]
  rcases Text.cutAtColon t.text with - | ⟨key, argument⟩
  · cases hq : t.quoted with
    | true => exact .one h
    | false => exact .word h
  · cases hkey : c.marks.isAllowed key with
    | true =>
      simp only [hkey, if_true]
      unfold behindKey
      cases filterOn? key argument with
      | some e => exact .one h
      | none => exact .key h
    | false =>
      simp only [hkey, Bool.false_eq_true, if_false]
      exact .one h

theorem moves_handOver {frame : Frame} {frames : List Frame} {depth : Nat} {c : Cursor}
    (value : Option Expr) :
    Moves tokens ⟨.ret value, frame :: frames, depth, c⟩
      (handOver tokens depth c value (frame :: frames)) := by
  have hne {p : List Token → Bool} (hnil : p [] = false) (h : p (c.ahead tokens) = true) :
      c.ahead tokens ≠ [] := by
    intro e
    rw [e, hnil] at h
    cases h
  cases frame with
  | query before =>
    by_cases h : alternativeAhead (c.ahead tokens) = true
    · rw [handOver, if_pos h]
      exact .alternates (hne rfl h)
    · rw [handOver, if_neg h]
      exact .disjunction
  | clause operands =>
    rw [handOver]
    cases h : gap? (c.ahead tokens) with
    | none => exact .conjunction
    | some gap =>
      obtain ⟨t, us, hts, -, -, hgap⟩ := gap?_eq_some h
      have hle : gap.length ≤ 1 := by rcases hgap with ⟨-, rfl⟩ | ⟨-, rfl⟩ <;> decide
      exact .gap (hts ▸ List.cons_ne_nil t us) hle
  | group =>
    by_cases h : closeAhead (c.ahead tokens) = true
    · rw [handOver, if_pos h]
      exact .closes (hne rfl h)
    · rw [handOver, if_neg h]
      exact .unclosed

/-- These are all the steps there are. -/
theorem moves_next {s : State} (h : s.halted = false) : Moves tokens s (next tokens s) := by
  obtain ⟨control, frames, depth, c⟩ := s
  cases control with
  | call rule =>
    cases rule with
    | query => exact .query
    | clause => exact .clause
    | operand =>
      show Moves tokens _ (enter tokens frames depth c .operand)
      unfold enter
      rcases hts : c.ahead tokens with - | ⟨t, ts⟩
      · exact .missing hts
      · exact moves_beginOperand (hts ▸ List.cons_ne_nil t ts) t
  | words start =>
    show Moves tokens _ (goOn tokens frames depth c start)
    unfold goOn
    by_cases hword : (c.ahead tokens).head?.any (continuesRun c.marks.isAllowed) = true
    · rw [if_pos hword]
      exact .another fun e => by simp [e] at hword
    · rw [if_neg hword]
      exact .text
  | argument key =>
    show Moves tokens _ (lookForValue tokens frames depth c key)
    unfold lookForValue
    rcases hts : c.ahead tokens with - | ⟨t, ts⟩
    · exact .bare
    · show Moves tokens _ (if t.quoted then _ else _)
      cases t.quoted with
      | true => exact .argument (hts ▸ List.cons_ne_nil t ts)
      | false => exact .bare
  | ret value =>
    cases frames with
    | nil => cases h
    | cons frame frames => exact moves_handOver value
  | fail why => cases h

/-! ### Bounds -/

/-- Where a step goes: past tokens that are there, one at most. -/
theorem Moves.exists_roles {s s' : State} (h : Moves tokens s s') :
    ∃ roles, s'.cursor = s.cursor.behind roles ∧
      roles.length ≤ (s.cursor.ahead tokens).length ∧ roles.length ≤ 1 := by
  have hone {c : Cursor} {roles : List Role} (hne : c.ahead tokens ≠ []) (hle : roles.length ≤ 1) :
      roles.length ≤ (c.ahead tokens).length ∧ roles.length ≤ 1 :=
    ⟨Nat.le_trans hle (List.length_pos_iff.2 hne), hle⟩
  cases h with
  | query | clause | missing | tooDeep | text | bare | disjunction | conjunction | unclosed =>
    exact ⟨[], rfl, Nat.zero_le _, Nat.zero_le _⟩
  | one hne | key hne | word hne | opens hne | another hne | argument hne | alternates hne
    | closes hne => exact ⟨[_], rfl, hone hne (Nat.le_refl 1)⟩
  | gap hne hle => exact ⟨_, rfl, hone hne hle⟩

/-- A state in bounds, where `base` groups are open around the first call: the
cursor is no further than at the end, each group that is open is waited for, no
group too many is open, and a run of words begins before the cursor. -/
structure State.InBounds (tokens : List Token) (base : Nat) (s : State) : Prop where
  pos_le : s.cursor.pos ≤ tokens.length
  depth_eq : s.depth = base + s.frames.count .group
  depth_le : s.depth ≤ maxDepth
  start_lt : ∀ start, s.control = .words start → start < s.cursor.pos

theorem Moves.pos_le {s s' : State} (h : Moves tokens s s')
    (hpos : s.cursor.pos ≤ tokens.length) : s'.cursor.pos ≤ tokens.length := by
  obtain ⟨roles, hcursor, hle, -⟩ := h.exists_roles
  rw [Cursor.length_ahead] at hle
  rw [hcursor]
  show s.cursor.pos + roles.length ≤ tokens.length
  omega

/-- Only groups change the depth, together with the stack. -/
theorem Moves.depth_eq {s s' : State} {base : Nat} (h : Moves tokens s s')
    (hdepth : s.depth = base + s.frames.count .group) :
    s'.depth = base + s'.frames.count .group := by
  cases h with
  | opens =>
    rw [List.count_cons_self, ← Nat.add_assoc]
    exact congrArg (· + 1) hdepth
  | closes | unclosed =>
    rw [List.count_cons_self, ← Nat.add_assoc] at hdepth
    exact Nat.sub_eq_of_eq_add hdepth
  | query | clause | alternates | disjunction | gap | conjunction => simpa using hdepth
  | _ => exact hdepth

theorem Moves.depth_le {s s' : State} (h : Moves tokens s s') (hdepth : s.depth ≤ maxDepth) :
    s'.depth ≤ maxDepth := by
  cases h with
  | opens _ hlt => exact hlt
  | closes | unclosed => exact Nat.le_trans (Nat.sub_le _ _) hdepth
  | _ => exact hdepth

theorem Moves.start_lt {s s' : State} (h : Moves tokens s s')
    (hstart : ∀ start, s.control = .words start → start < s.cursor.pos) :
    ∀ start, s'.control = .words start → start < s'.cursor.pos := by
  intro start hwords
  cases h with
  | word =>
    obtain rfl := Control.words.inj hwords
    exact Nat.lt_succ_self _
  | another => exact Nat.lt_succ_of_lt (hstart start hwords)
  | _ => cases hwords

/-- A step stays in bounds. -/
theorem Moves.inBounds {s s' : State} {base : Nat} (h : Moves tokens s s')
    (hs : s.InBounds tokens base) : s'.InBounds tokens base where
  pos_le := h.pos_le hs.pos_le
  depth_eq := h.depth_eq hs.depth_eq
  depth_le := h.depth_le hs.depth_le
  start_lt := h.start_lt hs.start_lt

theorem Moves.advances {s s' : State} (h : Moves tokens s s') : s.cursor.Advances s'.cursor := by
  obtain ⟨roles, hcursor, -, -⟩ := h.exists_roles
  rw [hcursor]
  exact Cursor.advances_behind _ _

/-! ### The potential -/

/-- What can be done in front of these tokens before one of them is taken. -/
def Control.work (ahead : List Token) : Control → Nat
  | .call .query => 7
  | .call .clause => 5
  | .call .operand => if ahead = [] then 3 else 1
  | .words _ | .argument _ => 3
  | .ret _ => 2
  | .fail _ => 0

/-- A bound on the steps that are left. -/
def State.potential (tokens : List Token) (s : State) : Nat :=
  8 * (s.cursor.ahead tokens).length + s.control.work (s.cursor.ahead tokens) + s.frames.length

variable {ahead : List Token}

theorem Control.work_operand_of_nil : (call .operand).work [] = 3 := rfl

theorem Control.work_operand_of_ne_nil (h : ahead ≠ []) : (call .operand).work ahead = 1 :=
  if_neg h

theorem Control.work_operand_pos (ahead : List Token) : 0 < (call .operand).work ahead := by
  show 0 < if ahead = [] then 3 else 1
  split <;> decide

theorem Control.work_operand_le (ahead : List Token) : (call .operand).work ahead ≤ 3 := by
  show (if ahead = [] then 3 else 1) ≤ 3
  split <;> decide

theorem Control.work_le (control : Control) (ahead : List Token) : control.work ahead ≤ 7 := by
  cases control with
  | call rule =>
    cases rule with
    | operand => exact Nat.le_trans (work_operand_le ahead) (by decide)
    | query | clause => simp [work]
  | words | argument | ret | fail => simp [work]

/-- A token that is taken pays for whatever begins behind it. -/
theorem potential_behind_lt {control control' : Control} {frames frames' : List Frame}
    {depth depth' : Nat} {c : Cursor} {roles : List Role} (hroles : roles.length = 1)
    (hne : c.ahead tokens ≠ []) (hframes : frames'.length ≤ frames.length + 1)
    (hwork : 0 < control.work (c.ahead tokens)) :
    State.potential tokens ⟨control', frames', depth', c.behind roles⟩
      < State.potential tokens ⟨control, frames, depth, c⟩ := by
  have hlen : ((c.behind roles).ahead tokens).length + 1 = (c.ahead tokens).length := by
    rw [c.ahead_behind, List.length_drop, hroles]
    exact Nat.sub_add_cancel (List.length_pos_iff.2 hne)
  have hle := control'.work_le ((c.behind roles).ahead tokens)
  simp only [State.potential]
  omega

/-- Without taking a token there is less to be done or less to wait for. -/
theorem potential_lt_of_work {control control' : Control} {frames frames' : List Frame}
    {depth depth' : Nat} {c : Cursor}
    (h : control'.work (c.ahead tokens) + frames'.length
      < control.work (c.ahead tokens) + frames.length) :
    State.potential tokens ⟨control', frames', depth', c⟩
      < State.potential tokens ⟨control, frames, depth, c⟩ := by
  simp only [State.potential]
  omega

/-- Each step uses some of the potential. -/
theorem Moves.potential_lt {s s' : State} (h : Moves tokens s s') :
    s'.potential tokens < s.potential tokens := by
  cases h with
  | one hne | key hne | word hne | opens hne =>
    exact potential_behind_lt rfl hne (by simp) (Control.work_operand_pos _)
  | another hne | argument hne | alternates hne =>
    exact potential_behind_lt rfl hne (by simp) (Nat.succ_pos _)
  | closes hne =>
    refine potential_behind_lt rfl hne ?_ (Nat.succ_pos _)
    rw [List.length_cons]
    omega
  | @gap operands value gap frames depth c hne hle =>
    rcases Nat.le_one_iff_eq_zero_or_eq_one.1 hle with hzero | hone
    · -- nothing is taken, but the operand is called in front of a token
      obtain rfl := List.length_eq_zero_iff.1 hzero
      refine potential_lt_of_work ?_
      rw [c.behind_nil, Control.work_operand_of_ne_nil hne]
      exact Nat.add_lt_add_right (Nat.lt_succ_self 1) _
    · exact potential_behind_lt hone hne (by simp) (Nat.succ_pos _)
  | missing hnil =>
    refine potential_lt_of_work ?_
    rw [hnil, Control.work_operand_of_nil]
    exact Nat.add_lt_add_right (Nat.lt_succ_self 2) _
  | @clause frames depth c =>
    refine potential_lt_of_work ?_
    have hle := Control.work_operand_le (c.ahead tokens)
    show _ + (frames.length + 1) < 5 + frames.length
    omega
  | @tooDeep frames depth c =>
    refine potential_lt_of_work ?_
    have hpos := Control.work_operand_pos (c.ahead tokens)
    show 0 + frames.length < _ + frames.length
    omega
  | query | text | bare | disjunction | conjunction | unclosed =>
    refine potential_lt_of_work ?_
    simp only [Control.work, List.length_cons]
    omega

/-! ### Runs -/

theorem run_succ (n : Nat) (s : State) : run tokens (n + 1) s = next tokens (run tokens n s) :=
  Function.iterate_succ_apply' _ _ _

theorem run_add (m n : Nat) (s : State) : run tokens (m + n) s = run tokens n (run tokens m s) := by
  rw [Nat.add_comm]
  exact Function.iterate_add_apply _ _ _ _

theorem run_of_halted {s : State} (h : s.halted = true) (n : Nat) : run tokens n s = s :=
  Function.iterate_fixed (next_of_halted h) n

/-- What every step preserves holds all the time. -/
theorem run_induction {motive : State → Prop}
    (hnext : ∀ {s s'}, Moves tokens s s' → motive s → motive s') {s : State} (hs : motive s)
    (n : Nat) : motive (run tokens n s) := by
  induction n with
  | zero => exact hs
  | succ n ih =>
    rw [run_succ]
    cases hhalted : (run tokens n s).halted with
    | true => rwa [next_of_halted hhalted]
    | false => exact hnext (moves_next hhalted) ih

theorem inBounds_run {s : State} {base : Nat} (h : s.InBounds tokens base) (n : Nat) :
    (run tokens n s).InBounds tokens base :=
  run_induction Moves.inBounds h n

theorem advances_run {m n : Nat} (h : m ≤ n) (s : State) :
    (run tokens m s).cursor.Advances (run tokens n s).cursor := by
  obtain ⟨k, rfl⟩ := Nat.exists_eq_add_of_le h
  rw [run_add]
  exact run_induction (motive := fun s' => (run tokens m s).cursor.Advances s'.cursor)
    (fun hmove hs => hs.trans hmove.advances) (Cursor.Advances.refl _) k

/-- A run ends after as many steps as the potential allows. -/
theorem halted_run {s : State} {n : Nat} (h : s.potential tokens ≤ n) :
    (run tokens n s).halted = true := by
  induction n generalizing s with
  | zero =>
    cases hhalted : s.halted with
    | true => exact hhalted
    | false =>
      have hmove : Moves tokens s (next tokens s) := moves_next hhalted
      have hlt := hmove.potential_lt
      omega
  | succ n ih =>
    cases hhalted : s.halted with
    | true => rwa [run_of_halted hhalted]
    | false =>
      have hmove : Moves tokens s (next tokens s) := moves_next hhalted
      have hlt := hmove.potential_lt
      exact ih (by omega)

end SearchQuery.Grammar.Calls
