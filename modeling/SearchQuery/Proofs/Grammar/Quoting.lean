/-
SearchQuery/Proofs/Grammar/Quoting.lean

Tokens that are recognised by their texts.

Operators in upper case, opening parentheses and filters are looked for before
anything else, and what is looked at is the text.  So it does not matter
whether such a token stands in quotes (`parse_set_quoted`).  There is one
exception: a filter that has no value yet takes the next token if it is in
quotes, whatever its text is.  Where that happens can be seen from the roles
in which the tokens are read (`followsBare`).

The proof compares two steps of the machine from one state
(`Machine.step_quoted`); all of the mode that has to be known is that there is
no such filter in it.
-/
import SearchQuery.Proofs.Grammar.Endings
import SearchQuery.Proofs.Grammar.Marks

namespace SearchQuery.Grammar

/-! ### Tokens in other quotes -/

/-- Tokens that are recognised by their texts. -/
inductive ByText (allowed : String → Bool) (t : Token) : Prop
  | operator : t.isOperator = true → ByText allowed t
  | opens : t.opens = true → ByText allowed t
  | filter {key} : t.key? = some key → allowed key = true → ByText allowed t

variable {allowed : String → Bool} {t : Token}

/-- No run of words goes on with such a token. -/
theorem ByText.continuesRun_eq_false (h : ByText allowed t) (quoted : Bool) :
    continuesRun allowed { t with quoted } = false := by
  refine Bool.eq_false_iff.2 fun hgoes => ?_
  obtain ⟨-, hopen, -, hop, hkeys⟩ := continuesRun_iff.1 hgoes
  cases h with
  | operator h => exact Bool.false_ne_true (hop.symm.trans h)
  | opens h => exact Bool.false_ne_true (hopen.symm.trans h)
  | filter hkey hallowed => exact Bool.false_ne_true ((hkeys _ hkey).symm.trans hallowed)

namespace Machine

variable {outer : List Level} {here : Level} {s s' : State} {role : Role}

theorem expectOperand_quoted (h : ByText allowed t) (outer : List Level) (here : Level)
    (quoted : Bool) :
    expectOperand allowed outer here { t with quoted } = expectOperand allowed outer here t := by
  cases h with
  | operator hop =>
    have hop' : ({ t with quoted } : Token).isOperator = true := hop
    rw [expectOperand, expectOperand, if_pos hop, if_pos hop']
  | opens hopen =>
    have hop : t.isOperator = false := Token.isOperator_eq_false_of_opens hopen
    show (if t.isOperator = true then _ else if t.opens = true then _ else _) = _
    rw [expectOperand, hop, hopen]
    rfl
  | @filter key hkey hallowed =>
    obtain ⟨argument, hcut⟩ := Token.key?_eq_some_iff.1 hkey
    obtain ⟨hop, hopen, -, -, -⟩ := Token.apart_of_key? hkey
    have hbegins : ∀ quoted, expectOperand allowed outer here { t with quoted }
        = .ok (.filter key, behindKey outer here key argument) := by
      intro quoted
      show (if t.isOperator = true then _ else if t.opens = true then _ else _) = _
      rw [hop, hopen, if_neg Bool.false_ne_true, if_neg Bool.false_ne_true]
      simp only [hcut, hallowed, if_true]
    rw [hbegins]
    exact (hbegins t.quoted).symm

theorem behind_quoted (h : ByText allowed t) (outer : List Level) (here : Level) (quoted : Bool) :
    behind allowed outer here { t with quoted } = behind allowed outer here t := by
  simp only [behind, expectOperand_quoted h]
  rfl

theorem goOn?_quoted (h : ByText allowed t) (hmode : ∀ key, s.mode ≠ .bare key) (quoted : Bool) :
    s.goOn? allowed { t with quoted } = none := by
  obtain ⟨outer, here, mode⟩ := s
  cases mode with
  | expect | after => rfl
  | words ws => simp only [State.goOn?, h.continuesRun_eq_false, Bool.false_eq_true, if_false]
  | bare key => exact absurd rfl (hmode key)

/-- Unless a filter waits for its value, the machine goes past a token that is
recognised by its text in the same way whether it is quoted or not. -/
theorem step_quoted (h : ByText allowed t) (hmode : ∀ key, s.mode ≠ .bare key) (quoted : Bool) :
    step allowed s { t with quoted } = step allowed s t := by
  by_cases hexpect : s.mode = .expect
  · obtain ⟨outer, here, mode⟩ := s
    obtain rfl : mode = .expect := hexpect
    show (expectOperand allowed outer here _).map some = _
    rw [expectOperand_quoted h]
    rfl
  · have hgo : s.goOn? allowed t = none := goOn?_quoted h hmode t.quoted
    rw [step_of_goOn?_eq_none hexpect (goOn?_quoted h hmode quoted), behind_quoted h,
      step_of_goOn?_eq_none hexpect hgo]

/-! ### Filters without a value -/

theorem Begins.bare {key : String} (h : Begins allowed outer here t role s')
    (hmode : s'.mode = .bare key) : role = .filter key ∧ awaitsValue allowed t = true := by
  cases h with
  | stray | opens | literal | phrase | word => cases hmode
  | @filter k argument hcut hallowed =>
    unfold behindKey at hmode
    cases hfilter : filterOn? k argument with
    | some e =>
      rw [hfilter] at hmode
      cases hmode
    | none =>
      rw [hfilter] at hmode
      obtain rfl : k = key := Mode.bare.inj hmode
      have hblank : Text.trim argument = "" :=
        Text.trimmed?_eq_none_iff.1 (Option.map_eq_none_iff.1 hfilter)
      simp [awaitsValue, hcut, hallowed, hblank]

/-- Only behind a filter without a value a filter waits for its value. -/
theorem bare_of_step {key : String} (h : step allowed s t = .ok (some (role, s')))
    (hmode : s'.mode = .bare key) : role = .filter key ∧ awaitsValue allowed t = true := by
  cases stepsTo_of_step h with
  | expected _ hbegins | beside _ hbegins => exact hbegins.bare hmode
  | goesOn hgo => rcases goOn?_eq_some hgo with ⟨_, _, rfl, rfl⟩ | ⟨_, _, rfl, rfl⟩ <;> cases hmode
  | alternates | joins | closes => cases hmode

/-! ### Runs -/

/-- Two runs that differ in the quotes of one token. -/
theorem read_quoted {before : List Token} (h : ByText allowed t)
    (hmode : ∀ roles s', Passes allowed s before roles s' → ∀ key, s'.mode ≠ .bare key)
    (quoted : Bool) (after : List Token) :
    read allowed s (before ++ { t with quoted } :: after)
      = read allowed s (before ++ t :: after) := by
  induction before generalizing s with
  | nil =>
    have hstep := step_quoted h (hmode [] s .nil) quoted
    simp only [List.nil_append, read, hstep]
  | cons u before ih =>
    rcases hstep : step allowed s u with why | - | ⟨role, s'⟩
    · simp only [List.cons_append, read, hstep]
    · simp only [List.cons_append, read, hstep]
    · have hrest := ih fun roles s'' hpass => hmode _ s'' (.cons hstep hpass)
      rw [List.cons_append, List.cons_append, read_cons_of_step hstep, read_cons_of_step hstep,
        hrest]

end Machine

/-! ### Queries -/

/-- Whether reading comes to a token right behind a filter that it has met and
that has nothing behind its colon. -/
def followsBare (allowed : String → Bool) (ts : List Token) : Nat → Bool
  | 0 => false
  | i + 1 => (parse allowed ts).roles[i]?.any (fun role => role.key?.isSome) &&
      ts[i]?.any (awaitsValue allowed)

/-- If a filter waits for its value behind some tokens, the last of them is
this filter. -/
theorem followsBare_of_passes {before : List Token} {roles : List Role} {s : Machine.State}
    {key : String} (h : Machine.Passes allowed Machine.start before roles s)
    (hmode : s.mode = .bare key) (after : List Token) :
    followsBare allowed (before ++ after) before.length = true := by
  have hne : before ≠ [] := by
    rintro rfl
    cases h
    cases hmode
  obtain ⟨_, u, role, hu, hrole, hstep⟩ := h.exists_last hne
  obtain ⟨rfl, hawaits⟩ := Machine.bare_of_step hstep hmode
  obtain ⟨j, hj⟩ : ∃ j, before.length = j + 1 :=
    Nat.exists_eq_succ_of_ne_zero (Nat.ne_of_gt (List.length_pos_iff.2 hne))
  have hj' : roles.length = j + 1 := h.length_roles.trans hj
  rw [List.getLast?_eq_getElem?, hj, Nat.add_sub_cancel] at hu
  rw [List.getLast?_eq_getElem?, hj', Nat.add_sub_cancel] at hrole
  have htoken : (before ++ after)[j]? = some u := by
    rw [List.getElem?_append_left (by omega), hu]
  have hread : (parse allowed (before ++ after)).roles[j]? = some (.filter key) := by
    rw [parse_eq_read, h.read_append]
    show (roles ++ _)[j]? = _
    rw [List.getElem?_append_left (by omega), hrole]
  rw [hj, followsBare, htoken, hread]
  exact hawaits

/-- Reading is the same with a token in other quotes that is recognised by its
text. -/
theorem parse_append_quoted {before : List Token} (h : ByText allowed t) (after : List Token)
    (hfree : followsBare allowed (before ++ t :: after) before.length = false) (quoted : Bool) :
    parse allowed (before ++ { t with quoted } :: after)
      = parse allowed (before ++ t :: after) := by
  rw [parse_eq_read, parse_eq_read]
  apply Machine.read_quoted h
  intro roles s hpass key hmode
  rw [followsBare_of_passes hpass hmode] at hfree
  cases hfree

/-- **Operators, opening parentheses and filters may stand in quotes**: a query
comes to the same expression and the same marks, or to the same error, if the
quotes around such a token are changed.  Only a token behind a filter without a
value is excepted, since the filter takes it if it is quoted. -/
theorem parse_set_quoted {keys : List String} {ts : List Token} {i : Nat} {t : Token}
    (ht : ts[i]? = some t) (h : ByText (KeyMarks.seeded keys).isAllowed t)
    (hfree : followsBare (KeyMarks.seeded keys).isAllowed ts i = false) (quoted : Bool) :
    let marks := KeyMarks.seeded keys
    let r := parse marks.isAllowed ts
    let r' := parse marks.isAllowed (ts.set i { t with quoted })
    r'.outcome = r.outcome ∧ marks.markAll r'.used = marks.markAll r.used := by
  intro marks r r'
  obtain ⟨before, after, rfl, rfl⟩ : ∃ before after, ts = before ++ t :: after ∧
      before.length = i := by
    obtain ⟨hlt, rfl⟩ := List.getElem?_eq_some_iff.1 ht
    refine ⟨ts.take i, ts.drop (i + 1), ?_, List.length_take_of_le (Nat.le_of_lt hlt)⟩
    rw [List.getElem_cons_drop, List.take_append_drop]
  have hset : (before ++ t :: after).set before.length { t with quoted }
      = before ++ { t with quoted } :: after := by
    simp
  have hread : r' = r := by
    show parse _ ((before ++ t :: after).set before.length _) = _
    rw [hset]
    exact parse_append_quoted h after hfree quoted
  rw [hread]
  exact ⟨rfl, rfl⟩

/-- A filter that ends a run of words and takes the phrase behind it. -/
theorem parse_set_quoted_filter :
    let ts := [.word "a", .word "b:c", .word "tag:", .phrase "AND", .word "OR", .word "d"]
    let marks := KeyMarks.seeded ["tag"]
    let r := parse marks.isAllowed (ts.set 2 (.phrase "tag:"))
    ByText marks.isAllowed (.word "tag:") ∧ followsBare marks.isAllowed ts 2 = false ∧
      r.outcome = .ok (some (.or [.and [.value "a b:c", .filter ⟨"tag", "AND"⟩], .value "d"])) ∧
      (marks.markAll r.used).get? "tag" = some true := by
  intro ts marks r
  have hkey : (Token.word "tag:").key? = some "tag" := by decide +kernel
  have hfilter : ByText marks.isAllowed (.word "tag:") := .filter hkey (by decide +kernel)
  have hfree : followsBare marks.isAllowed ts 2 = false := by decide +kernel
  obtain ⟨houtcome, hmarks⟩ := parse_set_quoted rfl hfilter hfree true
  refine ⟨hfilter, hfree, houtcome.trans (by decide +kernel), ?_⟩
  exact (congrArg (KeyMarks.get? · "tag") hmarks).trans (by decide +kernel)

/-- An operator behind a filter without a value is its value if it is quoted. -/
example :
    let ts := [.word "tag:", .word "OR", .word "a"]
    let allowed := (KeyMarks.seeded ["tag"]).isAllowed
    followsBare allowed ts 1 = true ∧ (parse allowed ts).outcome = .ok (some (.value "a")) ∧
      (parse allowed (ts.set 1 (.phrase "OR"))).outcome
        = .ok (some (.and [.filter ⟨"tag", "OR"⟩, .value "a"])) := by
  decide +kernel

end SearchQuery.Grammar
