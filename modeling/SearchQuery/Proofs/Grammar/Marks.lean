/-
SearchQuery/Proofs/Grammar/Marks.lean

Which keys a query marks.

A filter whose colon has nothing behind it takes the next token for its
value, if that is quoted.  So where such filters follow each other in quotes,
filter and value alternate, and whether a token is the value of the one before
it depends on the whole chain.  `isValue` says it by going back along the
chain, and looks at nothing but the texts and the quotes of the tokens.

A key is marked exactly if it is allowed and one of the tokens that were read
has it and is not a value (`get?_markAll_used`).  Keys inside values and inside
runs of words are not met, nor those behind the end of the query, and a filter
that is dropped for want of a value has been met all the same.
-/
import SearchQuery.Proofs.Grammar.Pieces
import SearchQuery.Proofs.Grammar.Words
import SearchQuery.Proofs.KeyMarks.Lookup

namespace SearchQuery.Grammar

/-! ### Values -/

/-- Whether a token is a filter with nothing behind its colon. -/
def awaitsValue (allowed : String → Bool) (t : Token) : Bool :=
  match Text.cutAtColon t.text with
  | some (key, argument) => allowed key && Text.trim argument == ""
  | none => false

/-- Whether a token is the value of the one before it: it is quoted, and the
one before it awaits a value and is none itself. -/
def isValue (allowed : String → Bool) (ts : List Token) : Nat → Bool
  | 0 => false
  | i + 1 => ts[i + 1]?.any Token.quoted && ts[i]?.any (awaitsValue allowed)
      && !isValue allowed ts i

/-- Whether one of the first tokens has a key, and is not a value. -/
def Uses (allowed : String → Bool) (key : String) (ts : List Token) (stop : Nat) : Prop :=
  ∃ i < stop, ts[i]?.bind Token.key? = some key ∧ isValue allowed ts i = false

instance (allowed : String → Bool) (key : String) (ts : List Token) (stop : Nat) :
    Decidable (Uses allowed key ts stop) :=
  inferInstanceAs (Decidable (∃ i < stop, _))

variable {allowed : String → Bool} {key : String} {as ts : List Token} {t : Token}

/-! ### Where a piece begins -/

theorem getElem?_append_add (as ts : List Token) (i : Nat) :
    (as ++ ts)[as.length + i]? = ts[i]? := by
  rw [List.getElem?_append_right (Nat.le_add_right _ _), Nat.add_sub_cancel_left]

/-- Tokens may be looked at from any of them that is not a value. -/
theorem isValue_append (h : isValue allowed (as ++ ts) as.length = false) (i : Nat) :
    isValue allowed (as ++ ts) (as.length + i) = isValue allowed ts i := by
  induction i with
  | zero => exact h
  | succ i ih =>
    have hnext := getElem?_append_add as ts (i + 1)
    rw [← Nat.add_assoc] at hnext ⊢
    rw [isValue, isValue, ih, getElem?_append_add, hnext]

theorem uses_append (h : isValue allowed (as ++ ts) as.length = false) (n : Nat) :
    Uses allowed key (as ++ ts) (as.length + n)
      ↔ Uses allowed key (as ++ ts) as.length ∨ Uses allowed key ts n := by
  constructor
  · rintro ⟨i, hi, hkey, hvalue⟩
    by_cases hlt : i < as.length
    · exact .inl ⟨i, hlt, hkey, hvalue⟩
    · obtain ⟨j, rfl⟩ := Nat.exists_eq_add_of_le (Nat.le_of_not_lt hlt)
      rw [getElem?_append_add] at hkey
      rw [isValue_append h] at hvalue
      exact .inr ⟨j, Nat.lt_of_add_lt_add_left hi, hkey, hvalue⟩
  · rintro (⟨i, hi, hkey, hvalue⟩ | ⟨j, hj, hkey, hvalue⟩)
    · exact ⟨i, Nat.lt_add_right n hi, hkey, hvalue⟩
    · refine ⟨as.length + j, Nat.add_lt_add_left hj _, ?_, ?_⟩
      · rwa [getElem?_append_add]
      · rwa [isValue_append h]

theorem uses_one : Uses allowed key (t :: ts) 1 ↔ t.key? = some key := by
  constructor
  · rintro ⟨i, hi, hkey, -⟩
    obtain rfl : i = 0 := Nat.lt_one_iff.1 hi
    exact hkey
  · intro hkey
    exact ⟨0, Nat.one_pos, hkey, rfl⟩

/-! ### What a piece uses -/

/-- The tokens in front of others use these allowed keys, and what comes
behind them is not their value. -/
structure UsesKeys (allowed : String → Bool) (as ts : List Token) (keys : List String) :
    Prop where
  fresh : isValue allowed (as ++ ts) as.length = false
  uses_iff : ∀ key, allowed key = true → (Uses allowed key (as ++ ts) as.length ↔ key ∈ keys)

theorem awaitsValue_eq_false (h : ∀ key ∈ t.key?, allowed key = false) :
    awaitsValue allowed t = false := by
  unfold awaitsValue
  split
  · rename_i key argument hcut
    rw [h key (Token.key?_eq_some_iff.2 ⟨argument, hcut⟩), Bool.false_and]
  · rfl

/-- Tokens without allowed keys use none. -/
theorem usesKeys_of_not_allowed (hne : as ≠ [])
    (h : ∀ u ∈ as, ∀ key ∈ u.key?, allowed key = false) (ts : List Token) :
    UsesKeys allowed as ts [] := by
  have hget : ∀ i < as.length, ∃ u ∈ as, (as ++ ts)[i]? = some u := fun i hi =>
    ⟨as[i], List.getElem_mem hi, by rw [List.getElem?_append_left hi, List.getElem?_eq_getElem hi]⟩
  constructor
  · -- the last of them awaits no value
    obtain ⟨n, hn⟩ : ∃ n, as.length = n + 1 :=
      Nat.exists_eq_succ_of_ne_zero (Nat.ne_of_gt (List.length_pos_iff.2 hne))
    obtain ⟨u, hu, hlast⟩ := hget n (by omega)
    rw [hn, isValue, hlast, Option.any_some, awaitsValue_eq_false (h u hu), Bool.and_false,
      Bool.false_and]
  · intro key hallowed
    refine iff_of_false ?_ List.not_mem_nil
    rintro ⟨i, hi, hkey, -⟩
    obtain ⟨u, hu, hget⟩ := hget i hi
    rw [hget, Option.bind_some] at hkey
    rw [h u hu key hkey] at hallowed
    cases hallowed

theorem key?_eq_none_of_cutAtColon (h : Text.cutAtColon t.text = none) :
    ∀ key ∈ t.key?, allowed key = false := by
  rw [Token.key?_eq_none_iff.2 h]
  intro key hkey
  cases hkey

theorem usesKeys_single (h : ∀ key ∈ t.key?, allowed key = false) (ts : List Token) :
    UsesKeys allowed [t] ts [] :=
  usesKeys_of_not_allowed (List.cons_ne_nil _ _) (List.forall_mem_singleton.2 h) ts

/-- Parentheses and the operators between operands use no keys. -/
theorem usesKeys_of_separates
    (h : t.opens = true ∨ t.alternates = true ∨ t.closes = true ∨ t.joins = true)
    (ts : List Token) : UsesKeys allowed [t] ts [] := by
  refine usesKeys_single (fun key hkey => ?_) ts
  obtain ⟨-, hopen, halt, hclose, hjoin⟩ := Token.apart_of_key? hkey
  simp [hopen, halt, hclose, hjoin] at h

/-- A filter that takes no value from the tokens behind it uses its key. -/
theorem usesKeys_filter {argument : String}
    (hcut : Text.cutAtColon t.text = some (key, argument))
    (hfresh : isValue allowed (t :: ts) 1 = false) : UsesKeys allowed [t] ts [key] where
  fresh := hfresh
  uses_iff k _ := by
    rw [List.mem_singleton]
    refine uses_one.trans ?_
    rw [Token.key?_eq_some_iff.2 ⟨argument, hcut⟩, Option.some_inj, eq_comm]

/-- A filter and its value use the key of the filter, and no other key. -/
theorem usesKeys_valued {u : Token} {argument : String}
    (hcut : Text.cutAtColon t.text = some (key, argument))
    (hvalue : isValue allowed (t :: u :: ts) 1 = true) : UsesKeys allowed [t, u] ts [key] where
  fresh := by
    show isValue allowed (t :: u :: ts) 2 = false
    rw [isValue, hvalue, Bool.not_true, Bool.and_false]
  uses_iff k _ := by
    rw [List.mem_singleton]
    have hkey : t.key? = some key := Token.key?_eq_some_iff.2 ⟨argument, hcut⟩
    constructor
    · rintro ⟨i, hi, hk, hfresh⟩
      match i, hi with
      | 0, _ =>
        have hk : t.key? = some k := hk
        rw [hkey] at hk
        exact (Option.some_inj.1 hk).symm
      | 1, _ =>
        have hfresh : isValue allowed (t :: u :: ts) 1 = false := hfresh
        rw [hvalue] at hfresh
        cases hfresh
    · rintro rfl
      exact ⟨0, Nat.two_pos, hkey, rfl⟩

theorem usesKeys_of_isOperand {p : Piece} (h : p.IsOperand allowed ts) :
    UsesKeys allowed p.tokens ts (p.roles.filterMap Role.key?) := by
  cases h with
  | stray hop =>
    refine usesKeys_single (fun key hkey => ?_) ts
    rw [(Token.apart_of_key? hkey).1] at hop
    cases hop
  | @filter t key argument hcut hkey hne =>
    refine usesKeys_filter hcut ?_
    have hawait : awaitsValue allowed t = false := by simp [awaitsValue, hcut, hne]
    simp [isValue, hawait]
  | @bare t key argument hcut hkey hblank hhead =>
    refine usesKeys_filter hcut ?_
    -- what comes next is not quoted, and so no value
    cases ts with
    | nil => simp [isValue]
    | cons u ts => simp [isValue, hhead u rfl]
  | @valued t u key argument hcut hkey hblank hquoted =>
    refine usesKeys_valued hcut ?_
    simp [isValue, awaitsValue, hcut, hkey, hblank, hquoted]
  | @literal t key argument hcut hkey =>
    refine usesKeys_single (fun k hk => ?_) ts
    rw [Token.key?_eq_some_iff.2 ⟨argument, hcut⟩] at hk
    obtain rfl := Option.some_inj.1 hk
    exact hkey
  | phrase _ _ _ hcut => exact usesKeys_single (key?_eq_none_of_cutAtColon hcut) ts
  | @words t us hquoted hop hopen hcut hwords hhead =>
    have hkeys : (Piece.words t us).roles.filterMap Role.key? = [] := by
      rw [Piece.roles, List.filterMap_map]
      exact List.filterMap_eq_nil_iff.2 fun _ _ => rfl
    rw [hkeys]
    refine usesKeys_of_not_allowed (List.cons_ne_nil _ _) (List.forall_mem_cons.2 ⟨?_, ?_⟩) ts
    · exact key?_eq_none_of_cutAtColon hcut
    · exact fun u hu => (continuesRun_iff.1 (hwords u hu)).2.2.2.2

/-! ### What a query uses -/

/-- The first piece and those behind it. -/
theorem uses_iff_cons {p : Piece} {ps : List Piece} (hkey : allowed key = true)
    (hp : UsesKeys allowed p.tokens ts (p.roles.filterMap Role.key?))
    (hps : Uses allowed key ts (ps.flatMap Piece.roles).length
      ↔ key ∈ (ps.flatMap Piece.roles).filterMap Role.key?) :
    Uses allowed key (p.tokens ++ ts) ((p :: ps).flatMap Piece.roles).length
      ↔ key ∈ ((p :: ps).flatMap Piece.roles).filterMap Role.key? := by
  rw [List.flatMap_cons, List.length_append, p.length_roles, uses_append hp.fresh,
    hp.uses_iff key hkey, hps, List.filterMap_append, List.mem_append]

/-- The keys that pieces meet are those that their tokens use. -/
theorem Cut.uses_iff {n : Nat} {spot : Spot} {ps : List Piece} (h : Cut allowed n spot ts ps)
    (hkey : allowed key = true) :
    Uses allowed key ts (ps.flatMap Piece.roles).length
      ↔ key ∈ (ps.flatMap Piece.roles).filterMap Role.key? := by
  induction h with
  | done | stop =>
    refine iff_of_false ?_ List.not_mem_nil
    rintro ⟨i, hi, -⟩
    exact Nat.not_lt_zero i hi
  | operand hp _ ih => exact uses_iff_cons hkey (usesKeys_of_isOperand hp) ih
  | @opens n t ts ps hopen _ ih =>
    exact uses_iff_cons (p := .opens t) hkey (usesKeys_of_separates (.inl hopen) ts) ih
  | @alternates n t ts ps halt _ ih =>
    exact uses_iff_cons (p := .alternates t) hkey (usesKeys_of_separates (.inr (.inl halt)) ts) ih
  | @closes n t ts ps hclose _ ih =>
    exact uses_iff_cons (p := .closes t) hkey (usesKeys_of_separates (.inr (.inr (.inl hclose))) ts) ih
  | @joins n t ts ps hjoin _ ih =>
    exact uses_iff_cons (p := .joins t) hkey (usesKeys_of_separates (.inr (.inr (.inr hjoin))) ts) ih
  | beside _ _ _ _ ih => exact ih

/-- **The marks are exact**: where tokens are read as a query, an allowed key
has been marked if one of the tokens up to where reading stopped has it and is
not a value, and no other key is known. -/
theorem get?_markAll_used {keys : List String} {ts : List Token} {expr? : Option Expr}
    (h : (parse (KeyMarks.seeded keys).isAllowed ts).outcome = .ok expr?) (key : String) :
    ((KeyMarks.seeded keys).markAll (parse (KeyMarks.seeded keys).isAllowed ts).used).get? key
      = if key ∈ keys then
          some (decide (Uses (fun key => decide (key ∈ keys)) key ts
            (parse (KeyMarks.seeded keys).isAllowed ts).taken))
        else none := by
  rw [KeyMarks.isAllowed_seeded] at h ⊢
  rw [KeyMarks.get?_markAll_seeded]
  by_cases hkey : key ∈ keys
  · obtain ⟨ps, hcut, hroles, -⟩ := exists_cut_of_parse (Reading.eq_take_of_outcome h)
    have huses := hcut.uses_iff (decide_eq_true hkey)
    rw [hroles] at huses
    rw [if_pos hkey, if_pos hkey]
    exact congrArg some (decide_eq_decide.2 huses.symm)
  · rw [if_neg hkey, if_neg hkey]

/-- A key inside a value, one of a filter that is dropped, one that is not
allowed in a run of words, and one behind the end of the query. -/
theorem get?_markAll_used_chain :
    let ts := [.phrase "tag:", .phrase "e:", .phrase "a:", .word "b", .word "c:1", .word ")",
      .word "d:2"]
    let marks := KeyMarks.seeded ["tag", "e", "a", "d"]
    let found := marks.markAll (parse marks.isAllowed ts).used
    (parse marks.isAllowed ts).outcome
        = .ok (some (.and [.filter ⟨"tag", "e:"⟩, .value "b c:1"])) ∧
      found.get? "tag" = some true ∧ found.get? "e" = some false ∧
      found.get? "a" = some true ∧ found.get? "c" = none ∧ found.get? "d" = some false := by
  intro ts marks found
  have h : (parse marks.isAllowed ts).outcome
      = .ok (some (.and [.filter ⟨"tag", "e:"⟩, .value "b c:1"])) := by decide +kernel
  exact ⟨h, (get?_markAll_used h "tag").trans (by decide +kernel),
    (get?_markAll_used h "e").trans (by decide +kernel),
    (get?_markAll_used h "a").trans (by decide +kernel),
    (get?_markAll_used h "c").trans (by decide +kernel),
    (get?_markAll_used h "d").trans (by decide +kernel)⟩

end SearchQuery.Grammar
