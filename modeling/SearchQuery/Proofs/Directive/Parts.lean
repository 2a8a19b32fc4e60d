/-
SearchQuery/Proofs/Directive/Parts.lean

The part that each token plays when the directives are taken out.

A token is kept, or it is a directive, or it is the argument of one.  Which of
these it is can be seen from the token and the one before it (`Token.part`):
an argument is in quotes and a directive is not, so no argument begins where
another could end.

Main statement: each token plays one part, and what is kept and what is asked
for is told by the parts (`existsUnique_parted`).  The proof goes past the
tokens one by one, and each goes the way of its part
(`Sorting.Goes.part_eq`).
-/
import Mathlib.Data.List.Infix
import SearchQuery.Proofs.Directive.Append
import SearchQuery.Proofs.Text.Trim

namespace SearchQuery

/-! ### Directives -/

namespace Token

variable {t : Token} {argument : String}

/-- A directive stands outside quotes and has `sort` before its first colon. -/
theorem directive?_eq_some_iff :
    t.directive? = some argument ↔ t.quoted = false ∧
      ∃ key, Text.cutAtColon t.text = some (key, argument) ∧ Text.caseless key "sort" = true := by
  unfold directive?
  cases t.quoted with
  | true => simp
  | false =>
    rcases Text.cutAtColon t.text with - | ⟨key, rest⟩
    · simp
    · simp [and_comm]

theorem quoted_of_directive? (h : t.directive? = some argument) : t.quoted = false :=
  (directive?_eq_some_iff.1 h).1

end Token

/-! ### Parts -/

/-- The part of a token behind another. -/
def Token.part (before : Option Token) (t : Token) : Part :=
  if t.directive?.isSome then .directive
  else if before.any Token.awaitsOrdering && t.quoted then .argument
  else .kept

/-- The parts of some tokens behind another. -/
def parts (before : Option Token) (ts : List Token) : List Part :=
  List.zipWith Token.part (before :: ts.map some) ts

/-- The tokens that are kept. -/
def keptOf (ts : List Token) (ps : List Part) : List Token :=
  ((ts.zip ps).filter fun p => p.2 = .kept).map Prod.fst

/-- The ordering that a directive without an argument takes from the tokens
behind it. -/
def handed? (ts : List Token) : Option String :=
  (ts.head?.filter Token.quoted).bind fun t => Text.trimmed? t.text

/-- The ordering that the first of some tokens asks for, if it is a directive:
its argument, or the one behind it if its own is blank. -/
def ordering? : List Token → Option String
  | [] => none
  | t :: ts => t.directive?.bind fun argument => (Text.trimmed? argument).or (handed? ts)

variable {s : Sorting} {t : Token} {ts : List Token} {before : Option Token}

@[simp] theorem parts_nil (before : Option Token) : parts before [] = [] := rfl

@[simp] theorem parts_cons (before : Option Token) (t : Token) (ts : List Token) :
    parts before (t :: ts) = t.part before :: parts (some t) ts := rfl

@[simp] theorem keptOf_nil (ps : List Part) : keptOf [] ps = [] := rfl

theorem keptOf_cons (t : Token) (ts : List Token) (p : Part) (ps : List Part) :
    keptOf (t :: ts) (p :: ps) = if p = .kept then t :: keptOf ts ps else keptOf ts ps := by
  unfold keptOf
  by_cases h : p = .kept <;> simp [h]

theorem handed?_cons (t : Token) (ts : List Token) :
    handed? (t :: ts) = if t.quoted then Text.trimmed? t.text else none := by
  rw [handed?, List.head?_cons]
  cases hquoted : t.quoted <;> simp [Option.filter, hquoted]

/-! ### One step -/

namespace Sorting

variable {p : Part} {s' : Sorting}

/-- A token goes the way of its part. -/
theorem Goes.part_eq (h : Goes s t p s')
    (hwait : s.waiting = before.any Token.awaitsOrdering) : t.part before = p := by
  unfold Token.part
  rw [← hwait]
  cases h with
  | kept hdirective hfree =>
    have htaken : ¬ (s.waiting && t.quoted) = true := fun htaken => by
      obtain ⟨hwaiting, hquoted⟩ := Bool.and_eq_true_iff.1 htaken
      exact Bool.false_ne_true ((hfree hwaiting).symm.trans hquoted)
    rw [hdirective, if_neg htaken]
    rfl
  | directive hdirective =>
    rw [hdirective]
    rfl
  | argument hwaiting hquoted =>
    -- a directive is not in quotes, so no argument is one itself
    have hdirective : t.directive? = none := if_pos hquoted
    rw [hdirective, hwaiting, hquoted]
    rfl

/-- The ordering that is still waited for, given the tokens behind. -/
def pending? (s : Sorting) (ts : List Token) : Option String :=
  if s.waiting then handed? ts else none

theorem Goes.kept_eq (h : Goes s t p s') :
    s'.kept.toList = s.kept.toList ++ if p = .kept then [t] else [] := by
  cases h <;> simp

/-- What a token is asked for is asked for at once, or still waited for. -/
theorem Goes.sort_eq (h : Goes s t p s') (ts : List Token) :
    s'.sort.toList ++ (s'.pending? ts).toList
      = s.sort.toList ++ ((s.pending? (t :: ts)).toList ++ (ordering? (t :: ts)).toList) := by
  cases h with
  | kept hdirective hfree =>
    have hpending : s.pending? (t :: ts) = none := by
      unfold pending?
      cases hwaiting : s.waiting with
      | false => rfl
      | true => simp [handed?_cons, hfree hwaiting]
    rw [hpending]
    simp [ordering?, hdirective, pending?]
  | @directive argument hdirective =>
    have hquoted : t.quoted = false := Token.quoted_of_directive? hdirective
    rw [sort_ask]
    cases htrimmed : Text.trimmed? argument <;>
      simp [pending?, handed?_cons, ordering?, hdirective, hquoted, htrimmed]
  | argument hwaiting hquoted =>
    have hdirective : t.directive? = none := if_pos hquoted
    rw [sort_ask]
    simp [pending?, handed?_cons, ordering?, hdirective, hquoted, hwaiting]

/-! ### All of them -/

theorem kept_foldl (hwait : s.waiting = before.any Token.awaitsOrdering) (ts : List Token) :
    (ts.foldl step s).kept.toList = s.kept.toList ++ keptOf ts (parts before ts) := by
  induction ts generalizing s before with
  | nil => simp
  | cons t ts ih =>
    obtain ⟨p, hgoes⟩ := s.exists_goes t
    have hnext : (s.step t).waiting = (some t).any Token.awaitsOrdering := waiting_step s t
    rw [List.foldl_cons, ih hnext, hgoes.kept_eq, parts_cons, hgoes.part_eq hwait, keptOf_cons]
    split <;> simp

theorem sort_foldl (s : Sorting) (ts : List Token) :
    (ts.foldl step s).sort.toList
      = s.sort.toList ++ ((s.pending? ts).toList ++ ts.tails.filterMap ordering?) := by
  induction ts generalizing s with
  | nil => simp [pending?, handed?, ordering?]
  | cons t ts ih =>
    obtain ⟨p, hgoes⟩ := s.exists_goes t
    rw [List.foldl_cons, ih, ← List.append_assoc, hgoes.sort_eq, List.tails_cons,
      List.filterMap_cons]
    cases ordering? (t :: ts) <;> simp

end Sorting

/-! ### The parts of all tokens -/

/-- Tokens in some parts, what is kept of them and what they ask for. -/
structure Parted (ts : List Token) (ps : List Part) (kept : List Token) (sort : List String) :
    Prop where
  length : ps.length = ts.length
  /-- All tokens outside quotes that have `sort` before their first colon are
  directives, and no others. -/
  directive_iff : ∀ i : Nat, ps[i]? = some .directive ↔ ∃ t, ts[i]? = some t ∧ t.quoted = false ∧
    ∃ key ∈ t.key?, Text.caseless key "sort" = true
  /-- A quoted token right behind a directive with a blank argument is its
  argument, and no other token is. -/
  argument_iff : ∀ i : Nat, ps[i]? = some .argument ↔ ∃ t, ts[i]? = some t ∧ t.quoted = true ∧
    ∃ j u, i = j + 1 ∧ ts[j]? = some u ∧ u.awaitsOrdering = true
  kept_eq : kept = keptOf ts ps
  directive_of_mem : ∀ t ∈ kept, t.directive? = none
  sort_eq : sort = ts.tails.filterMap ordering?
  trimmed_of_mem : ∀ ordering ∈ sort, Text.IsTrimmed ordering ∧ ordering ≠ ""
  /-- There is nothing to take out a second time. -/
  again : extractSort kept = (kept, [])

theorem getElem?_parts_eq_some_iff {i : Nat} {p : Part} :
    (parts before ts)[i]? = some p ↔
      ∃ b t, (before :: ts.map some)[i]? = some b ∧ ts[i]? = some t ∧ t.part b = p :=
  List.getElem?_zipWith_eq_some

/-- Every token stands behind something, if only behind the beginning. -/
theorem exists_before {i : Nat} (h : ts[i]? = some t) (before : Option Token) :
    ∃ b, (before :: ts.map some)[i]? = some b := by
  have hlt : i < (before :: ts.map some).length := by
    have := (List.getElem?_eq_some_iff.1 h).1
    simp only [List.length_cons, List.length_map]
    omega
  exact ⟨_, List.getElem?_eq_getElem hlt⟩

theorem Token.part_eq_directive_iff :
    t.part before = .directive ↔ t.quoted = false ∧
      ∃ key ∈ t.key?, Text.caseless key "sort" = true := by
  have hpart : t.part before = .directive ↔ t.directive?.isSome = true := by
    unfold part
    split
    · simp_all
    · split <;> simp_all
  rw [hpart, Option.isSome_iff_exists]
  simp only [directive?_eq_some_iff, key?, Option.mem_def, Option.map_eq_some_iff]
  constructor
  · rintro ⟨argument, hquoted, key, hcut, hkey⟩
    exact ⟨hquoted, key, ⟨_, hcut, rfl⟩, hkey⟩
  · rintro ⟨hquoted, _, ⟨⟨key, argument⟩, hcut, rfl⟩, hkey⟩
    exact ⟨argument, hquoted, key, hcut, hkey⟩

theorem Token.part_eq_argument_iff :
    t.part before = .argument ↔ t.quoted = true ∧ before.any Token.awaitsOrdering = true := by
  unfold part
  cases hquoted : t.quoted with
  | true =>
    have hdirective : t.directive? = none := if_pos hquoted
    simp [hdirective]
  | false => cases t.directive? <;> simp

theorem getElem?_parts_eq_directive_iff {i : Nat} :
    (parts before ts)[i]? = some .directive ↔ ∃ t, ts[i]? = some t ∧ t.quoted = false ∧
      ∃ key ∈ t.key?, Text.caseless key "sort" = true := by
  simp only [getElem?_parts_eq_some_iff, Token.part_eq_directive_iff]
  constructor
  · rintro ⟨_, t, -, ht, hpart⟩
    exact ⟨t, ht, hpart⟩
  · rintro ⟨t, ht, hpart⟩
    obtain ⟨b, hb⟩ := exists_before ht before
    exact ⟨b, t, hb, ht, hpart⟩

theorem getElem?_parts_eq_argument_iff {i : Nat} :
    (parts none ts)[i]? = some .argument ↔ ∃ t, ts[i]? = some t ∧ t.quoted = true ∧
      ∃ j u, i = j + 1 ∧ ts[j]? = some u ∧ u.awaitsOrdering = true := by
  simp only [getElem?_parts_eq_some_iff, Token.part_eq_argument_iff]
  constructor
  · rintro ⟨b, t, hb, ht, hquoted, hwaits⟩
    refine ⟨t, ht, hquoted, ?_⟩
    cases i with
    | zero =>
      -- nothing is waited for in front of the first token
      obtain rfl : none = b := Option.some.inj hb
      cases hwaits
    | succ j =>
      rw [List.getElem?_cons_succ, List.getElem?_map] at hb
      obtain ⟨u, hu, rfl⟩ := Option.map_eq_some_iff.1 hb
      exact ⟨j, u, rfl, hu, hwaits⟩
  · rintro ⟨t, ht, hquoted, j, u, rfl, hu, hwaits⟩
    exact ⟨some u, t, by simp [hu], ht, hquoted, hwaits⟩

/-- No ordering is blank, nor has it blanks around it. -/
theorem isTrimmed_of_ordering? {ordering : String} (h : ordering? ts = some ordering) :
    Text.IsTrimmed ordering ∧ ordering ≠ "" := by
  cases ts with
  | nil => cases h
  | cons t ts =>
    obtain ⟨argument, -, h⟩ := Option.bind_eq_some_iff.1 h
    obtain ⟨s, hs⟩ : ∃ s, Text.trimmed? s = some ordering := by
      rcases Option.or_eq_some_iff.1 h with h | ⟨-, h⟩
      · exact ⟨argument, h⟩
      · obtain ⟨u, -, hu⟩ := Option.bind_eq_some_iff.1 h
        exact ⟨u.text, hu⟩
    obtain ⟨htrimmed, hne, -⟩ := Text.isTrimmed_of_trimmed? hs
    exact ⟨htrimmed, hne⟩

/-- Tokens play no other parts than those they play. -/
theorem Parted.unique {ps qs : List Part} {kept kept' : List Token} {sort sort' : List String}
    (h : Parted ts ps kept sort) (h' : Parted ts qs kept' sort') : ps = qs := by
  apply List.ext_getElem?
  intro i
  have hdirective := (h.directive_iff i).trans (h'.directive_iff i).symm
  have hargument := (h.argument_iff i).trans (h'.argument_iff i).symm
  have hnone : ps[i]? = none ↔ qs[i]? = none := by
    rw [List.getElem?_eq_none_iff, List.getElem?_eq_none_iff, h.length, h'.length]
  generalize ps[i]? = p, qs[i]? = q at hdirective hargument hnone ⊢
  rcases p with - | (_ | _ | _) <;> rcases q with - | (_ | _ | _) <;> simp_all

/-- **Each token plays one part when the directives are taken out**: those that
are kept stay as they are and in order, and each of the others is a directive
or the argument of one and is asked for in its place. -/
theorem existsUnique_parted (ts : List Token) :
    ∃! ps, Parted ts ps (extractSort ts).1 (extractSort ts).2 := by
  have hwait : ({} : Sorting).waiting = (none : Option Token).any Token.awaitsOrdering := rfl
  have hkept : ∀ t ∈ (extractSort ts).1, t.directive? = none := fun t ht =>
    (mem_extractSort ht).2
  have hsort : (extractSort ts).2 = ts.tails.filterMap ordering? := Sorting.sort_foldl {} ts
  have hparted : Parted ts (parts none ts) (extractSort ts).1 (extractSort ts).2 := {
    length := by simp [parts]
    directive_iff := fun _ => getElem?_parts_eq_directive_iff
    argument_iff := fun _ => getElem?_parts_eq_argument_iff
    kept_eq := Sorting.kept_foldl hwait ts
    directive_of_mem := hkept
    sort_eq := hsort
    trimmed_of_mem := by
      intro ordering hordering
      rw [hsort] at hordering
      obtain ⟨us, -, hus⟩ := List.mem_filterMap.1 hordering
      exact isTrimmed_of_ordering? hus
    again := extractSort_eq_self hkept }
  exact ⟨parts none ts, hparted, fun ps h => h.unique hparted⟩

end SearchQuery
