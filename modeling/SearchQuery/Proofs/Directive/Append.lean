/-
SearchQuery/Proofs/Directive/Append.lean

Directives in two lists of tokens, one behind the other.

All that a list hands on is whether its last token waits for an ordering
(`waiting_foldl`), and a token that is not in quotes does not care.  So two
lists are sorted each on its own, unless the first ends with a directive that
waits and the second begins with a token in quotes (`extractSort_append`).  In
that case the directive takes this token, and what stands behind it is sorted on
its own (`extractSort_append_eq`).

A token that is kept tells the two sides of it apart.  It is neither a
directive nor the argument of one, so nothing is handed on by it or to it
(`Token.KeptBehind.extractSort_append`).
-/
import Mathlib.Data.List.Induction
import SearchQuery.Proofs.Directive.Kept

namespace SearchQuery

/-- Whether a token is a directive with a blank argument. -/
def Token.awaitsOrdering (t : Token) : Bool :=
  t.directive?.any fun argument => (Text.trimmed? argument).isNone

namespace Sorting

variable {s : Sorting} {t : Token} {ts : List Token}

/-! ### What is handed on -/

@[simp] theorem waiting_ask (s : Sorting) (argument : String) :
    (s.ask argument).waiting = false := by
  unfold ask
  split <;> rfl

@[simp] theorem sort_ask (s : Sorting) (argument : String) :
    (s.ask argument).sort.toList = s.sort.toList ++ (Text.trimmed? argument).toList := by
  unfold ask
  cases Text.trimmed? argument <;> simp

/-- Behind a token it is waited for an ordering if the token waits for one. -/
theorem waiting_step (s : Sorting) (t : Token) : (s.step t).waiting = t.awaitsOrdering := by
  unfold Token.awaitsOrdering
  obtain ⟨p, hgoes⟩ := s.exists_goes t
  generalize s.step t = s' at hgoes ⊢
  cases hgoes with
  | kept hdirective => rw [hdirective, Option.any_none]
  | directive hdirective => rw [hdirective, Option.any_some]
  | argument _ hquoted =>
    -- an argument is in quotes, and so it is no directive
    have hdirective : t.directive? = none := if_pos hquoted
    rw [waiting_ask, hdirective, Option.any_none]

/-- What a list hands on is told by its last token. -/
theorem waiting_foldl (ts : List Token) :
    (ts.foldl step {}).waiting = ts.getLast?.any Token.awaitsOrdering := by
  rcases List.eq_nil_or_concat ts with rfl | ⟨us, t, rfl⟩
  · rfl
  · rw [List.concat_eq_append, List.foldl_append, List.foldl_cons, List.foldl_nil, waiting_step,
      List.getLast?_concat, Option.any_some]

/-! ### One sorting behind another -/

/-- What two lists of tokens were sorted into. -/
def behind (s s' : Sorting) : Sorting where
  kept := s.kept ++ s'.kept
  sort := s.sort ++ s'.sort
  waiting := s'.waiting

theorem ask_behind (s s' : Sorting) (argument : String) :
    (s.behind s').ask argument = s.behind (s'.ask argument) := by
  unfold ask
  cases Text.trimmed? argument <;> simp [behind]

theorem step_behind (s s' : Sorting) (t : Token) :
    (s.behind s').step t = s.behind (s'.step t) := by
  simp only [step, ask_behind]
  show (if (s'.waiting && t.quoted) = true then _ else _) = _
  by_cases htaken : (s'.waiting && t.quoted) = true
  · rw [if_pos htaken, if_pos htaken]
  · rw [if_neg htaken, if_neg htaken]
    cases t.directive? with
    | none => simp [behind]
    | some argument => simp only [behind]

theorem foldl_behind (s s' : Sorting) (ts : List Token) :
    ts.foldl step (s.behind s') = s.behind (ts.foldl step s') := by
  induction ts generalizing s' with
  | nil => rfl
  | cons t ts ih => rw [List.foldl_cons, List.foldl_cons, step_behind, ih]

/-- A token that is not taken for an argument is gone past as the first one. -/
theorem step_eq_behind (h : s.waiting = true → t.quoted = false) :
    s.step t = s.behind (step {} t) := by
  have htaken : (s.waiting && t.quoted) = false := by
    cases hwait : s.waiting with
    | true => rw [h hwait, Bool.and_false]
    | false => rw [Bool.false_and]
  have hfirst : s.behind { waiting := false } = { s with waiting := false } := by simp [behind]
  have hstep : s.step t = step { s with waiting := false } t := by
    simp only [step, htaken, Bool.false_and, Bool.false_eq_true, if_false, ask]
  rw [hstep, ← hfirst, step_behind]

/-- What is kept and asked for behind a sorting. -/
theorem foldl_eq_behind (h : s.waiting = true → ∀ t ∈ ts.head?, t.quoted = false) :
    (ts.foldl step s).kept = (s.behind (ts.foldl step {})).kept ∧
      (ts.foldl step s).sort = (s.behind (ts.foldl step {})).sort := by
  cases ts with
  | nil => simp [behind]
  | cons t ts =>
    rw [List.foldl_cons, List.foldl_cons, step_eq_behind fun hwait => h hwait t rfl, foldl_behind]
    exact ⟨rfl, rfl⟩

end Sorting

variable {as bs : List Token}

/-- **Two lists of tokens are sorted each on its own**, unless a directive at
the end of the first takes its argument from the second. -/
theorem extractSort_append
    (h : ∀ t ∈ as.getLast?, t.awaitsOrdering = true → ∀ u ∈ bs.head?, u.quoted = false) :
    extractSort (as ++ bs)
      = ((extractSort as).1 ++ (extractSort bs).1, (extractSort as).2 ++ (extractSort bs).2) := by
  have hwait : (as.foldl Sorting.step {}).waiting = true → ∀ u ∈ bs.head?, u.quoted = false := by
    intro hwait
    rw [Sorting.waiting_foldl] at hwait
    obtain ⟨t, ht, hawaits⟩ := (Option.any_eq_true _ _).1 hwait
    exact h t ht hawaits
  obtain ⟨hkept, hsort⟩ := Sorting.foldl_eq_behind hwait
  simp only [extractSort, List.foldl_append, hkept, hsort, Sorting.behind, Array.toList_append]

/-- Whether a directive at the end of some tokens takes its argument from others
behind them. -/
def handsOver (as bs : List Token) : Bool :=
  as.getLast?.any Token.awaitsOrdering && bs.head?.any Token.quoted

/-- A quoted token behind a directive that waits is its argument, and those
behind this token are sorted on their own. -/
theorem extractSort_append_cons {u : Token} {us : List Token}
    (hwaits : as.getLast?.any Token.awaitsOrdering = true) (hquoted : u.quoted = true) :
    extractSort (as ++ u :: us)
      = ((extractSort as).1 ++ (extractSort us).1,
          (extractSort as).2 ++ ((Text.trimmed? u.text).toList ++ (extractSort us).2)) := by
  have hstep : (as.foldl Sorting.step {}).step u = (as.foldl Sorting.step {}).ask u.text := by
    rw [← Sorting.waiting_foldl] at hwaits
    have htaken : ((as.foldl Sorting.step {}).waiting && u.quoted) = true := by
      rw [hwaits, hquoted, Bool.and_true]
    rw [Sorting.step, if_pos htaken]
  have hfree : ((as.foldl Sorting.step {}).ask u.text).waiting = true →
      ∀ v ∈ us.head?, v.quoted = false := by
    rw [Sorting.waiting_ask]
    intro hwait
    cases hwait
  obtain ⟨hkept, hsort⟩ := Sorting.foldl_eq_behind hfree
  simp only [extractSort, List.foldl_append, List.foldl_cons, hstep, hkept, hsort, Sorting.behind,
    Array.toList_append, Sorting.kept_ask, Sorting.sort_ask, List.append_assoc]

/-- **What comes of two lists of tokens, one behind the other**: what comes of
each on its own.  Only if a directive at the end of the first takes the first
token of the second for its argument, the trimmed text of this token stands
among the orderings, unless it is blank, and the second list is sorted without
it. -/
theorem extractSort_append_eq (as bs : List Token) :
    extractSort (as ++ bs)
      = if handsOver as bs then
          ((extractSort as).1 ++ (extractSort bs.tail).1,
            (extractSort as).2 ++
              ((bs.head?.bind fun u => Text.trimmed? u.text).toList ++ (extractSort bs.tail).2))
        else
          ((extractSort as).1 ++ (extractSort bs).1, (extractSort as).2 ++ (extractSort bs).2) := by
  by_cases hover : handsOver as bs = true
  · obtain ⟨hwaits, hquoted⟩ := Bool.and_eq_true_iff.1 hover
    rw [if_pos hover]
    cases bs with
    | nil => cases hquoted
    | cons u us =>
      rw [List.head?_cons, List.tail_cons, Option.bind_some]
      exact extractSort_append_cons hwaits hquoted
  · rw [if_neg hover]
    apply extractSort_append
    intro t ht hwaits u hu
    refine Bool.eq_false_iff.2 fun hquoted => hover ?_
    exact Bool.and_eq_true_iff.2 ⟨(Option.any_eq_true _ _).2 ⟨t, ht, hwaits⟩,
      (Option.any_eq_true _ _).2 ⟨u, hu, hquoted⟩⟩

/-- Tokens outside quotes that are no directives are kept behind any others. -/
theorem extractSort_append_kept (hquoted : ∀ t ∈ bs, t.quoted = false)
    (hdirective : ∀ t ∈ bs, t.directive? = none) :
    extractSort (as ++ bs) = ((extractSort as).1 ++ bs, (extractSort as).2) := by
  have hhead : ∀ u ∈ bs.head?, u.quoted = false := fun u hu =>
    hquoted u (List.mem_of_mem_head? hu)
  rw [extractSort_append fun _ _ _ => hhead, extractSort_eq_self hdirective, List.append_nil]

/-! ### The two sides of a token that is kept -/

/-- A token is kept behind some others: it is no directive, and none of them
takes it for an argument. -/
structure Token.KeptBehind (before : List Token) (t : Token) : Prop where
  directive : t.directive? = none
  free : before.getLast?.any Token.awaitsOrdering = true → t.quoted = false

/-- A token that is no directive is kept in front of any others. -/
theorem extractSort_cons_kept {t : Token} (h : t.directive? = none) (ts : List Token) :
    extractSort (t :: ts) = (t :: (extractSort ts).1, (extractSort ts).2) := by
  have hone : extractSort [t] = ([t], []) :=
    extractSort_eq_self (List.forall_mem_singleton.2 h)
  rw [← List.singleton_append, extractSort_append, hone]
  · rfl
  · intro u hu hawaits
    obtain rfl : t = u := Option.some.inj hu
    rw [Token.awaitsOrdering, h] at hawaits
    cases hawaits

/-- What stands on the two sides of a token that is kept is sorted each on its
own. -/
theorem Token.KeptBehind.extractSort_append {before : List Token} {t : Token}
    (h : t.KeptBehind before) (after : List Token) :
    extractSort (before ++ t :: after)
      = ((extractSort before).1 ++ t :: (extractSort after).1,
          (extractSort before).2 ++ (extractSort after).2) := by
  rw [SearchQuery.extractSort_append, extractSort_cons_kept h.directive]
  intro u hu hawaits v hv
  obtain rfl : t = v := Option.some.inj hv
  exact h.free ((Option.any_eq_true _ _).2 ⟨u, hu, hawaits⟩)

/-- Where a token that is kept stands in the list. -/
theorem exists_keptBehind {ts : List Token} {n : Nat} {t : Token}
    (h : (extractSort ts).1[n]? = some t) :
    ∃ before after, ts = before ++ t :: after ∧ (extractSort before).1.length = n ∧
      t.KeptBehind before := by
  induction ts using List.reverseRecOn with
  | nil => cases h
  | append_singleton us u ih =>
    have hstep : (extractSort (us ++ [u])).1 = ((us.foldl Sorting.step {}).step u).kept.toList := by
      simp only [extractSort, List.foldl_append, List.foldl_cons, List.foldl_nil]
    have hus : (us.foldl Sorting.step {}).kept.toList = (extractSort us).1 := rfl
    rw [hstep] at h
    rcases Sorting.kept_step (us.foldl Sorting.step {}) u with hkept | ⟨hkept, hdirective, hfree⟩
    · rw [hkept, hus] at h
      obtain ⟨before, after, rfl, hlen, hbehind⟩ := ih h
      exact ⟨before, after ++ [u], by rw [List.append_assoc, List.cons_append], hlen, hbehind⟩
    rw [hkept, Array.toList_push, hus] at h
    by_cases hn : n < (extractSort us).1.length
    · rw [List.getElem?_append_left hn] at h
      obtain ⟨before, after, rfl, hlen, hbehind⟩ := ih h
      exact ⟨before, after ++ [u], by rw [List.append_assoc, List.cons_append], hlen, hbehind⟩
    · -- it is the last of the tokens that are kept, and of all tokens
      obtain ⟨hlast, rfl⟩ : n = (extractSort us).1.length ∧ u = t := by
        have hlt := (List.getElem?_eq_some_iff.1 h).1
        rw [List.length_append, List.length_singleton] at hlt
        obtain rfl : n = (extractSort us).1.length := by omega
        rw [List.getElem?_concat_length] at h
        exact ⟨rfl, Option.some.inj h⟩
      rw [Sorting.waiting_foldl] at hfree
      exact ⟨us, [], rfl, hlast.symm, hdirective, hfree⟩

/-- An empty phrase at the end is kept, or taken for no ordering. -/
theorem extractSort_append_empty (as : List Token) :
    extractSort (as ++ [.phrase ""]) = extractSort as ∨
      extractSort (as ++ [.phrase ""])
        = ((extractSort as).1 ++ [.phrase ""], (extractSort as).2) := by
  simp only [extractSort, List.foldl_append, List.foldl_cons, List.foldl_nil]
  cases hwait : (as.foldl Sorting.step {}).waiting with
  | true =>
    left
    have hblank : Text.trimmed? "" = none := rfl
    have hstep : (as.foldl Sorting.step {}).step (.phrase "") = (as.foldl Sorting.step {}).ask "" := by
      rw [Sorting.step, hwait]
      exact if_pos rfl
    simp only [hstep, Sorting.ask, hblank]
  | false =>
    right
    rw [Sorting.step_of_directive?_eq_none (Token.directive?_phrase "") hwait]
    simp only [Array.toList_push]

end SearchQuery
