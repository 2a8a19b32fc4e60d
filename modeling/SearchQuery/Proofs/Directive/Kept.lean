/-
SearchQuery/Proofs/Directive/Kept.lean

The tokens that are kept when the directives are taken out.

A token goes one of three ways (`Sorting.Goes`), and what is proved of a step
is read off from these.

The tokens that are kept are tokens of the list, in its order
(`sublist_extractSort`), and none of them is a directive (`mem_extractSort`).
So there is nothing to take out a second time, nor from any other list without
directives (`extractSort_eq_self`).
-/
import SearchQuery.Directive

namespace SearchQuery

/-! ### Tokens that are no directives -/

theorem Token.directive?_phrase (text : String) : (Token.phrase text).directive? = none :=
  if_pos rfl

theorem Token.directive?_word {text : String}
    (h : ∀ key ∈ (Token.word text).key?, Text.caseless key "sort" = false) :
    (Token.word text).directive? = none := by
  have hquoted : (Token.word text).quoted = false := rfl
  rw [directive?, hquoted, if_neg Bool.false_ne_true]
  rcases hcut : Text.cutAtColon (Token.word text).text with - | ⟨key, argument⟩
  · rfl
  · have hkey := h key (by simp [key?, hcut])
    simp [hkey]

/-! ### One step -/

/-- What becomes of a token when the directives are taken out. -/
inductive Part where
  /-- It is kept. -/
  | kept
  /-- It is a directive. -/
  | directive
  /-- It is the argument of the directive before it. -/
  | argument
  deriving DecidableEq

namespace Sorting

/-- What comes of a token in some part. -/
inductive Goes (s : Sorting) (t : Token) : Part → Sorting → Prop
  | kept : t.directive? = none → (s.waiting = true → t.quoted = false) →
      Goes s t .kept { s with kept := s.kept.push t, waiting := false }
  | directive {argument} : t.directive? = some argument →
      Goes s t .directive
        { s.ask argument with waiting := (Text.trimmed? argument).isNone }
  | argument : s.waiting = true → t.quoted = true → Goes s t .argument (s.ask t.text)

variable {s : Sorting} {t : Token}

@[simp] theorem kept_ask (s : Sorting) (argument : String) : (s.ask argument).kept = s.kept := by
  unfold ask
  split <;> rfl

/-- A token that is no directive is kept, unless it is an argument. -/
theorem step_of_directive?_eq_none (ht : t.directive? = none) (hwait : s.waiting = false) :
    s.step t = { s with kept := s.kept.push t } := by
  rw [step, hwait, ht, Bool.false_and, if_neg Bool.false_ne_true]

/-- There is no other way for a token to go. -/
theorem exists_goes (s : Sorting) (t : Token) : ∃ p, Goes s t p (s.step t) := by
  unfold step
  by_cases htaken : (s.waiting && t.quoted) = true
  · obtain ⟨hwait, hquoted⟩ := Bool.and_eq_true_iff.1 htaken
    rw [if_pos htaken]
    exact ⟨.argument, .argument hwait hquoted⟩
  · rw [if_neg htaken]
    cases hdirective : t.directive? with
    | none =>
      refine ⟨.kept, .kept hdirective fun hwait => ?_⟩
      simpa [hwait] using htaken
    | some argument => exact ⟨.directive, .directive hdirective⟩

/-- A step keeps its token or nothing, and only what is neither an argument nor
a directive. -/
theorem kept_step (s : Sorting) (t : Token) :
    (s.step t).kept = s.kept ∨
      (s.step t).kept = s.kept.push t ∧ t.directive? = none ∧
        (s.waiting = true → t.quoted = false) := by
  obtain ⟨p, hgoes⟩ := s.exists_goes t
  generalize s.step t = s' at hgoes ⊢
  cases hgoes with
  | kept hdirective hfree => exact .inr ⟨rfl, hdirective, hfree⟩
  | @directive argument => exact .inl (kept_ask s argument)
  | argument => exact .inl (kept_ask s t.text)

end Sorting

/-! ### All of them -/

theorem mem_kept_foldl {ts : List Token} {s : Sorting} {u : Token}
    (h : u ∈ (ts.foldl Sorting.step s).kept) :
    u ∈ s.kept ∨ u ∈ ts ∧ u.directive? = none := by
  induction ts generalizing s with
  | nil => exact .inl h
  | cons t ts ih =>
    rcases ih h with h | ⟨hmem, hdirective⟩
    · rcases Sorting.kept_step s t with hkept | ⟨hkept, hdirective, -⟩
      · rw [hkept] at h
        exact .inl h
      · rw [hkept] at h
        rcases Array.mem_push.1 h with h | rfl
        · exact .inl h
        · exact .inr ⟨List.mem_cons_self, hdirective⟩
    · exact .inr ⟨List.mem_cons_of_mem _ hmem, hdirective⟩

/-- A token that is kept is a token of the list and no directive. -/
theorem mem_extractSort {ts : List Token} {t : Token} (h : t ∈ (extractSort ts).1) :
    t ∈ ts ∧ t.directive? = none := by
  rcases mem_kept_foldl (Array.mem_toList_iff.1 h) with h | h
  · simp at h
  · exact h

theorem exists_sublist_foldl (ts : List Token) (s : Sorting) :
    ∃ us : List Token, us.Sublist ts ∧ (ts.foldl Sorting.step s).kept = s.kept ++ us.toArray := by
  induction ts generalizing s with
  | nil => exact ⟨[], .slnil, by simp⟩
  | cons t ts ih =>
    obtain ⟨us, hsub, hkept⟩ := ih (s.step t)
    rw [List.foldl_cons, hkept]
    rcases Sorting.kept_step s t with h | ⟨h, -⟩
    · exact ⟨us, hsub.cons t, by rw [h]⟩
    · exact ⟨t :: us, hsub.cons_cons t, by simp [h]⟩

/-- The tokens that are kept stay in order. -/
theorem sublist_extractSort (ts : List Token) : (extractSort ts).1.Sublist ts := by
  obtain ⟨us, hsub, hkept⟩ := exists_sublist_foldl ts {}
  rw [extractSort, hkept]
  simpa using hsub

theorem foldl_step_eq {ts : List Token} (h : ∀ t ∈ ts, t.directive? = none) {s : Sorting}
    (hwait : s.waiting = false) :
    ts.foldl Sorting.step s = { s with kept := s.kept ++ ts.toArray } := by
  induction ts generalizing s with
  | nil => simp
  | cons t ts ih =>
    obtain ⟨ht, hts⟩ := List.forall_mem_cons.1 h
    rw [List.foldl_cons, Sorting.step_of_directive?_eq_none ht hwait,
      @ih hts { s with kept := s.kept.push t } hwait]
    simp

/-- Tokens among which there is no directive are all kept, and no ordering
is asked for. -/
theorem extractSort_eq_self {ts : List Token} (h : ∀ t ∈ ts, t.directive? = none) :
    extractSort ts = (ts, []) := by
  rw [extractSort, foldl_step_eq h rfl]
  simp

end SearchQuery
