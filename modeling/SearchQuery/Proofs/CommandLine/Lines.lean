/-
SearchQuery/Proofs/CommandLine/Lines.lean

The lines of an input.

`Lines input ls` says what the lines are without saying how they are found:
a line goes up to its line feed, and what stands behind the last line feed is
a line as well, unless nothing stands there.  There is one such list for every
input (`lines_iff`).  An input may be cut behind any line feed, and the lines
of the two parts are those of the whole (`Lines.append`).
-/
import SearchQuery.CommandLine.Prompt

namespace SearchQuery.CommandLine

/-- The lines that an input is made of. -/
inductive Lines : List UInt8 → List Line → Prop
  | nil : Lines [] []
  | last {line} : line ≠ [] → 0x0A ∉ line → Lines line [line]
  | ended {body rest ls} : 0x0A ∉ body → Lines rest ls →
      Lines (body ++ 0x0A :: rest) ((body ++ [0x0A]) :: ls)

/-- Whether the last line of an input has its line feed. -/
def Ended (input : List UInt8) : Prop :=
  ∀ b ∈ input.getLast?, b = 0x0A

theorem not_ended {line : List UInt8} (hne : line ≠ []) (h : 0x0A ∉ line) : ¬ Ended line := by
  intro hended
  refine h ?_
  rw [← hended _ (List.getLast?_eq_some_getLast hne)]
  exact List.getLast_mem hne

/-! ### One list for every input -/

theorem lines_last {line : List UInt8} (hne : line ≠ []) (h : 0x0A ∉ line) :
    lines line = [line] := by
  induction line with
  | nil => exact absurd rfl hne
  | cons b bs ih =>
    obtain ⟨hb, hbs⟩ := not_or.1 (mt List.mem_cons.2 h)
    rw [lines, if_neg (Ne.symm hb)]
    cases bs with
    | nil => rfl
    | cons c cs => rw [ih (List.cons_ne_nil c cs) hbs]

theorem lines_ended {body : List UInt8} (h : 0x0A ∉ body) (rest : List UInt8) :
    lines (body ++ 0x0A :: rest) = (body ++ [0x0A]) :: lines rest := by
  induction body with
  | nil => rw [List.nil_append, lines, if_pos rfl, List.nil_append]
  | cons b bs ih =>
    obtain ⟨hb, hbs⟩ := not_or.1 (mt List.mem_cons.2 h)
    rw [List.cons_append, lines, if_neg (Ne.symm hb), ih hbs]
    rfl

theorem Lines.eq_lines {input : List UInt8} {ls : List Line} (h : Lines input ls) :
    ls = lines input := by
  induction h with
  | nil => rfl
  | last hne h => rw [lines_last hne h]
  | ended h _ ih => rw [lines_ended h, ih]

theorem lines_spec (input : List UInt8) : Lines input (lines input) := by
  induction input with
  | nil => exact .nil
  | cons b bs ih =>
    rw [lines]
    by_cases hb : b = 0x0A
    · rw [if_pos hb, hb]
      exact .ended List.not_mem_nil ih
    · -- the byte comes in front of the first line, if there is one
      rw [if_neg hb]
      generalize lines bs = ls at ih
      have hcons : ∀ line : List UInt8, 0x0A ∉ line → 0x0A ∉ b :: line := fun line h =>
        mt List.mem_cons.1 (not_or.2 ⟨Ne.symm hb, h⟩)
      cases ih with
      | nil => exact .last (List.cons_ne_nil b []) (hcons [] List.not_mem_nil)
      | last hne h => exact .last (List.cons_ne_nil b _) (hcons _ h)
      | ended h hrest => exact .ended (hcons _ h) hrest

/-- **The lines of an input are what they ought to be**, and there are no
others. -/
theorem lines_iff {input : List UInt8} {ls : List Line} : Lines input ls ↔ ls = lines input := by
  constructor
  · exact Lines.eq_lines
  · rintro rfl
    exact lines_spec input

/-! ### Inputs in two parts -/

theorem Lines.append {before input : List UInt8} {ls ls' : List Line} (h : Lines before ls)
    (hended : Ended before) (h' : Lines input ls') : Lines (before ++ input) (ls ++ ls') := by
  induction h with
  | nil => exact h'
  | last hne h => exact absurd hended (not_ended hne h)
  | @ended body rest ls hbody _ ih =>
    have hrest : Ended rest := by
      intro b hb
      refine hended b ?_
      rw [List.getLast?_append, List.getLast?_cons, hb]
      rfl
    rw [List.append_assoc, List.cons_append, List.cons_append]
    exact .ended hbody (ih hrest)

theorem lines_append {before : List UInt8} (h : Ended before) (input : List UInt8) :
    lines (before ++ input) = lines before ++ lines input :=
  ((lines_spec before).append h (lines_spec input)).eq_lines.symm

/-- Behind a line with its line feed another input may be put. -/
theorem Lines.exchange {input : List UInt8} {before after : List Line} {line : Line}
    (h : Lines input (before ++ line :: after)) (hended : Ended line) {rest : List UInt8}
    {ls : List Line} (hrest : Lines rest ls) :
    Lines (before.flatten ++ line ++ rest) (before ++ line :: ls) := by
  induction before generalizing input with
  | nil =>
    cases h with
    | last hne h => exact absurd hended (not_ended hne h)
    | @ended body _ _ hbody _ =>
      rw [List.flatten_nil, List.nil_append, List.nil_append, List.append_assoc]
      exact .ended hbody hrest
  | cons first before ih =>
    generalize hall : first :: before ++ line :: after = all at h
    cases h with
    | nil => cases hall
    | last hne h => simp at hall
    | @ended body _ _ hbody h' =>
      obtain ⟨rfl, rfl⟩ := List.cons.inj hall
      have hflat : ((body ++ [0x0A]) :: before).flatten ++ line ++ rest
          = body ++ 0x0A :: (before.flatten ++ line ++ rest) := by
        simp [List.append_assoc]
      rw [hflat]
      exact .ended hbody (ih h')

end SearchQuery.CommandLine
