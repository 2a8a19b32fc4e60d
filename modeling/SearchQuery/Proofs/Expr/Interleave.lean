/-
SearchQuery/Proofs/Expr/Interleave.lean

Lists put together from two others.

`Interleaves as bs cs` says that `cs` has the elements of `as` and those of
`bs`, each once, and keeps the order of both.  A list is put together like this
from the elements that pass a test and those that fail it, and if two lists are
told apart by the test it is from no others (`Interleaves.eq_filter`).
-/
namespace SearchQuery

/-- The elements of two lists, those of each in their order. -/
inductive Interleaves {α : Type} : List α → List α → List α → Prop
  | nil : Interleaves [] [] []
  | left {a as bs cs} : Interleaves as bs cs → Interleaves (a :: as) bs (a :: cs)
  | right {b as bs cs} : Interleaves as bs cs → Interleaves as (b :: bs) (b :: cs)

namespace Interleaves

variable {α β : Type} {as bs cs : List α}

theorem mem_iff (h : Interleaves as bs cs) {c : α} : c ∈ cs ↔ c ∈ as ∨ c ∈ bs := by
  induction h with
  | nil => simp
  | left _ ih => simp only [List.mem_cons, ih, or_assoc]
  | right _ ih => simp only [List.mem_cons, ih, or_left_comm]

theorem forall_iff {P : α → Prop} (h : Interleaves as bs cs) :
    (∀ c ∈ cs, P c) ↔ (∀ a ∈ as, P a) ∧ ∀ b ∈ bs, P b := by
  simp only [h.mem_iff, or_imp, forall_and]

theorem exists_iff {P : α → Prop} (h : Interleaves as bs cs) :
    (∃ c ∈ cs, P c) ↔ (∃ a ∈ as, P a) ∨ ∃ b ∈ bs, P b := by
  simp only [h.mem_iff, or_and_right, exists_or]

theorem append_left (xs : List α) (h : Interleaves as bs cs) :
    Interleaves (xs ++ as) bs (xs ++ cs) := by
  induction xs with
  | nil => exact h
  | cons x xs ih => exact .left ih

theorem append_right (xs : List α) (h : Interleaves as bs cs) :
    Interleaves as (xs ++ bs) (xs ++ cs) := by
  induction xs with
  | nil => exact h
  | cons x xs ih => exact .right ih

/-- What is put in the place of each element is put together in the same way. -/
theorem flatMap (f : α → List β) (h : Interleaves as bs cs) :
    Interleaves (as.flatMap f) (bs.flatMap f) (cs.flatMap f) := by
  induction h with
  | nil => exact .nil
  | left _ ih => exact ih.append_left _
  | right _ ih => exact ih.append_right _

/-- A test that tells the two lists apart finds them again. -/
theorem eq_filter {p : α → Bool} (h : Interleaves as bs cs) (has : ∀ a ∈ as, p a = true)
    (hbs : ∀ b ∈ bs, p b = false) : as = cs.filter p ∧ bs = cs.filter fun c => !p c := by
  induction h with
  | nil => exact ⟨rfl, rfl⟩
  | left _ ih =>
    obtain ⟨ha, has⟩ := List.forall_mem_cons.1 has
    obtain ⟨rfl, rfl⟩ := ih has hbs
    simp [ha]
  | right _ ih =>
    obtain ⟨hb, hbs⟩ := List.forall_mem_cons.1 hbs
    obtain ⟨rfl, rfl⟩ := ih has hbs
    simp [hb]

end Interleaves

end SearchQuery
