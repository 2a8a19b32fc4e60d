/-
SearchQuery/Text/Colon.lean

Cutting a text in two at its first colon.  Later colons belong to the
second half, so `a:b:c` is cut into `a` and `b:c`.

The two halves with a colon between them are the text again
(`eq_append_of_cutChars`), and the first half has no colon
(`not_mem_of_cutChars`).  Nothing else is known of them, so this is what a
cut is (`cutAtColon_eq_some_iff`).
-/
namespace SearchQuery.Text

/-- The characters before the first colon and those after it. -/
def cutChars (cs : List Char) : Option (List Char × List Char) :=
  match cs.dropWhile (· != ':') with
  | [] => none
  | _ :: rest => some (cs.takeWhile (· != ':'), rest)

/-- `cutChars` on strings. -/
def cutAtColon (s : String) : Option (String × String) :=
  (cutChars s.toList).map fun r => (String.ofList r.1, String.ofList r.2)

theorem eq_append_of_cutChars {cs k r : List Char}
    (h : cutChars cs = some (k, r)) : cs = k ++ ':' :: r := by
  unfold cutChars at h
  split at h
  · cases h
  · rename_i c rest hd
    obtain ⟨rfl, rfl⟩ : cs.takeWhile (· != ':') = k ∧ rest = r := by simpa using h
    obtain rfl : c = ':' := by
      have := List.head?_dropWhile_not (· != ':') cs
      simpa [hd] using this
    rw [← hd, List.takeWhile_append_dropWhile]

theorem not_mem_of_cutChars {cs k r : List Char}
    (h : cutChars cs = some (k, r)) : ':' ∉ k := by
  unfold cutChars at h
  split at h
  · cases h
  · obtain ⟨rfl, -⟩ : cs.takeWhile (· != ':') = k ∧ _ = r := by simpa using h
    intro hm
    have hall : (cs.takeWhile (· != ':')).all (· != ':') = true := List.all_takeWhile
    have := List.all_eq_true.1 hall _ hm
    simp at this

theorem cutChars_append {k : List Char} (h : ':' ∉ k) (r : List Char) :
    cutChars (k ++ ':' :: r) = some (k, r) := by
  have hk : ∀ c ∈ k, (c != ':') = true := by
    intro c hc
    simpa using fun e : c = ':' => h (e ▸ hc)
  rw [cutChars, List.dropWhile_append_of_pos hk, List.takeWhile_append_of_pos hk]
  simp

/-- A cut leaves two texts with a colon between them, the first without
a colon. -/
theorem cutAtColon_eq_some_iff {s k r : String} :
    cutAtColon s = some (k, r) ↔ s = k ++ ":" ++ r ∧ ':' ∉ k.toList := by
  constructor
  · intro h
    obtain ⟨⟨cs, ds⟩, hcut, e⟩ := Option.map_eq_some_iff.1 h
    obtain ⟨rfl, rfl⟩ := Prod.mk.inj e
    refine ⟨?_, by simpa using not_mem_of_cutChars hcut⟩
    rw [← String.toList_inj, eq_append_of_cutChars hcut]
    simp
  · rintro ⟨rfl, hk⟩
    have htext : (k ++ ":" ++ r).toList = k.toList ++ ':' :: r.toList := by simp
    rw [cutAtColon, htext, cutChars_append hk]
    simp

theorem cutAtColon_eq_none_iff {s : String} : cutAtColon s = none ↔ ':' ∉ s.toList := by
  rw [cutAtColon, Option.map_eq_none_iff]
  constructor
  · intro h hmem
    obtain ⟨k, r, e, hk⟩ := List.eq_append_cons_of_mem hmem
    rw [e, cutChars_append hk] at h
    cases h
  · intro h
    cases hcut : cutChars s.toList with
    | none => rfl
    | some halves =>
      obtain ⟨k, r⟩ := halves
      refine absurd ?_ h
      rw [eq_append_of_cutChars hcut]
      simp

/-- A text is cut if it has a colon. -/
theorem mem_of_cutAtColon {s : String} {halves : String × String}
    (h : cutAtColon s = some halves) : ':' ∈ s.toList := by
  refine Decidable.byContradiction fun hs => ?_
  rw [cutAtColon_eq_none_iff.2 hs] at h
  cases h

end SearchQuery.Text
