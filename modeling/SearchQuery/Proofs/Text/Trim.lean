/-
SearchQuery/Proofs/Text/Trim.lean

What trimming leaves.

A text is trimmed if neither of its ends is blank, and these are the texts
from which nothing is taken (`trim_eq_self_iff`).  Trimming comes to such
a text (`isTrimmed_trim`), takes all of the blanks that were put around one
(`trim_pad`) and nothing but blanks (`exists_blanks_around`), and adds no
characters of its own (`mem_of_mem_trim`).
-/
import Mathlib.Data.List.DropRight
import SearchQuery.Text.Blank

namespace SearchQuery.Text

/-! ### Trimmed texts -/

/-- Neither end of the text is blank. -/
def IsTrimmed (s : String) : Prop :=
  (∀ c ∈ s.toList.head?, isBlank c = false) ∧ ∀ c ∈ s.toList.getLast?, isBlank c = false

instance (s : String) : Decidable (IsTrimmed s) :=
  decidable_of_iff ((s.toList.head?.all fun c => !isBlank c) ∧
    s.toList.getLast?.all fun c => !isBlank c) (by simp [IsTrimmed, Option.all_eq_true])

theorem trimChars_eq_rdropWhile (cs : List Char) :
    trimChars cs = (cs.dropWhile isBlank).rdropWhile isBlank := rfl

theorem dropWhile_eq_self_of_head? {cs : List Char}
    (h : ∀ c ∈ cs.head?, isBlank c = false) : cs.dropWhile isBlank = cs := by
  cases cs with
  | nil => rfl
  | cons c cs => exact List.dropWhile_cons_of_neg (by simp [h c rfl])

theorem trim_eq_self {s : String} (h : IsTrimmed s) : trim s = s := by
  obtain ⟨hhead, hlast⟩ := h
  rw [← String.toList_inj, toList_trim, trimChars_eq_rdropWhile,
    dropWhile_eq_self_of_head? hhead, List.rdropWhile_eq_self_iff]
  intro hne
  simp [hlast _ (List.getLast?_eq_some_getLast hne)]

theorem isTrimmed_trim (s : String) : IsTrimmed (trim s) := by
  rw [IsTrimmed, toList_trim, trimChars_eq_rdropWhile]
  constructor
  · -- what is taken from the end leaves the first character where it is
    intro c hc
    have hne : s.toList.dropWhile isBlank ≠ [] := by
      intro e
      rw [e, List.rdropWhile_nil] at hc
      cases hc
    have hfirst : (s.toList.dropWhile isBlank).head? = some c := by
      obtain ⟨ds, hds⟩ := List.rdropWhile_prefix isBlank (s.toList.dropWhile isBlank)
      rw [← hds, List.head?_append, hc]
      rfl
    have := List.head?_dropWhile_not isBlank s.toList
    simpa [hfirst] using this
  · intro c hc
    obtain ⟨hne, rfl⟩ := List.mem_getLast?_eq_getLast hc
    simpa using List.rdropWhile_last_not isBlank _ hne

theorem trim_eq_self_iff {s : String} : trim s = s ↔ IsTrimmed s :=
  ⟨fun h => h ▸ isTrimmed_trim s, trim_eq_self⟩

/-- A text that is trimmed is no blank text, unless it is empty. -/
theorem exists_not_blank {s : String} (h : IsTrimmed s) (hne : s ≠ "") :
    ∃ c ∈ s.toList, isBlank c = false := by
  cases hs : s.toList with
  | nil => exact absurd (String.toList_eq_nil_iff.1 hs) hne
  | cons c cs => exact ⟨c, List.mem_cons_self, h.1 c (by rw [hs]; rfl)⟩

/-! ### What is taken away -/

/-- A text is what trimming leaves of it, with blanks around. -/
theorem exists_blanks_around (s : String) :
    ∃ before after : String, s = before ++ trim s ++ after ∧
      (∀ c ∈ before.toList, isBlank c = true) ∧ ∀ c ∈ after.toList, isBlank c = true := by
  refine ⟨String.ofList (s.toList.takeWhile isBlank),
    String.ofList ((s.toList.dropWhile isBlank).rtakeWhile isBlank), ?_, ?_, ?_⟩
  · rw [← String.toList_inj]
    simp only [String.toList_append, String.toList_ofList, toList_trim, trimChars_eq_rdropWhile,
      List.append_assoc, List.rdropWhile_append_rtakeWhile, List.takeWhile_append_dropWhile]
  · intro c hc
    rw [String.toList_ofList] at hc
    exact List.mem_takeWhile_imp hc
  · intro c hc
    rw [String.toList_ofList] at hc
    exact List.mem_rtakeWhile_imp hc

/-! ### Characters -/

theorem mem_of_mem_trim {s : String} {c : Char} (h : c ∈ (trim s).toList) :
    c ∈ s.toList := by
  rw [toList_trim, trimChars_eq_rdropWhile] at h
  exact (List.dropWhile_subset _) ((List.rdropWhile_prefix _ _).subset h)

/-! ### Blanks around a text -/

theorem trimChars_cons {c : Char} (h : isBlank c = true) (cs : List Char) :
    trimChars (c :: cs) = trimChars cs := by
  rw [trimChars, List.dropWhile_cons_of_pos h, trimChars]

theorem trimChars_append_singleton {c : Char} (h : isBlank c = true) (cs : List Char) :
    trimChars (cs ++ [c]) = trimChars cs := by
  rw [trimChars_eq_rdropWhile, trimChars_eq_rdropWhile, List.dropWhile_append]
  cases hcs : cs.dropWhile isBlank with
  | nil => simp [h]
  | cons d ds => exact List.rdropWhile_concat_pos isBlank _ c (by simpa using h)

/-- A space at each end is taken away again. -/
theorem trim_pad (s : String) : trim (" " ++ s ++ " ") = trim s := by
  have htext : (" " ++ s ++ " ").toList = ' ' :: (s.toList ++ [' ']) := by simp
  rw [← String.toList_inj, toList_trim, toList_trim, htext,
    trimChars_cons (by decide), trimChars_append_singleton (by decide)]

theorem trimmed?_pad {s : String} (h : IsTrimmed s) (hne : s ≠ "") :
    trimmed? (" " ++ s ++ " ") = some s :=
  trimmed?_eq_some_iff.2 ⟨(trim_pad s).trans (trim_eq_self h), hne⟩

theorem trimmed?_eq_self {s : String} (h : IsTrimmed s) (hne : s ≠ "") :
    trimmed? s = some s :=
  trimmed?_eq_some_iff.2 ⟨trim_eq_self h, hne⟩

/-- What trimming leaves is trimmed and not empty. -/
theorem isTrimmed_of_trimmed? {s t : String} (h : trimmed? s = some t) :
    IsTrimmed t ∧ t ≠ "" ∧ ∀ c ∈ t.toList, c ∈ s.toList := by
  obtain ⟨rfl, hne⟩ := trimmed?_eq_some_iff.1 h
  exact ⟨isTrimmed_trim s, hne, fun _ => mem_of_mem_trim⟩

end SearchQuery.Text
