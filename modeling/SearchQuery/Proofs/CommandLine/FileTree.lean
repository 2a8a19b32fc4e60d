/-
SearchQuery/Proofs/CommandLine/FileTree.lean

Which file a path names.

A path that goes down only, from the root or from where the user stands,
names a location: empty parts and dots leave it where it is, and every other
part adds a name.  Following the path asks at each part what lies there, so
that it leads to the file at this location and to no other takes a tree in
which nothing lies behind a file (`FileTree.Layered`).

Main statement: reading such a path gives the text of the file at the
location, and there is one if reading gives a text (`FileTree.read_eq_ok_iff`).
-/
import Mathlib.Data.List.Basic
import SearchQuery.CommandLine.FileTree

namespace SearchQuery.CommandLine.FileTree

/-- Whether a part of a path is the name of something. -/
def isName (part : String) : Bool :=
  part != "" && part != "."

/-- The names on a path. -/
def names (path : String) : List String :=
  (parts path).filter isName

/-- Where a path begins. -/
def root (t : FileTree) (path : String) : Location :=
  if path.toList.head? = some '/' then [] else t.here

/-- Nothing lies behind a file. -/
def Layered (t : FileTree) : Prop :=
  ∀ l ∈ t.files.map Prod.fst, ∀ l' ∈ t.files.map Prod.fst, l <+: l' → l = l'

instance (t : FileTree) : Decidable t.Layered :=
  inferInstanceAs (Decidable (∀ l ∈ t.files.map Prod.fst, ∀ l' ∈ t.files.map Prod.fst,
    l <+: l' → l = l'))

/-- Parts that lead down, to something with a name. -/
structure LeadDown (parts : List String) : Prop where
  noneAbove : ".." ∉ parts
  size_le : ∀ part ∈ parts, part.utf8ByteSize ≤ longestName
  isName_last : ∀ part ∈ parts.getLast?, isName part = true

variable {t : FileTree} {l : Location} {text : String} {part : String} {rest : List String}

theorem LeadDown.tail (h : LeadDown (part :: rest)) : LeadDown rest where
  noneAbove hmem := h.noneAbove (List.mem_cons_of_mem part hmem)
  size_le p hp := h.size_le p (List.mem_cons_of_mem part hp)
  isName_last p hp := h.isName_last p (by simp [List.getLast?_cons, Option.mem_def.1 hp])

/-- Something is named by parts that lead down. -/
theorem LeadDown.filter_ne_nil (h : LeadDown (part :: rest)) :
    (part :: rest).filter isName ≠ [] := by
  have hlast : (part :: rest).getLast? = some ((part :: rest).getLast (List.cons_ne_nil _ _)) :=
    List.getLast?_eq_some_getLast (List.cons_ne_nil _ _)
  exact List.ne_nil_of_mem (List.mem_filter.2 ⟨List.getLast_mem _, h.isName_last _ hlast⟩)

theorem mem_locations (h : t.files.lookup l = some text) : l ∈ t.files.map Prod.fst := by
  obtain ⟨front, behind, hfiles, -⟩ := List.lookup_eq_some_iff.1 h
  rw [hfiles, List.map_append]
  exact List.mem_append_right _ List.mem_cons_self

theorem entry?_eq_file_iff : t.entry? l = some (.file text) ↔ t.files.lookup l = some text := by
  unfold entry?
  cases t.files.lookup l with
  | some text' => simp
  | none =>
    simp only [reduceCtorEq, iff_false]
    split <;> simp

/-- Above a file there are directories. -/
theorem entry?_eq_directory (ht : t.Layered) (hne : rest ≠ [])
    (h : t.files.lookup (l ++ rest) = some text) : t.entry? l = some .directory := by
  have hmem := mem_locations h
  have hnone : t.files.lookup l = none := by
    rw [Option.eq_none_iff_forall_ne_some]
    intro text' htext'
    have hsame : l = l ++ rest := ht l (mem_locations htext') _ hmem (List.prefix_append l rest)
    exact hne (List.self_eq_append_right.1 hsame)
  have habove : (t.here :: t.directories ++ t.files.map Prod.fst).any l.isPrefixOf = true :=
    List.any_eq_true.2 ⟨l ++ rest, List.mem_append_right _ hmem,
      List.isPrefixOf_iff_prefix.2 (List.prefix_append l rest)⟩
  unfold entry?
  rw [hnone, if_pos habove]

/-- Parts that lead down lead to the location that they name. -/
theorem follow_eq_ok_iff (ht : t.Layered) {parts : List String} (h : LeadDown parts)
    (l : Location) :
    t.follow l parts = .ok text ↔ t.files.lookup (l ++ parts.filter isName) = some text := by
  induction parts generalizing l with
  | nil =>
    rw [List.filter_nil, List.append_nil, ← entry?_eq_file_iff, follow]
    split <;> simp_all
  | cons part rest ih =>
    -- the file is behind this location, so there has to be a directory
    have hdirectory : t.files.lookup (l ++ (part :: rest).filter isName) = some text →
        t.entry? l = some .directory :=
      entry?_eq_directory ht h.filter_ne_nil
    rw [follow]
    split
    · rename_i hnone
      simp only [hnone, reduceCtorEq, imp_false] at hdirectory
      exact iff_of_false (by simp) hdirectory
    · rename_i hfile
      simp only [hfile, Option.some.injEq, reduceCtorEq, imp_false] at hdirectory
      exact iff_of_false (by simp) hdirectory
    · have hup : part ≠ ".." := fun e => h.noneAbove (e ▸ List.mem_cons_self)
      have hsize : ¬ longestName < part.utf8ByteSize :=
        Nat.not_lt.2 (h.size_le part List.mem_cons_self)
      by_cases hblank : part = "" ∨ part = "."
      · have hname : ¬ isName part = true := by
          rcases hblank with rfl | rfl <;> decide
        rw [if_pos hblank, ih h.tail, List.filter_cons_of_neg hname]
      · have hname : isName part = true := by
          simpa [isName] using not_or.1 hblank
        rw [if_neg hblank, if_neg hup, if_neg hsize, ih h.tail, List.filter_cons_of_pos hname,
          List.append_assoc, List.singleton_append]

/-- **A path that leads down names one file**, and reading gives its text. -/
theorem read_eq_ok_iff (ht : t.Layered) {path : String} (h : LeadDown (parts path))
    (hnul : '\x00' ∉ path.toList) (hsize : path.utf8ByteSize ≤ longestPath) :
    t.read path = .ok text ↔ t.files.lookup (t.root path ++ names path) = some text := by
  have hcontains : ¬ path.toList.contains '\x00' = true := by
    rwa [List.contains_iff_mem]
  have hempty : ¬ path.isEmpty = true := by
    intro hblank
    obtain rfl := String.isEmpty_iff.1 hblank
    cases h.isName_last "" (by decide)
  rw [read, if_neg hcontains, if_neg hempty, if_neg (Nat.not_lt.2 hsize), follow_eq_ok_iff ht h]
  rfl

/-- A path may stay where it is on its way, but it must not go on behind the
file, and what it leaves again has to be there. -/
example :
    let t : FileTree := { files := [(["home", "pages", "a"], "x")], here := ["home"] }
    t.read "./pages//a" = .ok "x" ∧ t.read "/home/pages/a" = .ok "x" ∧
      t.read "pages/a/." = .error .notDirectory ∧
      t.read "lists/../pages/a" = .error .notFound := by
  decide +kernel

end SearchQuery.CommandLine.FileTree
