/-
SearchQuery/Text/Caseless.lean

Equality up to the case of the letters A to Z.  No other character folds:
U+017F, the long s, is not an `s` here.
-/
namespace SearchQuery.Text

/-- The characters of a text with A to Z in lower case; `Char.toLower`
changes no others. -/
def folded (s : String) : List Char :=
  s.toList.map Char.toLower

/-- Whether two texts differ in nothing but the case of A to Z. -/
def caseless (a b : String) : Bool :=
  folded a == folded b

@[simp] theorem caseless_self (a : String) : caseless a a = true :=
  beq_self_eq_true _

theorem caseless_iff {a b : String} :
    caseless a b = true ↔ folded a = folded b :=
  beq_iff_eq

/-- Texts are different if one has a letter that the other has in no case. -/
theorem caseless_eq_false_of_mem {a b : String} {c : Char} (ha : c ∈ a.toList)
    (hb : c.toLower ∉ folded b) : caseless a b = false := by
  refine Bool.eq_false_iff.2 fun h => hb ?_
  rw [← caseless_iff.1 h]
  exact List.mem_map_of_mem ha

end SearchQuery.Text
