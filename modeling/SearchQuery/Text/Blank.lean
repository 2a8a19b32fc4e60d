/-
SearchQuery/Text/Blank.lean

Blank characters, and texts without blanks at their ends.

Blank means Unicode's `White_Space`: twenty-five characters in ten ranges.
The information separators U+001C to U+001F, the zero width space U+200B
and the byte order mark U+FEFF are not among them, so a text made of those
is not blank and they stay where they are when a text is trimmed.
-/
namespace SearchQuery.Text

/-! ### The class -/

/-- The ranges of `White_Space`, ends included, in ascending order. -/
def blankRanges : List (Nat × Nat) :=
  [(0x09, 0x0D), (0x20, 0x20), (0x85, 0x85), (0xA0, 0xA0), (0x1680, 0x1680),
   (0x2000, 0x200A), (0x2028, 0x2029), (0x202F, 0x202F), (0x205F, 0x205F),
   (0x3000, 0x3000)]

/-- Whether a character is blank. -/
def isBlank (c : Char) : Bool :=
  blankRanges.any fun r => decide (r.1 ≤ c.toNat) && decide (c.toNat ≤ r.2)

/-! ### Trimming -/

/-- What is left of a text when the blanks at its two ends are taken away. -/
def trimChars (cs : List Char) : List Char :=
  ((cs.dropWhile isBlank).reverse.dropWhile isBlank).reverse

/-- `trimChars` on strings. -/
def trim (s : String) : String :=
  String.ofList (trimChars s.toList)

@[simp] theorem toList_trim (s : String) : (trim s).toList = trimChars s.toList :=
  String.toList_ofList

/-- The trimmed text, if there is any: nothing is left of a blank text. -/
def trimmed? (s : String) : Option String :=
  let t := trim s
  if t.isEmpty then none else some t

theorem trimmed?_eq_none_iff {s : String} : trimmed? s = none ↔ trim s = "" := by
  simp [trimmed?]

theorem trimmed?_eq_some_iff {s t : String} :
    trimmed? s = some t ↔ trim s = t ∧ t ≠ "" := by
  by_cases h : trim s = ""
  · rw [trimmed?_eq_none_iff.2 h, h]
    exact ⟨(nomatch ·), fun e => absurd e.1.symm e.2⟩
  · have : trimmed? s = some (trim s) := if_neg (by simpa using h)
    rw [this, Option.some_inj]
    exact ⟨fun e => ⟨e, e ▸ h⟩, And.left⟩

end SearchQuery.Text
