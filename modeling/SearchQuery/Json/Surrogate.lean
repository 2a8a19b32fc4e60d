/-
SearchQuery/Json/Surrogate.lean

Surrogates: characters beyond U+FFFF written as two escapes.

An escape has four hexadecimal digits.  A character that needs more is
written as a high surrogate followed by a low one.  A surrogate without its
other half stands for no character, and a string that holds one is no text.
-/
namespace SearchQuery.Json

/-- The first of two. -/
def isHighSurrogate (u : Nat) : Bool := decide (0xD800 ≤ u) && decide (u < 0xDC00)

/-- The second of two. -/
def isLowSurrogate (u : Nat) : Bool := decide (0xDC00 ≤ u) && decide (u < 0xE000)

/-- The code point that two surrogates stand for. -/
def codePointOfPair (high low : Nat) : Nat :=
  0x10000 + (high - 0xD800) * 0x400 + (low - 0xDC00)

/-- The characters for code points, with surrogates joined in pairs. -/
def joinSurrogates? : List Nat → Option (List Char)
  | [] => some []
  | [u] =>
    if isHighSurrogate u || isLowSurrogate u then none else some [Char.ofNat u]
  | u :: v :: rest =>
    if isHighSurrogate u && isLowSurrogate v then
      (joinSurrogates? rest).map (Char.ofNat (codePointOfPair u v) :: ·)
    else if isHighSurrogate u || isLowSurrogate u then none
    else (joinSurrogates? (v :: rest)).map (Char.ofNat u :: ·)

/-- Characters are their own code points: there is nothing to join. -/
theorem joinSurrogates?_map_toNat (cs : List Char) :
    joinSurrogates? (cs.map Char.toNat) = some cs := by
  have plain (c : Char) : (isHighSurrogate c.toNat || isLowSurrogate c.toNat) = false := by
    have := c.valid
    simp only [isHighSurrogate, isLowSurrogate, Char.toNat, UInt32.isValidChar, Nat.isValidChar] at this ⊢
    grind
  induction cs with
  | nil => rfl
  | cons c cs ih =>
    have hc := plain c
    have hh := (Bool.or_eq_false_iff.1 hc).1
    cases cs with
    | nil => simp [joinSurrogates?, hc]
    | cons d ds =>
      rw [List.map_cons, List.map_cons, joinSurrogates?, ← List.map_cons, ih, hc]
      simp [hh]

end SearchQuery.Json
