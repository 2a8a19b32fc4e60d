/-
SearchQuery/Proofs/Text/Utf8.lean

The bytes of a text, and their order.

In UTF-8 the first byte of a character says how many follow, and those hold
six bits each, the upper ones first.  So the bytes of a character are
compared as its code point is (`encode_lt`), and since no character begins
another, the bytes of texts are in the order of the texts (`utf8_lt_utf8`).
-/
import Mathlib.Algebra.Order.Ring.Nat
import Mathlib.Data.Nat.ModEq
import Mathlib.Tactic.SplitIfs

namespace SearchQuery.Text

/-- The bytes of a text. -/
def utf8 (s : String) : List UInt8 :=
  s.toByteArray.data.toList

theorem utf8_append (s t : String) : utf8 (s ++ t) = utf8 s ++ utf8 t := by
  simp [utf8]

theorem utf8_eq_flatMap (s : String) : utf8 s = s.toList.flatMap String.utf8EncodeChar := by
  rw [utf8, ← String.utf8Encode_toList, List.utf8Encode, List.data_toByteArray]

/-! ### The bytes of a character -/

/-- How many bytes follow the first byte of a code point. -/
def further (v : Nat) : Nat :=
  if v ≤ 0x7F then 0 else if v ≤ 0x7FF then 1 else if v ≤ 0xFFFF then 2 else 3

/-- The first byte of a code point. -/
def firstByte (v : Nat) : Nat :=
  if v ≤ 0x7F then v
  else if v ≤ 0x7FF then v / 64 + 0xC0
  else if v ≤ 0xFFFF then v / 4096 + 0xE0
  else v / 262144 + 0xF0

/-- The last bytes of a code point, six bits in each. -/
def lastBytes (v : Nat) : Nat → List UInt8
  | 0 => []
  | k + 1 => UInt8.ofNat (v / 64 ^ k % 64 + 0x80) :: lastBytes v k

theorem toNat_lt (c : Char) : c.toNat < 0x110000 := by
  have hvalid := c.valid
  simp only [UInt32.isValidChar, Nat.isValidChar] at hvalid
  show c.val.toNat < 0x110000
  omega

theorem utf8EncodeChar_eq (c : Char) :
    String.utf8EncodeChar c
      = UInt8.ofNat (firstByte c.toNat) :: lastBytes c.toNat (further c.toNat) := by
  have hlt := toNat_lt c
  simp only [String.utf8EncodeChar, Char.toNat_val, firstByte, further]
  split_ifs with h₁ h₂ h₃
  · rfl
  · -- the first byte has room for all that is left
    have hfirst : c.toNat / 64 % 0x20 = c.toNat / 64 := by omega
    simp [lastBytes, hfirst]
  · have hfirst : c.toNat / 4096 % 0x10 = c.toNat / 4096 := by omega
    simp [lastBytes, hfirst]
  · have hfirst : c.toNat / 262144 % 0x08 = c.toNat / 262144 := by omega
    simp [lastBytes, hfirst]

theorem le_of_mem_lastBytes {v k : Nat} {b : UInt8} (h : b ∈ lastBytes v k) :
    0x80 ≤ b.toNat := by
  induction k with
  | zero => cases h
  | succ k ih =>
    rcases List.mem_cons.1 h with rfl | h
    · rw [UInt8.toNat_ofNat']
      omega
    · exact ih h

theorem firstByte_mod {v : Nat} (h : v < 0x110000) : firstByte v % 256 = firstByte v := by
  simp only [firstByte]
  split_ifs <;> omega

/-- A byte below 0x80 is a character of its own. -/
theorem exists_mem_of_mem_utf8 {s : String} {b : UInt8} (hb : b.toNat < 0x80) (h : b ∈ utf8 s) :
    ∃ c ∈ s.toList, c.toNat = b.toNat := by
  rw [utf8_eq_flatMap] at h
  obtain ⟨c, hc, hmem⟩ := List.mem_flatMap.1 h
  rw [utf8EncodeChar_eq] at hmem
  rcases List.mem_cons.1 hmem with rfl | hmem
  · refine ⟨c, hc, ?_⟩
    rw [UInt8.toNat_ofNat', firstByte_mod (toNat_lt c)] at hb ⊢
    simp only [firstByte] at hb ⊢
    split_ifs at hb ⊢ <;> omega
  · have hle := le_of_mem_lastBytes hmem
    omega

/-! ### Their order -/

/-- Of two code points the smaller one has the smaller first byte, or as many
bytes as the other and less in those that follow. -/
theorem firstByte_lt_or {m n : Nat} (h : m < n) (hn : n < 0x110000) :
    firstByte m < firstByte n ∨
      firstByte m = firstByte n ∧ further m = further n ∧
        m % 64 ^ further n < n % 64 ^ further n := by
  simp only [firstByte, further]
  split_ifs <;> omega

theorem lastBytes_lt {m n k : Nat} (h : m % 64 ^ k < n % 64 ^ k) (xs ys : List UInt8) :
    lastBytes m k ++ xs < lastBytes n k ++ ys := by
  induction k with
  | zero =>
    rw [pow_zero, Nat.mod_one, Nat.mod_one] at h
    exact absurd h (Nat.lt_irrefl 0)
  | succ k ih =>
    rw [Nat.mod_pow_succ, Nat.mod_pow_succ] at h
    simp only [lastBytes, List.cons_append, List.cons_lt_cons_iff, UInt8.lt_iff_toNat_lt,
      UInt8.toNat_ofNat', ← UInt8.toNat_inj]
    rcases Nat.lt_trichotomy (m / 64 ^ k % 64) (n / 64 ^ k % 64) with hlt | heq | hgt
    · left
      omega
    · right
      rw [heq] at h ⊢
      exact ⟨rfl, ih (Nat.lt_of_add_lt_add_right h)⟩
    · -- more in the upper bits is more altogether
      have hroom : n % 64 ^ k < 64 ^ k := Nat.mod_lt _ (pow_pos (by decide) k)
      have hupper := Nat.mul_le_mul_left (64 ^ k) hgt
      rw [Nat.mul_succ] at hupper
      omega

/-- The bytes of a smaller character are smaller, whatever follows them. -/
theorem encode_lt {c d : Char} (h : c < d) (xs ys : List UInt8) :
    String.utf8EncodeChar c ++ xs < String.utf8EncodeChar d ++ ys := by
  have hlt : c.toNat < d.toNat := UInt32.lt_iff_toNat_lt.1 h
  rw [utf8EncodeChar_eq, utf8EncodeChar_eq, List.cons_append, List.cons_append,
    List.cons_lt_cons_iff, UInt8.lt_iff_toNat_lt, ← UInt8.toNat_inj, UInt8.toNat_ofNat',
    UInt8.toNat_ofNat', firstByte_mod (toNat_lt c), firstByte_mod (toNat_lt d)]
  rcases firstByte_lt_or hlt (toNat_lt d) with hfirst | ⟨hfirst, hfurther, hrest⟩
  · exact .inl hfirst
  · rw [hfurther]
    exact .inr ⟨hfirst, lastBytes_lt hrest xs ys⟩

/-- **Texts are in the order of their bytes.** -/
theorem utf8_lt_utf8 {s t : String} (h : s < t) : utf8 s < utf8 t := by
  have hchars : s.toList < t.toList := h
  rw [utf8_eq_flatMap, utf8_eq_flatMap]
  generalize s.toList = cs at hchars
  generalize t.toList = ds at hchars
  induction cs generalizing ds with
  | nil =>
    cases ds with
    | nil => exact absurd hchars (List.lt_irrefl [])
    | cons d ds =>
      rw [List.flatMap_nil, List.flatMap_cons, utf8EncodeChar_eq]
      exact List.nil_lt_cons _ _
  | cons c cs ih =>
    cases ds with
    | nil => exact absurd hchars (List.not_lt_nil _)
    | cons d ds =>
      rw [List.flatMap_cons, List.flatMap_cons]
      rcases List.cons_lt_cons_iff.1 hchars with hlt | ⟨rfl, hlt⟩
      · exact encode_lt hlt _ _
      · exact List.append_left_lt (ih ds hlt)

end SearchQuery.Text
