/-
SearchQuery/Proofs/Json/Written.lean

What is written can be read.

A layout puts nothing but blanks between lexemes (`Layout.IsBlank`), so a
written value is a text of that value in either layout (`isText_write`) and is
read as what it was (`read?_write`).  For this every string must be spelled by
its escapes, whatever characters it has (`spells_text`).
-/
import SearchQuery.Json.Write
import SearchQuery.Proofs.Json.Values
import Mathlib.Data.List.Forall2
import Mathlib.Tactic.SplitIfs

namespace SearchQuery.Json

open Lexeme

/-! ### Values without parts -/

theorem spellsUnit_escape (c : Char) : SpellsUnit c.toNat (escape c) := by
  unfold escape
  split_ifs with hquote hbackslash _ _ _ _ _ hcontrol
  -- the characters that have a short escape
  iterate 7 (· subst c; exact .short rfl)
  · have hdigit : ∀ n < 16, hexValue? (Nat.digitChar n) = some n := by
      decide
    have hvalue : 0x1000 * 0 + 0x100 * 0 + 0x10 * (c.toNat / 16) + c.toNat % 16 = c.toNat := by
      omega
    have hspells : SpellsUnit (0x1000 * 0 + 0x100 * 0 + 0x10 * (c.toNat / 16) + c.toNat % 16)
        ['\\', 'u', '0', '0', Nat.digitChar (c.toNat / 16), Nat.digitChar (c.toNat % 16)] :=
      .hex rfl rfl (hdigit _ (by omega)) (hdigit _ (by omega))
    rwa [hvalue] at hspells
  · exact .plain hquote hbackslash (Nat.le_of_not_lt hcontrol)

theorem spellsUnits_escape (cs : List Char) :
    SpellsUnits (cs.map Char.toNat) (cs.flatMap escape) := by
  induction cs with
  | nil => exact .nil
  | cons c cs ih => exact .cons (spellsUnit_escape c) ih

/-- A string is spelled by what is written for it, also one that is no text. -/
theorem spells_text (t : Text) : Spells [.primitive (.text t)] t.write.toList := by
  cases t with
  | none =>
    have hunit : SpellsUnit (0x1000 * 13 + 0x100 * 8 + 0x10 * 0 + 0)
        ['\\', 'u', 'd', '8', '0', '0'] :=
      .hex rfl rfl rfl rfl
    exact .string (.cons hunit .nil) .nil
  | some s =>
    have hunits : ofUnits (s.toList.map Char.toNat) = .primitive (.text (some s)) := by
      rw [ofUnits, joinSurrogates?_map_toNat, Option.map_some, String.ofList_toList]
    have hchars : (Text.write (some s)).toList = '"' :: (s.toList.flatMap escape ++ ['"']) := by
      simp [Text.write]
    rw [hchars, ← hunits]
    exact .string (spellsUnits_escape s.toList) .nil

theorem ofWord?_written (n : Number) : ofWord? n.written = some (.primitive (.number n)) := by
  have hne : ∀ word, isNumber word = false → n.written ≠ word := by
    rintro _ hword rfl
    exact Bool.false_ne_true (hword.symm.trans n.isNumber_written)
  rw [ofWord?, if_neg (hne _ rfl), if_neg (hne _ rfl), if_neg (hne _ rfl),
    dif_pos n.isNumber_written]

theorem spells_primitive (v : Primitive) : Spells [.primitive v] v.write.toList := by
  have hword : ∀ {w : List Char} {l : Lexeme}, ofWord? w = some l → Spells [l] w := by
    intro w l h
    have hspells : Spells [l] (w ++ []) := .word h endsWord_nil .nil
    rwa [List.append_nil] at hspells
  cases v with
  | null => exact hword rfl
  | bool b => cases b <;> exact hword rfl
  | number n =>
    rw [Primitive.write, String.toList_ofList]
    exact hword (ofWord?_written n)
  | text t => exact spells_text t

/-! ### Layouts -/

/-- A layout that puts nothing but blanks between lexemes. -/
structure Layout.IsBlank (layout : Layout) : Prop where
  line : ∀ depth, ∀ c ∈ (layout.line depth).toList, isGap c = true
  afterColon : ∀ c ∈ layout.afterColon.toList, isGap c = true

theorem Layout.isBlank_compact : Layout.compact.IsBlank where
  line _ := nofun
  afterColon := nofun

theorem Layout.isBlank_indented : Layout.indented.IsBlank where
  line depth := by
    simp [Layout.indented, isGap]
  afterColon := by
    simp [Layout.indented, isGap]

variable {layout : Layout}

/-- Parts with commas and lines between them. -/
theorem spells_intercalate (hlayout : layout.IsBlank) (depth : Nat) {lss : List (List Lexeme)}
    {parts : List String} (h : List.Forall₂ (fun ls part => Spells ls part.toList) lss parts) :
    Spells ([Lexeme.comma].intercalate lss)
      (("," ++ layout.line depth).intercalate parts).toList := by
  induction h with
  | nil => exact .nil
  | @cons ls part _ _ hpart hrest ih =>
    cases hrest with
    | nil =>
      rw [List.intercalate_singleton, String.intercalate_singleton]
      exact hpart
    | @cons ls' part' lss parts =>
      have hcomma : ofMark? ',' = some .comma := rfl
      have hchars : (("," ++ layout.line depth).intercalate (part :: part' :: parts)).toList
          = part.toList ++ ',' :: ((layout.line depth).toList
            ++ (("," ++ layout.line depth).intercalate (part' :: parts)).toList) := by
        rw [String.intercalate_cons_cons]
        simp
      rw [List.intercalate_cons_cons, List.append_assoc, hchars]
      exact hpart.append (endsWord_mark hcomma _) (.mark hcomma (ih.gaps (hlayout.line depth)))

/-- Parts between brackets. -/
theorem spells_enclose (hlayout : layout.IsBlank) (depth : Nat) {opening closing : String}
    {o c : Char} {l l' : Lexeme} (hopening : opening.toList = [o]) (ho : ofMark? o = some l)
    (hclosing : closing.toList = [c]) (hc : ofMark? c = some l') {lss : List (List Lexeme)}
    {parts : List String} (h : List.Forall₂ (fun ls part => Spells ls part.toList) lss parts) :
    Spells (bracket l l' lss) (enclose layout opening closing depth parts).toList := by
  rw [bracket]
  cases h with
  | nil =>
    have hchars : (enclose layout opening closing depth []).toList = [o, c] := by
      simp [enclose, hopening, hclosing]
    rw [hchars]
    exact .mark ho (.mark hc .nil)
  | @cons ls part lss parts hpart hrest =>
    have hchars : (enclose layout opening closing depth (part :: parts)).toList
        = o :: ((layout.line (depth + 1)).toList
          ++ ((("," ++ layout.line (depth + 1)).intercalate (part :: parts)).toList
            ++ ((layout.line depth).toList ++ [c]))) := by
      simp [enclose, hopening, hclosing, -String.toList_intercalate]
    have hend : EndsWord ((layout.line depth).toList ++ [c]) :=
      (endsWord_gaps (hlayout.line depth)).append (endsWord_mark hc [])
    have hparts := spells_intercalate hlayout (depth + 1) (.cons hpart hrest)
    have hclose : Spells [l'] ((layout.line depth).toList ++ [c]) :=
      .gaps (hlayout.line depth) (.mark hc .nil)
    rw [hchars]
    exact .mark ho (.gaps (hlayout.line (depth + 1)) (hparts.append hend hclose))

/-! ### Values -/

mutual

theorem spells_writeAt (hlayout : layout.IsBlank) (depth : Nat) : (j : Json) →
    Spells j.lexemes (writeAt layout depth j).toList
  | .primitive v => by
    rw [lexemes, writeAt]
    exact spells_primitive v
  | .array items => by
    rw [lexemes, writeAt]
    exact spells_enclose hlayout depth rfl rfl rfl rfl (spells_writeItems hlayout (depth + 1) items)
  | .object members => by
    rw [lexemes, writeAt]
    exact spells_enclose hlayout depth rfl rfl rfl rfl
      (spells_writeMembers hlayout (depth + 1) members)

theorem spells_writeItems (hlayout : layout.IsBlank) (depth : Nat) : (items : List Json) →
    List.Forall₂ (fun ls part => Spells ls part.toList) (itemLexemes items)
      (writeItems layout depth items)
  | [] => by
    rw [itemLexemes, writeItems]
    exact .nil
  | item :: items => by
    rw [itemLexemes, writeItems]
    exact .cons (spells_writeAt hlayout depth item) (spells_writeItems hlayout depth items)

theorem spells_writeMembers (hlayout : layout.IsBlank) (depth : Nat) :
    (members : List (Text × Json)) →
    List.Forall₂ (fun ls part => Spells ls part.toList) (memberLexemes members)
      (writeMembers layout depth members)
  | [] => by
    rw [memberLexemes, writeMembers]
    exact .nil
  | (name, value) :: members => by
    rw [memberLexemes, writeMembers]
    refine .cons ?_ (spells_writeMembers hlayout depth members)
    have hvalue := spells_writeAt hlayout depth value
    have hcolon : ofMark? ':' = some .colon := rfl
    have hchars : (name.write ++ ":" ++ layout.afterColon ++ writeAt layout depth value).toList
        = name.write.toList
          ++ ':' :: (layout.afterColon.toList ++ (writeAt layout depth value).toList) := by
      simp
    rw [hchars]
    exact (spells_text name).append (endsWord_mark hcolon _)
      (.mark hcolon (hvalue.gaps hlayout.afterColon))

end

/-- **What is written for a value is a text of that value.** -/
theorem isText_write (hlayout : layout.IsBlank) (j : Json) : IsText j (j.write layout) :=
  spells_writeAt hlayout 0 j

theorem read?_write (hlayout : layout.IsBlank) (j : Json) : read? (j.write layout) = some j :=
  read?_of_isText (isText_write hlayout j)

end SearchQuery.Json
