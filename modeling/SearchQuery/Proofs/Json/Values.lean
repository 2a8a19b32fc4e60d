/-
SearchQuery/Proofs/Json/Values.lean

Texts of JSON values.

`lexemes` are the lexemes of a value, with a comma between each two parts of
an array or an object and a colon behind each name.  A text that spells them
is a text of the value (`IsText`), whatever blanks stand between them.  The
reader finds the value of every such text (`read?_of_isText`), so no text is
one of two values (`IsText.unique`).

Reading is uniform in the stack: the lexemes of a value lead from where it may
come to where it has been read, with the arrays and objects around it left as
they are (`foldlM_lexemes`).
-/
import SearchQuery.Json.Read
import SearchQuery.Proofs.Json.Spelling

namespace SearchQuery.Json

/-! ### Lexemes of values -/

/-- Parts between two brackets, with a comma between each two. -/
def bracket (opening closing : Lexeme) (parts : List (List Lexeme)) : List Lexeme :=
  opening :: ([Lexeme.comma].intercalate parts ++ [closing])

mutual

/-- The lexemes of a value. -/
def lexemes : Json → List Lexeme
  | .primitive value => [.primitive value]
  | .array items => bracket .beginArray .endArray (itemLexemes items)
  | .object members => bracket .beginObject .endObject (memberLexemes members)

/-- The lexemes of each item of an array. -/
def itemLexemes : List Json → List (List Lexeme)
  | [] => []
  | item :: items => lexemes item :: itemLexemes items

/-- The lexemes of each member of an object. -/
def memberLexemes : List (Text × Json) → List (List Lexeme)
  | [] => []
  | (name, value) :: members =>
    (.primitive (.text name) :: .colon :: lexemes value) :: memberLexemes members

end

/-! ### Reading lexemes -/

/-- A member is read up to its value. -/
theorem foldlM_name {stack : List Open} {done : List (Text × Json)} {opened : Bool} (name : Text)
    (rest : List Lexeme) :
    (.primitive (.text name) :: .colon :: rest).foldlM Progress.step? (.name stack done opened)
      = rest.foldlM Progress.step? (.value (.object done name :: stack) false) := by
  cases opened <;> rfl

mutual

/-- The lexemes of a value are read as that value. -/
theorem foldlM_lexemes (stack : List Open) (opened : Bool) (rest : List Lexeme) : (j : Json) →
    (j.lexemes ++ rest).foldlM Progress.step? (.value stack opened)
      = rest.foldlM Progress.step? (.after stack j)
  | .primitive value => by cases opened <;> rfl
  | .array [] => by cases opened <;> rfl
  | .array (item :: items) => by
    have hopen : Progress.step? (.value stack opened) .beginArray
        = some (.value (.array [] :: stack) true) := by
      cases opened <;> rfl
    rw [lexemes, bracket, List.cons_append, List.append_assoc, List.foldlM_cons, hopen]
    exact foldlM_items stack [] true rest (item :: items) (List.cons_ne_nil _ _)
  | .object [] => by cases opened <;> rfl
  | .object (member :: members) => by
    have hopen : Progress.step? (.value stack opened) .beginObject
        = some (.name stack [] true) := by
      cases opened <;> rfl
    rw [lexemes, bracket, List.cons_append, List.append_assoc, List.foldlM_cons, hopen]
    exact foldlM_members stack [] true rest (member :: members) (List.cons_ne_nil _ _)

/-- The items that are still to come are read to the end of the array. -/
theorem foldlM_items (stack : List Open) (done : List Json) (opened : Bool) (rest : List Lexeme) :
    (items : List Json) → items ≠ [] →
    ([Lexeme.comma].intercalate (itemLexemes items) ++ ([Lexeme.endArray] ++ rest)).foldlM
        Progress.step? (.value (.array done :: stack) opened)
      = rest.foldlM Progress.step? (.after stack (.array (done.reverse ++ items)))
  | [], h => absurd rfl h
  | [item], _ => by
    rw [itemLexemes, itemLexemes, List.intercalate_singleton, foldlM_lexemes _ opened _ item,
      ← List.reverse_cons]
    rfl
  | item :: item' :: items, _ => by
    rw [itemLexemes, itemLexemes, List.intercalate_cons_cons, ← itemLexemes, List.append_assoc,
      List.append_assoc, foldlM_lexemes _ opened _ item]
    refine (foldlM_items stack (item :: done) false rest (item' :: items)
      (List.cons_ne_nil _ _)).trans ?_
    rw [List.reverse_cons, List.append_assoc, List.singleton_append]

/-- The members that are still to come are read to the end of the object. -/
theorem foldlM_members (stack : List Open) (done : List (Text × Json)) (opened : Bool)
    (rest : List Lexeme) : (members : List (Text × Json)) → members ≠ [] →
    ([Lexeme.comma].intercalate (memberLexemes members) ++ ([Lexeme.endObject] ++ rest)).foldlM
        Progress.step? (.name stack done opened)
      = rest.foldlM Progress.step? (.after stack (.object (done.reverse ++ members)))
  | [], h => absurd rfl h
  | [(name, value)], _ => by
    rw [memberLexemes, memberLexemes, List.intercalate_singleton, List.cons_append,
      List.cons_append, foldlM_name, foldlM_lexemes _ false _ value, ← List.reverse_cons]
    rfl
  | (name, value) :: (name', value') :: members, _ => by
    rw [memberLexemes, memberLexemes, List.intercalate_cons_cons, ← memberLexemes,
      List.append_assoc, List.append_assoc, List.cons_append, List.cons_append, foldlM_name,
      foldlM_lexemes _ false _ value]
    refine (foldlM_members stack ((name, value) :: done) false rest ((name', value') :: members)
      (List.cons_ne_nil _ _)).trans ?_
    rw [List.reverse_cons, List.append_assoc, List.singleton_append]

end

theorem ofLexemes?_lexemes (j : Json) : ofLexemes? j.lexemes = some j := by
  have h := foldlM_lexemes [] false [] j
  rw [List.append_nil] at h
  rw [ofLexemes?, h]
  rfl

/-! ### Texts -/

/-- A text of a value: its lexemes, with any blanks between them. -/
def IsText (j : Json) (text : String) : Prop :=
  Lexeme.Spells j.lexemes text.toList

variable {j j' : Json} {text : String}

/-- **Every text of a value is read as that value.** -/
theorem read?_of_isText (h : IsText j text) : read? text = some j := by
  rw [read?, Lexeme.scan?_of_spells h]
  exact ofLexemes?_lexemes j

theorem IsText.unique (h : IsText j text) (h' : IsText j' text) : j = j' :=
  Option.some.inj ((read?_of_isText h).symm.trans (read?_of_isText h'))

end SearchQuery.Json
