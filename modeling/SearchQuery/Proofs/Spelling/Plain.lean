/-
SearchQuery/Proofs/Spelling/Plain.lean

The written form of an expression as a query.

The written form has no quotes: a free text stands there as the words of
which it consists.  Such words must not be taken for anything else, and
`IsWord` says which words are safe; lower-case `and` and `or` are.  An
expression with nothing but such leaves is plain.

Every operator has its parentheses in the written form, so a plain
expression stands there as an operand, with as many groups one inside the
other as there are operators (`exists_spelled_render`), and compiles to
what it was (`compile_render`).
-/
import SearchQuery.Proofs.Expr.Regular
import SearchQuery.Proofs.Spelling.Leaves

namespace SearchQuery.Spelling

open Grammar

/-! ### Plain expressions -/

/-- A word that is read as free text where words are read, given the keys
that are allowed. -/
structure IsWord (keys : List String) (w : String) : Prop where
  plain : Token.IsPlain w
  operand : w ≠ "AND" ∧ w ≠ "OR"
  key : ∀ key ∈ (Token.word w).key?, key ∉ keys ∧ Text.caseless key "sort" = false

instance (keys : List String) (w : String) : Decidable (IsWord keys w) :=
  decidable_of_iff (Token.IsPlain w ∧ (w ≠ "AND" ∧ w ≠ "OR") ∧
      ∀ key ∈ (Token.word w).key?, key ∉ keys ∧ Text.caseless key "sort" = false)
    ⟨fun ⟨hplain, hop, hkey⟩ => ⟨hplain, hop, hkey⟩, fun ⟨hplain, hop, hkey⟩ => ⟨hplain, hop, hkey⟩⟩

/-- A leaf that can be written without quotes, and the words in which it is
written.  A text of several words has no colon in the first. -/
inductive PlainLeaf (keys : List String) : Expr → List String → Prop
  | value {text w ws} : (∀ v ∈ w :: ws, IsWord keys v) → ws = [] ∨ ':' ∉ w.toList →
      text = " ".intercalate (w :: ws) → PlainLeaf keys (.value text) (w :: ws)
  | filter {f : Filter} : f.key ∈ keys → Text.caseless f.key "sort" = false →
      Token.Undelimited f.key → ':' ∉ f.key.toList → Token.IsPlain f.value →
      PlainLeaf keys (.filter f) [f.render]

/-- An expression of which all leaves can be written without quotes. -/
def IsPlain (keys : List String) (e : Expr) : Prop :=
  e.Regular fun leaf => ∃ words, PlainLeaf keys leaf words

/-- The manner of the written form. -/
def plain (keys : List String) : Manner :=
  capitals fun e ts => ∃ words, PlainLeaf keys e words ∧ ts = words.map Token.word

variable {keys : List String} {e : Expr}

/-! ### Words -/

namespace IsWord

variable {w : String} (h : IsWord keys w)
include h

theorem isOperator : (Token.word w).isOperator = false := by
  simp [Token.isOperator, Token.word, h.operand]

/-- A word is no parenthesis, because it has none in it. -/
theorem text_ne {s : String} (hs : s = "(" ∨ s = ")") : w ≠ s := by
  rintro rfl
  rcases hs with rfl | rfl
  · exact absurd (h.plain.2 '(' (by decide)) (by decide)
  · exact absurd (h.plain.2 ')' (by decide)) (by decide)

theorem opens : (Token.word w).opens = false :=
  beq_eq_false_iff_ne.2 (h.text_ne (.inl rfl))

theorem continuesRun : continuesRun (fun key => decide (key ∈ keys)) (.word w) = true := by
  have hclose : (Token.word w).closes = false :=
    beq_eq_false_iff_ne.2 (h.text_ne (.inr rfl))
  have hkey : (Token.word w).key?.any (fun key => decide (key ∈ keys)) = false := by
    rw [Option.any_eq_false]
    intro key hkey
    simpa using (h.key key hkey).1
  rw [Grammar.continuesRun, hkey, h.isOperator, h.opens, hclose]
  rfl

end IsWord

theorem joinWords_map_word (words : List String) :
    joinWords (words.map Token.word) = " ".intercalate words := by
  rw [joinWords, List.map_map]
  exact congrArg _ (List.map_id _)

/-! ### The manner of the written form -/

theorem gives_word {w : String} (h : IsWord keys w) (hmem : ':' ∈ w.toList)
    (inside : List Token → Reading (Option Expr)) (ts : List Token) :
    Gives (operand (fun key => decide (key ∈ keys)) inside (.word w) ts) 1 []
      (some (.value w)) := by
  obtain ⟨⟨key, argument⟩, hcut⟩ : ∃ halves, Text.cutAtColon w = some halves :=
    Option.ne_none_iff_exists'.1 fun hcut => Text.cutAtColon_eq_none_iff.1 hcut hmem
  have hkey : decide (key ∈ keys) = false := by
    simpa using (h.key key (by simp [Token.key?, Token.word, hcut])).1
  exact gives_literal (t := .word w) hcut hkey ts

theorem gives_words {w : String} {ws : List String} (hw : IsWord keys w)
    (hws : ∀ v ∈ ws, IsWord keys v) (hmem : ':' ∉ w.toList)
    (inside : List Token → Reading (Option Expr)) {rest : List Token}
    (hstop : StopsRun (fun key => decide (key ∈ keys)) rest) :
    Gives (operand (fun key => decide (key ∈ keys)) inside (.word w)
        (ws.map Token.word ++ rest))
      ((w :: ws).map Token.word).length [] (some (.value (" ".intercalate (w :: ws)))) := by
  have hblank : ∀ t ∈ (w :: ws).map Token.word,
      t.text ≠ "" ∧ ∀ c ∈ t.text.toList, Text.isBlank c = false := by
    refine List.forall_mem_map.2 fun v hv => ?_
    have hplain := (List.forall_mem_cons.2 ⟨hw, hws⟩ v hv).plain
    exact ⟨hplain.1, hplain.not_blank⟩
  obtain ⟨htrim, hne⟩ := isTrimmed_joinWords hblank
  rw [← joinWords_map_word]
  refine gives_run rfl hw.isOperator hw.opens hmem ?_ hstop (Text.trimmed?_eq_self htrim hne)
  exact List.forall_mem_map.2 fun v hv => (hws v hv).continuesRun

theorem legible_plain :
    Legible (fun key => decide (key ∈ keys)) (StopsRun fun key => decide (key ∈ keys))
      (plain keys) := by
  refine legible_capitals fun {e ts} h => ?_
  obtain ⟨words, hleaf, rfl⟩ := h
  cases hleaf with
  | @value text w ws hwords hcolon htext =>
    subst htext
    obtain ⟨hw, hws⟩ := List.forall_mem_cons.1 hwords
    refine ⟨.word w, ws.map Token.word, rfl, fun inside rest hstop => ?_⟩
    by_cases hmem : ':' ∈ w.toList
    · -- a word with a colon stands alone
      obtain rfl := hcolon.resolve_right (not_not_intro hmem)
      rw [String.intercalate_singleton]
      exact gives_word hw hmem inside rest
    · -- otherwise the first word begins a run, and the others go on with it
      exact gives_words hw hws hmem inside hstop
  | @filter f hallowed _ _ hcolon hvalue =>
    refine ⟨.word f.render, [], rfl, fun inside rest _ => ?_⟩
    exact gives_filter rfl hcolon (decide_eq_true hallowed)
      hvalue.isTrimmed hvalue.1 rest

theorem keeps_directive?_plain : (plain keys).Keeps fun t => t.directive? = none := by
  refine keeps_capitals (fun {e ts} h => ?_) (by decide)
  obtain ⟨words, hleaf, rfl⟩ := h
  refine List.forall_mem_map.2 fun w hw => Token.directive?_word fun key hkey => ?_
  cases hleaf with
  | value hwords => exact ((hwords w hw).key key hkey).2
  | @filter f _ hsort _ hcolon =>
    obtain rfl := List.mem_singleton.1 hw
    have hcut : Text.cutAtColon f.render = some (f.key, f.value) :=
      Text.cutAtColon_eq_some_iff.2 ⟨rfl, hcolon⟩
    obtain rfl : f.key = key := by simpa [Token.key?, Token.word, hcut] using hkey
    exact hsort

/-! ### The written form -/

theorem PlainLeaf.render_eq {words : List String} (h : PlainLeaf keys e words) :
    e.render = " ".intercalate words := by
  cases h with
  | value _ _ htext => exact htext
  | filter => exact String.intercalate_singleton.symm

theorem PlainLeaf.isPlain {words : List String} (h : PlainLeaf keys e words) :
    ∀ w ∈ words, Token.IsPlain w := by
  cases h with
  | value hwords => exact fun w hw => (hwords w hw).plain
  | filter _ _ hkey _ hvalue => exact List.forall_mem_singleton.2 (.colon hkey hvalue)

theorem PlainLeaf.layout {words : List String} (h : PlainLeaf keys e words) :
    Token.Layout (words.map Token.word) e.render.toList := by
  have hwell : ∀ t ∈ words.map Token.word, t.WellFormed :=
    List.forall_mem_map.2 fun w hw => .inr (.inr (h.isPlain w hw))
  have hwrite : Token.writeAll (words.map Token.word) = e.render := by
    rw [Token.writeAll, List.map_map, h.render_eq]
    exact congrArg _ (List.map_id _)
  rw [← hwrite]
  exact Token.layout_writeAll hwell

/-- The operands of a conjunction in the written form. -/
theorem exists_spelledAll_render {n : Nat} {es : List Expr} (hne : es ≠ [])
    (h : ∀ e ∈ es, ∃ ts, Spelled (plain keys) .operand n e ts ∧
      Token.Layout ts e.render.toList) :
    ∃ ts, SpelledAll (plain keys) n es ts ∧
      Token.Layout ts (" AND ".intercalate (Expr.renderAll es)).toList := by
  induction es with
  | nil => exact absurd rfl hne
  | cons e es ih =>
    obtain ⟨⟨ts, hts, hlayout⟩, hes⟩ := List.forall_mem_cons.1 h
    cases es with
    | nil =>
      refine ⟨ts, .last hts, ?_⟩
      simpa [Expr.renderAll] using hlayout
    | cons e' es =>
      obtain ⟨us, hus, hlayouts⟩ := ih (List.cons_ne_nil _ _) hes
      have hjoined : (" AND ".intercalate (Expr.renderAll (e :: e' :: es))).toList
          = e.render.toList ++ ' ' :: ("AND".toList
              ++ ' ' :: (" AND ".intercalate (Expr.renderAll (e' :: es))).toList) := by
        rw [Expr.renderAll, Expr.renderAll, String.intercalate_cons_cons]
        simp only [String.toList_append, List.append_assoc]
        rfl
      -- the `AND` has a space on each side, so it is a word of its own
      refine ⟨_, .cons hts gap_capitals hus, ?_⟩
      rw [hjoined, List.append_assoc]
      exact .append (Token.endsWord_space _) hlayout (.spaced (by decide) hlayouts)

/-- In the written form an expression is an operand, with a group for each
operator on the way down. -/
theorem exists_spelled_render (he : IsPlain keys e) {n : Nat} (hn : e.height ≤ n) :
    ∃ ts, Spelled (plain keys) .operand n e ts ∧ Token.Layout ts e.render.toList := by
  induction he generalizing n with
  | leaf hleaf =>
    obtain ⟨words, hwords⟩ := hleaf
    exact ⟨_, .leaf ⟨words, hwords, rfl⟩, hwords.layout⟩
  | @and es hlen _ ih =>
    obtain ⟨k, rfl⟩ := Nat.exists_eq_add_one.2 (Nat.lt_of_lt_of_le (Nat.succ_pos _) hn)
    have hes : es ≠ [] := by
      rintro rfl
      cases hlen
    -- the parentheses of the operator, and one group less inside them
    obtain ⟨ts, hts, hlayout⟩ := exists_spelledAll_render hes fun e he =>
      ih e he (Nat.le_trans (Expr.height_le_of_mem he) (Nat.le_of_succ_le_succ hn))
    refine ⟨_, .group (.clause (.and hlen hts)), ?_⟩
    have hrender : (Expr.and es).render.toList
        = '(' :: ((" AND ".intercalate (Expr.renderAll es)).toList ++ [')']) := by
      rw [Expr.render, Expr.renderGroup]
      simp only [String.toList_append]
      rfl
    rw [hrender]
    exact hlayout.group
  | @or left right _ _ ihl ihr =>
    obtain ⟨k, rfl⟩ := Nat.exists_eq_add_one.2 (Nat.lt_of_lt_of_le (Nat.succ_pos _) hn)
    have hk := Nat.le_of_succ_le_succ hn
    obtain ⟨ts, hts, hlayout⟩ :=
      ihl (Nat.le_trans (Expr.height_le_of_mem (by simp)) hk)
    obtain ⟨us, hus, hlayout'⟩ :=
      ihr (Nat.le_trans (Expr.height_le_of_mem (by simp)) hk)
    refine ⟨_, .group (.or (.clause (.single hts)) alternative_capitals (.single hus)), ?_⟩
    have hrender : (Expr.or [left, right]).render.toList
        = '(' :: (left.render.toList ++ ' ' :: ("OR".toList
            ++ ' ' :: right.render.toList) ++ [')']) := by
      rw [Expr.render, Expr.renderGroup, Expr.renderAll, Expr.renderAll, Expr.renderAll,
        String.intercalate_cons_cons, String.intercalate_singleton]
      simp only [String.toList_append, List.append_assoc]
      rfl
    rw [hrender]
    exact .group (.append (Token.endsWord_space _) hlayout (.spaced (by decide) hlayout'))

/-- **The written form of a plain expression compiles to this expression.** -/
theorem compile_render (he : IsPlain keys e) (hheight : e.height ≤ maxDepth) :
    ∃ q, Query.compile keys e.render = .ok q ∧ q.IsFor keys e := by
  obtain ⟨ts, hts, hlayout⟩ := exists_spelled_render he hheight
  exact compile_of_spelled legible_plain keeps_directive?_plain (.clause (.single hts)) hlayout

/-- Words in lower case beside operators, a colon behind a key that is not
allowed, and a conjunction inside a conjunction. -/
theorem compile_render_nested :
    let e := Expr.and [.or [.value "rust and lean", .value "re:x"],
      .and [.filter ⟨"tag", "a:b"⟩, .value "or"]]
    IsPlain ["tag"] e ∧ e.height ≤ maxDepth ∧
      ∃ q, Query.compile ["tag"] "((rust and lean OR re:x) AND (tag:a:b AND or))" = .ok q ∧
        q.IsFor ["tag"] e := by
  have hleft : IsPlain ["tag"] (.or [.value "rust and lean", .value "re:x"]) :=
    .or (.leaf ⟨["rust", "and", "lean"], .value (by decide) (.inr (by decide)) (by decide)⟩)
      (.leaf ⟨["re:x"], .value (by decide) (.inl rfl) (by decide)⟩)
  have hfilter : IsPlain ["tag"] (.filter ⟨"tag", "a:b"⟩) :=
    .leaf ⟨_, .filter (by decide) (by decide) (by decide) (by decide) (by decide)⟩
  have hor : IsPlain ["tag"] (.value "or") :=
    .leaf ⟨["or"], .value (by decide) (.inl rfl) (by decide)⟩
  have hright : IsPlain ["tag"] (.and [.filter ⟨"tag", "a:b"⟩, .value "or"]) :=
    .and (by decide) (List.forall_mem_cons.2 ⟨hfilter, List.forall_mem_singleton.2 hor⟩)
  have he : IsPlain ["tag"] (.and [_, _]) :=
    .and (by decide) (List.forall_mem_cons.2 ⟨hleft, List.forall_mem_singleton.2 hright⟩)
  exact ⟨he, by decide, compile_render he (by decide)⟩

end SearchQuery.Spelling
