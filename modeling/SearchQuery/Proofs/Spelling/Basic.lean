/-
SearchQuery/Proofs/Spelling/Basic.lean

Expressions written down as tokens.

A conjunction in place of an operand, or alternatives in place of a clause,
need parentheses around them; elsewhere parentheses may stand and do no
harm.

How leaves and operators are written is left open: it is the `Manner` of a
spelling.  Inside one manner each leaf and each operator is written on its
own, in any way that the manner allows.

`Spelled m place n e ts` says that the tokens `ts` spell `e` in the manner
`m`, with groups nested at most `n` deep.  It is monotone in `n`
(`Spelled.mono`), and there are no tokens in a spelling but parentheses and
those of the manner (`Spelled.forall_mem`).
-/
import SearchQuery.Proofs.Expr.Nesting
import SearchQuery.Token.Basic

namespace SearchQuery.Spelling

/-! ### Manners -/

/-- How leaves and operators are written. -/
structure Manner where
  /-- The tokens of a leaf. -/
  leaf : Expr → List Token → Prop
  /-- What stands between two operands of a conjunction. -/
  gap : List Token → Prop
  /-- What stands between two alternatives. -/
  alternative : Token → Prop

/-! ### Spellings -/

mutual

/-- Tokens that spell an expression, with groups nested at most so deep. -/
inductive Spelled (m : Manner) : Place → Nat → Expr → List Token → Prop
  | leaf {n e ts} : m.leaf e ts → Spelled m .operand n e ts
  | group {n e ts} : Spelled m .query n e ts →
      Spelled m .operand (n + 1) e (.word "(" :: (ts ++ [.word ")"]))
  | single {n e ts} : Spelled m .operand n e ts → Spelled m .clause n e ts
  | and {n es ts} : 2 ≤ es.length → SpelledAll m n es ts → Spelled m .clause n (.and es) ts
  | clause {n e ts} : Spelled m .clause n e ts → Spelled m .query n e ts
  | or {n left right ts us o} : Spelled m .query n left ts → m.alternative o →
      Spelled m .clause n right us → Spelled m .query n (.or [left, right]) (ts ++ o :: us)

/-- Tokens that spell the operands of a conjunction, with gaps between them. -/
inductive SpelledAll (m : Manner) : Nat → List Expr → List Token → Prop
  | last {n e ts} : Spelled m .operand n e ts → SpelledAll m n [e] ts
  | cons {n e es ts gap us} : Spelled m .operand n e ts → m.gap gap → SpelledAll m n es us →
      SpelledAll m n (e :: es) (ts ++ gap ++ us)

end

variable {m : Manner}

mutual

/-- Nothing else is asked where groups may be nested deeper. -/
theorem Spelled.mono {place : Place} {n k : Nat} {e : Expr} {ts : List Token} :
    Spelled m place n e ts → n ≤ k → Spelled m place k e ts
  | .leaf hleaf, _ => .leaf hleaf
  | .group h, hk => by
    obtain ⟨k, rfl⟩ := Nat.exists_eq_add_one.2 (Nat.lt_of_lt_of_le (Nat.succ_pos _) hk)
    exact .group (h.mono (Nat.le_of_succ_le_succ hk))
  | .single h, hk => .single (h.mono hk)
  | .and hlen h, hk => .and hlen (h.mono hk)
  | .clause h, hk => .clause (h.mono hk)
  | .or hleft ho hright, hk => .or (hleft.mono hk) ho (hright.mono hk)

theorem SpelledAll.mono {n k : Nat} {es : List Expr} {ts : List Token} :
    SpelledAll m n es ts → n ≤ k → SpelledAll m k es ts
  | .last h, hk => .last (h.mono hk)
  | .cons h hgap hes, hk => .cons (h.mono hk) hgap (hes.mono hk)

end

/-! ### The tokens of a spelling -/

/-- A property of all tokens that a manner uses. -/
structure Manner.Keeps (m : Manner) (P : Token → Prop) : Prop where
  leaf : ∀ {e ts}, m.leaf e ts → ∀ t ∈ ts, P t
  gap : ∀ {ts}, m.gap ts → ∀ t ∈ ts, P t
  alternative : ∀ {t}, m.alternative t → P t
  opens : P (.word "(")
  closes : P (.word ")")

theorem Manner.Keeps.imp {P Q : Token → Prop} (hPQ : ∀ t, P t → Q t) (h : m.Keeps P) :
    m.Keeps Q where
  leaf hleaf t ht := hPQ t (h.leaf hleaf t ht)
  gap hgap t ht := hPQ t (h.gap hgap t ht)
  alternative ht := hPQ _ (h.alternative ht)
  opens := hPQ _ h.opens
  closes := hPQ _ h.closes

mutual

/-- What the tokens of a manner keep, the tokens of its spellings keep. -/
theorem Spelled.forall_mem {P : Token → Prop} (hm : m.Keeps P) {place : Place} {n : Nat}
    {e : Expr} {ts : List Token} : Spelled m place n e ts → ∀ t ∈ ts, P t
  | .leaf hleaf => hm.leaf hleaf
  | .group h => by
    refine List.forall_mem_cons.2 ⟨hm.opens, List.forall_mem_append.2 ⟨h.forall_mem hm, ?_⟩⟩
    exact List.forall_mem_singleton.2 hm.closes
  | .single h | .clause h => h.forall_mem hm
  | .and _ h => h.forall_mem hm
  | .or hleft ho hright => by
    refine List.forall_mem_append.2 ⟨hleft.forall_mem hm, ?_⟩
    exact List.forall_mem_cons.2 ⟨hm.alternative ho, hright.forall_mem hm⟩

theorem SpelledAll.forall_mem {P : Token → Prop} (hm : m.Keeps P) {n : Nat}
    {es : List Expr} {ts : List Token} : SpelledAll m n es ts → ∀ t ∈ ts, P t
  | .last h => h.forall_mem hm
  | .cons h hgap hes => by
    refine List.forall_mem_append.2 ⟨?_, hes.forall_mem hm⟩
    exact List.forall_mem_append.2 ⟨h.forall_mem hm, hm.gap hgap⟩

end

end SearchQuery.Spelling
