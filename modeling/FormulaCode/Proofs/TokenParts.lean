import FormulaCode.Proofs.Validation

/-! # What a sequence holds at all depths

The tokens of a sequence at all depths come in the order of the text, each group before what is
inside it. The operands and operators of the sequence, its known aliases and the number of its
operators can all be read off that list, without the recursion into groups. -/

namespace FormulaCode

namespace Token

/-- The operand or operator that a token is on its own; a group is neither. -/
def item? : Token → Option (Side ⊕ Operator)
  | var name => some (.inl (.var name .any))
  | literal value => some (.inl (.literal value))
  | operator sign => (Operator.ofAlias? sign).map .inr
  | group _ => none

/-- The number of operators in a sequence, at all depths. -/
def operatorCount (ts : List Token) : Nat := (partsAll ts).countP isOperator

mutual

theorem items_eq_filterMap : ∀ t : Token, items t = (parts t).filterMap item?
  | .var _ => rfl
  | .literal _ => rfl
  | .operator sign => by
      rw [items, parts, List.filterMap_cons, item?]
      cases Operator.ofAlias? sign with
      | none => rfl
      | some o => rfl
  | .group ts => by
      rw [items, parts, List.filterMap_cons, item?, itemsAll_eq_filterMap]

/-- The operands and operators of a sequence are those of its tokens at all depths. -/
theorem itemsAll_eq_filterMap : ∀ ts : List Token, itemsAll ts = (partsAll ts).filterMap item?
  | [] => rfl
  | t :: ts => by
      rw [itemsAll, partsAll, List.filterMap_append, items_eq_filterMap, itemsAll_eq_filterMap]

end

mutual

theorem signKnown_iff : ∀ t : Token, signKnown t = true ↔
    ∀ sign, .operator sign ∈ parts t → (Operator.ofAlias? sign).isSome = true
  | .var _ => by simp [signKnown, parts]
  | .literal _ => by simp [signKnown, parts]
  | .operator _ => by simp [signKnown, parts]
  | .group ts => by simp [signKnown, parts, signsKnown_iff ts]

/-- All aliases of a sequence are known if each of them is, at all depths. -/
theorem signsKnown_iff : ∀ ts : List Token, signsKnown ts = true ↔
    ∀ sign, .operator sign ∈ partsAll ts → (Operator.ofAlias? sign).isSome = true
  | [] => by simp [signsKnown, partsAll]
  | t :: ts => by
      rw [signsKnown, Bool.and_eq_true, signKnown_iff, signsKnown_iff]
      simp only [partsAll, List.mem_append, or_imp, forall_and]

end

variable {ts : List Token}

/-- The variables among the operands of a sequence are its variable tokens. -/
theorem var_mem_itemsAll_iff {name : String} {t : DataType} :
    .inl (.var name t) ∈ itemsAll ts ↔ t = .any ∧ .var name ∈ partsAll ts := by
  rw [itemsAll_eq_filterMap, List.mem_filterMap]
  constructor
  · rintro ⟨u, hu, hitem⟩
    cases u with
    | var n =>
        cases hitem
        exact ⟨rfl, hu⟩
    | literal value => cases hitem
    | operator sign =>
        obtain ⟨o, -, ho⟩ := Option.map_eq_some_iff.1 hitem
        cases ho
    | group inner => cases hitem
  · rintro ⟨rfl, hmem⟩
    exact ⟨_, hmem, rfl⟩

/-- Where all aliases are known, every operator token is an operator of the sequence. -/
theorem countP_isRight_itemsAll (h : signsKnown ts = true) :
    (itemsAll ts).countP Sum.isRight = operatorCount ts := by
  rw [itemsAll_eq_filterMap, List.countP_filterMap, operatorCount]
  refine List.countP_congr fun t ht => ?_
  cases t with
  | var | literal | group => simp [item?, isOperator]
  | operator sign =>
      obtain ⟨o, ho⟩ := Option.isSome_iff_exists.1 ((signsKnown_iff ts).1 h sign ht)
      simp [item?, isOperator, ho]

end Token

/-- A side has as many nodes as it has operators. -/
theorem Side.countP_isRight_items (s : Side) : s.items.countP Sum.isRight = s.nodeCount := by
  induction s with
  | literal | var | empty => rfl
  | nested l o r ihl ihr =>
      simp only [items, nodeCount, List.countP_append, List.countP_cons, ihl, ihr]
      simp [Nat.add_assoc]

namespace Derives

variable {levels : List Operator} {ts : List Token} {s : Side}

/-- No alias of a derived sequence is unknown, at all depths. -/
theorem signsKnown (h : Derives levels ts s) : Token.signsKnown ts = true := by
  induction h with
  | var | literal => rfl
  | group _ ih => simpa [Token.signsKnown, Token.signKnown] using ih
  | tighter _ ih => exact ih
  | apply hs _ _ ihl ihr =>
      simp [Token.signsKnown_append, Token.signsKnown, Token.signKnown, hs, ihl, ihr]

/-- A derived side has one node for each operator of its tokens. -/
theorem nodeCount_eq (h : Derives levels ts s) : s.nodeCount = Token.operatorCount ts := by
  rw [← s.countP_isRight_items, h.items_eq, Token.countP_isRight_itemsAll h.signsKnown]

end Derives

end FormulaCode
