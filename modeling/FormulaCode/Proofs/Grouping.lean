import FormulaCode.Proofs.Grammar

/-! # Grouping follows the grammar

A sequence is grouped by a search for the loosest operator, the first one of its kind, and by
grouping both parts again. That gives exactly the trees of the stratified grammar: a
derivation fixes what the search finds, and what the search finds is a derivation. -/

namespace FormulaCode

open Token

/-- The loosest operator of a sequence has no looser one in the sequence, and none of its own
kind before it. -/
theorem splitLoosest?_eq_some_iff {ts ls rs : List Token} {o : Operator} :
    splitLoosest? ts = some (o, ls, rs) ↔ ∃ pre levels,
      Operator.precedence = pre ++ o :: levels ∧
        (∀ p ∈ pre, ∀ t ∈ ts, t.operator? ≠ some p) ∧ splitAt? o ts = some (ls, rs) := by
  simp only [splitLoosest?, List.findSome?_eq_some_iff, Option.map_eq_some_iff,
    Option.map_eq_none_iff, splitAt?_eq_none_iff, Prod.mk.injEq]
  constructor
  · rintro ⟨pre, p, levels, hp, ⟨r, hr, rfl, rfl⟩, hpre⟩
    exact ⟨pre, levels, hp, hpre, hr⟩
  · rintro ⟨pre, levels, hp, hpre, hs⟩
    exact ⟨pre, o, levels, hp, ⟨_, hs, rfl, rfl⟩, hpre⟩

namespace Tree

theorem ofTokens_of_unknown {ts : List Token} {sign : String}
    (h : ts.findSome? unknownSign? = some sign) : ofTokens ts = .error (.unknownOperator sign) := by
  unfold ofTokens
  simp only [h]

theorem ofTokens_singleton {t : Token} (h : [t].findSome? unknownSign? = none) :
    ofTokens [t] = sideOfToken t >>= fun s => .ok (ofSide s) := by
  unfold ofTokens
  simp only [h]
  rfl

theorem ofTokens_of_noOperator {ts : List Token} (h : ts.findSome? unknownSign? = none)
    (hlen : ∀ t, ts = [t] → False) (hs : splitLoosest? ts = none) :
    ofTokens ts = .error (.structural (.noOperator ts.length)) := by
  rw [ofTokens]
  · simp only [h]
    split
    · rfl
    · next he =>
        rw [hs] at he
        cases he
  · exact hlen

theorem ofTokens_of_split {ts ls rs : List Token} {o : Operator}
    (h : ts.findSome? unknownSign? = none) (hlen : ∀ t, ts = [t] → False)
    (hs : splitLoosest? ts = some (o, ls, rs)) :
    ofTokens ts = sideOfTokens ls >>= fun l => sideOfTokens rs >>= fun r => .ok ⟨l, o, r⟩ := by
  rw [ofTokens]
  · simp only [h]
    split
    · next hn =>
        rw [hs] at hn
        cases hn
    · next he =>
        rw [hs] at he
        cases he
        rfl
  · exact hlen

theorem sideOfToken_group (ts : List Token) :
    sideOfToken (.group ts) = ofTokens ts >>= fun tree => .ok tree.toSide := by
  rw [sideOfToken]
  rfl

theorem sideOfTokens_singleton (t : Token) : sideOfTokens [t] = sideOfToken t := by
  rw [sideOfTokens]

theorem sideOfTokens_of_ne {ts : List Token} (hn : ts = [] → False)
    (hlen : ∀ t, ts = [t] → False) :
    sideOfTokens ts = ofTokens ts >>= fun tree => .ok tree.toSide := by
  rw [sideOfTokens]
  · rfl
  · exact hn
  · exact hlen

/-- A formula on a side is the tree that it was. -/
theorem toSide_ofSide {s : Side} (h : s.isFormula = true) : (ofSide s).toSide = s := by
  cases s with
  | literal | var => rfl
  | empty => cases h
  | nested l o r =>
      simp only [Side.isFormula, Bool.and_eq_true] at h
      have hl : l.isEmpty = false := by cases l <;> simp_all [Side.isFormula, Side.isEmpty]
      have hr : r.isEmpty = false := by cases r <;> simp_all [Side.isFormula, Side.isEmpty]
      simp [ofSide, toSide, hl, hr]

end Tree

namespace Derives

variable {levels : List Operator} {ts : List Token} {s : Side}

/-- The search finds the operator that a derivation applies last. -/
theorem splitLoosest?_append {pre : List Operator} {o : Operator}
    (hp : Operator.precedence = pre ++ o :: levels) {ls rs : List Token} {sign : String} {l r : Side}
    (hs : Operator.ofAlias? sign = some o) (hl : Derives levels ls l)
    (hr : Derives (o :: levels) rs r) :
    splitLoosest? (ls ++ .operator sign :: rs) = some (o, ls, rs) := by
  obtain ⟨hpre, ho⟩ := Operator.not_mem_of_precedence hp
  refine splitLoosest?_eq_some_iff.2 ⟨pre, levels, hp, ?_, splitAt?_append hs ?_⟩
  · intro p hp t ht hto
    exact hpre p hp ((Derives.apply hs hl hr).operator_mem ht hto)
  · intro t ht hto
    exact ho (hl.operator_mem ht hto)

/-- What the grammar derives is what grouping gives. -/
theorem ofTokens_eq (h : Derives levels ts s) (hl : levels <:+ Operator.precedence) :
    Tree.sideOfTokens ts = .ok s ∧ Tree.ofTokens ts = .ok (Tree.ofSide s) := by
  induction h with
  | var | literal =>
      rw [Tree.sideOfTokens_singleton, Tree.ofTokens_singleton rfl, Tree.sideOfToken]
      exact ⟨rfl, rfl⟩
  | group h ih =>
      rw [Tree.sideOfTokens_singleton, Tree.ofTokens_singleton rfl, Tree.sideOfToken_group,
        (ih (List.suffix_refl _)).2, ok_bind, Tree.toSide_ofSide h.isFormula]
      exact ⟨rfl, rfl⟩
  | tighter _ ih => exact ih ((List.suffix_cons _ _).trans hl)
  | @apply o levels ls rs sign l r hs h₁ h₂ ih₁ ih₂ =>
      have h := Derives.apply hs h₁ h₂
      have hlen : ∀ t, ls ++ Token.operator sign :: rs = [t] → False := by
        intro t ht
        have := List.length_pos_iff.2 h₁.ne_nil
        have := congrArg List.length ht
        simp only [List.length_append, List.length_cons, List.length_nil] at this
        omega
      have hl' : levels <:+ Operator.precedence := (List.suffix_cons _ _).trans hl
      obtain ⟨pre, hpre⟩ := id hl
      have htree : Tree.ofTokens (ls ++ Token.operator sign :: rs) = .ok ⟨l, o, r⟩ := by
        rw [Tree.ofTokens_of_split h.unknownSign?_eq_none hlen
          (splitLoosest?_append hpre.symm hs h₁ h₂), (ih₁ hl').1, ok_bind, (ih₂ hl).1, ok_bind]
      refine ⟨?_, htree⟩
      rw [Tree.sideOfTokens_of_ne h.ne_nil hlen, htree, ok_bind]
      exact congrArg Except.ok (Tree.toSide_ofSide h.isFormula)

/-- A sequence has one derivation at most. -/
theorem unique {s' : Side} (h : Derives Operator.precedence ts s)
    (h' : Derives Operator.precedence ts s') : s' = s := by
  have he := (h.ofTokens_eq (List.suffix_refl _)).1
  rw [(h'.ofTokens_eq (List.suffix_refl _)).1] at he
  exact Except.ok.inj he

end Derives

namespace Tree

/-- The parts of a split and the operator between them derive the whole. -/
theorem derives_of_splitLoosest? {ts ls rs : List Token} {o : Operator} {l r : Side}
    (h : splitLoosest? ts = some (o, ls, rs)) (hl : Derives Operator.precedence ls l)
    (hr : Derives Operator.precedence rs r) : Derives Operator.precedence ts (.nested l o r) := by
  obtain ⟨pre, levels, hp, hpre, hs⟩ := splitLoosest?_eq_some_iff.1 h
  obtain ⟨t, rfl, ht, hls⟩ := eq_append_of_splitAt? hs
  obtain ⟨sign, rfl, hsign⟩ := operator?_eq_some_iff.1 ht
  rw [hp] at hl hr ⊢
  have right : Derives (o :: levels) rs r :=
    hr.tighten fun p hp' t ht => hpre p hp' t (by simp [ht])
  have left : Derives ([o] ++ levels) ls l :=
    hl.tighten fun p hp' t ht => hpre p hp' t (by simp [ht])
  exact (Derives.apply hsign (left.tighten (by simpa using hls)) right).loosen pre

/-- What grouping gives is what the grammar derives, for sequences, their parts and single
tokens. -/
theorem derives_of_grouping :
    (∀ ts tree, ofTokens ts = .ok tree →
        ∃ s, Derives Operator.precedence ts s ∧ tree = ofSide s) ∧
      (∀ ts s, sideOfTokens ts = .ok s → Derives Operator.precedence ts s) ∧
      ∀ t s, sideOfToken t = .ok s → Derives [] [t] s := by
  refine ofTokens.mutual_induct
    (fun ts => ∀ tree, ofTokens ts = .ok tree →
      ∃ s, Derives Operator.precedence ts s ∧ tree = ofSide s)
    (fun ts => ∀ s, sideOfTokens ts = .ok s → Derives Operator.precedence ts s)
    (fun t => ∀ s, sideOfToken t = .ok s → Derives [] [t] s)
    ?_ ?_ ?_ ?_ ?_ ?_ ?_ ?_ ?_ ?_ ?_
  -- whole sequences: an unknown alias, one token, no operator, a split
  · intro ts sign hu tree h
    rw [ofTokens_of_unknown hu] at h
    cases h
  · intro t hu ih tree h
    rw [ofTokens_singleton hu] at h
    obtain ⟨s, hs, h⟩ := bind_eq_ok_iff.1 h
    exact ⟨s, (ih s hs).loosen Operator.precedence, (Except.ok.inj h).symm⟩
  · intro ts hlen hs hu tree h
    rw [ofTokens_of_noOperator hu hlen hs] at h
    cases h
  · intro ts hlen o ls rs hs hu ihl ihr tree h
    rw [ofTokens_of_split hu hlen hs] at h
    obtain ⟨l, hl, h⟩ := bind_eq_ok_iff.1 h
    obtain ⟨r, hr, h⟩ := bind_eq_ok_iff.1 h
    exact ⟨.nested l o r, derives_of_splitLoosest? hs (ihl l hl) (ihr r hr),
      (Except.ok.inj h).symm⟩
  -- parts of a split: none, one token, several
  · intro s h
    rw [sideOfTokens] at h
    cases h
  · intro t ih s h
    rw [sideOfTokens_singleton] at h
    exact (ih s h).loosen Operator.precedence
  · intro ts hn hlen ih s h
    rw [sideOfTokens_of_ne hn hlen] at h
    obtain ⟨tree, ht, h⟩ := bind_eq_ok_iff.1 h
    obtain ⟨s', hs', rfl⟩ := ih tree ht
    obtain rfl : (ofSide s').toSide = s := Except.ok.inj h
    rwa [toSide_ofSide hs'.isFormula]
  -- single tokens
  · intro name s h
    rw [sideOfToken] at h
    obtain rfl := Except.ok.inj h
    exact .var
  · intro value s h
    rw [sideOfToken] at h
    obtain rfl := Except.ok.inj h
    exact .literal
  · intro sign s h
    rw [sideOfToken] at h
    cases h
  · intro ts ih s h
    rw [sideOfToken_group] at h
    obtain ⟨tree, ht, h⟩ := bind_eq_ok_iff.1 h
    obtain ⟨s', hs', rfl⟩ := ih tree ht
    obtain rfl : (ofSide s').toSide = s := Except.ok.inj h
    rw [toSide_ofSide hs'.isFormula]
    exact .group hs'

/-- The tree of a formula is derived from its tokens, once they are accepted. -/
theorem parse_eq_ok_iff_derives {source : String} {t : Tree} : parse source = .ok t ↔
    ∃ ts s, scan source = .ok ts ∧ validate ts = .ok () ∧ Derives Operator.precedence ts s ∧
      t = ofSide s := by
  constructor
  · intro h
    obtain ⟨ts, hts, h⟩ := bind_eq_ok_iff.1 h
    obtain ⟨⟨⟩, hv, h⟩ := bind_eq_ok_iff.1 h
    obtain ⟨s, hs, rfl⟩ := derives_of_grouping.1 ts t h
    exact ⟨ts, s, hts, hv, hs, rfl⟩
  · rintro ⟨ts, s, hts, hv, hs, rfl⟩
    rw [parse, hts, ok_bind, hv, ok_bind]
    exact (hs.ofTokens_eq (List.suffix_refl _)).2

end Tree

/-- The side of a sequence by the grammar, and the tree that grouping makes of it. -/
structure GrammarTree (ts : List Token) (s : Side) : Prop where
  /-- The side is derived from the sequence. -/
  derives : Derives Operator.precedence ts s
  /-- No other side is. -/
  unique : ∀ s', Derives Operator.precedence ts s' → s' = s
  /-- Grouping gives the node of a nested side. -/
  node : ∀ l o r, s = .nested l o r → Tree.ofTokens ts = .ok ⟨l, o, r⟩
  /-- A lone operand stands in front of an empty side, with an addition between them. -/
  single : s.isNested = false → Tree.ofTokens ts = .ok ⟨s, .add, .empty⟩
  /-- No operand or operator is lost, doubled or moved. -/
  items : s.items = itemsAll ts
  /-- Every kind of operator groups to the right, behind what is tighter. -/
  right : ∀ pre o levels, Operator.precedence = pre ++ o :: levels →
    ∀ ls sign rs, ts = ls ++ .operator sign :: rs → Operator.ofAlias? sign = some o →
      (∀ t ∈ ls, ∀ p, t.operator? = some p → p ∈ levels) →
      (∀ t ∈ rs, ∀ p, t.operator? = some p → p ∈ o :: levels) →
      ∃ l r, Derives levels ls l ∧ Derives (o :: levels) rs r ∧ s = .nested l o r

/-- Grouping gives the tree of the stratified grammar for every alternating sequence whose
aliases are known. -/
theorem exists_grammarTree {ts : List Token} (ha : alternates ts = true)
    (hk : signsKnown ts = true) : ∃ s, GrammarTree ts s := by
  obtain ⟨s, h⟩ := exists_derives ha hk fun t _ o ho => mem_precedence_of_operator? ho
  have htree := (h.ofTokens_eq (List.suffix_refl _)).2
  refine ⟨s, ?_⟩
  exact {
    derives := h
    unique := fun s' h' => h.unique h'
    node := by
      rintro l o r rfl
      exact htree
    single := by
      intro hs
      cases s with
      | nested l o r => cases hs
      | literal | var | empty => exact htree
    items := h.items_eq
    right := fun pre o levels hp ls sign rs hts hsign hls hrs =>
      h.eq_nested hp hts hsign hls hrs }

/-- A chain of differences whose last part is a product with a group in a group. -/
def chain : List Token :=
  [.var "a", .operator "-", .var "b", .operator "-", .group [.group [.var "c"]],
    .operator "*", .literal (.number "2"), .operator " and ", .var "d"]

/-- The differences group to the right, and the groups in the product leave no trace. -/
theorem exists_grammarTree_chain :
    alternates chain = true ∧ signsKnown chain = true ∧
      ∃ differences, differences = .nested (.var "a" .any) .minus (.nested (.var "b" .any) .minus
          (.nested (.var "c" .any) .times (.literal (.number "2")))) ∧
        GrammarTree chain (.nested differences .and (.var "d" .any)) ∧
        Tree.ofTokens chain = .ok ⟨differences, .and, .var "d" .any⟩ := by
  have ha : alternates chain = true := rfl
  have hk : signsKnown chain = true := rfl
  have product : Derives (.times :: Operator.times.tighter)
      ([.group [.group [.var "c"]]] ++ .operator "*" :: [.literal (.number "2")]) _ :=
    .operate rfl Derives.var.enclose.enclose .literal
  have inner : Derives (.minus :: Operator.minus.tighter)
      ([.var "b"] ++ .operator "-" :: [.group [.group [.var "c"]], .operator "*",
        .literal (.number "2")]) _ :=
    .operate rfl .var product
  have outer : Derives (.minus :: Operator.minus.tighter)
      ([.var "a"] ++ .operator "-" :: [.var "b", .operator "-", .group [.group [.var "c"]],
        .operator "*", .literal (.number "2")]) _ :=
    .operate rfl .var inner
  have whole : Derives (.and :: Operator.and.tighter)
      ([.var "a", .operator "-", .var "b", .operator "-", .group [.group [.var "c"]],
        .operator "*", .literal (.number "2")] ++ .operator " and " :: [.var "d"]) _ :=
    .operate rfl outer .var
  obtain ⟨s, h⟩ := exists_grammarTree ha hk
  obtain rfl := h.unique _ (whole.loosenTo (by decide))
  exact ⟨ha, hk, _, rfl, h, h.node _ _ _ rfl⟩

end FormulaCode
