import FormulaCode.Proofs.Outcome
import FormulaCode.Tree.Grouping

/-! # The grammar of formulas

A stratified grammar with one level for each kind of operator, from the loosest to the
tightest. At every level the operator of that level takes a tighter part on its left and a
part of the same level on its right, so every kind groups to the right. At the innermost
level stands a variable, a literal or a group. Every alternating sequence with known aliases
has a derivation, and a derivation keeps all operands and operators in order. -/

namespace FormulaCode

namespace Token

mutual

/-- A variable, a literal, or a group whose content alternates. -/
def isOperand : Token → Bool
  | var _ => true
  | literal _ => true
  | operator _ => false
  | group ts => alternates ts

/-- An operand, and then operators and operands in turn up to a last operand. -/
def alternates : List Token → Bool
  | [] => false
  | t :: ts => isOperand t && continues ts

/-- What may follow an operand: nothing, or an operator and an alternating sequence. -/
def continues : List Token → Bool
  | [] => true
  | t :: ts => t.isOperator && alternates ts

end

mutual

/-- Whether the aliases of a token stand for operators, at all depths. -/
def signKnown : Token → Bool
  | var _ => true
  | literal _ => true
  | operator sign => (Operator.ofAlias? sign).isSome
  | group ts => signsKnown ts

/-- Whether all aliases of a sequence stand for operators, at all depths. -/
def signsKnown : List Token → Bool
  | [] => true
  | t :: ts => signKnown t && signsKnown ts

end

mutual

/-- The operands and operators of a token in order, groups opened. -/
def items : Token → List (Side ⊕ Operator)
  | var name => [.inl (.var name .any)]
  | literal value => [.inl (.literal value)]
  | operator sign => (Operator.ofAlias? sign).toList.map .inr
  | group ts => itemsAll ts

/-- The operands and operators of a sequence in order, groups opened. -/
def itemsAll : List Token → List (Side ⊕ Operator)
  | [] => []
  | t :: ts => items t ++ itemsAll ts

end

end Token

namespace Side

/-- The operands and operators of a side in order. -/
def items : Side → List (Side ⊕ Operator)
  | literal value => [.inl (.literal value)]
  | var name t => [.inl (.var name t)]
  | nested l o r => l.items ++ .inr o :: r.items
  | empty => []

/-- Whether a formula can stand for a side: no part is missing, and every operator has an
alias. -/
def isFormula : Side → Bool
  | literal _ => true
  | var _ _ => true
  | nested l o r => l.isFormula && decide (o ∈ Operator.precedence) && r.isFormula
  | empty => false

end Side

/-- The derivations of the grammar. The first argument holds the operators of the levels that
are still open, the loosest first; a group starts again with all of them. -/
inductive Derives : List Operator → List Token → Side → Prop
  | var {name} : Derives [] [.var name] (.var name .any)
  | literal {value} : Derives [] [.literal value] (.literal value)
  | group {ts s} (h : Derives Operator.precedence ts s) : Derives [] [.group ts] s
  | tighter {o levels ts s} (h : Derives levels ts s) : Derives (o :: levels) ts s
  | apply {o levels ls rs sign l r} (hs : Operator.ofAlias? sign = some o)
      (hl : Derives levels ls l) (hr : Derives (o :: levels) rs r) :
      Derives (o :: levels) (ls ++ .operator sign :: rs) (.nested l o r)

/-- A formula on its own has the operands of its side. -/
theorem Tree.inl_mem_items_ofSide {s u : Side} :
    .inl u ∈ Side.items (.nested (ofSide s).left (ofSide s).operator (ofSide s).right) ↔
      .inl u ∈ s.items := by
  cases s <;> simp [ofSide, single, Side.items]

/-- No operator has two levels. -/
theorem Operator.not_mem_of_precedence {pre levels : List Operator} {o : Operator}
    (hp : precedence = pre ++ o :: levels) : (∀ p ∈ pre, p ∉ o :: levels) ∧ o ∉ levels := by
  have hnodup : (pre ++ o :: levels).Nodup := by
    rw [← hp]
    decide
  obtain ⟨-, hcons, hdisj⟩ := List.nodup_append.1 hnodup
  exact ⟨fun p hp' hmem => hdisj p hp' p hmem rfl, (List.nodup_cons.1 hcons).1⟩

/-- The operators of the levels behind the one of an operator. -/
def Operator.tighter (o : Operator) : List Operator := (precedence.dropWhile (· != o)).tail

/-- From an operator on the levels are the end of the table. -/
theorem Operator.cons_tighter_suffix {o : Operator} (h : o ∈ precedence) :
    o :: o.tighter <:+ precedence := by
  revert o
  decide

namespace Token

variable {o : Operator} {t : Token} {ls rs ts : List Token}

theorem operator?_eq_some_iff :
    t.operator? = some o ↔ ∃ sign, t = .operator sign ∧ Operator.ofAlias? sign = some o := by
  cases t <;> simp [operator?]

/-- Every operator with an alias has a level. -/
theorem mem_precedence_of_ofAlias? {sign : String} (h : Operator.ofAlias? sign = some o) :
    o ∈ Operator.precedence := by
  obtain ⟨a, ha, rfl⟩ := Option.map_eq_some_iff.1 h
  have hmem : ∀ a ∈ Operator.spellings, a.2 ∈ Operator.precedence := by decide
  exact hmem a (List.mem_of_find?_eq_some ha)

theorem mem_precedence_of_operator? (h : t.operator? = some o) : o ∈ Operator.precedence := by
  obtain ⟨sign, -, hs⟩ := operator?_eq_some_iff.1 h
  exact mem_precedence_of_ofAlias? hs

/-- An operator divides what alternates, and what continues an operand, into two parts. -/
theorem alternates_append (sign : String) :
    alternates (ls ++ .operator sign :: rs) = (alternates ls && alternates rs) ∧
      continues (ls ++ .operator sign :: rs) = (continues ls && alternates rs) := by
  induction ls with
  | nil => simp [alternates, continues, isOperand, isOperator]
  | cons t ls ih => simp [alternates, continues, ih, Bool.and_assoc]

theorem signsKnown_append :
    signsKnown (ls ++ rs) = (signsKnown ls && signsKnown rs) := by
  induction ls with
  | nil => simp [signsKnown]
  | cons t ls ih => simp [signsKnown, ih, Bool.and_assoc]

theorem itemsAll_append : itemsAll (ls ++ rs) = itemsAll ls ++ itemsAll rs := by
  induction ls with
  | nil => simp [itemsAll]
  | cons t ls ih => simp [itemsAll, ih]

theorem splitAt?_eq_none_iff : splitAt? o ts = none ↔ ∀ t ∈ ts, t.operator? ≠ some o := by
  induction ts with
  | nil => simp [splitAt?]
  | cons t ts ih =>
      by_cases h : t.operator? = some o
      · simp [splitAt?, h]
      · simp [splitAt?, h, ih]

/-- A sequence is split at the first operator of a kind. -/
theorem splitAt?_append (ht : t.operator? = some o) (hls : ∀ t' ∈ ls, t'.operator? ≠ some o) :
    splitAt? o (ls ++ t :: rs) = some (ls, rs) := by
  induction ls with
  | nil => simp [splitAt?, ht]
  | cons l ls ih =>
      have hl := hls l List.mem_cons_self
      have hr := ih fun t' ht' => hls t' (List.mem_cons_of_mem l ht')
      simp [splitAt?, hl, hr]

/-- A split is made at an operator of its kind, and none stands before it. -/
theorem eq_append_of_splitAt? (h : splitAt? o ts = some (ls, rs)) :
    ∃ t, ts = ls ++ t :: rs ∧ t.operator? = some o ∧ ∀ t' ∈ ls, t'.operator? ≠ some o := by
  induction ts generalizing ls with
  | nil => simp [splitAt?] at h
  | cons t ts ih =>
      by_cases ht : t.operator? = some o
      · obtain ⟨rfl, rfl⟩ : [] = ls ∧ ts = rs := by simpa [splitAt?, ht] using h
        exact ⟨t, rfl, ht, by simp⟩
      · simp only [splitAt?, ht, if_false] at h
        obtain ⟨⟨ls', rs'⟩, hr, he⟩ := Option.map_eq_some_iff.1 h
        obtain ⟨rfl, rfl⟩ := Prod.mk.inj he
        obtain ⟨u, rfl, ho, hls⟩ := ih hr
        exact ⟨u, rfl, ho, by simpa [ht] using hls⟩

/-- A known alias of a sequence stands for an operator. -/
theorem exists_operator? (hk : signKnown t = true) (ht : t.isOperator = true) :
    ∃ o, t.operator? = some o := by
  cases t with
  | operator sign => exact Option.isSome_iff_exists.1 (by simpa [signKnown, operator?] using hk)
  | var | literal | group => cases ht

/-- Without operators an alternating sequence is one operand. -/
theorem eq_singleton_of_alternates (ha : alternates ts = true) (hk : signsKnown ts = true)
    (ho : ∀ t ∈ ts, t.operator? = none) : ∃ t, ts = [t] ∧ isOperand t = true := by
  match ts with
  | [] => cases ha
  | [t] => exact ⟨t, rfl, by simpa [alternates, continues] using ha⟩
  | t :: u :: ts =>
      simp only [alternates, continues, Bool.and_eq_true] at ha
      simp only [signsKnown, Bool.and_eq_true] at hk
      obtain ⟨o, hu⟩ := exists_operator? hk.2.1 ha.2.1
      have := ho u (by simp)
      simp [hu] at this

end Token

open Token in
/-- Every alternating sequence with known aliases has a derivation, at every level that is
loose enough for its operators. -/
theorem exists_derives {levels : List Operator} {ts : List Token} (ha : alternates ts = true)
    (hk : signsKnown ts = true) (ho : ∀ t ∈ ts, ∀ o, t.operator? = some o → o ∈ levels) :
    ∃ s, Derives levels ts s := by
  -- Groups and the parts of a split have fewer tokens; otherwise a level is used up.
  induction hn : totalWeight ts using Nat.strongRecOn generalizing levels ts with
  | ind n ihn =>
      induction levels with
      | nil =>
          obtain ⟨t, rfl, ht⟩ := eq_singleton_of_alternates ha hk fun t ht =>
            Option.eq_none_iff_forall_ne_some.2 fun o h => by cases ho t ht o h
          cases t with
          | var name => exact ⟨_, .var⟩
          | literal value => exact ⟨_, .literal⟩
          | operator sign => cases ht
          | group us =>
              have hw : totalWeight us < n := by
                simp only [totalWeight, weight] at hn
                omega
              have hus : signsKnown us = true := by simpa [signsKnown, signKnown] using hk
              obtain ⟨s, h⟩ := ihn _ hw ht hus
                (fun t _ o h => mem_precedence_of_operator? h) rfl
              exact ⟨s, .group h⟩
      | cons o levels ih =>
          cases hs : splitAt? o ts with
          | none =>
              rw [splitAt?_eq_none_iff] at hs
              obtain ⟨s, h⟩ := ih fun t ht p hp =>
                (List.mem_cons.1 (ho t ht p hp)).resolve_left fun he => hs t ht (he ▸ hp)
              exact ⟨s, h.tighter⟩
          | some r =>
              obtain ⟨ls, rs⟩ := r
              have hw := totalWeight_of_splitAt? hs
              obtain ⟨t, rfl, ht, hls⟩ := eq_append_of_splitAt? hs
              obtain ⟨sign, rfl, hsign⟩ := operator?_eq_some_iff.1 ht
              rw [(alternates_append sign).1, Bool.and_eq_true] at ha
              rw [signsKnown_append, signsKnown, Bool.and_eq_true, Bool.and_eq_true] at hk
              obtain ⟨l, hl⟩ := ihn (totalWeight ls) (by simp only at hw; omega) ha.1 hk.1
                (fun t' ht' p hp => (List.mem_cons.1 (ho t' (by simp [ht']) p hp)).resolve_left
                  fun he => hls t' ht' (he ▸ hp)) rfl
              obtain ⟨r, hr⟩ := ihn (totalWeight rs) (by simp only at hw; omega) ha.2 hk.2.2
                (fun t' ht' => ho t' (by simp [ht'])) rfl
              exact ⟨_, .apply hsign hl hr⟩

namespace Derives

variable {levels : List Operator} {ts : List Token} {s : Side}

/-- A part of a tighter level is a part of every looser one. -/
theorem loosen (h : Derives levels ts s) (pre : List Operator) : Derives (pre ++ levels) ts s := by
  induction pre with
  | nil => exact h
  | cons o pre ih => exact ih.tighter

/-- A part of the last levels of a list is a part of all of them. -/
theorem loosenTo {levels' : List Operator} (h : Derives levels ts s) (hl : levels <:+ levels') :
    Derives levels' ts s := by
  obtain ⟨pre, rfl⟩ := hl
  exact h.loosen pre

section Operation

variable {o : Operator} {sign : String} {ls rs : List Token} {l r : Side}

/-- An operator stands between two parts that are tight enough for their places. -/
theorem operate {left right : List Operator} (hs : Operator.ofAlias? sign = some o)
    (hl : Derives left ls l) (hr : Derives right rs r) (hleft : left <:+ o.tighter := by decide)
    (hright : right <:+ o :: o.tighter := by decide) :
    Derives (o :: o.tighter) (ls ++ .operator sign :: rs) (.nested l o r) :=
  .apply hs (hl.loosenTo hleft) (hr.loosenTo hright)

/-- Between two parts of the innermost level every operator is in place. -/
theorem between (hs : Operator.ofAlias? sign = some o) (hl : Derives [] ls l)
    (hr : Derives [] rs r) :
    Derives Operator.precedence (ls ++ .operator sign :: rs) (.nested l o r) :=
  (operate hs hl hr List.nil_suffix List.nil_suffix).loosenTo
    (Operator.cons_tighter_suffix (Token.mem_precedence_of_ofAlias? hs))

end Operation

/-- A group holds a part of any level. -/
theorem enclose (h : Derives levels ts s) (hl : levels <:+ Operator.precedence := by decide) :
    Derives [] [.group ts] s :=
  .group (h.loosenTo hl)

/-- A part that uses no operator of the outer levels belongs to the inner ones. -/
theorem tighten {pre : List Operator} (h : Derives (pre ++ levels) ts s)
    (hp : ∀ o ∈ pre, ∀ t ∈ ts, t.operator? ≠ some o) : Derives levels ts s := by
  induction pre with
  | nil => exact h
  | cons o pre ih =>
      cases h with
      | tighter h => exact ih h fun p hp' => hp p (List.mem_cons_of_mem o hp')
      | @apply _ _ _ _ sign _ _ hs hl hr =>
          exact absurd hs (hp o List.mem_cons_self (.operator sign) (by simp))

/-- The operators outside of groups are those of the open levels. -/
theorem operator_mem (h : Derives levels ts s) {t : Token} (ht : t ∈ ts) {o : Operator}
    (ho : t.operator? = some o) : o ∈ levels := by
  induction h with
  | var | literal | group =>
      obtain rfl := List.mem_singleton.1 ht
      cases ho
  | tighter _ ih => exact List.mem_cons_of_mem _ (ih ht)
  | apply hs _ _ ihl ihr =>
      simp only [List.mem_append, List.mem_cons] at ht
      rcases ht with ht | rfl | ht
      · exact List.mem_cons_of_mem _ (ihl ht)
      · obtain rfl : _ = o := Option.some.inj (hs.symm.trans ho)
        exact List.mem_cons_self
      · exact ihr ht

/-- No alias outside of groups is unknown. -/
theorem unknownSign?_eq_none (h : Derives levels ts s) :
    ts.findSome? Token.unknownSign? = none := by
  induction h with
  | var | literal | group => rfl
  | tighter _ ih => exact ih
  | apply hs _ _ ihl ihr => simp_all [Token.unknownSign?]

theorem ne_nil (h : Derives levels ts s) : ts ≠ [] := by
  induction h with
  | var | literal | group => simp
  | tighter _ ih => exact ih
  | apply => simp

/-- Nothing is missing in a derived side. -/
theorem isFormula (h : Derives levels ts s) : s.isFormula = true := by
  induction h with
  | var | literal => rfl
  | group _ ih | tighter _ ih => exact ih
  | apply hs _ _ ihl ihr =>
      simp [Side.isFormula, ihl, ihr, Token.mem_precedence_of_ofAlias? hs]

/-- A derived side holds the operands and operators of its tokens, in their order. -/
theorem items_eq (h : Derives levels ts s) : s.items = Token.itemsAll ts := by
  induction h with
  | var | literal => rfl
  | group _ ih => simpa [Token.itemsAll, Token.items] using ih
  | tighter _ ih => exact ih
  | apply hs _ _ ihl ihr =>
      simp [Side.items, ihl, ihr, Token.itemsAll_append, Token.itemsAll, Token.items, hs]

/-- The root of a derived side is the first operator of the loosest kind. What is tighter than
it may stand on its left, and its own kind as well on its right. -/
theorem eq_nested (h : Derives Operator.precedence ts s) {pre levels : List Operator} {o : Operator}
    (hp : Operator.precedence = pre ++ o :: levels) {ls rs : List Token} {sign : String}
    (hts : ts = ls ++ .operator sign :: rs) (hs : Operator.ofAlias? sign = some o)
    (hls : ∀ t ∈ ls, ∀ p, t.operator? = some p → p ∈ levels)
    (hrs : ∀ t ∈ rs, ∀ p, t.operator? = some p → p ∈ o :: levels) :
    ∃ l r, Derives levels ls l ∧ Derives (o :: levels) rs r ∧ s = .nested l o r := by
  obtain ⟨hpre, ho⟩ := Operator.not_mem_of_precedence hp
  have hsplit : Token.splitAt? o ts = some (ls, rs) := by
    rw [hts]
    exact Token.splitAt?_append hs fun t ht hto => ho (hls t ht o hto)
  have hmem : ∀ t ∈ ts, ∀ p, t.operator? = some p → p ∈ o :: levels := by
    intro t ht p hto
    simp only [hts, List.mem_append, List.mem_cons] at ht
    rcases ht with ht | rfl | ht
    · exact List.mem_cons_of_mem o (hls t ht p hto)
    · obtain rfl : o = p := Option.some.inj (hs.symm.trans hto)
      exact List.mem_cons_self
    · exact hrs t ht p hto
  rw [hp] at h
  have h' := h.tighten fun p hp' t ht hto => hpre p hp' (hmem t ht p hto)
  cases h' with
  | tighter h' =>
      exact absurd (h'.operator_mem (t := .operator sign) (by simp [hts]) hs) ho
  | @apply _ _ ls' rs' sign' l r hs' hl hr =>
      -- Both splits are at the first operator of the kind, so they are one split.
      have hsplit' : Token.splitAt? o (ls' ++ .operator sign' :: rs') = some (ls', rs') :=
        Token.splitAt?_append hs' fun t ht hto => ho (hl.operator_mem ht hto)
      rw [hsplit'] at hsplit
      obtain ⟨rfl, rfl⟩ := Prod.mk.inj (Option.some.inj hsplit)
      exact ⟨_, _, hl, hr, rfl⟩

end Derives

end FormulaCode
