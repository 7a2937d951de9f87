import FormulaCode.Proofs.FoldEquivalence
import FormulaCode.Proofs.Reparsing

/-! # Formulas in parentheses

The end of a group is found by a count of parentheses that skips what stands between quotes,
while the scan takes quoted texts, groups and operands one by one. On the text of an accepted
formula the two agree: all that stands outside of quotes and groups is blanks, aliases and
characters of names. So the text can be put between parentheses, and its tokens become one
group in whatever surrounds it. -/

namespace FormulaCode

open Token

/-- Trimming takes away blanks only. -/
theorem Text.isBlank_or_mem_trim {cs : List Char} {c : Char} (h : c ∈ cs) :
    isBlank c = true ∨ c ∈ trim cs := by
  cases hb : isBlank c with
  | true => exact .inl rfl
  | false =>
      have hmem : c ∈ withoutBlanks (trim cs) := by
        rw [withoutBlanks_trim]
        exact List.mem_filter.2 ⟨h, by rw [hb]; rfl⟩
      exact .inr (List.mem_filter.1 hmem).1

/-- An unquoted operand is made of characters of names, unless it is an invalid name. -/
theorem Token.isNameChar_of_ofWord {w : List Char}
    (h : ∀ name, ofWord w = .var name → isValidName name = true) :
    ∀ c ∈ w, isNameChar c = true := by
  have hc := canonical_ofWord h
  rw [ofWord] at hc
  split at hc
  · next hn => exact (isPlainNumber_iff.1 hn).isNameChar
  · split at hc
    · next hw =>
        rw [hw]
        exact List.all_eq_true.1 rfl
    · split at hc
      · next hw =>
          rw [hw]
          exact List.all_eq_true.1 rfl
      · simpa [write] using (writtenAsWord_var hc).isNameChar

/-- The count of parentheses passes over an operand and the blanks around it. -/
theorem PassedOver.operand {cs : List Char}
    (h : ∀ name, .var name ∈ partsAll (ofOperand cs) → isValidName name = true) :
    PassedOver cs := by
  rw [ofOperand] at h
  split at h
  · next hb => exact .of_class rfl rfl rfl (List.all_eq_true.1 hb)
  · have hname : ∀ c ∈ Text.trim cs, isNameChar c = true := by
      apply isNameChar_of_ofWord
      intro name hn
      apply h name
      simp [partsAll, parts, hn]
    refine .of_class (p := fun c => Text.isBlank c || isNameChar c) rfl rfl rfl fun c hc => ?_
    rcases Text.isBlank_or_mem_trim hc with hb | hc
    · rw [hb, Bool.true_or]
    · rw [hname c hc, Bool.or_true]

/-- The count of parentheses passes over every scanned text with valid names. -/
theorem Scans.passedOver {cs : List Char} {ts : List Token} (h : Scans cs ts)
    (hv : ∀ name, .var name ∈ partsAll ts → isValidName name = true) : PassedOver cs := by
  induction h with
  | nothing => exact .of_forall (by simp)
  | quoted hs _ ih =>
      obtain ⟨hq, rfl⟩ := splitQuote?_eq_some_iff.1 hs
      have hrest := ih fun name hn => hv name (by simp [partsAll, hn])
      simpa using (PassedOver.quoted hq).append hrest
  | group hs hb _ _ ihi ih =>
      obtain rfl := eq_append_of_splitClose? hs
      have hinner := ihi fun name hn => hv name (by simp [partsAll, parts, hn])
      have hrest := ih fun name hn => hv name (by simp [partsAll, hn])
      simpa using hinner.group.append hrest
  | @operator c cs a ts hq hp ha _ ih =>
      have hrest := ih fun name hn => hv name (by simp [partsAll, hn])
      have hmem := (Operator.mem_spellings_iff a.1 a.2).1 (Operator.mem_spellings_of_aliasAt? ha)
      have hsign : PassedOver a.1 := by simpa using PassedOver.sign hmem
      rw [← Operator.append_drop_of_aliasAt? ha]
      exact hsign.append hrest
  | blank hq hp ha hc _ ih =>
      have hblank := PassedOver.blanks (List.forall_mem_singleton.2 hc)
      exact hblank.append (ih hv)
  | @operand c cs ts hq hp ha hc _ ih =>
      rw [partsAll_append] at hv
      have hword := PassedOver.operand fun name hn => hv name (List.mem_append_left _ hn)
      have hrest := ih fun name hn => hv name (List.mem_append_right _ hn)
      simpa using hword.append hrest

/-- A text that is a formula, with its tokens and the side that they stand for. -/
structure Accepted (cs : List Char) (ts : List Token) (s : Side) : Prop where
  scans : Scans cs ts
  canonical : CanonicalSequence ts
  derives : Derives Operator.precedence ts s

/-- The trees of formulas are those of accepted texts. -/
theorem Tree.parse_eq_ok_iff {source : String} {t : Tree} :
    parse source = .ok t ↔ ∃ ts s, Accepted source.toList ts s ∧ t = ofSide s := by
  rw [parse_eq_ok_iff_derives]
  constructor
  · rintro ⟨ts, s, hts, hv, hs, rfl⟩
    exact ⟨ts, s, ⟨.of_scan hts, .of_scan hts hv, hs⟩, rfl⟩
  · rintro ⟨ts, s, h, rfl⟩
    have hb := h.scans.ne_nil_iff.1 (ne_nil_of_alternates h.canonical.alternates)
    exact ⟨ts, s, scan_eq_ok_iff.2 ⟨hb, h.scans⟩, h.canonical.validate_eq, h.derives, rfl⟩

namespace Accepted

variable {cs rest : List Char} {ts us : List Token} {s : Side}

/-- An accepted text in parentheses is a group of its tokens. -/
theorem scans_group (h : Accepted cs ts s) (hr : Scans rest us) :
    Scans ('(' :: (cs ++ ')' :: rest)) (.group ts :: us) := by
  have hpassed := h.scans.passedOver fun name hn => (h.canonical.canonical _ hn).1
  have hb := h.scans.ne_nil_iff.1 (ne_nil_of_alternates h.canonical.alternates)
  exact .group (hpassed.splitGroup?_eq rest) hb h.scans hr

/-- Parentheses around an accepted text do not change what it stands for. -/
theorem parenthesized (h : Accepted cs ts s) : Accepted ('(' :: (cs ++ [')'])) [.group ts] s where
  scans := h.scans_group .nothing
  canonical := h.canonical.group
  derives := (Derives.group h.derives).loosen Operator.precedence

/-- An alias between accepted texts in parentheses applies its operator to what they stand
for. -/
theorem between {ds : List Char} {r : Side} {o : Operator} {sign : String}
    (hl : Accepted cs ts s) (hs : sign ∈ o.aliases) (hr : Accepted ds us r) :
    Accepted ('(' :: (cs ++ ')' :: (sign.toList ++ '(' :: (ds ++ [')']))))
      [.group ts, .operator sign, .group us] (.nested s o r) where
  scans := by
    apply hl.scans_group
    have hsign := (hr.scans_group .nothing).sign (Operator.mem_spellings_of_mem_aliases hs)
      (by simp)
    rwa [String.ofList_toList] at hsign
  canonical := hl.canonical.group.append hs hr.canonical.group
  derives := Derives.between (Operator.ofAlias?_of_mem_aliases hs) (.group hl.derives)
    (.group hr.derives)

end Accepted

namespace Tree

/-- Formulas in parentheses keep their trees, on their own and as the sides of every operator. -/
theorem parse_parenthesized {s₁ s₂ : String} {t₁ t₂ : Tree} (h₁ : parse s₁ = .ok t₁)
    (h₂ : parse s₂ = .ok t₂) {o : Operator} {sign : String} (hs : sign ∈ o.aliases) :
    parse ("(" ++ s₁ ++ ")") = .ok t₁ ∧
      parse ("(" ++ s₁ ++ ")" ++ sign ++ "(" ++ s₂ ++ ")") =
        .ok ⟨t₁.toSide, o, t₂.toSide⟩ := by
  obtain ⟨ts₁, l, hl, rfl⟩ := parse_eq_ok_iff.1 h₁
  obtain ⟨ts₂, r, hr, rfl⟩ := parse_eq_ok_iff.1 h₂
  rw [toSide_ofSide hl.derives.isFormula, toSide_ofSide hr.derives.isFormula]
  constructor
  · refine parse_eq_ok_iff.2 ⟨[.group ts₁], l, ?_, rfl⟩
    simpa [String.toList_append] using hl.parenthesized
  · refine parse_eq_ok_iff.2
      ⟨[.group ts₁, .operator sign, .group ts₂], .nested l o r, ?_, rfl⟩
    simpa [String.toList_append] using hl.between hs hr

/-- A quoted parenthesis and a line break inside the first pair of parentheses, and a group
inside the second. -/
theorem parse_parenthesized_needlessGroups : ∃ t₁ t₂,
    parse needlessGroups = .ok t₁ ∧ parse hiddenZero = .ok t₂ ∧ " or " ∈ Operator.or.aliases ∧
      parse "(or  AND (((x)) >= ' (or)>= ')*2.50\n)" = .ok t₁ ∧
      parse "(or  AND (((x)) >= ' (or)>= ')*2.50\n) or (x/(2*3-6))" =
        .ok ⟨t₁.toSide, .or, t₂.toSide⟩ := by
  have alone : "(" ++ needlessGroups ++ ")" = "(or  AND (((x)) >= ' (or)>= ')*2.50\n)" := by
    decide +kernel
  have both : "(" ++ needlessGroups ++ ")" ++ " or " ++ "(" ++ hiddenZero ++ ")" =
      "(or  AND (((x)) >= ' (or)>= ')*2.50\n) or (x/(2*3-6))" := by decide +kernel
  have hs : " or " ∈ Operator.or.aliases := by decide
  rw [← alone, ← both]
  exact ⟨_, _, parse_needlessGroups, parse_hiddenZero, hs,
    parse_parenthesized parse_needlessGroups parse_hiddenZero hs⟩

end Tree

end FormulaCode
