import FormulaCode.Proofs.DecimalText
import FormulaCode.Proofs.ScannedText
import FormulaCode.Token.Order

/-! # Where words end

The characters of names start no alias, so a word goes on up to the blanks behind it, and these
go on up to the next alias. A blank starts an alias only where one of the keywords stands behind
it. These facts say how a text is scanned that is put together from blanks, words and aliases. -/

namespace FormulaCode

open Token

namespace Operator

variable {c : Char} {cs : List Char} {a : Spelling}

/-- The words that are aliases between spaces. -/
def keywords : List String := ["and", "AND", "or", "OR"]

/-- An alias starts with the character that stands there. -/
theorem head?_of_aliasAt? (h : aliasAt? (c :: cs) = some a) : a.1.head? = some c := by
  have hne := ne_nil_of_mem_spellings (mem_spellings_of_aliasAt? h)
  have happend := append_drop_of_aliasAt? h
  cases hs : a.1 with
  | nil => exact absurd hs hne
  | cons d ds =>
      rw [hs, List.cons_append] at happend
      rw [List.head?_cons, (List.cons.inj happend).1]

/-- Quotes and parentheses start no alias. -/
theorem ne_of_aliasAt? (h : aliasAt? (c :: cs) = some a) : c ≠ quote ∧ c ≠ '(' := by
  have heads : ∀ a ∈ spellings, a.1.head? ≠ some quote ∧ a.1.head? ≠ some '(' := by decide
  have ha := heads a (mem_spellings_of_aliasAt? h)
  rwa [head?_of_aliasAt? h, Ne, Ne, Option.some.injEq, Option.some.injEq] at ha

/-- No alias starts with a character of a name. -/
theorem aliasAt?_of_isNameChar (hc : isNameChar c = true) : aliasAt? (c :: cs) = none := by
  have heads : ∀ a ∈ spellings, a.1.head?.any isNameChar = false := by decide
  refine Option.eq_none_iff_forall_ne_some.2 fun a ha => ?_
  have hd := heads a (mem_spellings_of_aliasAt? ha)
  rw [head?_of_aliasAt? ha, Option.any_some] at hd
  cases hc.symm.trans hd

theorem isNameChar_of_aliasAt? (h : aliasAt? (c :: cs) = some a) : isNameChar c = false := by
  rw [Bool.eq_false_iff]
  intro hc
  cases (aliasAt?_of_isNameChar hc).symm.trans h

/-- Whether the first word of a text is a keyword. -/
def startsKeyword (cs : List Char) : Bool :=
  keywords.contains (String.ofList (cs.takeWhile isNameChar))

theorem startsKeyword_of_head? (h : ∀ d ∈ cs.head?, isNameChar d = false) :
    startsKeyword cs = false := by
  cases cs with
  | nil => rfl
  | cons d ds =>
      have hd : isNameChar d = false := h d rfl
      simp only [startsKeyword, List.takeWhile_cons, hd]
      rfl

/-- A blank is no part of an alias unless a keyword stands behind it. -/
theorem aliasAt?_of_isSeparator (hc : isSeparator c = true) (hk : startsKeyword cs = false) :
    aliasAt? (c :: cs) = none := by
  have blank : ∀ a ∈ spellings, a.1.head?.any isSeparator = true →
      ∃ word ∈ keywords, a.1 = ' ' :: (word.toList ++ [' ']) := by decide
  have words : ∀ word ∈ keywords, word.toList.all isNameChar = true := by decide
  refine Option.eq_none_iff_forall_ne_some.2 fun a ha => ?_
  obtain ⟨word, hword, hs⟩ :=
    blank a (mem_spellings_of_aliasAt? ha) (by rwa [head?_of_aliasAt? ha, Option.any_some])
  have happend := append_drop_of_aliasAt? ha
  rw [hs, List.cons_append, List.append_assoc] at happend
  have hcs := (List.cons.inj happend).2
  have htake : cs.takeWhile isNameChar = word.toList := by
    rw [← hcs, List.takeWhile_append_of_pos (List.all_eq_true.1 (words word hword))]
    simp [isNameChar]
  rw [startsKeyword, htake, String.ofList_toList, List.contains_eq_mem, decide_eq_false_iff_not]
    at hk
  exact hk hword

/-- Only an equals sign behind an alias makes it a longer one. -/
theorem head?_of_append_mem_spellings {b : Spelling} {ds : List Char} (ha : a ∈ spellings)
    (hb : b ∈ spellings) (h : a.1 ++ ds = b.1) (hne : ds ≠ []) : ds.head? = some '=' := by
  have hall : ∀ a ∈ spellings, ∀ b ∈ spellings, a.1 <+: b.1 →
      (b.1.drop a.1.length).head? ∈ [none, some '='] := by decide
  have hd := hall a ha b hb ⟨ds, h⟩
  rw [← h, List.drop_left] at hd
  cases ds with
  | nil => exact absurd rfl hne
  | cons d ds => simpa using hd

/-- An alias is found where it is written, unless the text behind it makes it longer. -/
theorem aliasAt?_append (ha : a ∈ spellings) (hcs : cs.head? ≠ some '=') :
    aliasAt? (a.1 ++ cs) = some a := by
  refine aliasAt?_eq_some_iff.2 ⟨ha, List.prefix_append _ _, fun b hb hp => ?_⟩
  apply Nat.le_of_not_lt
  intro hlt
  obtain ⟨ds, hds⟩ : a.1 <+: b.1 :=
    List.prefix_of_prefix_length_le (List.prefix_append _ _) hp (Nat.le_of_lt hlt)
  have hne : ds ≠ [] := by
    rintro rfl
    simp [← hds] at hlt
  -- What the longer alias adds is the beginning of the text behind.
  have hrest : ds <+: cs := by rwa [← hds, List.prefix_append_right_inj] at hp
  obtain ⟨rest, rfl⟩ := hrest
  apply hcs
  rw [List.head?_append, head?_of_append_mem_spellings ha hb hds hne, Option.some_or]

end Operator

namespace Token

variable {c : Char} {bs cs w : List Char} {a : Operator.Spelling}

theorem isNameChar_of_isSeparator (h : isSeparator c = true) : isNameChar c = false := by
  simp only [isSeparator, Bool.or_eq_true, beq_iff_eq] at h
  rcases h with ((rfl | rfl) | rfl) | rfl <;> decide

/-- Characters of names neither quote nor separate. -/
theorem ne_of_isNameChar (h : isNameChar c = true) :
    c ≠ quote ∧ c ≠ '(' ∧ isSeparator c = false := by
  refine ⟨?_, ?_, ?_⟩
  · rintro rfl
    cases h
  · rintro rfl
    cases h
  · rw [Bool.eq_false_iff]
    intro hc
    cases (isNameChar_of_isSeparator hc).symm.trans h

/-- Characters of names are no blanks. -/
theorem isBlank_of_isNameChar (h : isNameChar c = true) : Text.isBlank c = false := by
  have alphanumeric : c.isAlphanum = true → Text.isBlank c = false := by
    intro h
    have hrange := (Bool.or_eq_true_iff.1 h).imp Text.toNat_of_isAlpha Text.toNat_of_isDigit
    simp only [Text.isBlank, Text.blankRanges, List.any_cons, List.any_nil, Bool.or_false,
      Bool.or_eq_false_iff, Bool.and_eq_false_iff, decide_eq_false_iff_not]
    omega
  simp only [isNameChar, Bool.or_eq_true, beq_iff_eq] at h
  rcases h with (h | rfl) | rfl
  · exact alphanumeric h
  · decide
  · decide

theorem splitOperand_of_none (h : Operator.aliasAt? (c :: cs) = none) :
    splitOperand (c :: cs) = (c :: (splitOperand cs).1, (splitOperand cs).2) := by
  simp [splitOperand, h]

theorem splitOperand_of_some (h : Operator.aliasAt? cs = some a) : splitOperand cs = ([], cs) := by
  cases cs with
  | nil => rfl
  | cons c cs => simp [splitOperand, h]

/-- An operand goes on through a word. -/
theorem splitOperand_word (hw : ∀ c ∈ w, isNameChar c = true) (cs : List Char) :
    splitOperand (w ++ cs) = (w ++ (splitOperand cs).1, (splitOperand cs).2) := by
  induction w with
  | nil => rfl
  | cons c w ih =>
      obtain ⟨hc, hw⟩ := List.forall_mem_cons.1 hw
      rw [List.cons_append, splitOperand_of_none (Operator.aliasAt?_of_isNameChar hc), ih hw]
      rfl

theorem startsKeyword_blanks (hb : ∀ c ∈ bs, isSeparator c = true)
    (hk : Operator.startsKeyword cs = false) : Operator.startsKeyword (bs ++ cs) = false := by
  cases bs with
  | nil => exact hk
  | cons c bs =>
      apply Operator.startsKeyword_of_head?
      rintro d ⟨⟩
      exact isNameChar_of_isSeparator (hb c List.mem_cons_self)

/-- An operand goes on through blanks, unless a keyword stands behind them. -/
theorem splitOperand_blanks (hb : ∀ c ∈ bs, isSeparator c = true)
    (hk : Operator.startsKeyword cs = false) :
    splitOperand (bs ++ cs) = (bs ++ (splitOperand cs).1, (splitOperand cs).2) := by
  induction bs with
  | nil => rfl
  | cons c bs ih =>
      obtain ⟨hc, hb⟩ := List.forall_mem_cons.1 hb
      have hnone := Operator.aliasAt?_of_isSeparator hc (startsKeyword_blanks hb hk)
      rw [List.cons_append, splitOperand_of_none hnone, ih hb]
      rfl

/-- Behind an operand stands an alias or nothing. -/
theorem isNameChar_of_mem_head?_splitOperand (cs : List Char) :
    ∀ d ∈ (splitOperand cs).2.head?, isNameChar d = false := by
  intro d h
  induction cs with
  | nil => cases h
  | cons c cs ih =>
      cases ha : Operator.aliasAt? (c :: cs) with
      | none =>
          rw [splitOperand_of_none ha] at h
          exact ih h
      | some a =>
          rw [splitOperand_of_some ha] at h
          obtain rfl : c = d := Option.some.inj h
          exact Operator.isNameChar_of_aliasAt? ha

/-- A word with blanks behind it is one operand. -/
theorem ofOperand_append (hne : w ≠ []) (hw : ∀ c ∈ w, isNameChar c = true)
    (hb : ∀ c ∈ bs, isSeparator c = true) : ofOperand (w ++ bs) = [ofWord w] := by
  have htrim : Text.trim ([] ++ (w ++ bs)) = w :=
    Text.trim_between (List.forall_mem_nil _) (fun c hc => isBlank_of_isNameChar (hw c hc))
      fun c hc => isBlank_of_isSeparator (hb c hc)
  rw [List.nil_append] at htrim
  rw [ofOperand, if_neg, htrim]
  rwa [← Text.trim_eq_nil_iff, htrim]

end Token

namespace Scans

variable {bs cs w : List Char} {ts : List Token}

/-- Blanks are skipped, unless a keyword stands behind them. -/
theorem blanks (hb : ∀ c ∈ bs, isSeparator c = true) (hk : Operator.startsKeyword cs = false)
    (h : Scans cs ts) : Scans (bs ++ cs) ts := by
  induction bs with
  | nil => exact h
  | cons c bs ih =>
      obtain ⟨hc, hb⟩ := List.forall_mem_cons.1 hb
      have hnone := Operator.aliasAt?_of_isSeparator hc (startsKeyword_blanks hb hk)
      apply Scans.blank _ _ hnone hc (ih hb)
      · rintro rfl
        cases hc
      · rintro rfl
        cases hc

/-- A text that starts with an alias has an operator as its first token. -/
theorem exists_operator (h : Scans cs ts) {a : Operator.Spelling}
    (ha : Operator.aliasAt? cs = some a) : ∃ us, ts = .operator (String.ofList a.1) :: us := by
  cases h with
  | nothing => cases ha
  | quoted => exact absurd rfl (Operator.ne_of_aliasAt? ha).1
  | group => exact absurd rfl (Operator.ne_of_aliasAt? ha).2
  | operator _ _ ha' _ =>
      obtain rfl := Option.some.inj (ha'.symm.trans ha)
      exact ⟨_, rfl⟩
  | blank _ _ ha' => cases ha'.symm.trans ha
  | operand _ _ ha' => cases ha'.symm.trans ha

/-- A written alias is read as an operator. -/
theorem sign {a : Operator.Spelling} (ha : a ∈ Operator.spellings) (hcs : cs.head? ≠ some '=')
    (h : Scans cs ts) : Scans (a.1 ++ cs) (.operator (String.ofList a.1) :: ts) := by
  have hfound := Operator.aliasAt?_append ha hcs
  have hrest : Scans ((a.1 ++ cs).drop a.1.length) ts := by rwa [List.drop_left]
  have hne : a.1 ++ cs ≠ [] :=
    List.append_ne_nil_of_left_ne_nil (Operator.ne_nil_of_mem_spellings ha) cs
  obtain ⟨d, ds, hcons⟩ := List.exists_cons_of_ne_nil hne
  rw [hcons] at hfound hrest ⊢
  obtain ⟨hq, hp⟩ := Operator.ne_of_aliasAt? hfound
  exact .operator hq hp hfound hrest

end Scans

/-- The tokens of a text behind an operand: only blanks stand before the next alias. -/
structure ScansBehind (cs : List Char) (ts : List Token) : Prop where
  blanks : ∀ c ∈ (splitOperand cs).1, isSeparator c = true
  rest : Scans (splitOperand cs).2 ts

namespace ScansBehind

variable {cs w : List Char} {ts : List Token}

theorem scans (h : ScansBehind cs ts) : Scans cs ts := by
  have hk := Operator.startsKeyword_of_head? (isNameChar_of_mem_head?_splitOperand cs)
  simpa using h.rest.blanks h.blanks hk

/-- No word goes on into such a text. -/
theorem takeWhile_isNameChar (h : ScansBehind cs ts) : cs.takeWhile isNameChar = [] := by
  have hrest := isNameChar_of_mem_head?_splitOperand cs
  have hblanks := h.blanks
  rw [← splitOperand_append cs]
  cases hb : (splitOperand cs).1 with
  | cons c bs =>
      rw [hb] at hblanks
      have hc := isNameChar_of_isSeparator (hblanks c List.mem_cons_self)
      simp [hc]
  | nil =>
      cases hr : (splitOperand cs).2 with
      | nil => rfl
      | cons d ds =>
          rw [hr] at hrest
          simp [hrest d rfl]

/-- A word before such a text is an operand on its own. -/
theorem word (h : ScansBehind cs ts) (hne : w ≠ []) (hw : ∀ c ∈ w, isNameChar c = true) :
    Scans (w ++ cs) (ofWord w :: ts) := by
  cases w with
  | nil => exact absurd rfl hne
  | cons c w =>
      obtain ⟨hc, hw'⟩ := List.forall_mem_cons.1 hw
      have hsplit := splitOperand_word hw' cs
      have hoperand : ofOperand (c :: (splitOperand (w ++ cs)).1) = [ofWord (c :: w)] := by
        rw [hsplit]
        exact ofOperand_append hne hw h.blanks
      have hrest : Scans (splitOperand (w ++ cs)).2 ts := by
        rw [hsplit]
        exact h.rest
      obtain ⟨hq, hp, hsep⟩ := ne_of_isNameChar hc
      have hscan := Scans.operand hq hp (Operator.aliasAt?_of_isNameChar hc) hsep hrest
      rwa [hoperand] at hscan

end ScansBehind

end FormulaCode
