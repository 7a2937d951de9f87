import FormulaCode.Proofs.Grammar
import FormulaCode.Proofs.WordBoundaries

/-! # Scanning undoes writing

Canonical tokens are those that a formula can show: names, plain numbers, truth values, quoted
texts and times, aliases, and groups of such tokens. A layout writes them in order, with blanks
wherever they are allowed. Scanning a layout gives the tokens back. The induction follows the
layout and carries two facts in turn: where an operand is due, the text has the tokens; where an
operator is due, the blanks before it belong to the operand in front of them. The end of a group
is found by a count of its own, which passes over every layout inside. -/

namespace FormulaCode

open Token

/-- Digits, and digits behind a point if there is one. -/
inductive PlainNumeral : List Char → Prop
  | whole {ds} (hne : ds ≠ []) (hd : ∀ c ∈ ds, c.isDigit = true) : PlainNumeral ds
  | places {ds ps} (hne : ds ≠ []) (hd : ∀ c ∈ ds, c.isDigit = true) (hpe : ps ≠ [])
      (hp : ∀ c ∈ ps, c.isDigit = true) : PlainNumeral (ds ++ '.' :: ps)

/-- A literal as a formula can show it. -/
def Literal.Canonical (l : Literal) : Prop :=
  match l.dataType with
  | .number => PlainNumeral l.data.toList
  | .bool => l.data = "true" ∨ l.data = "false"
  | .text => quote ∉ l.data.toList ∧ ∀ t, readTime l.data ≠ .ok t
  | .time => quote ∉ l.data.toList ∧ ∃ t, readTime l.data = .ok t
  | .any => False

/-- A token as a formula can show it; the content of a group is left open. -/
def Token.Canonical : Token → Prop
  | var name => isValidName name = true ∧ name ≠ "true" ∧ name ≠ "false"
  | literal value => value.Canonical
  | operator sign => ∃ o : Operator, sign ∈ o.aliases
  | group _ => True

/-- Operands and operators in turn, all of them as a formula can show them, at all depths. -/
structure CanonicalSequence (ts : List Token) : Prop where
  alternates : alternates ts = true
  canonical : ∀ t ∈ partsAll ts, t.Canonical

/-- The texts that write tokens in order, with blanks before, between and behind them. A
variable that is named like a keyword has no blanks directly before it. -/
inductive LaidOut : List Token → List Char → Prop
  | nothing {bs} (hb : ∀ c ∈ bs, isSeparator c = true) : LaidOut [] bs
  | var {name ts bs cs} (hb : ∀ c ∈ bs, isSeparator c = true)
      (hk : name ∈ Operator.keywords → bs = []) (h : LaidOut ts cs) :
      LaidOut (.var name :: ts) (bs ++ (name.toList ++ cs))
  | literal {value ts bs cs} (hb : ∀ c ∈ bs, isSeparator c = true) (h : LaidOut ts cs) :
      LaidOut (.literal value :: ts) (bs ++ (value.write ++ cs))
  | operator {sign ts bs cs} (hb : ∀ c ∈ bs, isSeparator c = true) (h : LaidOut ts cs) :
      LaidOut (.operator sign :: ts) (bs ++ (sign.toList ++ cs))
  | group {inner content ts bs cs} (hb : ∀ c ∈ bs, isSeparator c = true)
      (hi : LaidOut inner content) (h : LaidOut ts cs) :
      LaidOut (.group inner :: ts) (bs ++ ('(' :: (content ++ ')' :: cs)))

namespace Token

theorem ne_nil_of_alternates {ts : List Token} (h : alternates ts = true) : ts ≠ [] := by
  rintro rfl
  cases h

theorem isNameChar_of_isDigit {c : Char} (h : c.isDigit = true) : isNameChar c = true := by
  simp [isNameChar, Char.isAlphanum, h]

end Token

namespace PlainNumeral

variable {cs : List Char}

theorem ne_nil (h : PlainNumeral cs) : cs ≠ [] := by
  cases h with
  | whole hne => exact hne
  | places hne => exact List.append_ne_nil_of_left_ne_nil hne _

theorem isDigit_of_head? (h : PlainNumeral cs) (c : Char) (hc : cs.head? = some c) :
    c.isDigit = true := by
  cases h with
  | whole hne hd => exact hd c (List.mem_of_mem_head? hc)
  | places hne hd =>
      obtain ⟨d, ds, rfl⟩ := List.exists_cons_of_ne_nil hne
      obtain rfl : d = c := Option.some.inj hc
      exact hd d List.mem_cons_self

theorem isNameChar (h : PlainNumeral cs) : ∀ c ∈ cs, isNameChar c = true := by
  have digit : ∀ ds : List Char, (∀ c ∈ ds, c.isDigit = true) →
      ∀ c ∈ ds, Token.isNameChar c = true :=
    fun ds hd c hc => isNameChar_of_isDigit (hd c hc)
  cases h with
  | whole hne hd => exact digit _ hd
  | places hne hd hpe hp =>
      rw [List.forall_mem_append, List.forall_mem_cons]
      exact ⟨digit _ hd, by decide, digit _ hp⟩

end PlainNumeral

/-- The plain numbers are the plain numerals. -/
theorem isPlainNumber_iff {cs : List Char} : isPlainNumber cs = true ↔ PlainNumeral cs := by
  have digits : ∀ c ∈ cs.takeWhile Char.isDigit, c.isDigit = true :=
    fun c hc => List.mem_takeWhile_imp hc
  constructor
  · intro h
    have hsplit := List.takeWhile_append_dropWhile (p := Char.isDigit) (l := cs)
    simp only [isPlainNumber, Bool.and_eq_true, Bool.not_eq_true', List.isEmpty_eq_false_iff] at h
    obtain ⟨hne, hrest⟩ := h
    split at hrest
    · next hd =>
        rw [hd, List.append_nil] at hsplit
        rw [hsplit] at hne digits
        exact .whole hne digits
    · next c ps hd =>
        simp only [Bool.and_eq_true, beq_iff_eq, Bool.not_eq_true', List.isEmpty_eq_false_iff,
          List.all_eq_true] at hrest
        obtain ⟨⟨rfl, hpe⟩, hp⟩ := hrest
        rw [← hsplit, hd]
        exact .places hne digits hpe hp
  · intro h
    cases h with
    | whole hne hd =>
        simp [isPlainNumber, List.takeWhile_eq_self_iff.2 hd, List.dropWhile_eq_nil_iff.2 hd, hne]
    | places hne hd hpe hp =>
        simpa [isPlainNumber, List.takeWhile_append_of_pos hd, List.dropWhile_append_of_pos hd, hne,
          hpe] using hp

theorem readTime_eq_ok_iff {value : String} {t : Calendar.Timestamp} :
    readTime value = .ok t ↔ Calendar.Timestamp.read? value.toList = some t := by
  rw [readTime]
  cases Calendar.Timestamp.read? value.toList with
  | none => simp
  | some t' => simp

namespace Token

/-- A token that is written as a word of its own. -/
structure WrittenAsWord (t : Token) : Prop where
  ne_nil : t.write ≠ []
  isNameChar : ∀ c ∈ t.write, isNameChar c = true
  ofWord_write : ofWord t.write = t

/-- A token that is written between quotes. -/
structure WrittenInQuotes (t : Token) (content : List Char) : Prop where
  write_eq : t.write = quote :: (content ++ [quote])
  quote_not_mem : quote ∉ content
  ofQuoted_eq : ofQuoted content = t

/-- A name that is no truth value is a word. -/
theorem writtenAsWord_var {name : String} (h : (Token.var name).Canonical) :
    WrittenAsWord (.var name) := by
  obtain ⟨hvalid, htrue, hfalse⟩ := h
  rw [isValidName] at hvalid
  split at hvalid
  · cases hvalid
  · next c cs hname =>
      rw [Bool.and_eq_true, List.all_eq_true] at hvalid
      obtain ⟨hc, hcs⟩ := hvalid
      have hword : ofWord name.toList = .var name := by
        have hnumber : isPlainNumber name.toList = false := by
          rw [Bool.eq_false_iff, Ne, isPlainNumber_iff, hname]
          intro hn
          cases (Text.isDigit_of_isAlpha hc).symm.trans (hn.isDigit_of_head? c rfl)
        rw [ofWord, hnumber, if_neg Bool.false_ne_true, if_neg, if_neg, String.ofList_toList]
        · intro he
          exact hfalse (String.toList_inj.1 he)
        · intro he
          exact htrue (String.toList_inj.1 he)
      refine ⟨?_, ?_, hword⟩
      · rw [write, hname]
        exact List.cons_ne_nil c cs
      · rw [write, hname, List.forall_mem_cons]
        exact ⟨by simp [isNameChar, Char.isAlphanum, hc], hcs⟩

/-- A literal is a word or stands between quotes. -/
theorem written_literal {value : Literal} (h : value.Canonical) :
    WrittenAsWord (.literal value) ∨ ∃ content, WrittenInQuotes (.literal value) content := by
  obtain ⟨data, dataType⟩ := value
  cases dataType with
  | any => cases h
  | number =>
      have hn : PlainNumeral data.toList := h
      left
      refine ⟨hn.ne_nil, hn.isNameChar, ?_⟩
      simp [write, Literal.write, ofWord, isPlainNumber_iff.2 hn, Literal.number]
  | bool =>
      left
      rcases h with rfl | rfl
      · exact ⟨by decide, List.all_eq_true.1 rfl, rfl⟩
      · exact ⟨by decide, List.all_eq_true.1 rfl, rfl⟩
  | text =>
      obtain ⟨hq, ht⟩ := h
      right
      refine ⟨data.toList, rfl, hq, ?_⟩
      have hnone : Calendar.Timestamp.read? data.toList = none :=
        Option.eq_none_iff_forall_ne_some.2 fun t he => ht t (readTime_eq_ok_iff.2 he)
      simp [ofQuoted, hnone, Literal.text]
  | time =>
      obtain ⟨hq, t, ht⟩ := h
      right
      refine ⟨data.toList, rfl, hq, ?_⟩
      simp [ofQuoted, readTime_eq_ok_iff.1 ht, Literal.time]

end Token

/-! ## Operands and operators in a layout -/

section Steps

variable {bs cs content : List Char} {t : Token} {ts : List Token}

/-- A word is read as it was written, with blanks before it unless it is a keyword. -/
theorem ScansBehind.writtenAsWord (h : ScansBehind cs ts) (ht : t.WrittenAsWord)
    (hb : ∀ c ∈ bs, isSeparator c = true)
    (hk : ∀ name ∈ Operator.keywords, t = .var name → bs = []) :
    Scans (bs ++ (t.write ++ cs)) (t :: ts) := by
  have hscan : Scans (t.write ++ cs) (t :: ts) := by
    have hword := h.word ht.ne_nil ht.isNameChar
    rwa [ht.ofWord_write] at hword
  cases hkey : Operator.startsKeyword (t.write ++ cs) with
  | false => exact hscan.blanks hb hkey
  | true =>
      -- A keyword is read as a variable, so it is one of those that have no blanks before them.
      have words : ∀ name ∈ Operator.keywords, ofWord name.toList = .var name := by decide
      rw [Operator.startsKeyword, List.takeWhile_append_of_pos ht.isNameChar,
        h.takeWhile_isNameChar, List.append_nil, List.contains_iff_mem] at hkey
      have hvar := words _ hkey
      rw [String.toList_ofList, ht.ofWord_write] at hvar
      rw [hk _ hkey hvar, List.nil_append]
      exact hscan

/-- A quoted text is read as it was written. -/
theorem Scans.writtenInQuotes (h : Scans cs ts) (ht : t.WrittenInQuotes content)
    (hb : ∀ c ∈ bs, isSeparator c = true) : Scans (bs ++ (t.write ++ cs)) (t :: ts) := by
  have hsplit : splitQuote? (content ++ quote :: cs) = some (content, cs) :=
    splitQuote?_eq_some_iff.2 ⟨ht.quote_not_mem, rfl⟩
  have hscan : Scans (quote :: (content ++ quote :: cs)) (t :: ts) := by
    rw [← ht.ofQuoted_eq]
    exact .quoted hsplit h
  have hwrite : t.write ++ cs = quote :: (content ++ quote :: cs) := by
    rw [ht.write_eq]
    simp
  rw [hwrite]
  exact hscan.blanks hb (Operator.startsKeyword_of_head? (by rintro d ⟨⟩; decide))

/-- An alias is read as it was written, and it ends the operand before it. -/
theorem Scans.writtenAlias (h : Scans cs ts) (hts : alternates ts = true) {o : Operator}
    {sign : String} (hs : sign ∈ o.aliases) (hb : ∀ c ∈ bs, isSeparator c = true) :
    ScansBehind (bs ++ (sign.toList ++ cs)) (.operator sign :: ts) := by
  have hmem := Operator.mem_spellings_of_mem_aliases hs
  have hcs : cs.head? ≠ some '=' := by
    intro hequal
    obtain ⟨ds, rfl⟩ := List.head?_eq_some_iff.1 hequal
    -- An operator would come first where an operand is due.
    have hsign : Operator.aliasAt? ('=' :: ds) = some (['='], .eq) := by
      simp [Operator.aliasAt?, Operator.spellings, List.isPrefixOf]
    obtain ⟨us, rfl⟩ := h.exists_operator hsign
    cases hts
  have hfound := Operator.aliasAt?_append hmem hcs
  have hkey : Operator.startsKeyword (sign.toList ++ cs) = false := by
    apply Operator.startsKeyword_of_head?
    intro d hd
    obtain ⟨ds, hds⟩ := List.head?_eq_some_iff.1 hd
    rw [hds] at hfound
    exact Operator.isNameChar_of_aliasAt? hfound
  have hsplit : splitOperand (bs ++ (sign.toList ++ cs)) = (bs, sign.toList ++ cs) := by
    rw [splitOperand_blanks hb hkey, splitOperand_of_some hfound, List.append_nil]
  constructor
  · rw [hsplit]
    exact hb
  · rw [hsplit]
    simpa using h.sign hmem hcs

end Steps

/-! ## The end of a group -/

/-- A text that the count of parentheses passes over. -/
def PassedOver (cs : List Char) : Prop :=
  ∀ depth rest, splitClose? false depth (cs ++ rest) =
    (splitClose? false depth rest).map fun r => (cs ++ r.1, r.2)

namespace PassedOver

variable {cs ds : List Char}

theorem append (hc : PassedOver cs) (hd : PassedOver ds) : PassedOver (cs ++ ds) := by
  intro depth rest
  rw [List.append_assoc, hc, hd, Option.map_map]
  simp [Function.comp_def]

/-- Characters that are neither quotes nor parentheses are passed over. -/
theorem of_forall (h : ∀ c ∈ cs, c ≠ quote ∧ c ≠ '(' ∧ c ≠ ')') : PassedOver cs := by
  intro depth rest
  induction cs with
  | nil => simp
  | cons c cs ih =>
      obtain ⟨⟨hq, hopen, hclose⟩, h⟩ := List.forall_mem_cons.1 h
      rw [List.cons_append, splitClose?, if_neg hq, if_neg Bool.false_ne_true, if_neg hopen,
        if_neg hclose, ih h, Option.map_map]
      rfl

/-- Between quotes everything is passed over. -/
theorem quoted (h : quote ∉ cs) : PassedOver (quote :: (cs ++ [quote])) := by
  intro depth rest
  have inside : splitClose? true depth (cs ++ quote :: rest) =
      (splitClose? false depth rest).map fun r => (cs ++ quote :: r.1, r.2) := by
    induction cs with
    | nil => rw [List.nil_append, splitClose?, if_pos rfl]; rfl
    | cons c cs ih =>
        obtain ⟨hc, h⟩ := List.ne_and_not_mem_of_not_mem_cons h
        rw [List.cons_append, splitClose?, if_neg (Ne.symm hc), if_pos rfl, ih h, Option.map_map]
        rfl
  have hcs : quote :: (cs ++ [quote]) ++ rest = quote :: (cs ++ quote :: rest) := by simp
  rw [hcs, splitClose?, if_pos rfl, Bool.not_false, inside, Option.map_map]
  simp [Function.comp_def]

/-- A group with a content that is passed over is passed over. -/
theorem group (h : PassedOver cs) : PassedOver ('(' :: (cs ++ [')'])) := by
  intro depth rest
  have hcs : '(' :: (cs ++ [')']) ++ rest = '(' :: (cs ++ ')' :: rest) := by simp
  have hclose : splitClose? false (depth + 1) (')' :: rest) =
      (splitClose? false depth rest).map fun r => (')' :: r.1, r.2) := by
    rw [splitClose?, if_neg (by decide), if_neg (by decide), if_neg (by decide), if_pos rfl,
      if_neg (Nat.succ_ne_zero depth), Nat.add_sub_cancel]
  rw [hcs, splitClose?, if_neg (by decide), if_neg (by decide), if_pos rfl, h, hclose,
    Option.map_map, Option.map_map]
  simp [Function.comp_def]

/-- The group ends behind a content that is passed over. -/
theorem splitGroup?_eq (h : PassedOver cs) (rest : List Char) :
    splitGroup? (cs ++ ')' :: rest) = some (cs, rest) := by
  rw [splitGroup?, h, splitClose?, if_neg (by decide), if_neg (by decide), if_neg (by decide),
    if_pos rfl, if_pos rfl, Option.map_some, List.append_nil]

/-- A class of characters without quotes and parentheses is passed over. -/
theorem of_class {p : Char → Bool} (hquote : p quote = false) (hopen : p '(' = false)
    (hclose : p ')' = false) (h : ∀ c ∈ cs, p c = true) : PassedOver cs := by
  apply of_forall
  intro c hc
  refine ⟨?_, ?_, ?_⟩
  · rintro rfl
    cases hquote.symm.trans (h _ hc)
  · rintro rfl
    cases hopen.symm.trans (h _ hc)
  · rintro rfl
    cases hclose.symm.trans (h _ hc)

theorem blanks (h : ∀ c ∈ cs, isSeparator c = true) : PassedOver cs := of_class rfl rfl rfl h

theorem word (h : ∀ c ∈ cs, isNameChar c = true) : PassedOver cs := of_class rfl rfl rfl h

theorem sign {o : Operator} {sign : String} (h : sign ∈ o.aliases) : PassedOver sign.toList := by
  have signs : ∀ a ∈ Operator.spellings, quote ∉ a.1 ∧ '(' ∉ a.1 ∧ ')' ∉ a.1 := by decide
  obtain ⟨hquote, hopen, hclose⟩ := signs _ (Operator.mem_spellings_of_mem_aliases h)
  apply of_forall
  intro c hc
  exact ⟨ne_of_mem_of_not_mem hc hquote, ne_of_mem_of_not_mem hc hopen,
    ne_of_mem_of_not_mem hc hclose⟩

end PassedOver

namespace LaidOut

variable {ts : List Token} {cs : List Char}

/-- The count of parentheses passes over every layout. -/
theorem passedOver (h : LaidOut ts cs) (hc : ∀ t ∈ partsAll ts, t.Canonical) : PassedOver cs := by
  induction h with
  | nothing hb => exact .blanks hb
  | @var name ts bs cs hb hk _ ih =>
      rw [partsAll, parts, List.singleton_append, List.forall_mem_cons] at hc
      have hname : PassedOver name.toList := .word (writtenAsWord_var hc.1).isNameChar
      exact (PassedOver.blanks hb).append (hname.append (ih hc.2))
  | @literal value ts bs cs hb _ ih =>
      rw [partsAll, parts, List.singleton_append, List.forall_mem_cons] at hc
      have hvalue : PassedOver (Token.literal value).write := by
        rcases written_literal hc.1 with hw | ⟨content, hw⟩
        · exact .word hw.isNameChar
        · rw [hw.write_eq]
          exact .quoted hw.quote_not_mem
      exact (PassedOver.blanks hb).append (hvalue.append (ih hc.2))
  | operator hb _ ih =>
      rw [partsAll, parts, List.singleton_append, List.forall_mem_cons] at hc
      obtain ⟨⟨o, hs⟩, hc⟩ := hc
      exact (PassedOver.blanks hb).append ((PassedOver.sign hs).append (ih hc))
  | @group inner content ts bs cs hb _ _ ihi ih =>
      rw [partsAll, parts, List.cons_append, List.forall_mem_cons, List.forall_mem_append] at hc
      have hgroup := (ihi hc.2.1).group.append (ih hc.2.2)
      rw [List.cons_append, List.append_assoc, List.singleton_append] at hgroup
      exact (PassedOver.blanks hb).append hgroup

/-- Where an operand is due, a layout has its tokens; where an operator is due, it has them
behind the blanks before the operator. -/
theorem scans (h : LaidOut ts cs) (hc : ∀ t ∈ partsAll ts, t.Canonical) :
    (alternates ts = true → Scans cs ts) ∧ (continues ts = true → ScansBehind cs ts) := by
  induction h with
  | @nothing bs hb =>
      have hsplit : splitOperand (bs ++ []) = (bs ++ [], []) := splitOperand_blanks hb rfl
      rw [List.append_nil] at hsplit
      refine ⟨fun ha => (by cases ha), fun _ => ⟨?_, ?_⟩⟩
      · rw [hsplit]
        exact hb
      · rw [hsplit]
        exact .nothing
  | var hb hk _ ih =>
      rw [partsAll, parts, List.singleton_append, List.forall_mem_cons] at hc
      refine ⟨fun ha => ?_, fun hs => (by cases hs)⟩
      rw [alternates, Bool.and_eq_true] at ha
      apply ((ih hc.2).2 ha.2).writtenAsWord (writtenAsWord_var hc.1) hb
      rintro name hname ⟨⟩
      exact hk hname
  | literal hb _ ih =>
      rw [partsAll, parts, List.singleton_append, List.forall_mem_cons] at hc
      refine ⟨fun ha => ?_, fun hs => (by cases hs)⟩
      rw [alternates, Bool.and_eq_true] at ha
      have hbehind := (ih hc.2).2 ha.2
      rcases written_literal hc.1 with hw | ⟨content, hw⟩
      · apply hbehind.writtenAsWord hw hb
        rintro name _ ⟨⟩
      · exact hbehind.scans.writtenInQuotes hw hb
  | operator hb _ ih =>
      rw [partsAll, parts, List.singleton_append, List.forall_mem_cons] at hc
      refine ⟨fun ha => (by cases ha), fun hs => ?_⟩
      obtain ⟨⟨o, hsign⟩, hc⟩ := hc
      rw [continues, Bool.and_eq_true] at hs
      exact ((ih hc).1 hs.2).writtenAlias hs.2 hsign hb
  | @group inner content ts bs cs hb hi _ ihi ih =>
      rw [partsAll, parts, List.cons_append, List.forall_mem_cons, List.forall_mem_append] at hc
      refine ⟨fun ha => ?_, fun hs => (by cases hs)⟩
      rw [alternates, isOperand, Bool.and_eq_true] at ha
      have hcontent : Scans content inner := (ihi hc.2.1).1 ha.1
      have hne := hcontent.ne_nil_iff.1 (ne_nil_of_alternates ha.1)
      have hgroup : Scans ('(' :: (content ++ ')' :: cs)) (.group inner :: ts) :=
        .group ((hi.passedOver hc.2.1).splitGroup?_eq cs) hne hcontent ((ih hc.2.2).2 ha.2).scans
      exact hgroup.blanks hb (Operator.startsKeyword_of_head? (by rintro d ⟨⟩; decide))

end LaidOut

/-- A layout of a canonical sequence is not blank and has the tokens of the sequence. -/
theorem CanonicalSequence.scans {ts : List Token} {cs : List Char} (hc : CanonicalSequence ts)
    (hl : LaidOut ts cs) : Text.allBlank cs = false ∧ Scans cs ts := by
  have hscans := (hl.scans hc.canonical).1 hc.alternates
  exact ⟨hscans.ne_nil_iff.1 (ne_nil_of_alternates hc.alternates), hscans⟩

/-- Scanning undoes writing, whatever blanks the writing puts in. -/
theorem scan_of_laidOut {ts : List Token} {source : String} (hc : CanonicalSequence ts)
    (hl : LaidOut ts source.toList) : scan source = .ok ts :=
  scan_eq_ok_iff.2 (hc.scans hl)

/-- A variable that is named like the alias behind it, and a group of a comparison with a
quoted parenthesis. -/
def keywordName : List Token :=
  [.var "and", .operator " and ",
    .group [.literal (.text "(>"), .operator ">=", .var "x"]]

/-- The blanks around the alias do not make the variable a part of it, and neither the
parenthesis nor the sign between quotes counts. -/
theorem scan_of_laidOut_keywordName :
    CanonicalSequence keywordName ∧ LaidOut keywordName "and\t and ( '(>' >=x)\n".toList ∧
      scan "and\t and ( '(>' >=x)\n" = .ok keywordName := by
  have canonical : CanonicalSequence keywordName := by
    have hname : ∀ name ∈ ["and", "x"],
        isValidName name = true ∧ name ≠ "true" ∧ name ≠ "false" := by decide
    have hand : (Token.operator " and ").Canonical := ⟨.and, by decide⟩
    have hsign : (Token.operator ">=").Canonical := ⟨.greaterEq, by decide⟩
    have htext : (Literal.text "(>").Canonical := by
      refine ⟨by decide, fun t ht => ?_⟩
      cases readTime_eq_ok_iff.1 ht
    refine ⟨rfl, ?_⟩
    simp only [keywordName, partsAll, parts, List.forall_mem_append, List.forall_mem_cons]
    exact ⟨⟨hname _ (by simp), by simp⟩, ⟨hand, by simp⟩, ⟨trivial, ⟨htext, by simp⟩,
      ⟨hsign, by simp⟩, ⟨hname _ (by simp), by simp⟩, by simp⟩, by simp⟩
  have laidOut : LaidOut keywordName ([] ++ ("and".toList ++ (['\t'] ++ (" and ".toList ++
      ([] ++ ('(' :: (([' '] ++ ((Literal.text "(>").write ++ ([' '] ++ (">=".toList ++
        ([] ++ ("x".toList ++ [])))))) ++ ')' :: ['\n']))))))) :=
    .var (by simp) (by simp) <| .operator (List.forall_mem_singleton.2 rfl) <|
      .group (by simp)
        (.literal (List.forall_mem_singleton.2 rfl) <|
          .operator (List.forall_mem_singleton.2 rfl) <| .var (by simp) (by simp) <|
            .nothing (by simp))
        (.nothing (List.forall_mem_singleton.2 rfl))
  exact ⟨canonical, laidOut, scan_of_laidOut canonical laidOut⟩

end FormulaCode
