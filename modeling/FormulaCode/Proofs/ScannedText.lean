import FormulaCode.Proofs.Scanning
import FormulaCode.Token.Text
import Mathlib.Control.Monad.Basic

/-! # Scanning loses and invents nothing

The tokens of a text, written one after the other, are the text up to its blanks. What stands
between two aliases is one operand: no alias starts inside it, or the scan would have stopped
there, and it has no blanks at its ends. A text that is not blank has a token, and so has
every group, since the content of a group is a text of its own. -/

namespace FormulaCode

namespace Text

/-- A text without all its blanks. -/
def withoutBlanks (cs : List Char) : List Char := cs.filter fun c => !isBlank c

@[simp] theorem withoutBlanks_append (cs ds : List Char) :
    withoutBlanks (cs ++ ds) = withoutBlanks cs ++ withoutBlanks ds := by
  simp [withoutBlanks]

theorem withoutBlanks_cons (c : Char) (cs : List Char) :
    withoutBlanks (c :: cs) = if isBlank c then withoutBlanks cs else c :: withoutBlanks cs := by
  cases h : isBlank c with
  | true => simp [withoutBlanks, h]
  | false => simp [withoutBlanks, h]

theorem withoutBlanks_eq_nil_iff {cs : List Char} :
    withoutBlanks cs = [] ↔ allBlank cs = true := by
  simp [withoutBlanks, allBlank]

theorem allBlank_cons (c : Char) (cs : List Char) :
    allBlank (c :: cs) = (isBlank c && allBlank cs) := rfl

theorem allBlank_append (cs ds : List Char) :
    allBlank (cs ++ ds) = (allBlank cs && allBlank ds) := List.all_append

theorem withoutBlanks_trim (cs : List Char) : withoutBlanks (trim cs) = withoutBlanks cs := by
  have drop : ∀ l : List Char, withoutBlanks (l.dropWhile isBlank) = withoutBlanks l := by
    intro l
    induction l with
    | nil => rfl
    | cons c l ih =>
        rw [List.dropWhile_cons]
        split
        · next hc => rw [ih, withoutBlanks_cons, if_pos hc]
        · rfl
  calc withoutBlanks (trim cs)
      = (withoutBlanks ((trimStart cs).reverse.dropWhile isBlank)).reverse := by
        rw [trim, trimEnd, withoutBlanks, withoutBlanks, List.filter_reverse]
    _ = withoutBlanks (trimStart cs) := by
        rw [drop, withoutBlanks, List.filter_reverse, List.reverse_reverse, withoutBlanks]
    _ = withoutBlanks cs := drop cs

/-- What is left of a text stands in it. -/
theorem trimEnd_isPrefix (cs : List Char) : trimEnd cs <+: cs := by
  have h := List.reverse_prefix.2 (List.dropWhile_suffix isBlank (l := cs.reverse))
  rwa [List.reverse_reverse] at h

theorem trim_infix (cs : List Char) : trim cs <:+: cs :=
  (trimEnd_isPrefix _).isInfix.trans (List.dropWhile_suffix isBlank).isInfix

theorem isBlank_of_mem_head?_dropWhile {cs : List Char} {c : Char}
    (h : c ∈ (cs.dropWhile isBlank).head?) : isBlank c = false := by
  have hnot := List.head?_dropWhile_not isBlank cs
  rwa [Option.mem_def.1 h] at hnot

theorem isBlank_of_mem_head?_trim {cs : List Char} {c : Char} (h : c ∈ (trim cs).head?) :
    isBlank c = false := by
  obtain ⟨rest, hrest⟩ := trimEnd_isPrefix (trimStart cs)
  have hstart : c ∈ (trimStart cs).head? := by
    rw [← hrest, List.head?_append, Option.mem_def, Option.or_eq_some_iff]
    exact Or.inl h
  exact isBlank_of_mem_head?_dropWhile hstart

theorem isBlank_of_mem_getLast?_trim {cs : List Char} {c : Char} (h : c ∈ (trim cs).getLast?) :
    isBlank c = false := by
  rw [trim, trimEnd, List.getLast?_reverse] at h
  exact isBlank_of_mem_head?_dropWhile h

end Text

theorem Operator.mem_spellings_of_mem_aliases {o : Operator} {sign : String}
    (h : sign ∈ o.aliases) : (sign.toList, o) ∈ spellings := by
  rwa [mem_spellings_iff, String.ofList_toList]

/-- No alias is blank. -/
theorem Operator.allBlank_spelling {a : Spelling} (h : a ∈ spellings) :
    Text.allBlank a.1 = false := by
  revert a
  decide

namespace Token

mutual

/-- A token and all tokens inside it. -/
def parts : Token → List Token
  | var name => [var name]
  | literal value => [literal value]
  | operator sign => [operator sign]
  | group ts => group ts :: partsAll ts

/-- The tokens of a sequence, at all depths. -/
def partsAll : List Token → List Token
  | [] => []
  | t :: ts => parts t ++ partsAll ts

end

/-- An operand that is written as it is: no alias occurs in it, and no blank stands at its
ends. -/
structure PlainWord (cs : List Char) : Prop where
  noAlias : ∀ o : Operator, ∀ sign ∈ o.aliases, ¬sign.toList <:+: cs
  noBlankBefore : ∀ c ∈ cs.head?, Text.isBlank c = false
  noBlankBehind : ∀ c ∈ cs.getLast?, Text.isBlank c = false

/-- What scanning can make of a part of a text: an operand without quotes is a plain word, an
operator is written by an alias, and a group is not empty. -/
def Regular : Token → Prop
  | var name => PlainWord name.toList
  | literal value =>
      value.dataType = .number ∨ value.dataType = .bool → PlainWord value.data.toList
  | operator sign => ∃ o : Operator, sign ∈ o.aliases
  | group inner => inner ≠ []

theorem partsAll_append (ss ts : List Token) :
    partsAll (ss ++ ts) = partsAll ss ++ partsAll ts := by
  induction ss with
  | nil => simp [partsAll]
  | cons s ss ih => simp [partsAll, ih]

theorem writeAll_append (ss ts : List Token) :
    writeAll (ss ++ ts) = writeAll ss ++ writeAll ts := by
  induction ss with
  | nil => simp [writeAll]
  | cons s ss ih => simp [writeAll, ih]

theorem isBlank_of_isSeparator {c : Char} (h : isSeparator c = true) : Text.isBlank c = true := by
  simp only [isSeparator, Bool.or_eq_true, beq_iff_eq] at h
  rcases h with ((rfl | rfl) | rfl) | rfl <;> decide

section Operands

variable {cs content w : List Char} {a : Operator.Spelling}

theorem write_ofQuoted (content : List Char) :
    (ofQuoted content).write = quote :: content ++ [quote] := by
  rw [ofQuoted]
  split <;> simp [write, Literal.write, Literal.time, Literal.text]

theorem write_ofWord (w : List Char) : (ofWord w).write = w := by
  rw [ofWord]
  split
  · simp [write, Literal.write, Literal.number]
  · split
    · next h => rw [h]; rfl
    · split
      · next h => rw [h]; rfl
      · simp [write]

theorem parts_ofQuoted (content : List Char) : parts (ofQuoted content) = [ofQuoted content] := by
  rw [ofQuoted]
  split <;> rfl

theorem parts_ofWord (w : List Char) : parts (ofWord w) = [ofWord w] := by
  rw [ofWord]
  split
  · rfl
  · split
    · rfl
    · split <;> rfl

theorem withoutBlanks_ofOperand (cs : List Char) :
    Text.withoutBlanks (writeAll (ofOperand cs)) = Text.withoutBlanks cs := by
  rw [ofOperand]
  split
  · next hb => rw [Text.withoutBlanks_eq_nil_iff.2 hb]; rfl
  · simp [writeAll, write_ofWord, Text.withoutBlanks_trim]

theorem not_prefix_of_aliasAt? (h : Operator.aliasAt? cs = none) (ha : a ∈ Operator.spellings) :
    ¬a.1 <+: cs := by
  intro hp
  exact List.find?_eq_none.1 h a ha (List.isPrefixOf_iff_prefix.2 hp)

/-- No alias starts before the end of an operand. -/
theorem not_infix_splitOperand (ha : a ∈ Operator.spellings) (cs : List Char) :
    ¬a.1 <:+: (splitOperand cs).1 := by
  have hne := Operator.ne_nil_of_mem_spellings ha
  induction cs with
  | nil => simpa [splitOperand] using hne
  | cons c cs ih =>
      by_cases h : (Operator.aliasAt? (c :: cs)).isSome = true
      · simpa [splitOperand, h] using hne
      · simp only [splitOperand, h]
        rw [Bool.not_eq_true, Option.isSome_eq_false_iff, Option.isNone_iff_eq_none] at h
        intro hin
        rcases List.infix_cons_iff.1 hin with hp | hin
        · apply not_prefix_of_aliasAt? h ha
          refine hp.trans (List.prefix_cons_inj c |>.2 ⟨(splitOperand cs).2, ?_⟩)
          exact splitOperand_append cs
        · exact ih hin

/-- What an operand is trimmed to is a plain word. -/
theorem plainWord_trim {c : Char} (h : Operator.aliasAt? (c :: cs) = none) :
    PlainWord (Text.trim (c :: (splitOperand cs).1)) where
  noAlias := by
    intro o sign hs hin
    have ha := Operator.mem_spellings_of_mem_aliases hs
    have hin := hin.trans (Text.trim_infix _)
    rcases List.infix_cons_iff.1 hin with hp | hin
    · apply not_prefix_of_aliasAt? h ha
      exact hp.trans (List.prefix_cons_inj c |>.2 ⟨_, splitOperand_append cs⟩)
    · exact not_infix_splitOperand ha cs hin
  noBlankBefore := fun _ => Text.isBlank_of_mem_head?_trim
  noBlankBehind := fun _ => Text.isBlank_of_mem_getLast?_trim

/-- A quoted text may hold anything. -/
theorem regular_ofQuoted (content : List Char) : (ofQuoted content).Regular := by
  rw [ofQuoted]
  split <;> simp [Regular, Literal.time, Literal.text]

/-- A word stands for an operand with its characters. -/
theorem regular_ofWord (h : PlainWord w) : (ofWord w).Regular := by
  rw [ofWord]
  split
  · intro _
    simpa [Literal.number] using h
  · split
    · next hw =>
        subst hw
        exact fun _ => h
    · split
      · next hw =>
          subst hw
          exact fun _ => h
      · simpa [Regular] using h

end Operands

end Token

open Token

namespace Scans

variable {cs : List Char} {ts : List Token}

/-- The tokens hold the text up to its blanks. -/
theorem withoutBlanks_eq (h : Scans cs ts) :
    Text.withoutBlanks (writeAll ts) = Text.withoutBlanks cs := by
  induction h with
  | nothing => rfl
  | quoted hs _ ih =>
      obtain ⟨-, rfl⟩ := splitQuote?_eq_some_iff.1 hs
      simp [writeAll, write_ofQuoted, Text.withoutBlanks_cons, ih]
  | group hs hb _ _ ihi ih =>
      obtain rfl := eq_append_of_splitClose? hs
      simp [writeAll, write, Text.withoutBlanks_cons, ihi, ih]
  | operator hq hp ha _ ih =>
      rw [writeAll, Text.withoutBlanks_append, ih, write, String.toList_ofList,
        ← Text.withoutBlanks_append, Operator.append_drop_of_aliasAt? ha]
  | blank hq hp ha hc _ ih =>
      rw [ih, Text.withoutBlanks_cons, if_pos (isBlank_of_isSeparator hc)]
  | operand hq hp ha hc _ ih =>
      rw [writeAll_append, Text.withoutBlanks_append, withoutBlanks_ofOperand, ih,
        ← Text.withoutBlanks_append, List.cons_append, splitOperand_append]

/-- Exactly the blank texts have no tokens. -/
theorem eq_nil_iff (h : Scans cs ts) : ts = [] ↔ Text.allBlank cs = true := by
  constructor
  · rintro rfl
    exact Text.withoutBlanks_eq_nil_iff.1 h.withoutBlanks_eq.symm
  · intro hb
    induction h with
    | nothing => rfl
    | quoted | group =>
        rw [Text.allBlank_cons] at hb
        cases hb
    | operator hq hp ha _ ih =>
        rw [← Operator.append_drop_of_aliasAt? ha, Text.allBlank_append, Bool.and_eq_true] at hb
        have hnot := Operator.allBlank_spelling (Operator.mem_spellings_of_aliasAt? ha)
        cases hnot.symm.trans hb.1
    | blank hq hp ha hc _ ih =>
        rw [Text.allBlank_cons, Bool.and_eq_true] at hb
        exact ih hb.2
    | @operand c cs ts hq hp ha hc _ ih =>
        rw [← splitOperand_append cs, ← List.cons_append, Text.allBlank_append,
          Bool.and_eq_true] at hb
        rw [ofOperand, if_pos hb.1, List.nil_append]
        exact ih hb.2

theorem ne_nil_iff (h : Scans cs ts) : ts ≠ [] ↔ Text.allBlank cs = false := by
  rw [Ne, h.eq_nil_iff, Bool.not_eq_true]

/-- A property of all tokens that scanning can make holds of the tokens of a text, at all
depths. -/
theorem forall_parts {P : Token → Prop}
    (quoted : ∀ content, quote ∉ content → P (ofQuoted content))
    (word : ∀ w, PlainWord w → P (ofWord w))
    (sign : ∀ a ∈ Operator.spellings, P (.operator (String.ofList a.1)))
    (group : ∀ inner, inner ≠ [] → P (.group inner)) (h : Scans cs ts) :
    ∀ t ∈ partsAll ts, P t := by
  induction h with
  | nothing => simp [partsAll]
  | quoted hs _ ih =>
      rw [partsAll, parts_ofQuoted, List.singleton_append, List.forall_mem_cons]
      exact ⟨quoted _ (splitQuote?_eq_some_iff.1 hs).1, ih⟩
  | group hs hb hi _ ihi ih =>
      rw [partsAll, parts, List.cons_append, List.forall_mem_cons, List.forall_mem_append]
      exact ⟨group _ (hi.ne_nil_iff.2 hb), ihi, ih⟩
  | operator hq hp ha _ ih =>
      rw [partsAll, parts, List.singleton_append, List.forall_mem_cons]
      exact ⟨sign _ (Operator.mem_spellings_of_aliasAt? ha), ih⟩
  | blank hq hp ha hc _ ih => exact ih
  | operand hq hp ha hc _ ih =>
      rw [partsAll_append, List.forall_mem_append]
      refine ⟨?_, ih⟩
      rw [ofOperand]
      split
      · simp [partsAll]
      · rw [partsAll, parts_ofWord, partsAll, List.append_nil, List.forall_mem_singleton]
        exact word _ (plainWord_trim ha)

end Scans

/-- The tokens of a text hold it, and nothing else. -/
structure Transcript (cs : List Char) (ts : List Token) : Prop where
  /-- Written one after the other, they are the text up to its blanks. -/
  text : Text.withoutBlanks (writeAll ts) = Text.withoutBlanks cs
  /-- There is a token. -/
  nonempty : ts ≠ []
  /-- The tokens are regular at all depths. -/
  regular : ∀ t ∈ partsAll ts, t.Regular

/-- Scanning loses nothing but blanks and makes regular tokens only. -/
theorem transcript_of_scan {source : String} {ts : List Token} (h : scan source = .ok ts) :
    Transcript source.toList ts := by
  obtain ⟨hb, h⟩ := scan_eq_ok_iff.1 h
  refine ⟨h.withoutBlanks_eq, h.ne_nil_iff.2 hb, ?_⟩
  apply h.forall_parts (P := Regular)
  · exact fun content _ => regular_ofQuoted content
  · exact fun w => regular_ofWord
  · exact fun a ha => ⟨a.2, (Operator.mem_spellings_iff a.1 a.2).1 ha⟩
  · exact fun inner hne => hne

/-- A wide blank, a parenthesis and a quote in an operand, and an alias between quotes. -/
def strayMarks : String := "\u3000a )b' AND ('2+(' )"

/-- The wide blank is cut off, the parenthesis and the quote belong to a variable, and neither
the alias nor the parenthesis between quotes counts. -/
theorem transcript_of_scan_strayMarks :
    scan strayMarks = .ok [.var "a )b'", .operator " AND ", .group [.literal (.text "2+(")]] ∧
      Transcript strayMarks.toList
        [.var "a )b'", .operator " AND ", .group [.literal (.text "2+(")]] := by
  have scanned : scan strayMarks =
      .ok [.var "a )b'", .operator " AND ", .group [.literal (.text "2+(")]] := by decide +kernel
  exact ⟨scanned, transcript_of_scan scanned⟩

end FormulaCode
