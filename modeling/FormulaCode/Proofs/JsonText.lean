import FormulaCode.Json.Reader
import Mathlib.Data.List.Forall2
import Mathlib.Data.List.TakeWhile

/-! # JSON values as text

A value that is written and read again is the value that it was. Writing is followed in two
steps: the text of a value splits into the lexemes of the value, whatever comes behind it, and
those lexemes are read as the value, whatever is open around it. A word or a number ends where
punctuation follows, which is why something has to be known of the text behind it. -/

namespace FormulaCode.Json

/-! ## Characters in strings -/

/-- A piece of a string spells a character: the character itself, or the code unit of a control
character. -/
inductive Spells : Piece → Char → Prop
  | char {c} : Spells (.char c) c
  | control {c} (h : c.toNat < 32) : Spells (.unit c.toNat) c

theorem hexValue?_digitChar : ∀ n < 16, hexValue? (Nat.digitChar n) = some n := by decide

theorem unit?_hex4 {n : Nat} (h : n < 65536) :
    unit? (Nat.digitChar (n / 4096 % 16)) (Nat.digitChar (n / 256 % 16))
      (Nat.digitChar (n / 16 % 16)) (Nat.digitChar (n % 16)) = some n := by
  have digit (m : Nat) : hexValue? (Nat.digitChar (m % 16)) = some (m % 16) :=
    hexValue?_digitChar _ (Nat.mod_lt m (by decide))
  simp only [unit?, digit, Option.bind_eq_bind, Option.bind_some, Option.pure_def,
    Option.some.injEq]
  omega

/-- A code unit written with four digits is one piece. -/
theorem stringPieces?_hex4 {n : Nat} (h : n < 65536) (cs : List Char) :
    stringPieces? ('\\' :: 'u' :: hex4 n ++ cs) =
      (stringPieces? cs).map fun r => (.unit n :: r.1, r.2) := by
  simp only [hex4, List.cons_append, List.nil_append, stringPieces?, unit?_hex4 h]
  cases stringPieces? cs with
  | none => rfl
  | some r => rfl

/-- A letter behind a backslash is one piece. -/
theorem stringPieces?_escape {e c : Char} (he : escape? e = some c) (hu : e ≠ 'u')
    (cs : List Char) :
    stringPieces? ('\\' :: e :: cs) =
      (stringPieces? cs).map fun r => (.char c :: r.1, r.2) := by
  rw [stringPieces?]
  · rw [he]
    cases stringPieces? cs with
    | none => rfl
    | some r => rfl
  · intro a b c d cs' h
    exact absurd h hu

theorem stringPieces?_plain {c : Char} (hq : c ≠ quote) (hb : c ≠ '\\') (hc : 32 ≤ c.toNat)
    (cs : List Char) :
    stringPieces? (c :: cs) = (stringPieces? cs).map fun r => (.char c :: r.1, r.2) := by
  rw [stringPieces?]
  · rw [if_neg]
    simp only [hb, false_or]
    omega
  · exact hq
  · intro a b c' d cs' h
    exact absurd h hb
  · intro c' cs' h
    exact absurd h hb

/-- A character is written by a letter behind a backslash, by the digits of a control character,
or as it is. -/
theorem writeChar_cases (c : Char) :
    (∃ e, escape? e = some c ∧ e ≠ 'u' ∧ writeChar c = ['\\', e]) ∨
      (c.toNat < 32 ∧ writeChar c = '\\' :: 'u' :: hex4 c.toNat) ∨
      (c ≠ quote ∧ c ≠ '\\' ∧ 32 ≤ c.toNat ∧ writeChar c = [c]) := by
  have named : ∀ e d : Char, escape? e = some d → e ≠ 'u' → c = d → writeChar d = ['\\', e] →
      ∃ e, escape? e = some c ∧ e ≠ 'u' ∧ writeChar c = ['\\', e] := by
    rintro e d he hu rfl hw
    exact ⟨e, he, hu, hw⟩
  by_cases hq : c = quote
  · exact .inl (named '\x22' quote rfl (by decide) hq rfl)
  by_cases hb : c = '\\'
  · exact .inl (named '\\' '\\' rfl (by decide) hb rfl)
  by_cases hn : c = '\n'
  · exact .inl (named 'n' '\n' rfl (by decide) hn rfl)
  by_cases hr : c = '\r'
  · exact .inl (named 'r' '\r' rfl (by decide) hr rfl)
  by_cases ht : c = '\t'
  · exact .inl (named 't' '\t' rfl (by decide) ht rfl)
  by_cases h8 : c.toNat = 8
  · exact .inl (named 'b' '\x08' rfl (by decide) (Char.toNat_inj.1 h8) rfl)
  by_cases h12 : c.toNat = 12
  · exact .inl (named 'f' '\x0c' rfl (by decide) (Char.toNat_inj.1 h12) rfl)
  by_cases h32 : c.toNat < 32
  · exact .inr (.inl ⟨h32, by simp [writeChar, hq, hb, hn, hr, ht, h8, h12, h32]⟩)
  · refine .inr (.inr ⟨hq, hb, Nat.le_of_not_lt h32, ?_⟩)
    simp [writeChar, hq, hb, hn, hr, ht, h8, h12, h32]

/-- A written character is one piece that spells it. -/
theorem exists_spells (c : Char) : ∃ p, Spells p c ∧ ∀ cs, stringPieces? (writeChar c ++ cs) =
    (stringPieces? cs).map fun r => (p :: r.1, r.2) := by
  rcases writeChar_cases c with ⟨e, he, hu, hw⟩ | ⟨hc, hw⟩ | ⟨hq, hb, hc, hw⟩
  · rw [hw]
    exact ⟨.char c, .char, stringPieces?_escape he hu⟩
  · rw [hw]
    exact ⟨.unit c.toNat, .control hc, stringPieces?_hex4 (by omega)⟩
  · rw [hw]
    exact ⟨.char c, .char, stringPieces?_plain hq hb hc⟩

/-- A code unit that is no surrogate is a character of its own. -/
theorem joinPieces?_unit {n : Nat} (h : n < 0xD800) (ps : List Piece) :
    joinPieces? (.unit n :: ps) = (joinPieces? ps).map (Char.ofNat n :: ·) := by
  have high : isHighSurrogate n = false := by
    simp only [isHighSurrogate, Bool.and_eq_false_iff, decide_eq_false_iff_not]
    omega
  have low : isLowSurrogate n = false := by
    simp only [isLowSurrogate, Bool.and_eq_false_iff, decide_eq_false_iff_not]
    omega
  cases ps with
  | nil => simp [joinPieces?, high, low]
  | cons p ps =>
      cases p with
      | char c => simp [joinPieces?, high, low]
      | unit m =>
          rw [joinPieces?]
          simp [high, low]

/-- Pieces that spell a text join to it. -/
theorem joinPieces?_eq {ps : List Piece} {cs : List Char} (h : List.Forall₂ Spells ps cs) :
    joinPieces? ps = some cs := by
  induction h with
  | nil => rfl
  | cons hp _ ih =>
      cases hp with
      | char => rw [joinPieces?, ih, Option.map_some]
      | control hc =>
          rw [joinPieces?_unit (by omega), ih, Option.map_some, Char.ofNat_toNat]

/-- The pieces of a written text spell it. -/
theorem exists_pieces (cs rest : List Char) : ∃ ps, List.Forall₂ Spells ps cs ∧
    stringPieces? (cs.flatMap writeChar ++ quote :: rest) = some (ps, rest) := by
  induction cs with
  | nil => exact ⟨[], .nil, rfl⟩
  | cons c cs ih =>
      obtain ⟨ps, hps, hs⟩ := ih
      obtain ⟨p, hp, hc⟩ := exists_spells c
      refine ⟨p :: ps, .cons hp hps, ?_⟩
      rw [List.flatMap_cons, List.append_assoc, hc, hs, Option.map_some]

/-- A written string is read as the text that it names, or as none. -/
theorem exists_pieces_writeString (t : Option String) (rest : List Char) : ∃ body ps,
    writeString t = quote :: body ∧ stringPieces? (body ++ rest) = some (ps, rest) ∧
      (joinPieces? ps).map String.ofList = t := by
  cases t with
  | none =>
      refine ⟨'\\' :: 'u' :: hex4 0xD800 ++ [quote], [.unit 0xD800], rfl, ?_, rfl⟩
      rw [List.append_assoc, stringPieces?_hex4 (by decide)]
      rfl
  | some s =>
      obtain ⟨ps, hps, hs⟩ := exists_pieces s.toList rest
      refine ⟨s.toList.flatMap writeChar ++ [quote], ps, rfl, ?_, ?_⟩
      · rw [List.append_assoc]
        exact hs
      · rw [joinPieces?_eq hps, Option.map_some, String.ofList_toList]

/-! ## Spellings of numbers -/

/-- The characters of a number, if what is behind a part of it has no others. -/
theorem isNumberChar_of_dropDigits? {cs ds : List Char} (h : dropDigits? cs = some ds)
    (hd : ∀ c ∈ ds, isNumberChar c = true) : ∀ c ∈ cs, isNumberChar c = true := by
  obtain ⟨-, h⟩ := Option.ite_none_left_eq_some.1 h
  obtain rfl := Option.some.inj h
  intro c hc
  rw [← List.takeWhile_append_dropWhile (p := Char.isDigit) (l := cs), List.mem_append] at hc
  rcases hc with hc | hc
  · have digit : c.isDigit = true := List.mem_takeWhile_imp hc
    simp [isNumberChar, digit]
  · exact hd c hc

theorem isNumberChar_of_dropWhole? {cs ds : List Char} (h : dropWhole? cs = some ds)
    (hd : ∀ c ∈ ds, isNumberChar c = true) : ∀ c ∈ cs, isNumberChar c = true := by
  unfold dropWhole? at h
  split at h
  · obtain rfl := Option.some.inj h
    simpa [isNumberChar] using hd
  · exact isNumberChar_of_dropDigits? h hd

theorem isNumberChar_of_dropFraction? {cs ds : List Char} (h : dropFraction? cs = some ds)
    (hd : ∀ c ∈ ds, isNumberChar c = true) : ∀ c ∈ cs, isNumberChar c = true := by
  unfold dropFraction? at h
  split at h
  · simpa [isNumberChar] using isNumberChar_of_dropDigits? h hd
  · obtain rfl := Option.some.inj h
    exact hd

theorem isNumberChar_of_dropExponent? {cs ds : List Char} (h : dropExponent? cs = some ds)
    (hd : ∀ c ∈ ds, isNumberChar c = true) : ∀ c ∈ cs, isNumberChar c = true := by
  cases cs with
  | nil =>
      intro c hc
      cases hc
  | cons e cs =>
      simp only [dropExponent?] at h
      split at h
      · next he =>
          have hcs : ∀ c ∈ cs, isNumberChar c = true := by
            split at h
            · simpa [isNumberChar] using isNumberChar_of_dropDigits? h hd
            · simpa [isNumberChar] using isNumberChar_of_dropDigits? h hd
            · exact isNumberChar_of_dropDigits? h hd
          refine List.forall_mem_cons.2 ⟨?_, hcs⟩
          rcases he with rfl | rfl
          · rfl
          · rfl
      · obtain rfl := Option.some.inj h
        exact hd

/-- An integer part starts with a digit. -/
theorem exists_cons_of_dropWhole? {cs ds : List Char} (h : dropWhole? cs = some ds) :
    ∃ c cs', cs = c :: cs' ∧ c.isDigit = true := by
  unfold dropWhole? at h
  split at h
  · exact ⟨_, _, rfl, rfl⟩
  · obtain ⟨hne, -⟩ := Option.ite_none_left_eq_some.1 h
    cases cs with
    | nil => exact absurd rfl hne
    | cons c cs' =>
        refine ⟨c, cs', rfl, ?_⟩
        by_contra hc
        simp [hc] at hne

/-- A number has the characters of numbers, and starts with a digit or a minus sign. -/
theorem of_isNumber {cs : List Char} (h : isNumber cs = true) :
    (∀ c ∈ cs, isNumberChar c = true) ∧ ∃ c ds, cs = c :: ds ∧ (c.isDigit = true ∨ c = '-') := by
  have unsigned : ∀ ds, (dropWhole? ds >>= dropFraction? >>= dropExponent?) = some [] →
      (∀ c ∈ ds, isNumberChar c = true) ∧ ∃ c ds', ds = c :: ds' ∧ c.isDigit = true := by
    intro ds hds
    simp only [Option.bind_eq_bind, Option.bind_eq_some_iff] at hds
    obtain ⟨behindFraction, ⟨behindWhole, hw, hf⟩, he⟩ := hds
    constructor
    · apply isNumberChar_of_dropWhole? hw
      apply isNumberChar_of_dropFraction? hf
      apply isNumberChar_of_dropExponent? he
      simp
    · exact exists_cons_of_dropWhole? hw
  unfold isNumber at h
  split at h
  · obtain ⟨hall, -⟩ := unsigned _ (eq_of_beq h)
    constructor
    · simpa [isNumberChar] using hall
    · exact ⟨_, _, rfl, .inr rfl⟩
  · obtain ⟨hall, c, ds, rfl, hc⟩ := unsigned _ (eq_of_beq h)
    exact ⟨hall, c, ds, rfl, .inl hc⟩

/-- The digits of a natural number are a JSON number. -/
theorem isNumber_digits (n : Nat) : isNumber (Text.digits n) = true := by
  by_cases hn : n = 0
  · subst hn
    rfl
  · obtain ⟨c, cs, hd, hc⟩ := Text.exists_digits_eq_cons (Nat.pos_of_ne_zero hn)
    have digits : ∀ d ∈ c :: cs, d.isDigit = true :=
      fun d hd' => Text.isDigit_of_mem_digits (hd ▸ hd')
    have hsign : c ≠ '-' := by
      rintro rfl
      cases digits '-' List.mem_cons_self
    have hall : dropDigits? (c :: cs) = some [] := by
      rw [dropDigits?, List.takeWhile_eq_self_iff.2 digits, List.dropWhile_eq_nil_iff.2 digits]
      rfl
    have hwhole : dropWhole? (c :: cs) = some [] := by
      unfold dropWhole?
      split
      · next he => exact absurd (List.cons.inj he).1 hc
      · exact hall
    rw [hd]
    unfold isNumber
    split
    · next he => exact absurd (List.cons.inj he).1 hsign
    · simp only [hwhole]
      rfl

/-! ## The lexeme at the start of a text -/

/-- A text before which a word or a number ends. -/
def Delimits (cs : List Char) : Prop := ∀ c ∈ cs.head?, c.isAlpha = false ∧ isNumberChar c = false

section Lexemes

variable {c : Char} {p : Lexeme} {rest : List Char} {ls : List Lexeme}

theorem delimits_nil : Delimits [] := by
  intro c hc
  cases hc

/-- Punctuation is no part of other lexemes. -/
theorem of_punctuation? (hp : punctuation? c = some p) :
    isSpace c = false ∧ c ≠ quote ∧ c.isAlpha = false ∧ isNumberChar c = false := by
  unfold punctuation? at hp
  split at hp
  all_goals first | decide | cases hp

theorem delimits_punctuation (hp : punctuation? c = some p) (cs : List Char) :
    Delimits (c :: cs) := by
  intro d hd
  obtain rfl : c = d := Option.some.inj hd
  exact (of_punctuation? hp).2.2

/-- Blanks and quotes are no part of words and numbers. -/
theorem between_words (hc : isSpace c = true ∨ c = quote) :
    c.isAlpha = false ∧ isNumberChar c = false := by
  simp only [isSpace, Bool.or_eq_true, beq_iff_eq] at hc
  rcases hc with (((rfl | rfl) | rfl) | rfl) | rfl <;> decide

variable (h : lexemes? rest = some ls)
include h

theorem lexemes?_punctuation (hp : punctuation? c = some p) :
    lexemes? (c :: rest) = some (p :: ls) := by
  obtain ⟨hs, hq, ha, hn⟩ := of_punctuation? hp
  rw [lexemes?]
  simp [hs, hq, ha, hn, hp, h]

theorem lexemes?_writeString (t : Option String) :
    lexemes? (writeString t ++ rest) = some (.string t :: ls) := by
  obtain ⟨body, ps, hw, hps, ht⟩ := exists_pieces_writeString t rest
  have hq : isSpace quote = false := by decide
  rw [hw, List.cons_append, lexemes?, if_neg (by simp [hq]), if_pos rfl]
  split
  · next hn => cases hn.symm.trans hps
  · next r hr =>
      obtain rfl : (ps, rest) = r := Option.some.inj (hps.symm.trans hr)
      rw [h, ht, Option.map_some]

/-- A word goes on as far as letters do. -/
theorem lexemes?_word {w : List Char} (hw : word? (c :: w) = some p)
    (hall : (c :: w).all Char.isAlpha = true) (hr : Delimits rest) :
    lexemes? (c :: w ++ rest) = some (p :: ls) := by
  obtain ⟨hc, hws⟩ := List.forall_mem_cons.1 (List.all_eq_true.1 hall)
  obtain ⟨htake, hdrop⟩ := Text.takeWhile_append_of_head? hws fun d hd => (hr d hd).1
  have hfirst : ¬(isSpace c = true ∨ c = quote) := fun hs =>
    Bool.false_ne_true ((between_words hs).1.symm.trans hc)
  rw [not_or] at hfirst
  rw [List.cons_append, lexemes?, if_neg hfirst.1, if_neg hfirst.2, if_pos hc, htake, hdrop, hw]
  exact congrArg (Option.map (p :: ·)) h

/-- A number goes on as far as its characters do. -/
theorem lexemes?_number {spelling : String} (hs : isNumber spelling.toList = true)
    (hr : Delimits rest) :
    lexemes? (spelling.toList ++ rest) = some (.number spelling :: ls) := by
  obtain ⟨hall, c, cs, he, hstart⟩ := of_isNumber hs
  rw [he] at hall
  obtain ⟨hc, hcs⟩ := List.forall_mem_cons.1 hall
  obtain ⟨htake, hdrop⟩ := Text.takeWhile_append_of_head? hcs fun d hd => (hr d hd).2
  have hfirst : ¬(isSpace c = true ∨ c = quote) := fun hs =>
    Bool.false_ne_true ((between_words hs).2.symm.trans hc)
  rw [not_or] at hfirst
  have halpha : ¬c.isAlpha = true := by
    intro ha
    rcases hstart with hd | rfl
    · cases (Text.isDigit_of_isAlpha ha).symm.trans hd
    · cases ha
  rw [he, List.cons_append, lexemes?, if_neg hfirst.1, if_neg hfirst.2, if_neg halpha, if_pos hc,
    htake, hdrop]
  simp only [← he, hs, if_true, String.ofList_toList]
  exact congrArg (Option.map (Lexeme.number spelling :: ·)) h

end Lexemes

/-! ## The lexemes of values -/

mutual

/-- The lexemes of a value. -/
def lexemes : Json → List Lexeme
  | null => [.null]
  | bool b => [.bool b]
  | number spelling => [.number spelling]
  | string t => [.string t]
  | array [] => [.arrayStart, .arrayEnd]
  | array (item :: items) => .arrayStart :: (lexemes item ++ itemLexemes items)
  | object [] => [.objectStart, .objectEnd]
  | object ((key, value) :: ms) =>
      .objectStart :: .string key :: .colon :: (lexemes value ++ memberLexemes ms)

/-- The lexemes of the items behind the first one, up to the end of their array. -/
def itemLexemes : List Json → List Lexeme
  | [] => [.arrayEnd]
  | item :: items => .comma :: (lexemes item ++ itemLexemes items)

/-- The lexemes of the members behind the first one, up to the end of their object. -/
def memberLexemes : List Member → List Lexeme
  | [] => [.objectEnd]
  | (key, value) :: ms =>
      .comma :: .string key :: .colon :: (lexemes value ++ memberLexemes ms)

end

/-- All numbers are spelled as JSON numbers. -/
def NumbersSpelled (ls : List Lexeme) : Prop :=
  ∀ spelling, .number spelling ∈ ls → isNumber spelling.toList = true

@[simp] theorem numbersSpelled_nil : NumbersSpelled [] := by
  intro spelling h
  cases h

@[simp] theorem numbersSpelled_cons {l : Lexeme} {ls : List Lexeme} : NumbersSpelled (l :: ls) ↔
    (∀ spelling, l = .number spelling → isNumber spelling.toList = true) ∧ NumbersSpelled ls := by
  simp only [NumbersSpelled, List.mem_cons, or_imp, forall_and, eq_comm]

@[simp] theorem numbersSpelled_append {ks ls : List Lexeme} :
    NumbersSpelled (ks ++ ls) ↔ NumbersSpelled ks ∧ NumbersSpelled ls := by
  simp only [NumbersSpelled, List.mem_append, or_imp, forall_and]

@[simp] theorem numbersSpelled_itemLexemes {items : List Json} :
    NumbersSpelled (itemLexemes items) ↔ ∀ item ∈ items, NumbersSpelled item.lexemes := by
  induction items with
  | nil => simp [itemLexemes]
  | cons item items ih => simp [itemLexemes, ih]

@[simp] theorem numbersSpelled_memberLexemes {ms : List Member} :
    NumbersSpelled (memberLexemes ms) ↔ ∀ m ∈ ms, NumbersSpelled m.2.lexemes := by
  induction ms with
  | nil => simp [memberLexemes]
  | cons m ms ih => simp [memberLexemes, ih]

/-- The numbers of an array are those of its items. -/
theorem numbersSpelled_array {items : List Json} :
    NumbersSpelled (array items).lexemes ↔ ∀ item ∈ items, NumbersSpelled item.lexemes := by
  cases items with
  | nil => simp [lexemes]
  | cons item items => simp [lexemes]

/-- The numbers of an object are those of its members. -/
theorem numbersSpelled_object {ms : List Member} :
    NumbersSpelled (object ms).lexemes ↔ ∀ m ∈ ms, NumbersSpelled m.2.lexemes := by
  cases ms with
  | nil => simp [lexemes]
  | cons m ms => simp [lexemes]

theorem delimits_writeItems (items : List Json) (rest : List Char) :
    Delimits (writeItems items ++ rest) := by
  cases items with
  | nil => exact delimits_punctuation (c := ']') rfl rest
  | cons item items =>
      rw [writeItems]
      exact delimits_punctuation (c := ',') rfl _

theorem delimits_writeMembers (ms : List Member) (rest : List Char) :
    Delimits (writeMembers ms ++ rest) := by
  cases ms with
  | nil => exact delimits_punctuation (c := '\x7d') rfl rest
  | cons m ms =>
      obtain ⟨key, value⟩ := m
      rw [writeMembers]
      exact delimits_punctuation (c := ',') rfl _

mutual

/-- The text of a value splits into the lexemes of the value and those of the text behind it. -/
theorem lexemes?_write : ∀ (j : Json) {rest : List Char} {ls : List Lexeme},
    NumbersSpelled j.lexemes → Delimits rest → lexemes? rest = some ls →
      lexemes? (j.write ++ rest) = some (j.lexemes ++ ls)
  | .null, _, _, _, hr, h => by
      rw [write, lexemes]
      exact lexemes?_word h rfl rfl hr
  | .bool true, _, _, _, hr, h => by
      rw [write, lexemes]
      exact lexemes?_word h rfl rfl hr
  | .bool false, _, _, _, hr, h => by
      rw [write, lexemes]
      exact lexemes?_word h rfl rfl hr
  | .number spelling, _, _, hn, hr, h => by
      rw [write, lexemes]
      exact lexemes?_number h (hn spelling (by simp [lexemes])) hr
  | .string t, _, _, _, _, h => by
      rw [write, lexemes]
      exact lexemes?_writeString h t
  | .array [], _, _, _, _, h => by
      rw [write, lexemes]
      exact lexemes?_punctuation (lexemes?_punctuation h rfl) rfl
  | .array (item :: items), rest, _, hn, _, h => by
      obtain ⟨hitem, hitems⟩ := List.forall_mem_cons.1 (numbersSpelled_array.1 hn)
      simp only [write, lexemes, List.cons_append, List.append_assoc]
      apply lexemes?_punctuation _ rfl
      apply lexemes?_write item hitem (delimits_writeItems items rest)
      exact lexemes?_writeItems items hitems h
  | .object [], _, _, _, _, h => by
      rw [write, lexemes]
      exact lexemes?_punctuation (lexemes?_punctuation h rfl) rfl
  | .object ((key, value) :: ms), rest, _, hn, _, h => by
      obtain ⟨hvalue, hms⟩ := List.forall_mem_cons.1 (numbersSpelled_object.1 hn)
      simp only [write, lexemes, List.cons_append, List.append_assoc]
      apply lexemes?_punctuation _ rfl
      apply lexemes?_writeString
      apply lexemes?_punctuation _ rfl
      apply lexemes?_write value hvalue (delimits_writeMembers ms rest)
      exact lexemes?_writeMembers ms hms h

theorem lexemes?_writeItems : ∀ (items : List Json) {rest : List Char} {ls : List Lexeme},
    (∀ item ∈ items, NumbersSpelled item.lexemes) → lexemes? rest = some ls →
      lexemes? (writeItems items ++ rest) = some (itemLexemes items ++ ls)
  | [], _, _, _, h => by
      rw [writeItems, itemLexemes]
      exact lexemes?_punctuation h rfl
  | item :: items, rest, _, hn, h => by
      obtain ⟨hitem, hitems⟩ := List.forall_mem_cons.1 hn
      simp only [writeItems, itemLexemes, List.cons_append, List.append_assoc]
      apply lexemes?_punctuation _ rfl
      apply lexemes?_write item hitem (delimits_writeItems items rest)
      exact lexemes?_writeItems items hitems h

theorem lexemes?_writeMembers : ∀ (ms : List Member) {rest : List Char} {ls : List Lexeme},
    (∀ m ∈ ms, NumbersSpelled m.2.lexemes) → lexemes? rest = some ls →
      lexemes? (writeMembers ms ++ rest) = some (memberLexemes ms ++ ls)
  | [], _, _, _, h => by
      rw [writeMembers, memberLexemes]
      exact lexemes?_punctuation h rfl
  | (key, value) :: ms, rest, _, hn, h => by
      obtain ⟨hvalue, hms⟩ := List.forall_mem_cons.1 hn
      simp only [writeMembers, memberLexemes, List.cons_append, List.append_assoc]
      apply lexemes?_punctuation _ rfl
      apply lexemes?_writeString
      apply lexemes?_punctuation _ rfl
      apply lexemes?_write value hvalue (delimits_writeMembers ms rest)
      exact lexemes?_writeMembers ms hms h

end

/-! ## Reading lexemes -/

/-- A value does not start with the end of an array. -/
theorem lexemes_append_ne (j : Json) (ls ks : List Lexeme) :
    j.lexemes ++ ls ≠ .arrayEnd :: ks := by
  cases j with
  | null | bool | number | string => simp [lexemes]
  | array items =>
      cases items with
      | nil => simp [lexemes]
      | cons item items => simp [lexemes]
  | object ms =>
      cases ms with
      | nil => simp [lexemes]
      | cons m ms => simp [lexemes]

mutual

/-- The lexemes of a value are read as the value, whatever is open around it. -/
theorem readValue?_lexemes : ∀ (j : Json) (frames : List Frame) (ls : List Lexeme),
    readValue? frames (j.lexemes ++ ls) = readRest? frames j ls
  | .null, _, _ => rfl
  | .bool _, _, _ => rfl
  | .number _, _, _ => rfl
  | .string _, _, _ => rfl
  | .array [], _, _ => rfl
  | .array (item :: items), frames, ls => by
      rw [lexemes, List.cons_append, List.append_assoc, readValue?, readValue?_lexemes item,
        readRest?_itemLexemes items]
      · rfl
      · exact fun ks => lexemes_append_ne item _ ks
  | .object [], _, _ => rfl
  | .object ((key, value) :: ms), frames, ls => by
      simp only [lexemes, List.cons_append, List.append_assoc]
      rw [readValue?, readValue?_lexemes value, readRest?_memberLexemes ms]
      rfl

theorem readRest?_itemLexemes : ∀ (items : List Json) (frames : List Frame) (done : List Json)
    (value : Json) (ls : List Lexeme),
    readRest? (.array done :: frames) value (itemLexemes items ++ ls) =
      readRest? frames (array (done.reverse ++ value :: items)) ls
  | [], frames, done, value, ls => by
      rw [itemLexemes, List.cons_append, List.nil_append, readRest?, List.reverse_cons]
  | item :: items, frames, done, value, ls => by
      rw [itemLexemes, List.cons_append, List.append_assoc, readRest?, readValue?_lexemes item,
        readRest?_itemLexemes items, List.reverse_cons, List.append_assoc]
      rfl

theorem readRest?_memberLexemes : ∀ (ms : List Member) (frames : List Frame) (done : List Member)
    (key : Option String) (value : Json) (ls : List Lexeme),
    readRest? (.object done key :: frames) value (memberLexemes ms ++ ls) =
      readRest? frames (object (done.reverse ++ (key, value) :: ms)) ls
  | [], frames, done, key, value, ls => by
      rw [memberLexemes, List.cons_append, List.nil_append, readRest?, List.reverse_cons]
  | (next, item) :: ms, frames, done, key, value, ls => by
      simp only [memberLexemes, List.cons_append, List.append_assoc]
      rw [readRest?, readValue?_lexemes item, readRest?_memberLexemes ms, List.reverse_cons,
        List.append_assoc]
      rfl

end

/-- A written value is read as the value that it was. -/
theorem read?_toText {j : Json} (h : NumbersSpelled j.lexemes) : read? j.toText = some j := by
  have hl := lexemes?_write j h delimits_nil (by rw [lexemes?])
  rw [List.append_nil] at hl
  have hv := readValue?_lexemes j [] []
  rw [read?, toText, String.toList_ofList, hl]
  exact hv

end FormulaCode.Json
