import FormulaCode.Operator.Value
import FormulaCode.Token.Scan
import Mathlib.Data.List.TakeWhile

/-! # Decimals read back from their texts

A numeral is a sign or none, figures with or without a point among them, and an exponent or none;
figures are digits and underscores, and the first one is a digit. Reading a numeral gives its
digits as the coefficient, and its places less its exponent as the scale. A positional numeral has
neither underscores nor an exponent. A decimal of any scale is written as one, and a number in a
formula is one, so what an operator computes can always be read by the next one. -/

namespace FormulaCode

namespace Text

theorem dropWhile_isBlank_eq_self {cs : List Char} (h : ∀ c ∈ cs, isBlank c = false) :
    cs.dropWhile isBlank = cs := by
  rw [List.dropWhile_eq_self_iff]
  intro hpos
  simp [h _ (List.getElem_mem hpos)]

/-- Between blanks a text without blanks is what is left. -/
theorem trim_between {before w behind : List Char} (hbefore : ∀ c ∈ before, isBlank c = true)
    (hw : ∀ c ∈ w, isBlank c = false) (hbehind : ∀ c ∈ behind, isBlank c = true) :
    trim (before ++ (w ++ behind)) = w := by
  cases w with
  | nil =>
      apply (trim_eq_nil_iff _).2
      rw [allBlank, List.all_eq_true, List.nil_append, List.forall_mem_append]
      exact ⟨hbefore, hbehind⟩
  | cons c w =>
      have hc : ¬isBlank c = true := by simp [hw c List.mem_cons_self]
      have hstart : trimStart (before ++ (c :: w ++ behind)) = c :: w ++ behind := by
        rw [trimStart, List.dropWhile_append_of_pos hbefore, List.cons_append,
          List.dropWhile_cons_of_neg hc]
      have hend : (c :: w).reverse.dropWhile isBlank = (c :: w).reverse :=
        dropWhile_isBlank_eq_self fun d hd => hw d (List.mem_reverse.1 hd)
      rw [trim, hstart, trimEnd, List.reverse_append,
        List.dropWhile_append_of_pos fun d hd => hbehind d (List.mem_reverse.1 hd), hend,
        List.reverse_reverse]

theorem trim_eq_self {cs : List Char} (h : ∀ c ∈ cs, isBlank c = false) : trim cs = cs := by
  have hbetween := trim_between (List.forall_mem_nil _) h (List.forall_mem_nil _)
  rwa [List.nil_append, List.append_nil] at hbetween

/-- Digits are no blanks. -/
theorem isBlank_of_isDigit {c : Char} (h : c.isDigit = true) : isBlank c = false := by
  obtain ⟨hlo, hhi⟩ := Char.isDigit_iff_toNat.1 h
  change 48 ≤ c.toNat at hlo
  change c.toNat ≤ 57 at hhi
  simp only [isBlank, blankRanges, List.any_cons, List.any_nil, Bool.or_false, Bool.or_eq_false_iff,
    Bool.and_eq_false_iff, decide_eq_false_iff_not]
  omega

theorem ofDigits_append_zeros (cs : List Char) (n : Nat) :
    ofDigits (cs ++ List.replicate n '0') = ofDigits cs * Decimal.powTen n := by
  simp only [ofDigits, Nat.ofDigitChars_append, Nat.ofDigitChars_replicate_zero]
  exact Nat.mul_comm _ _

end Text

/-- A sign as it is written. -/
inductive Sign
  | none
  | plus
  | minus

namespace Sign

/-- The text of a sign. -/
def text : Sign → List Char
  | none => []
  | plus => ['+']
  | minus => ['-']

/-- Whether a sign is a minus. -/
def isMinus : Sign → Bool
  | minus => true
  | _ => false

/-- The sign of a text that is written without a plus. -/
def ofNegative (negative : Bool) : Sign := if negative then minus else none

@[simp] theorem isMinus_ofNegative (negative : Bool) :
    (ofNegative negative).isMinus = negative := by
  cases negative <;> rfl

theorem mem_text {s : Sign} {c : Char} (h : c ∈ s.text) : c = '+' ∨ c = '-' := by
  cases s <;> simp_all [text]

end Sign

/-- An exponent, by its parts. -/
structure Exponent where
  mark : Char
  sign : Sign
  digits : List Char
  mark_isExponentMark : Decimal.isExponentMark mark = true
  digits_ne_nil : digits ≠ []
  digits_isDigit : ∀ c ∈ digits, c.isDigit = true

namespace Exponent

/-- The text of an exponent. -/
def text (e : Exponent) : List Char := e.mark :: (e.sign.text ++ e.digits)

/-- The integer that an exponent stands for. -/
def value (e : Exponent) : Int := Decimal.signed e.sign.isMinus (Text.ofDigits e.digits)

theorem isBlank_of_mem_text (e : Exponent) {c : Char} (h : c ∈ e.text) :
    Text.isBlank c = false := by
  rcases List.mem_cons.1 h with rfl | h
  · have hmark := e.mark_isExponentMark
    simp only [Decimal.isExponentMark, Bool.or_eq_true, beq_iff_eq] at hmark
    rcases hmark with hm | hm <;> rw [hm] <;> decide
  · rcases List.mem_append.1 h with h | h
    · rcases Sign.mem_text h with rfl | rfl <;> decide
    · exact Text.isBlank_of_isDigit (e.digits_isDigit c h)

end Exponent

/-- What numbers are written with, apart from signs, points and exponents. -/
def isFigure (c : Char) : Bool := c.isDigit || c == '_'

namespace Decimal

/-- A figure stands for no other mark of a number. -/
theorem ne_of_isFigure {c m : Char} (h : isFigure c = true) (hm : isFigure m = false) : c ≠ m := by
  rintro rfl
  simp [hm] at h

theorem isExponentMark_of_isFigure {c : Char} (h : isFigure c = true) :
    isExponentMark c = false := by
  have he : c ≠ 'e' := ne_of_isFigure h rfl
  have hE : c ≠ 'E' := ne_of_isFigure h rfl
  simp [isExponentMark, he, hE]

theorem isBlank_of_isFigure {c : Char} (h : isFigure c = true) : Text.isBlank c = false := by
  rcases Bool.or_eq_true_iff.1 h with h | h
  · exact Text.isBlank_of_isDigit h
  · rw [eq_of_beq h]
    decide

end Decimal

/-- A numeral, by its parts. -/
structure Numeral where
  sign : Sign
  whole : List Char
  places : Option (List Char)
  exponent : Option Exponent
  isFigure_of_mem : ∀ c ∈ whole ++ places.getD [], isFigure c = true
  starts : (whole ++ places.getD []).head?.any Char.isDigit = true

namespace Numeral

/-- The point of a numeral with the places behind it, if it has one. -/
def fraction (n : Numeral) : List Char :=
  match n.places with
  | none => []
  | some ps => '.' :: ps

/-- A numeral without its exponent. -/
def base (n : Numeral) : List Char := n.sign.text ++ n.whole ++ n.fraction

/-- The text of a numeral. -/
def text (n : Numeral) : List Char := n.base ++ n.exponent.elim [] Exponent.text

/-- All figures of a numeral. -/
def figures (n : Numeral) : List Char := n.whole ++ n.places.getD []

/-- All digits of a numeral. -/
def digits (n : Numeral) : List Char := n.figures.filter (· != '_')

/-- The number of digits behind the point. -/
def placeCount (n : Numeral) : Nat := ((n.places.getD []).filter (· != '_')).length

/-- The power of ten by which a numeral is multiplied. -/
def power (n : Numeral) : Int := n.exponent.elim 0 Exponent.value

/-- What a numeral stands for. -/
def value (n : Numeral) : Decimal :=
  ⟨Decimal.signed n.sign.isMinus (Text.ofDigits n.digits), n.placeCount - n.power⟩

/-- Whether a numeral can be read: a power must leave the scale in a signed word of 64 bits. -/
def fits (n : Numeral) : Bool := n.power = 0 || n.value.hasWordScale

theorem fits_of_exponent {n : Numeral} (h : n.exponent = none) : n.fits = true := by
  simp [fits, power, h]

/-- Without its exponent a numeral consists of figures, signs and points. -/
theorem mem_base (n : Numeral) {c : Char} (h : c ∈ n.base) :
    isFigure c = true ∨ c = '+' ∨ c = '-' ∨ c = '.' := by
  simp only [base, List.mem_append] at h
  rcases h with (h | h) | h
  · rcases Sign.mem_text h with rfl | rfl <;> simp
  · exact Or.inl (n.isFigure_of_mem c (List.mem_append_left _ h))
  · rw [fraction] at h
    split at h
    · cases h
    · next ps hps =>
        rcases List.mem_cons.1 h with rfl | h
        · simp
        · exact Or.inl (n.isFigure_of_mem c (List.mem_append_right _ (by simpa [hps] using h)))

theorem isExponentMark_of_mem_base (n : Numeral) {c : Char} (h : c ∈ n.base) :
    Decimal.isExponentMark c = false := by
  rcases n.mem_base h with hf | rfl | rfl | rfl
  · exact Decimal.isExponentMark_of_isFigure hf
  · rfl
  · rfl
  · rfl

theorem isBlank_of_mem_text (n : Numeral) {c : Char} (h : c ∈ n.text) :
    Text.isBlank c = false := by
  rcases List.mem_append.1 h with h | h
  · rcases n.mem_base h with hf | rfl | rfl | rfl
    · exact Decimal.isBlank_of_isFigure hf
    · decide
    · decide
    · decide
  · cases he : n.exponent with
    | none => simp [he] at h
    | some e => exact e.isBlank_of_mem_text (by simpa [he] using h)

/-- A numeral of digits, without an exponent. -/
def positional (sign : Sign) (whole : List Char) (places : Option (List Char)) (hne : whole ≠ [])
    (hw : ∀ c ∈ whole, c.isDigit = true) (hp : ∀ c ∈ places.getD [], c.isDigit = true) :
    Numeral where
  sign := sign
  whole := whole
  places := places
  exponent := none
  isFigure_of_mem := by
    intro c hc
    have hd : c.isDigit = true := (List.mem_append.1 hc).elim (hw c) (hp c)
    rw [isFigure, hd, Bool.true_or]
  starts := by
    cases whole with
    | nil => exact absurd rfl hne
    | cons d ds => exact hw d List.mem_cons_self

section Positional

variable {sign : Sign} {whole : List Char} {places : Option (List Char)} (hne : whole ≠ [])
  (hw : ∀ c ∈ whole, c.isDigit = true) (hp : ∀ c ∈ places.getD [], c.isDigit = true)

theorem text_positional : (positional sign whole places hne hw hp).text =
    sign.text ++ whole ++ places.elim [] fun ps => '.' :: ps := by
  cases places <;> simp [text, base, fraction, positional]

theorem value_positional : (positional sign whole places hne hw hp).value =
    ⟨Decimal.signed sign.isMinus (Text.ofDigits (whole ++ places.getD [])),
      (places.getD []).length⟩ := by
  have digits : ∀ cs : List Char, (∀ c ∈ cs, c.isDigit = true) → cs.filter (· != '_') = cs := by
    intro cs h
    rw [List.filter_eq_self]
    intro c hc
    rw [bne_iff_ne]
    rintro rfl
    cases h '_' hc
  simp [value, Numeral.digits, figures, placeCount, power, positional, digits whole hw,
    digits _ hp]

end Positional

end Numeral

namespace Decimal

/-- The sign of a text is told from the digit behind it. -/
theorem splitSign_append (s : Sign) {cs : List Char} (h : cs.head?.any Char.isDigit = true) :
    splitSign (s.text ++ cs) = (s.isMinus, cs) := by
  cases s with
  | plus | minus => rfl
  | none =>
      cases cs with
      | nil => cases h
      | cons c cs =>
          change splitSign (c :: cs) = (false, c :: cs)
          unfold splitSign
          split
          · next he => cases he; cases h
          · next he => cases he; cases h
          · rfl

theorem readExponent?_text (e : Exponent) :
    readExponent? (e.sign.text ++ e.digits) = some e.value := by
  have hstart : e.digits.head?.any Char.isDigit = true := by
    cases hd : e.digits with
    | nil => exact absurd hd e.digits_ne_nil
    | cons d ds => exact e.digits_isDigit d (by simp [hd])
  have hall : (!e.digits.isEmpty && e.digits.all Char.isDigit) = true := by
    simpa [e.digits_ne_nil] using e.digits_isDigit
  simp only [readExponent?, splitSign_append e.sign hstart, hall, if_true, Exponent.value]

/-- A numeral is split at its exponent. -/
theorem splitExponent?_numeral (n : Numeral) : splitExponent? n.text = some (n.base, n.power) := by
  have hbase : ∀ c ∈ n.base, (!isExponentMark c) = true := fun c hc => by
    rw [n.isExponentMark_of_mem_base hc]
    rfl
  cases he : n.exponent with
  | none =>
      have hdrop : n.base.dropWhile (!isExponentMark ·) = [] := List.dropWhile_eq_nil_iff.2 hbase
      simp [splitExponent?, Numeral.text, Numeral.power, he, hdrop]
  | some e =>
      have hmark : ∀ c ∈ e.text.head?, (!isExponentMark c) = false := by
        rintro c ⟨⟩
        simp [e.mark_isExponentMark]
      obtain ⟨htake, hdrop⟩ := Text.takeWhile_append_of_head? hbase hmark
      have htext : n.text = n.base ++ e.text := by simp [Numeral.text, he]
      rw [splitExponent?, htext, htake, hdrop]
      simp [Exponent.text, readExponent?_text, Numeral.power, he]

/-- The point of a numeral divides its figures from its places. -/
theorem removePoint_numeral (n : Numeral) :
    removePoint n.base = (n.sign.text ++ n.figures, n.placeCount) := by
  have hp : ∀ c ∈ n.sign.text ++ n.whole, (c != '.') = true := by
    intro c hc
    rcases List.mem_append.1 hc with hc | hc
    · rcases Sign.mem_text hc with rfl | rfl <;> rfl
    · simpa using ne_of_isFigure (n.isFigure_of_mem c (List.mem_append_left _ hc)) rfl
  cases hps : n.places with
  | none =>
      have hdrop : (n.sign.text ++ n.whole).dropWhile (· != '.') = [] :=
        List.dropWhile_eq_nil_iff.2 hp
      simp [removePoint, Numeral.base, Numeral.fraction, Numeral.figures, Numeral.placeCount, hps,
        hdrop]
  | some ps =>
      have hpoint : ∀ c ∈ ('.' :: ps).head?, (c != '.') = false := by simp
      obtain ⟨htake, hdrop⟩ := Text.takeWhile_append_of_head? hp hpoint
      simp only [Numeral.base, Numeral.fraction, Numeral.figures, Numeral.placeCount, hps,
        Option.getD_some]
      simp only [removePoint, htake, hdrop]
      rw [List.append_assoc]

/-- Figures behind a sign are a coefficient. -/
theorem readCoefficient?_numeral (n : Numeral) : readCoefficient? (n.sign.text ++ n.figures) =
    some (signed n.sign.isMinus (Text.ofDigits n.digits)) := by
  have hsplit : splitSign (n.sign.text ++ n.figures) = (n.sign.isMinus, n.figures) :=
    splitSign_append n.sign n.starts
  have hstarts := n.starts
  have hfigures := n.isFigure_of_mem
  rw [Numeral.digits]
  change n.figures.head?.any Char.isDigit = true at hstarts
  change ∀ c ∈ n.figures, isFigure c = true at hfigures
  cases hf : n.figures with
  | nil =>
      rw [hf] at hstarts
      cases hstarts
  | cons d ds =>
      rw [hf] at hsplit hstarts hfigures
      have hall : (d.isDigit && ds.all fun c => c.isDigit || c == '_') = true := by
        rw [Bool.and_eq_true, List.all_eq_true]
        exact ⟨hstarts, fun c hc => hfigures c (List.mem_cons_of_mem d hc)⟩
      simp only [readCoefficient?, hsplit, hall, if_true]

/-- Reading a numeral gives what it stands for, unless its power leaves the range of scales. -/
theorem read?_numeral (n : Numeral) : read? n.text = if n.fits then some n.value else none := by
  simp [read?, splitExponent?_numeral, removePoint_numeral, readCoefficient?_numeral, Numeral.value,
    Numeral.fits]

theorem signed_natAbs_mul (i : Int) (n : Nat) :
    signed (decide (i < 0)) (i.natAbs * n) = i * n := by
  rw [signed]
  by_cases h : i < 0
  · have hi : -(i.natAbs : Int) = i := by omega
    rw [if_pos (decide_eq_true h), Int.natCast_mul, ← Int.neg_mul, hi]
  · have hi : (i.natAbs : Int) = i := by omega
    rw [if_neg (by simpa using h), Int.natCast_mul, hi]

/-- The numeral of a magnitude with zeros behind it. -/
def wholeNumeral (negative : Bool) (n zeros : Nat) : Numeral :=
  .positional (.ofNegative negative) (Text.digits n ++ List.replicate zeros '0') none
    (List.append_ne_nil_of_left_ne_nil (Text.digits_ne_nil n) _)
    (by
      intro c hc
      rcases List.mem_append.1 hc with hc | hc
      · exact Text.isDigit_of_mem_digits hc
      · rw [List.eq_of_mem_replicate hc]
        rfl)
    (by simp)

theorem lt_length_zeroPadded (places n : Nat) :
    places < (Text.zeroPadded (places + 1) n).length := by
  simp only [Text.zeroPadded, List.length_append, List.length_replicate]
  omega

/-- The numeral of a magnitude with the point before the last of its digits. -/
def pointNumeral (negative : Bool) (n places : Nat) : Numeral :=
  let ds := Text.zeroPadded (places + 1) n
  .positional (.ofNegative negative) (ds.take (ds.length - places))
    (some (ds.drop (ds.length - places)))
    (by
      have hlen := lt_length_zeroPadded places n
      intro he
      have := congrArg List.length he
      simp only [ds, List.length_take, List.length_nil] at this
      omega)
    (fun c hc => Text.isDigit_of_mem_zeroPadded (List.mem_of_mem_take hc))
    (fun c hc => Text.isDigit_of_mem_zeroPadded (List.mem_of_mem_drop hc))

theorem wholeNumeral_value (negative : Bool) (n zeros : Nat) :
    (wholeNumeral negative n zeros).value = ⟨signed negative (n * powTen zeros), 0⟩ := by
  simp [wholeNumeral, Numeral.value_positional, Text.ofDigits_append_zeros, Text.ofDigits_digits]

theorem pointNumeral_value (negative : Bool) (n places : Nat) :
    (pointNumeral negative n places).value = ⟨signed negative n, places⟩ := by
  have hlen := lt_length_zeroPadded places n
  simp only [pointNumeral, Numeral.value_positional, Sign.isMinus_ofNegative, Option.getD_some,
    List.take_append_drop, Text.ofDigits_zeroPadded, List.length_drop]
  congr 1
  omega

/-- A decimal is written as a positional numeral. -/
theorem write_eq_text (d : Decimal) : d.write =
    if d.scale ≤ 0 then
      (wholeNumeral (decide (d.coefficient < 0)) d.coefficient.natAbs (-d.scale).toNat).text
    else (pointNumeral (decide (d.coefficient < 0)) d.coefficient.natAbs d.scale.toNat).text := by
  by_cases hs : d.scale ≤ 0
  · by_cases hc : d.coefficient < 0
    · simp [write, positional, hs, hc, wholeNumeral, Numeral.text_positional, Sign.ofNegative,
        Sign.text]
    · simp [write, positional, hs, hc, wholeNumeral, Numeral.text_positional, Sign.ofNegative,
        Sign.text]
  · by_cases hc : d.coefficient < 0
    · simp [write, positional, withPoint, hs, hc, pointNumeral, Numeral.text_positional,
        Sign.ofNegative, Sign.text]
    · simp [write, positional, withPoint, hs, hc, pointNumeral, Numeral.text_positional,
        Sign.ofNegative, Sign.text]

/-- The text of a decimal is that of a numeral without an exponent and with the same value: the
zeros for a negative scale become part of the coefficient. -/
theorem exists_numeral (d : Decimal) : ∃ n : Numeral, n.exponent = none ∧ n.text = d.write ∧
    n.value = ⟨d.coefficient * powTen (-d.scale).toNat, d.scale.toNat⟩ := by
  rw [write_eq_text]
  by_cases hs : d.scale ≤ 0
  · refine ⟨_, rfl, (if_pos hs).symm, ?_⟩
    have hplaces : d.scale.toNat = 0 := by omega
    rw [wholeNumeral_value, signed_natAbs_mul, hplaces]
    rfl
  · refine ⟨_, rfl, (if_neg hs).symm, ?_⟩
    have hzeros : (-d.scale).toNat = 0 := by omega
    rw [pointNumeral_value, hzeros, ← signed_natAbs_mul]
    simp [powTen]

/-- The text of a decimal has neither blanks nor an exponent. -/
theorem mem_write (d : Decimal) {c : Char} (h : c ∈ d.write) :
    Text.isBlank c = false ∧ isExponentMark c = false := by
  obtain ⟨n, he, ht, -⟩ := d.exists_numeral
  rw [← ht] at h
  refine ⟨n.isBlank_of_mem_text h, n.isExponentMark_of_mem_base ?_⟩
  simpa [Numeral.text, he] using h

/-- Reading the text of a decimal gives its value back, at a scale that is not negative. -/
theorem read?_write (d : Decimal) :
    read? d.write = some ⟨d.coefficient * powTen (-d.scale).toNat, d.scale.toNat⟩ := by
  obtain ⟨n, he, ht, hv⟩ := d.exists_numeral
  rw [← ht, read?_numeral, if_pos (Numeral.fits_of_exponent he), hv]

end Decimal

/-- Between blanks a numeral is accepted as a number if its power leaves the scale in range. -/
theorem readNumber_numeral (n : Numeral) {before behind : List Char}
    (hbefore : ∀ c ∈ before, Text.isBlank c = true)
    (hbehind : ∀ c ∈ behind, Text.isBlank c = true) :
    readNumber (String.ofList (before ++ (n.text ++ behind))) =
      if n.fits then .ok n.value
      else .error (.malformedValue .number (String.ofList (before ++ (n.text ++ behind)))) := by
  have ht : Text.trim (before ++ (n.text ++ behind)) = n.text :=
    Text.trim_between hbefore (fun c => n.isBlank_of_mem_text) hbehind
  rw [readNumber, String.toList_ofList, ht, Decimal.read?_numeral]
  cases n.fits with
  | false => rfl
  | true => rfl

/-- Every computed number can be read again. -/
theorem readNumber_toText (d : Decimal) : readNumber d.toText =
    .ok ⟨d.coefficient * Decimal.powTen (-d.scale).toNat, d.scale.toNat⟩ := by
  have ht : Text.trim d.write = d.write := Text.trim_eq_self fun c hc => (d.mem_write hc).1
  rw [readNumber, Decimal.toText, String.toList_ofList, ht, Decimal.read?_write]

/-- A plain number in a formula is a numeral without a sign and without an exponent. -/
theorem Token.exists_numeral_of_isPlainNumber {cs : List Char} (h : isPlainNumber cs = true) :
    ∃ n : Numeral, n.exponent = none ∧ n.text = cs := by
  simp only [isPlainNumber, Bool.and_eq_true, Bool.not_eq_true', List.isEmpty_eq_false_iff] at h
  obtain ⟨hne, hrest⟩ := h
  have hdigits : ∀ c ∈ cs.takeWhile Char.isDigit, c.isDigit = true :=
    fun c hc => List.mem_takeWhile_imp hc
  have hsplit := List.takeWhile_append_dropWhile (p := Char.isDigit) (l := cs)
  split at hrest
  · next hd =>
      refine ⟨.positional .none (cs.takeWhile Char.isDigit) none hne hdigits (by simp), rfl, ?_⟩
      rw [hd] at hsplit
      simpa [Numeral.text_positional, Sign.text] using hsplit
  · next c places hd =>
      simp only [Bool.and_eq_true, beq_iff_eq, List.all_eq_true] at hrest
      obtain ⟨⟨rfl, -⟩, hplaces⟩ := hrest
      refine ⟨.positional .none (cs.takeWhile Char.isDigit) (some places) hne hdigits hplaces, rfl,
        ?_⟩
      rw [hd] at hsplit
      simpa [Numeral.text_positional, Sign.text] using hsplit

end FormulaCode
