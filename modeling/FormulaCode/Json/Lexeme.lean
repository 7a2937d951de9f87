import FormulaCode.Json.Writer

/-! # JSON lexemes

A text is split into punctuation, words, numbers and strings. Blanks between them are
spaces, tabs and line ends only. -/

namespace FormulaCode.Json

/-- The smallest parts of a JSON text. -/
inductive Lexeme
  | arrayStart
  | arrayEnd
  | objectStart
  | objectEnd
  | comma
  | colon
  | null
  | bool (value : Bool)
  | number (spelling : String)
  | string (text : Option String)
deriving DecidableEq, Repr

/-- The blanks between lexemes. -/
def isSpace (c : Char) : Bool := c == ' ' || c == '\n' || c == '\t' || c == '\r'

/-- The value of a hexadecimal digit. -/
def hexValue? (c : Char) : Option Nat :=
  if c.isDigit then some (c.toNat - 48)
  else if 'a' ≤ c ∧ c ≤ 'f' then some (c.toNat - 87)
  else if 'A' ≤ c ∧ c ≤ 'F' then some (c.toNat - 55)
  else none

/-- The code unit that four hexadecimal digits spell. -/
def unit? (a b c d : Char) : Option Nat := do
  let a ← hexValue? a
  let b ← hexValue? b
  let c ← hexValue? c
  let d ← hexValue? d
  return 4096 * a + 256 * b + 16 * c + d

/-- A code unit that starts a surrogate pair. -/
def isHighSurrogate (n : Nat) : Bool := decide (0xD800 ≤ n) && decide (n < 0xDC00)

/-- A code unit that ends a surrogate pair. -/
def isLowSurrogate (n : Nat) : Bool := decide (0xDC00 ≤ n) && decide (n < 0xE000)

/-- The character of a surrogate pair. -/
def ofSurrogates (high low : Nat) : Char :=
  Char.ofNat (0x10000 + 1024 * (high - 0xD800) + (low - 0xDC00))

/-- The characters with an escape of one letter. -/
def escape? : Char → Option Char
  | '\x22' => some '\x22'
  | '\\' => some '\\'
  | '/' => some '/'
  | 'b' => some '\x08'
  | 'f' => some '\x0c'
  | 'n' => some '\n'
  | 'r' => some '\r'
  | 't' => some '\t'
  | _ => none

/-- What a string is made of: characters, plain or escaped by a letter, and escaped code units. -/
inductive Piece
  | char (c : Char)
  | unit (n : Nat)
deriving DecidableEq, Repr

/-- Reads the pieces of a string behind its opening quote, and the text behind it. -/
def stringPieces? : List Char → Option (List Piece × List Char)
  | [] => none
  | '\x22' :: cs => some ([], cs)
  | '\\' :: 'u' :: a :: b :: c :: d :: cs =>
      match unit? a b c d, stringPieces? cs with
      | some n, some r => some (.unit n :: r.1, r.2)
      | _, _ => none
  | '\\' :: c :: cs =>
      match escape? c, stringPieces? cs with
      | some e, some r => some (.char e :: r.1, r.2)
      | _, _ => none
  | c :: cs =>
      if c = '\\' ∨ c.toNat < 32 then none
      else (stringPieces? cs).map fun r => (.char c :: r.1, r.2)

/-- The text behind a string is shorter than the text it was read from. -/
theorem length_lt_of_stringPieces? {cs : List Char} {r : List Piece × List Char}
    (h : stringPieces? cs = some r) : r.2.length < cs.length := by
  fun_induction stringPieces? cs generalizing r with
  | case1 => simp at h
  | case2 cs => simp only [Option.some.injEq] at h; subst h; simp
  | case3 a b c d cs n r' hr hn ih =>
      simp only [Option.some.injEq] at h
      subst h
      have := ih hr
      simp only [List.length_cons]
      omega
  | case4 => simp at h
  | case5 c cs _ e r' hr he ih =>
      simp only [Option.some.injEq] at h
      subst h
      have := ih hr
      simp only [List.length_cons]
      omega
  | case6 => simp at h
  | case7 => simp at h
  | case8 c cs _ _ _ _ ih =>
      obtain ⟨r', hr, rfl⟩ := Option.map_eq_some_iff.1 h
      have := ih hr
      simp only [List.length_cons]
      omega

/-- The text that pieces spell: surrogates in pairs give one character, and an unpaired
one leaves no text. -/
def joinPieces? : List Piece → Option (List Char)
  | [] => some []
  | .char c :: ps => (joinPieces? ps).map (c :: ·)
  | .unit high :: .unit low :: ps =>
      if isHighSurrogate high && isLowSurrogate low then
        (joinPieces? ps).map (ofSurrogates high low :: ·)
      else if isHighSurrogate high || isLowSurrogate high then none
      else (joinPieces? (.unit low :: ps)).map (Char.ofNat high :: ·)
  | .unit n :: ps =>
      if isHighSurrogate n || isLowSurrogate n then none
      else (joinPieces? ps).map (Char.ofNat n :: ·)

/-- The characters of numbers. -/
def isNumberChar (c : Char) : Bool :=
  c.isDigit || c == '-' || c == '+' || c == '.' || c == 'e' || c == 'E'

/-- Takes one or more digits off a text. -/
def dropDigits? (cs : List Char) : Option (List Char) :=
  if (cs.takeWhile Char.isDigit).isEmpty then none else some (cs.dropWhile Char.isDigit)

/-- Takes an integer part off a text: no zero before other digits. -/
def dropWhole? : List Char → Option (List Char)
  | '0' :: cs => some cs
  | cs => dropDigits? cs

/-- Takes a fraction off a text, if one stands there. -/
def dropFraction? : List Char → Option (List Char)
  | '.' :: cs => dropDigits? cs
  | cs => some cs

/-- Takes an exponent off a text, if one stands there. -/
def dropExponent? : List Char → Option (List Char)
  | c :: cs =>
      if c = 'e' ∨ c = 'E' then
        match cs with
        | '+' :: ds => dropDigits? ds
        | '-' :: ds => dropDigits? ds
        | ds => dropDigits? ds
      else some (c :: cs)
  | [] => some []

/-- Whether a text is a JSON number. -/
def isNumber (cs : List Char) : Bool :=
  let unsigned := match cs with
    | '-' :: ds => ds
    | ds => ds
  (dropWhole? unsigned >>= dropFraction? >>= dropExponent?) == some []

/-- The words of JSON. -/
def word? (cs : List Char) : Option Lexeme :=
  if cs = ['t', 'r', 'u', 'e'] then some (.bool true)
  else if cs = ['f', 'a', 'l', 's', 'e'] then some (.bool false)
  else if cs = ['n', 'u', 'l', 'l'] then some .null
  else none

/-- The punctuation of JSON. -/
def punctuation? : Char → Option Lexeme
  | '[' => some .arrayStart
  | ']' => some .arrayEnd
  | '\x7b' => some .objectStart
  | '\x7d' => some .objectEnd
  | ',' => some .comma
  | ':' => some .colon
  | _ => none

/-- Splits a text into lexemes. -/
def lexemes? (cs : List Char) : Option (List Lexeme) :=
  match cs with
  | [] => some []
  | c :: rest =>
      if isSpace c then lexemes? rest
      else if c = quote then
        match _h : stringPieces? rest with
        | none => none
        | some r => (lexemes? r.2).map (.string ((joinPieces? r.1).map String.ofList) :: ·)
      else if c.isAlpha then
        match word? (c :: rest.takeWhile Char.isAlpha) with
        | none => none
        | some w => (lexemes? (rest.dropWhile Char.isAlpha)).map (w :: ·)
      else if isNumberChar c then
        let spelling := c :: rest.takeWhile isNumberChar
        if isNumber spelling then
          (lexemes? (rest.dropWhile isNumberChar)).map (.number (String.ofList spelling) :: ·)
        else none
      else
        match punctuation? c with
        | none => none
        | some p => (lexemes? rest).map (p :: ·)
termination_by cs.length
decreasing_by
  · simp
  · have := length_lt_of_stringPieces? _h
    simp only [List.length_cons]
    omega
  · have := (List.dropWhile_sublist Char.isAlpha (l := rest)).length_le
    simp only [List.length_cons]
    omega
  · have := (List.dropWhile_sublist isNumberChar (l := rest)).length_le
    simp only [List.length_cons]
    omega
  · simp

end FormulaCode.Json
