import FormulaCode.ParseError
import FormulaCode.Operator.Alias
import FormulaCode.Operator.Value

/-! # Tokens of a text

A formula is read from the left. A quote opens a literal that ends at the next quote, a
parenthesis opens a group that ends at its partner, a blank is skipped unless an alias
starts there, and anything else is an operand that ends where the next alias starts.
Positions count the bytes of the text. -/

namespace FormulaCode.Token

/-- The bytes that characters take in a text. -/
def byteLength : List Char → Nat
  | [] => 0
  | c :: cs => c.utf8Size + byteLength cs

/-- The quote around literals. -/
def quote : Char := '\x27'

/-- The blanks that separate tokens. -/
def isSeparator (c : Char) : Bool := c == ' ' || c == '\r' || c == '\n' || c == '\t'

/-- Splits a text at its first quote: what stands before it and what stands behind. -/
def splitQuote? : List Char → Option (List Char × List Char)
  | [] => none
  | c :: cs =>
      if c = quote then some ([], cs)
      else (splitQuote? cs).map fun r => (c :: r.1, r.2)

/-- Splits a text at the parenthesis that closes the current one, after `depth` others
that are open inside it. Parentheses between quotes do not count. -/
def splitClose? (quoted : Bool) (depth : Nat) : List Char → Option (List Char × List Char)
  | [] => none
  | c :: cs =>
      if c = quote then (splitClose? (!quoted) depth cs).map fun r => (c :: r.1, r.2)
      else if quoted then (splitClose? quoted depth cs).map fun r => (c :: r.1, r.2)
      else if c = '(' then (splitClose? quoted (depth + 1) cs).map fun r => (c :: r.1, r.2)
      else if c = ')' then
        if depth = 0 then some ([], cs)
        else (splitClose? quoted (depth - 1) cs).map fun r => (c :: r.1, r.2)
      else (splitClose? quoted depth cs).map fun r => (c :: r.1, r.2)

/-- Splits the content of a group, behind its opening parenthesis, from the text after it. -/
def splitGroup? (cs : List Char) : Option (List Char × List Char) := splitClose? false 0 cs

/-- Splits a text where its first alias starts, or at its end. -/
def splitOperand : List Char → List Char × List Char
  | [] => ([], [])
  | c :: cs =>
      if (Operator.aliasAt? (c :: cs)).isSome then ([], c :: cs)
      else (c :: (splitOperand cs).1, (splitOperand cs).2)

/-- Whether a text is a plain number: digits, and digits behind a point if there is one. -/
def isPlainNumber (cs : List Char) : Bool :=
  !(cs.takeWhile Char.isDigit).isEmpty &&
    match cs.dropWhile Char.isDigit with
    | [] => true
    | c :: places => c == '.' && !places.isEmpty && places.all Char.isDigit

/-- The literal between two quotes: a time if it reads as one, and a text otherwise. -/
def ofQuoted (content : List Char) : Token :=
  if (Calendar.Timestamp.read? content).isSome then .literal (.time (String.ofList content))
  else .literal (.text (String.ofList content))

/-- The operand that an unquoted text without blanks at its ends stands for. -/
def ofWord (cs : List Char) : Token :=
  if isPlainNumber cs then .literal (.number (String.ofList cs))
  else if cs = ['t', 'r', 'u', 'e'] then .literal (.bool true)
  else if cs = ['f', 'a', 'l', 's', 'e'] then .literal (.bool false)
  else .var (String.ofList cs)

/-- The tokens of an unquoted text: one operand, or none if the text is blank. -/
def ofOperand (cs : List Char) : List Token :=
  if Text.allBlank cs then [] else [ofWord (Text.trim cs)]

theorem length_of_splitQuote? {cs : List Char} {r : List Char × List Char}
    (h : splitQuote? cs = some r) : r.1.length + r.2.length < cs.length := by
  induction cs generalizing r with
  | nil => simp [splitQuote?] at h
  | cons c cs ih =>
      by_cases hc : c = quote
      · simp only [splitQuote?, hc, if_true, Option.some.injEq] at h
        subst h
        simp
      · simp only [splitQuote?, hc, if_false] at h
        obtain ⟨r', hr, rfl⟩ := Option.map_eq_some_iff.1 h
        have := ih hr
        simp only [List.length_cons]
        omega

theorem length_of_splitClose? {quoted : Bool} {depth : Nat} {cs : List Char}
    {r : List Char × List Char} (h : splitClose? quoted depth cs = some r) :
    r.1.length + r.2.length < cs.length := by
  induction cs generalizing quoted depth r with
  | nil => simp [splitClose?] at h
  | cons c cs ih =>
      have step : ∀ {q d}, (splitClose? q d cs).map (fun r => (c :: r.1, r.2)) = some r →
          r.1.length + r.2.length < (c :: cs).length := by
        intro q d h
        obtain ⟨r', hr, rfl⟩ := Option.map_eq_some_iff.1 h
        have := ih hr
        simp only [List.length_cons]
        omega
      simp only [splitClose?] at h
      split at h
      · exact step h
      · split at h
        · exact step h
        · split at h
          · exact step h
          · split at h
            · split at h
              · simp only [Option.some.injEq] at h
                subst h
                simp
              · exact step h
            · exact step h

@[simp] theorem splitOperand_append (cs : List Char) :
    (splitOperand cs).1 ++ (splitOperand cs).2 = cs := by
  induction cs with
  | nil => rfl
  | cons c cs ih =>
      by_cases h : (Operator.aliasAt? (c :: cs)).isSome = true
      · simp [splitOperand, h]
      · simp [splitOperand, h, ih]

theorem length_splitOperand_le (cs : List Char) : (splitOperand cs).2.length ≤ cs.length := by
  have := congrArg List.length (splitOperand_append cs)
  simp only [List.length_append] at this
  omega

theorem length_drop_lt_of_aliasAt? {c : Char} {cs : List Char} {a : Operator.Spelling}
    (h : Operator.aliasAt? (c :: cs) = some a) :
    ((c :: cs).drop a.1.length).length < (c :: cs).length := by
  have := List.length_pos_iff.2
    (Operator.ne_nil_of_mem_spellings (Operator.mem_spellings_of_aliasAt? h))
  simp only [List.length_drop, List.length_cons]
  omega

/-- The tokens of a text that starts at byte `position` of the formula. -/
def scanFrom (position : Nat) (cs : List Char) : Except ParseError (List Token) :=
  match cs with
  | [] => .ok []
  | c :: rest =>
      if c = quote then
        match _h : splitQuote? rest with
        | none => .error (.unterminatedLiteral position)
        | some (content, behind) => do
            let ts ← scanFrom (position + byteLength content + 2) behind
            return ofQuoted content :: ts
      else if c = '(' then
        match _h : splitGroup? rest with
        | none => .error (.unterminatedGroup position)
        | some (content, behind) =>
            if Text.allBlank content then .error .emptySource
            else do
              let inner ← scanFrom (position + 1) content
              let ts ← scanFrom (position + byteLength content + 2) behind
              return .group inner :: ts
      else
        match _h : Operator.aliasAt? (c :: rest) with
        | some a => do
            let ts ← scanFrom (position + byteLength a.1) ((c :: rest).drop a.1.length)
            return .operator (String.ofList a.1) :: ts
        | none =>
            if isSeparator c then scanFrom (position + c.utf8Size) rest
            else do
              let operand := c :: (splitOperand rest).1
              let ts ← scanFrom (position + byteLength operand) (splitOperand rest).2
              return ofOperand operand ++ ts
termination_by cs.length
decreasing_by
  · have := length_of_splitQuote? _h
    simp only [List.length_cons] at this ⊢
    omega
  · have := length_of_splitClose? _h
    simp only [List.length_cons] at this ⊢
    omega
  · have := length_of_splitClose? _h
    simp only [List.length_cons] at this ⊢
    omega
  · exact length_drop_lt_of_aliasAt? _h
  · simp
  · have := length_splitOperand_le rest
    simp only [List.length_cons]
    omega

/-- The tokens of a formula. -/
def scan (source : String) : Except ParseError (List Token) :=
  if Text.allBlank source.toList then .error .emptySource else scanFrom 0 source.toList

end FormulaCode.Token
