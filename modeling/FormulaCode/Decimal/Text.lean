import FormulaCode.Decimal.Basic

/-! # Decimals as text

Reading takes a sign, digits with one point among them, underscores as digit
separators, and an exponent. Writing is always positional. -/

namespace FormulaCode.Decimal

/-- Takes a sign off a text; `true` stands for minus. -/
def splitSign : List Char → Bool × List Char
  | '-' :: cs => (true, cs)
  | '+' :: cs => (false, cs)
  | cs => (false, cs)

/-- The integer with a sign and a magnitude. -/
def signed (negative : Bool) (n : Nat) : Int := if negative then -n else n

/-- An exponent: digits with or without a sign. -/
def readExponent? (cs : List Char) : Option Int :=
  let (negative, ds) := splitSign cs
  if !ds.isEmpty && ds.all Char.isDigit then some (signed negative (Text.ofDigits ds)) else none

/-- A coefficient: a sign or none, a digit, then digits and underscores. -/
def readCoefficient? (cs : List Char) : Option Int :=
  match splitSign cs with
  | (_, []) => none
  | (negative, d :: ds) =>
      if d.isDigit && ds.all (fun c => c.isDigit || c == '_') then
        some (signed negative (Text.ofDigits ((d :: ds).filter (· != '_'))))
      else none

/-- The characters that start an exponent. -/
def isExponentMark (c : Char) : Bool := c == 'e' || c == 'E'

/-- Splits a text at its first exponent mark; without one the exponent is zero. -/
def splitExponent? (cs : List Char) : Option (List Char × Int) :=
  match cs.dropWhile (!isExponentMark ·) with
  | [] => some (cs, 0)
  | _ :: ds => (readExponent? ds).map (cs.takeWhile (!isExponentMark ·), ·)

/-- Removes the first point of a text and counts what stands behind it, underscores apart. -/
def removePoint (cs : List Char) : List Char × Nat :=
  match cs.dropWhile (· != '.') with
  | [] => (cs, 0)
  | _ :: places => (cs.takeWhile (· != '.') ++ places, (places.filter (· != '_')).length)

/-- The smallest scale of a signed word of 64 bits. -/
def minScale : Int := -9223372036854775808

/-- The largest scale of a signed word of 64 bits. -/
def maxScale : Int := 9223372036854775807

/-- Whether the scale fits a signed word of 64 bits. -/
def hasWordScale (d : Decimal) : Bool :=
  decide (minScale ≤ d.scale) && decide (d.scale ≤ maxScale)

/-- Reads a decimal. An exponent must leave the scale in a signed word of 64 bits; without
one the scale is the number of places in the text, and these have no limit. -/
def read? (cs : List Char) : Option Decimal := do
  let (base, exponent) ← splitExponent? cs
  let (digits, places) := removePoint base
  let coefficient ← readCoefficient? digits
  let d : Decimal := ⟨coefficient, places - exponent⟩
  if exponent = 0 || d.hasWordScale then return d else none

/-- The digits of a magnitude with the point before the last `places` of them. -/
def withPoint (places : Nat) (n : Nat) : List Char :=
  let ds := Text.zeroPadded (places + 1) n
  ds.take (ds.length - places) ++ '.' :: ds.drop (ds.length - places)

/-- The positional text of a magnitude. A scale of zero or less puts zeros behind it,
a positive scale is the number of decimal places, and zero is no exception. -/
def positional (n : Nat) (scale : Int) : List Char :=
  if scale ≤ 0 then Text.digits n ++ List.replicate (-scale).toNat '0'
  else withPoint scale.toNat n

/-- The positional text of a decimal; there is no negative zero. -/
def write (d : Decimal) : List Char :=
  if d.coefficient < 0 then '-' :: positional d.coefficient.natAbs d.scale
  else positional d.coefficient.natAbs d.scale

/-- The positional text of a decimal as a string. -/
def toText (d : Decimal) : String := String.ofList d.write

end FormulaCode.Decimal
