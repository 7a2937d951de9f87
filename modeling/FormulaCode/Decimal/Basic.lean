import FormulaCode.Text.Digits

/-! # Exact decimals

A decimal is an integer coefficient with a scale, worth `coefficient * 10 ^ (-scale)`.
The scale is part of a result: `1.50` and `1.5` have one value and two texts.
The operations fix the scale of their result, also where one operand is neutral. -/

namespace FormulaCode

/-- A decimal number, worth `coefficient * 10 ^ (-scale)`. -/
structure Decimal where
  coefficient : Int
  scale : Int
deriving DecidableEq, Repr

namespace Decimal

/-- The power of ten with the given number of zeros. -/
def powTen (zeros : Nat) : Nat := Nat.pow 10 zeros

/-- A decimal worth zero, at any scale. -/
def isZero (d : Decimal) : Bool := decide (d.coefficient = 0)

/-- The largest scale at which a decimal worth one counts as neutral. -/
def neutralPlaces : Nat := 38

/-- A decimal worth one, with a scale from zero to `neutralPlaces`. -/
def isNeutralOne (d : Decimal) : Bool :=
  decide (0 ≤ d.scale) && decide (d.scale ≤ neutralPlaces) &&
    decide (d.coefficient = powTen d.scale.toNat)

/-- The coefficient of the same value at a finer scale. -/
def coefficientAt (d : Decimal) (scale : Int) : Int :=
  d.coefficient * powTen (scale - d.scale).toNat

/-- The finer of two scales. -/
def commonScale (a b : Decimal) : Int := max a.scale b.scale

/-- Addition at the finer scale. -/
def add (a b : Decimal) : Decimal :=
  let s := commonScale a b
  ⟨a.coefficientAt s + b.coefficientAt s, s⟩

/-- Subtraction at the finer scale; a zero operand leaves the scale of the other. -/
def sub (a b : Decimal) : Decimal :=
  if b.isZero then a
  else if a.isZero then ⟨-b.coefficient, b.scale⟩
  else
    let s := commonScale a b
    ⟨a.coefficientAt s - b.coefficientAt s, s⟩

/-- Multiplication adds the scales; a neutral one leaves the other operand. -/
def mul (a b : Decimal) : Decimal :=
  if a.isNeutralOne then b
  else if b.isNeutralOne then a
  else ⟨a.coefficient * b.coefficient, a.scale + b.scale⟩

/-- The remainder of the quotient cut toward zero, at the finer scale. -/
def rem (a b : Decimal) : Decimal :=
  let s := commonScale a b
  ⟨(a.coefficientAt s).tmod (b.coefficientAt s), s⟩

/-- The order of `m * 10 ^ zeros` and `n`. Zeros beyond the digits of `n` cannot change it,
so no more are written out. -/
def orderScaled (m : Int) (zeros : Nat) (n : Int) : Ordering :=
  compare (m * powTen (min zeros (Text.digits n.natAbs).length)) n

/-- Decimals are ordered by value, whatever their scales. -/
def order (a b : Decimal) : Ordering :=
  if a.scale ≤ b.scale then
    orderScaled a.coefficient (b.scale - a.scale).toNat b.coefficient
  else (orderScaled b.coefficient (a.scale - b.scale).toNat a.coefficient).swap

/-- A whole number at scale zero. -/
def ofInt (n : Int) : Decimal := ⟨n, 0⟩

end Decimal

end FormulaCode
