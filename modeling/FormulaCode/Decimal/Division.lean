import FormulaCode.Decimal.Basic

/-! # Division of decimals

Long division to a hundred significant digits. The dividend is first scaled up
until it is not below the divisor, so the first digit of the quotient counts. The
last digit is rounded, a half going away from zero. -/

namespace FormulaCode.Decimal

/-- The significant digits that a division computes. -/
def quotientDigits : Nat := 100

/-- How many zeros a positive dividend takes until it is not below the divisor. -/
def leadingZeros (num den : Nat) : Nat :=
  if 0 < num ∧ num < den then leadingZeros (num * 10) den + 1 else 0
termination_by den - num

/-- The outcome of a long division: quotient digits as one number, the remainder,
and the decimal places among the digits. -/
structure Quotient where
  digits : Nat
  remainder : Nat
  places : Nat
deriving DecidableEq, Repr

/-- Appends decimal places to a quotient, at most `room` and only while a remainder is left. -/
def extend (den : Nat) : Nat → Quotient → Quotient
  | 0, q => q
  | room + 1, q =>
      if q.remainder = 0 then q
      else extend den room
        ⟨10 * q.digits + 10 * q.remainder / den, 10 * q.remainder % den, q.places + 1⟩

/-- Rounds the last digit by what is left: up from half of the divisor on. -/
def Quotient.rounded (q : Quotient) (den : Nat) : Nat :=
  if 0 < q.remainder ∧ den ≤ 2 * q.remainder then q.digits + 1 else q.digits

/-- Divides positive numbers to `quotientDigits` digits: the rounded digits and their places. -/
def divideMagnitudes (num den : Nat) : Nat × Nat :=
  let zeros := leadingZeros num den
  let num := num * powTen zeros
  let whole : Quotient := ⟨num / den, num % den, zeros⟩
  let room := quotientDigits - (Text.digits whole.digits).length
  let q := extend den room whole
  (q.rounded den, q.places)

/-- Division by a decimal that is not zero. A zero dividend and a neutral divisor
leave the dividend, and equal coefficients give one; no zeros are stripped. -/
def div (a b : Decimal) : Decimal :=
  if a.isZero || b.isNeutralOne then a
  else if a.coefficient = b.coefficient then ⟨1, a.scale - b.scale⟩
  else
    let (digits, places) := divideMagnitudes a.coefficient.natAbs b.coefficient.natAbs
    ⟨a.coefficient.sign * b.coefficient.sign * digits, a.scale - b.scale + places⟩

end FormulaCode.Decimal
