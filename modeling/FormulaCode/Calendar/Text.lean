import FormulaCode.Calendar.Timestamp
import FormulaCode.Text.Blank
import FormulaCode.Text.Digits

/-! # Timestamps as text

A timestamp is written `year/month/day hour:minute:second`. Reading skips blanks before
every number, takes short fields, and takes years of any length behind a sign. -/

namespace FormulaCode.Calendar

/-- Reads the digits a text starts with, at least one and at most `limit`. -/
def readDigits? (limit : Nat) (cs : List Char) : Option (Nat × List Char) :=
  let ds := (cs.take limit).takeWhile Char.isDigit
  if ds.isEmpty then none else some (Text.ofDigits ds, cs.drop ds.length)

/-- Reads a number of at most `limit` digits with blanks before it. -/
def readField? (limit : Nat) (cs : List Char) : Option (Nat × List Char) :=
  readDigits? limit (Text.trimStart cs)

/-- Reads a year: up to four digits, or a sign and digits without limit. -/
def readYear? (cs : List Char) : Option (Int × List Char) :=
  match Text.trimStart cs with
  | '+' :: cs => (readDigits? cs.length cs).map fun r => (r.1, r.2)
  | '-' :: cs => (readDigits? cs.length cs).map fun r => (-r.1, r.2)
  | cs => (readDigits? 4 cs).map fun r => (r.1, r.2)

/-- Reads one given character. -/
def expect? (c : Char) : List Char → Option (List Char)
  | [] => none
  | d :: cs => if d = c then some cs else none

/-- Reads a timestamp that takes up the whole text. -/
def Timestamp.read? (cs : List Char) : Option Timestamp := do
  let (year, cs) ← readYear? cs
  let cs ← expect? '/' cs
  let (month, cs) ← readField? 2 cs
  let cs ← expect? '/' cs
  let (day, cs) ← readField? 2 cs
  let (hour, cs) ← readField? 2 cs
  let cs ← expect? ':' cs
  let (minute, cs) ← readField? 2 cs
  let cs ← expect? ':' cs
  let (second, cs) ← readField? 2 cs
  if cs.isEmpty then
    let date ← Date.of? year month day
    Timestamp.of? date hour minute second
  else none

/-- Four digits for the years up to 9999, and a sign before all others. -/
def writeYear (year : Int) : List Char :=
  if year < 0 then '-' :: Text.zeroPadded 4 year.natAbs
  else if 9999 < year then '+' :: Text.zeroPadded 4 year.natAbs
  else Text.zeroPadded 4 year.natAbs

/-- A timestamp in its full form. -/
def Timestamp.write (t : Timestamp) : List Char :=
  writeYear t.date.year ++ '/' :: Text.zeroPadded 2 t.date.month ++
    '/' :: Text.zeroPadded 2 t.date.day ++ ' ' :: Text.zeroPadded 2 t.hour ++
    ':' :: Text.zeroPadded 2 t.minute ++ ':' :: Text.zeroPadded 2 t.second

/-- A timestamp in its full form as a string. -/
def Timestamp.toText (t : Timestamp) : String := String.ofList t.write

end FormulaCode.Calendar
