import FormulaCode.Json.Basic

/-! # Writing JSON

The compact form: no blanks, control characters escaped, all others as they are. -/

namespace FormulaCode.Json

/-- The quotation mark around strings. -/
def quote : Char := '\x22'

/-- The four hexadecimal digits of a control character. -/
def hex4 (n : Nat) : List Char :=
  [Nat.digitChar (n / 4096 % 16), Nat.digitChar (n / 256 % 16), Nat.digitChar (n / 16 % 16),
    Nat.digitChar (n % 16)]

/-- One character inside a string. -/
def writeChar (c : Char) : List Char :=
  if c = quote then ['\\', quote]
  else if c = '\\' then ['\\', '\\']
  else if c = '\n' then ['\\', 'n']
  else if c = '\r' then ['\\', 'r']
  else if c = '\t' then ['\\', 't']
  else if c.toNat = 8 then ['\\', 'b']
  else if c.toNat = 12 then ['\\', 'f']
  else if c.toNat < 32 then '\\' :: 'u' :: hex4 c.toNat
  else [c]

/-- A text as a JSON string. -/
def writeText (s : String) : List Char :=
  quote :: s.toList.flatMap writeChar ++ [quote]

/-- A string; one that names no text is half of a surrogate pair. -/
def writeString : Option String → List Char
  | some s => writeText s
  | none => quote :: '\\' :: 'u' :: hex4 0xD800 ++ [quote]

mutual

/-- The compact text of a value. -/
def write : Json → List Char
  | null => ['n', 'u', 'l', 'l']
  | bool true => ['t', 'r', 'u', 'e']
  | bool false => ['f', 'a', 'l', 's', 'e']
  | number s => s.toList
  | string t => writeString t
  | array [] => ['[', ']']
  | array (item :: items) => '[' :: write item ++ writeItems items
  | object [] => ['\x7b', '\x7d']
  | object ((key, value) :: ms) =>
      '\x7b' :: writeString key ++ ':' :: write value ++ writeMembers ms

/-- The items behind the first one and the end of their array. -/
def writeItems : List Json → List Char
  | [] => [']']
  | item :: items => ',' :: write item ++ writeItems items

/-- The members behind the first one and the end of their object. -/
def writeMembers : List (Option String × Json) → List Char
  | [] => ['\x7d']
  | (key, value) :: ms => ',' :: writeString key ++ ':' :: write value ++ writeMembers ms

end

/-- The compact text of a value as a string. -/
def toText (j : Json) : String := String.ofList j.write

end FormulaCode.Json
