import FormulaCode.Text.Digits

/-! # JSON values

Numbers keep their spelling and objects keep their members in the order of the text,
repetitions included. A string that escapes half of a surrogate pair names no text; it
is kept as a string without one. -/

namespace FormulaCode

/-- A JSON value. -/
inductive Json
  | null
  | bool (value : Bool)
  | number (spelling : String)
  | string (text : Option String)
  | array (items : List Json)
  | object (members : List (Option String × Json))
deriving Inhabited

namespace Json

/-- A member of an object. -/
abbrev Member := Option String × Json

/-- A string that names a text. -/
def ofText (s : String) : Json := string (some s)

/-- A natural number in its shortest spelling. -/
def ofNat (n : Nat) : Json := number (String.ofList (Text.digits n))

/-- An object with the given members, in this order. -/
def ofMembers (ms : List (String × Json)) : Json := object (ms.map fun m => (some m.1, m.2))

/-- The text of a string. -/
def text? : Json → Option String
  | string t => t
  | _ => none

/-- The value of `true` and `false`. -/
def bool? : Json → Option Bool
  | bool b => some b
  | _ => none

/-- The items of an array. -/
def array? : Json → Option (List Json)
  | array items => some items
  | _ => none

/-- The value of a spelling of digits without a leading zero. -/
def natOfSpelling? (cs : List Char) : Option Nat :=
  if cs.all Char.isDigit && decide (Text.digits (Text.ofDigits cs) = cs) then
    some (Text.ofDigits cs)
  else none

/-- A number spelled as a natural number below the bound; a sign, a fraction or an
exponent makes it another kind of number. -/
def natBelow? (bound : Nat) : Json → Option Nat
  | number s => (natOfSpelling? s.toList).filter fun n => decide (n < bound)
  | _ => none

/-- The value of the only member with this key. -/
def uniqueMember? (key : String) (ms : List Member) : Option Json :=
  match ms.filter fun m => m.1 == some key with
  | [m] => some m.2
  | _ => none

/-- The fields of a record, in the order of their names. A record is written as an object
with every field once, other members being ignored, or as an array of its fields. -/
def record? (names : List String) : Json → Option (List Json)
  | array items => if items.length = names.length then some items else none
  | object ms =>
      if ms.all (·.1.isSome) then names.mapM fun name => uniqueMember? name ms else none
  | _ => none

/-- The only member of an object, by its key. -/
def tagged? : Json → Option (String × Json)
  | object [(some key, value)] => some (key, value)
  | _ => none

/-- A plain name: a string, or an object whose only member has that key and is `null`. -/
def name? : Json → Option String
  | string t => t
  | object [(some key, null)] => some key
  | _ => none

end Json

end FormulaCode
