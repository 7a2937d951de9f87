import FormulaCode.Json.Lexeme

/-! # Reading JSON

One pass over the lexemes, with the containers that are still open on a stack. -/

namespace FormulaCode.Json

/-- An open container: its finished parts, latest first, and the key of an open member. -/
inductive Frame
  | array (done : List Json)
  | object (done : List Member) (key : Option String)

mutual

/-- Reads one value inside the open containers. -/
def readValue? (frames : List Frame) : List Lexeme → Option Json
  | .null :: ls => readRest? frames null ls
  | .bool b :: ls => readRest? frames (bool b) ls
  | .number s :: ls => readRest? frames (number s) ls
  | .string t :: ls => readRest? frames (string t) ls
  | .arrayStart :: .arrayEnd :: ls => readRest? frames (array []) ls
  | .arrayStart :: ls => readValue? (.array [] :: frames) ls
  | .objectStart :: .objectEnd :: ls => readRest? frames (object []) ls
  | .objectStart :: .string key :: .colon :: ls => readValue? (.object [] key :: frames) ls
  | _ => none

/-- Goes on behind a finished value. -/
def readRest? : List Frame → Json → List Lexeme → Option Json
  | [], value, [] => some value
  | .array done :: frames, value, .comma :: ls => readValue? (.array (value :: done) :: frames) ls
  | .array done :: frames, value, .arrayEnd :: ls =>
      readRest? frames (array (value :: done).reverse) ls
  | .object done key :: frames, value, .comma :: .string next :: .colon :: ls =>
      readValue? (.object ((key, value) :: done) next :: frames) ls
  | .object done key :: frames, value, .objectEnd :: ls =>
      readRest? frames (object ((key, value) :: done).reverse) ls
  | _, _, _ => none

end

/-- The value that a whole text spells. -/
def read? (s : String) : Option Json := do
  let ls ← lexemes? s.toList
  readValue? [] ls

end FormulaCode.Json
