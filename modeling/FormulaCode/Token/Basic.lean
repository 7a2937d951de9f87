import FormulaCode.Literal

/-! # Tokens

A formula is a sequence of variables, literals, operator aliases and groups. -/

namespace FormulaCode

/-- A token. An operator token holds the alias as it was written. -/
inductive Token
  | var (name : String)
  | literal (value : Literal)
  | operator (sign : String)
  | group (tokens : List Token)

namespace Token

/-- Whether a token is an operator; all others are operands. -/
def isOperator : Token → Bool
  | operator _ => true
  | _ => false

mutual

/-- A token as messages show it: an alias in quotes without the blanks at its ends, and
the tokens of a group with spaces between them. -/
def display : Token → String
  | var name => "$" ++ name
  | literal value => value.display
  | operator sign => "'" ++ Text.trimmed sign ++ "'"
  | group [] => "()"
  | group (t :: ts) => "(" ++ display t ++ displayRest ts ++ ")"

/-- The tokens behind the first one of a group, each after a space. -/
def displayRest : List Token → String
  | [] => ""
  | t :: ts => " " ++ display t ++ displayRest ts

end

mutual

/-- Equality of tokens is decided part by part. -/
def decEq : (s t : Token) → Decidable (s = t)
  | var m, var n => if h : m = n then isTrue (h ▸ rfl) else isFalse (by simp [h])
  | literal k, literal l => if h : k = l then isTrue (h ▸ rfl) else isFalse (by simp [h])
  | operator a, operator b => if h : a = b then isTrue (h ▸ rfl) else isFalse (by simp [h])
  | group ss, group ts =>
      match listDecEq ss ts with
      | isTrue h => isTrue (h ▸ rfl)
      | isFalse h => isFalse (by simp [h])
  | var _, literal _ => isFalse (by simp)
  | var _, operator _ => isFalse (by simp)
  | var _, group _ => isFalse (by simp)
  | literal _, var _ => isFalse (by simp)
  | literal _, operator _ => isFalse (by simp)
  | literal _, group _ => isFalse (by simp)
  | operator _, var _ => isFalse (by simp)
  | operator _, literal _ => isFalse (by simp)
  | operator _, group _ => isFalse (by simp)
  | group _, var _ => isFalse (by simp)
  | group _, literal _ => isFalse (by simp)
  | group _, operator _ => isFalse (by simp)

/-- Equality of token sequences is decided token by token. -/
def listDecEq : (ss ts : List Token) → Decidable (ss = ts)
  | [], [] => isTrue rfl
  | s :: ss, t :: ts =>
      match decEq s t, listDecEq ss ts with
      | isTrue h, isTrue h' => isTrue (h ▸ h' ▸ rfl)
      | isFalse h, _ => isFalse (by simp [h])
      | _, isFalse h => isFalse (by simp [h])
  | [], _ :: _ => isFalse (by simp)
  | _ :: _, [] => isFalse (by simp)

end

instance : DecidableEq Token := decEq

end Token

end FormulaCode
