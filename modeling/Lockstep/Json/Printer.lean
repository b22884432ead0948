/-
# Writing a JSON text

Key definitions: `Json.tokens`, `Json.compact`, `Json.pretty`.
-/
import Lockstep.Json.Token

namespace Lockstep.Json

mutual

def tokens : Json → List Token
  | null => [.null]
  | bool b => [.bool b]
  | number n => [.number n]
  | string s => [.string s]
  | array items => .openArray :: itemTokens items ++ [.closeArray]
  | object members => .openObject :: memberTokens members ++ [.closeObject]

/-- The tokens of the items of an array, commas between them. -/
def itemTokens : List Json → List Token
  | [] => []
  | [v] => tokens v
  | v :: vs => tokens v ++ .comma :: itemTokens vs

/-- The tokens of the members of an object, commas between them. -/
def memberTokens : List (Option String × Json) → List Token
  | [] => []
  | [(k, v)] => .string k :: .colon :: tokens v
  | (k, v) :: ms => .string k :: .colon :: tokens v ++ .comma :: memberTokens ms

end

/-- The text of a document without blanks. -/
def compact (v : Json) : String := String.ofList (v.tokens.flatMap Token.text)

/-- A new line that is indented by two blanks for each open container. -/
def newLine (level : Nat) : List Char := '\n' :: List.replicate (2 * level) ' '

mutual

/-- The text of a document with each item and member on its own line. -/
def prettyText (level : Nat) : Json → List Char
  | array [] => ['[', ']']
  | array items => '[' :: prettyItems (level + 1) items ++ newLine level ++ [']']
  | object [] => ['\x7b', '\x7d']
  | object members => '\x7b' :: prettyMembers (level + 1) members ++ newLine level ++ ['\x7d']
  | null => Token.text .null
  | bool b => Token.text (.bool b)
  | number n => Token.text (.number n)
  | string s => Token.text (.string s)

/-- The lines of the items of an array. -/
def prettyItems (level : Nat) : List Json → List Char
  | [] => []
  | [v] => newLine level ++ prettyText level v
  | v :: vs => newLine level ++ prettyText level v ++ ',' :: prettyItems level vs

/-- The lines of the members of an object. -/
def prettyMembers (level : Nat) : List (Option String × Json) → List Char
  | [] => []
  | [(k, v)] => newLine level ++ Token.text (.string k) ++ ':' :: ' ' :: prettyText level v
  | (k, v) :: ms =>
    newLine level ++ Token.text (.string k) ++ ':' :: ' ' :: prettyText level v ++
      ',' :: prettyMembers level ms

end

/-- The text of a document over several lines, two blanks to a level. -/
def pretty (v : Json) : String := String.ofList (prettyText 0 v)

end Lockstep.Json
