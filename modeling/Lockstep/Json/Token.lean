/-
# The tokens of a JSON text

`Token.read?` cuts a text into tokens and refuses one with a character that
starts no token, a malformed number or escape, an unclosed string or a bare
control character in a string. `Token.text` writes a token.

Key definitions: `Token`, `Token.read?`, `Token.text`, `Token.readString`,
`Token.readNumber`.
-/
import Lockstep.Json

namespace Lockstep.Json

/-- The smallest parts of a JSON text. -/
inductive Token where
  | openArray
  | closeArray
  | openObject
  | closeObject
  | comma
  | colon
  | null
  | bool (b : Bool)
  | number (n : Number)
  | string (s : Option String)
  deriving DecidableEq, Repr

namespace Token

/-! ### Numbers -/

/-- The number that a run of decimal digits denotes. -/
def ofDigits (ds : List Char) : Nat := ds.foldl (fun n d => 10 * n + (d.toNat - 48)) 0

/-- The digits in front of a text, and the rest. -/
def readDigits (s : List Char) : List Char × List Char :=
  (s.takeWhile Char.isDigit, s.dropWhile Char.isDigit)

/-- The fraction in front of a text: its digits, none if no point stands there. -/
def readFraction : List Char → Option (List Char × List Char)
  | '.' :: s => if (readDigits s).1 = [] then none else some (readDigits s)
  | s => some ([], s)

/-- The unsigned part of an exponent. -/
def readExponentDigits (negative : Bool) (s : List Char) : Option (Option Int × List Char) :=
  let (ds, rest) := readDigits s
  if ds = [] then none
  else some (some (if negative then -(ofDigits ds : Int) else ofDigits ds), rest)

/-- The exponent in front of a text, none if no exponent mark stands there. -/
def readExponent : List Char → Option (Option Int × List Char)
  | c :: s =>
    if c = 'e' ∨ c = 'E' then
      match s with
      | '-' :: s => readExponentDigits true s
      | '+' :: s => readExponentDigits false s
      | s => readExponentDigits false s
    else some (none, c :: s)
  | [] => some (none, [])

/-- The unsigned number in front of a text; only a lone zero may lead. -/
def readUnsigned (negative : Bool) (s : List Char) : Option (Number × List Char) := do
  let (whole, s) := readDigits s
  if whole = [] ∨ (whole.head? = some '0' ∧ 1 < whole.length) then none
  else
    let (fraction, s) ← readFraction s
    let (exponent, s) ← readExponent s
    some (⟨negative, ofDigits (whole ++ fraction), fraction.length, exponent⟩, s)

/-- The number in front of a text. -/
def readNumber : List Char → Option (Number × List Char)
  | '-' :: s => readUnsigned true s
  | s => readUnsigned false s

/-! ### Strings -/

/-- The value of a hexadecimal digit. -/
def hexValue? (c : Char) : Option Nat :=
  if c.isDigit then some (c.toNat - 48)
  else if 'a' ≤ c ∧ c ≤ 'f' then some (c.toNat - 87)
  else if 'A' ≤ c ∧ c ≤ 'F' then some (c.toNat - 55)
  else none

/-- The code unit that four hexadecimal digits denote. -/
def codeUnit? (a b c d : Char) : Option Nat := do
  let a ← hexValue? a
  let b ← hexValue? b
  let c ← hexValue? c
  let d ← hexValue? d
  some (((a * 16 + b) * 16 + c) * 16 + d)

/-- Is the code unit the first half of a surrogate pair? -/
def isHigh (u : Nat) : Bool := 0xd800 ≤ u && u < 0xdc00

/-- Is the code unit the second half of a surrogate pair? -/
def isLow (u : Nat) : Bool := 0xdc00 ≤ u && u < 0xe000

/-- The character that a surrogate pair denotes. -/
def pairChar (high low : Nat) : Char :=
  Char.ofNat (0x10000 + (high - 0xd800) * 0x400 + (low - 0xdc00))

/-- The character of a one-letter escape. -/
def escaped? : Char → Option Char
  | '"' => some '"'
  | '\\' => some '\\'
  | '/' => some '/'
  | 'b' => some '\x08'
  | 'f' => some '\x0c'
  | 'n' => some '\n'
  | 'r' => some '\r'
  | 't' => some '\t'
  | _ => none

/-- A string body, to its closing quote, with one more character in front. -/
def consChar (c : Char) : Option (Option (List Char) × List Char) →
    Option (Option (List Char) × List Char) :=
  Option.map fun (body, rest) => (body.map (c :: ·), rest)

/-- A string body after an escape that denotes no character. -/
def dropBody : Option (Option (List Char) × List Char) → Option (Option (List Char) × List Char) :=
  Option.map fun (_, rest) => (none, rest)

/-- The string in front of a text, its opening quote already read: its
characters, none if a surrogate is alone, and the text after the closing quote. -/
def readString : List Char → Option (Option (List Char) × List Char)
  | [] => none
  | '"' :: s => some (some [], s)
  | '\\' :: 'u' :: a :: b :: c :: d :: '\\' :: 'u' :: e :: f :: g :: h :: s =>
    match codeUnit? a b c d, codeUnit? e f g h with
    | some u, some v =>
      if isHigh u && isLow v then consChar (pairChar u v) (readString s)
      else if isHigh u || isLow u then dropBody (readString ('\\' :: 'u' :: e :: f :: g :: h :: s))
      else consChar (Char.ofNat u) (readString ('\\' :: 'u' :: e :: f :: g :: h :: s))
    | _, _ => none
  | '\\' :: 'u' :: a :: b :: c :: d :: s =>
    match codeUnit? a b c d with
    | some u =>
      if isHigh u || isLow u then dropBody (readString s)
      else consChar (Char.ofNat u) (readString s)
    | none => none
  | '\\' :: c :: s =>
    match escaped? c with
    | some c => consChar c (readString s)
    | none => none
  | c :: s => if c < ' ' ∨ c = '\\' then none else consChar c (readString s)

/-! ### Tokens -/

/-- The characters between tokens. -/
def isBlank (c : Char) : Bool := c = ' ' || c = '\t' || c = '\n' || c = '\r'

/-- The token in front of a text that starts with no blank. -/
def readOne : List Char → Option (Token × List Char)
  | '[' :: s => some (openArray, s)
  | ']' :: s => some (closeArray, s)
  | '\x7b' :: s => some (openObject, s)
  | '\x7d' :: s => some (closeObject, s)
  | ',' :: s => some (comma, s)
  | ':' :: s => some (colon, s)
  | 'n' :: 'u' :: 'l' :: 'l' :: s => some (null, s)
  | 't' :: 'r' :: 'u' :: 'e' :: s => some (bool true, s)
  | 'f' :: 'a' :: 'l' :: 's' :: 'e' :: s => some (bool false, s)
  | '"' :: s => (readString s).map fun (body, rest) => (string (body.map String.ofList), rest)
  | s => (readNumber s).map fun (n, rest) => (number n, rest)

/-- The tokens of a text, cut off in at most the given number of pieces. -/
def readMany : Nat → List Char → Option (List Token)
  | _, [] => some []
  | 0, _ :: _ => none
  | fuel + 1, c :: s =>
    if isBlank c then readMany fuel s
    else do
      let (token, rest) ← readOne (c :: s)
      let tokens ← readMany fuel rest
      some (token :: tokens)

/-- The tokens of a text. Each token and each blank takes a character, so the
length of the text is fuel enough. -/
def read? (s : List Char) : Option (List Token) := readMany s.length s

/-! ### Writing -/

def hexDigit (n : Nat) : Char := if n < 10 then Char.ofNat (48 + n) else Char.ofNat (87 + n)

/-- A character as it stands in a written string. -/
def escape (c : Char) : List Char :=
  if c = '"' then ['\\', '"']
  else if c = '\\' then ['\\', '\\']
  else if c = '\x08' then ['\\', 'b']
  else if c = '\x0c' then ['\\', 'f']
  else if c = '\n' then ['\\', 'n']
  else if c = '\r' then ['\\', 'r']
  else if c = '\t' then ['\\', 't']
  else if c < ' ' then ['\\', 'u', '0', '0', hexDigit (c.toNat / 16), hexDigit (c.toNat % 16)]
  else [c]

/-- The decimal digits of a number. -/
def digits (n : Nat) : List Char := Nat.toDigits 10 n

def numberText (n : Number) : List Char :=
  (if n.negative then ['-'] else []) ++ n.parts.1 ++
    (if n.places = 0 then [] else '.' :: n.parts.2) ++
    match n.exponent with
    | none => []
    | some e => 'e' :: (if e < 0 then '-' :: digits e.natAbs else digits e.natAbs)

/-- The text of a token. A string that denotes no text is written as a lone surrogate. -/
def text : Token → List Char
  | openArray => ['[']
  | closeArray => [']']
  | openObject => ['\x7b']
  | closeObject => ['\x7d']
  | comma => [',']
  | colon => [':']
  | null => ['n', 'u', 'l', 'l']
  | bool true => ['t', 'r', 'u', 'e']
  | bool false => ['f', 'a', 'l', 's', 'e']
  | number n => numberText n
  | string (some s) => '"' :: s.toList.flatMap escape ++ ['"']
  | string none => ['"', '\\', 'u', 'd', '8', '0', '0', '"']

end Token

end Lockstep.Json
