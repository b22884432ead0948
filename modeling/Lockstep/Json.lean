/-
# JSON documents

A document keeps what its text says: the members of an object in their order
and with repeats, a number by its digits, and whether a string denotes text
at all (an escape may leave half of a surrogate pair alone).

Key definitions: `Json`, `Json.depth`, `Json.isPlain`, `Json.lastOfEach`.
-/
import Lockstep.Json.Number

namespace Lockstep

/-- A document. A string is `none` if it holds a lone surrogate. -/
inductive Json where
  | null
  | bool (b : Bool)
  | number (n : Json.Number)
  | string (s : Option String)
  | array (items : List Json)
  | object (members : List (Option String × Json))
  deriving Repr

namespace Json

/-! ### Making documents -/

def text (s : String) : Json := string (some s)

def nat (n : Nat) : Json := number ⟨false, n, 0, none⟩

def int (i : Int) : Json := number ⟨decide (i < 0), i.natAbs, 0, none⟩

/-- An object with the given members in order. -/
def record (members : List (String × Json)) : Json :=
  object (members.map fun (k, v) => (some k, v))

def option {α : Type} (f : α → Json) : Option α → Json
  | none => null
  | some a => f a

/-! ### Looking at documents -/

mutual

/-- The number of arrays and objects around the innermost one, itself included. -/
def depth : Json → Nat
  | array items => depthItems items + 1
  | object members => depthMembers members + 1
  | _ => 0

/-- The greatest depth among the items of an array. -/
def depthItems : List Json → Nat
  | [] => 0
  | v :: vs => max (depth v) (depthItems vs)

/-- The greatest depth among the members of an object. -/
def depthMembers : List (Option String × Json) → Nat
  | [] => 0
  | (_, v) :: ms => max (depth v) (depthMembers ms)

end

mutual

/-- Does every string denote text and every number fit a double? -/
def isPlain : Json → Bool
  | number n => !n.overflows
  | string s => s.isSome
  | array items => isPlainItems items
  | object members => isPlainMembers members
  | _ => true

/-- Is every item of an array plain? -/
def isPlainItems : List Json → Bool
  | [] => true
  | v :: vs => isPlain v && isPlainItems vs

/-- Is every member of an object plain, its key included? -/
def isPlainMembers : List (Option String × Json) → Bool
  | [] => true
  | (k, v) :: ms => k.isSome && isPlain v && isPlainMembers ms

end

/-- The members of which no later one has the same key. -/
def lastMembers : List (Option String × Json) → List (Option String × Json)
  | [] => []
  | (k, v) :: ms => if ms.any (·.1 = k) then lastMembers ms else (k, v) :: lastMembers ms

mutual

/-- The document in which of the members of one key only the last is left. -/
def lastOfEach : Json → Json
  | array items => array (lastOfEachItems items)
  | object members => object (lastMembers (lastOfEachMembers members))
  | v => v

/-- The items of an array, each with repeated members removed. -/
def lastOfEachItems : List Json → List Json
  | [] => []
  | v :: vs => lastOfEach v :: lastOfEachItems vs

/-- The members of an object, each with repeated members inside removed. -/
def lastOfEachMembers : List (Option String × Json) → List (Option String × Json)
  | [] => []
  | (k, v) :: ms => (k, lastOfEach v) :: lastOfEachMembers ms

end

/-- The value of the last member with a key. -/
def member? (key : String) : Json → Option Json
  | object members => (members.reverse.find? (·.1 = some key)).map (·.2)
  | _ => none

end Json

end Lockstep
