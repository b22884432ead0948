/-
# Decoding documents

What the parts of a document must look like to be taken for numbers, names
and records. A decoder that opens an array or object is told how many more may
be open at once, its `room`; what a record does not name is not looked at.

Key definitions: `Json.maxDepth`, `Json.natBelow?`, `Json.int64?`, `Json.text?`,
`Json.name?`, `Json.list?`, `Json.pair?`, `Json.fields?`, `Json.settings?`,
`Json.optional?`.
-/
import Lockstep.Json

namespace Lockstep.Json

/-- The number of arrays and objects that a decoder may have open at once. -/
def maxDepth : Nat := 127

/-- A number below a bound, written without sign, point and exponent. -/
def natBelow? (bound : Nat) : Json → Option Nat
  | number n => n.nat?.filter (· < bound)
  | _ => none

def nat8? : Json → Option Nat := natBelow? 0x100

def nat32? : Json → Option Nat := natBelow? 0x100000000

def nat64? : Json → Option Nat := natBelow? 0x10000000000000000

def int64? : Json → Option Int
  | number n => n.int?.filter fun i => -0x8000000000000000 ≤ i ∧ i < 0x8000000000000000
  | _ => none

def text? : Json → Option String
  | string s => s
  | _ => none

def bool? : Json → Option Bool
  | bool b => some b
  | _ => none

def optional? {α : Type} (f : Json → Option α) : Json → Option (Option α)
  | null => some none
  | v => (f v).map some

/-- A name: a string, or an object whose only key is the name, over null. -/
def name? (room : Nat) : Json → Option String
  | string s => s
  | object [(k, null)] => if room = 0 then none else k
  | _ => none

def list? {α : Type} (room : Nat) (item : Nat → Json → Option α) (v : Json) : Option (List α) :=
  match room, v with
  | room + 1, array items => items.mapM (item room)
  | _, _ => none

/-- An array of exactly two items. -/
def pair? {α β : Type} (room : Nat) (first : Json → Option α) (second : Json → Option β) :
    Json → Option (α × β)
  | array [a, b] => if room = 0 then none else return (← first a, ← second b)
  | _ => none

/-- The values of a key among the members of an object: none, one, or refused. -/
def single? (members : List (Option String × Json)) (key : String) : Option (Option Json) :=
  match members.filter (·.1 = some key) with
  | [] => some none
  | [(_, v)] => some (some v)
  | _ => none

/-- The values of the named fields of a record. In an object a field may be
missing but not repeated, and other members are ignored; an array has exactly
one item for each field, in their order. -/
def fields? (room : Nat) (names : List String) (v : Json) : Option (List (Option Json)) :=
  match room, v with
  | _ + 1, object members =>
    if members.all (·.1.isSome) then names.mapM (single? members) else none
  | _ + 1, array items => if items.length = names.length then some (items.map some) else none
  | _, _ => none

/-- The values of the named settings. In an object no other member may stand,
and an array may end early. -/
def settings? (room : Nat) (names : List String) (v : Json) : Option (List (Option Json)) :=
  match room, v with
  | _ + 1, object members =>
    if members.all fun m => names.any fun n => m.1 = some n then names.mapM (single? members)
    else none
  | _ + 1, array items =>
    if items.length ≤ names.length then
      some (items.map some ++ List.replicate (names.length - items.length) none)
    else none
  | _, _ => none

/-- A missing value is the given one; a present one must decode. -/
def withDefault {α : Type} (d : α) (f : Json → Option α) : Option Json → Option α
  | none => some d
  | some v => f v

end Lockstep.Json
