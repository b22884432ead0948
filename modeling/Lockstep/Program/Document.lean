/-
# Programs as JSON documents

`Instruction.toJson` writes an instruction and `Instruction.ofJson?` reads one.
Statements and expressions are tagged records: objects with a `type`, or
arrays that start with it. Everything inside a statement must be plain text
and numbers that fit a double, also what no field names; inside a statement
the tag of an expression may be its place among the tags.

Key definitions: `Expr.toJson`, `Expr.ofJson?`, `Statement.toJson`,
`Statement.ofJson?`, `Instruction.toJson`, `Instruction.ofJson?`.
-/
import Lockstep.Json.Decode
import Lockstep.Json.Printer
import Lockstep.Json.Reader
import Lockstep.Program

namespace Lockstep

namespace Json

/-- The tag of a tagged record and the record without it. -/
def untag? : Json → Option (Json × Json)
  | array (tag :: rest) => some (tag, array rest)
  | object members =>
    match single? members "type" with
    | some (some tag) => some (tag, object (members.filter (·.1 ≠ some "type")))
    | _ => none
  | _ => none

/-- A name inside a statement, where the value under it may also be an empty object. -/
def plainName? : Json → Option String
  | string s => s
  | object [(k, null)] => k
  | object [(k, object [])] => k
  | _ => none

/-- A tag that is a string or a place in the list of tags. -/
def tagAt? (tags : List String) : Json → Option String
  | string s => s
  | number n => n.nat?.bind (tags[·]?)
  | _ => none

end Json

/-! ### Expressions -/

namespace Expr

def tags : List String :=
  ["const", "reg", "mem", "binop", "not", "extract", "concat", "eqz", "ite", "undefined"]

/-- The document of an expression. -/
def toJson : Expr → Json
  | const value size =>
    .record [("type", .text "const"), ("value", .nat value), ("size", .nat size)]
  | register name => .record [("type", .text "reg"), ("name", .text name)]
  | memory size address =>
    .record [("type", .text "mem"), ("size", .nat size), ("addr", toJson address)]
  | binary op a b =>
    .record [("type", .text "binop"), ("op", .text op.name), ("a", toJson a), ("b", toJson b)]
  | invert a => .record [("type", .text "not"), ("a", toJson a)]
  | slice a lo hi =>
    .record [("type", .text "extract"), ("a", toJson a), ("lo", .nat lo), ("hi", .nat hi)]
  | concat lo hi => .record [("type", .text "concat"), ("lo", toJson lo), ("hi", toJson hi)]
  | isZero a => .record [("type", .text "eqz"), ("a", toJson a)]
  | ite cond t f =>
    .record [("type", .text "ite"), ("cond", toJson cond), ("t", toJson t), ("f", toJson f)]
  | undefined size => .record [("type", .text "undefined"), ("size", .nat size)]

/-- The expression of a plain document. -/
def ofJson? : Nat → Json → Option Expr
  | 0, _ => none
  | room + 1, v => do
    let (tag, body) ← v.untag?
    match ← Json.tagAt? tags tag with
    | "const" =>
      let [some value, some size] ← body.fields? (room + 1) ["value", "size"] | none
      return const (← value.nat32?) (← size.nat8?)
    | "reg" =>
      let [some name] ← body.fields? (room + 1) ["name"] | none
      return register (← name.text?)
    | "mem" =>
      let [some size, some address] ← body.fields? (room + 1) ["size", "addr"] | none
      return memory (← size.nat8?) (← ofJson? room address)
    | "binop" =>
      let [some op, some a, some b] ← body.fields? (room + 1) ["op", "a", "b"] | none
      return binary (← BinaryOp.ofName? (← op.plainName?)) (← ofJson? room a) (← ofJson? room b)
    | "not" =>
      let [some a] ← body.fields? (room + 1) ["a"] | none
      return invert (← ofJson? room a)
    | "extract" =>
      let [some a, some lo, some hi] ← body.fields? (room + 1) ["a", "lo", "hi"] | none
      return slice (← ofJson? room a) (← lo.nat8?) (← hi.nat8?)
    | "concat" =>
      let [some lo, some hi] ← body.fields? (room + 1) ["lo", "hi"] | none
      return concat (← ofJson? room lo) (← ofJson? room hi)
    | "eqz" =>
      let [some a] ← body.fields? (room + 1) ["a"] | none
      return isZero (← ofJson? room a)
    | "ite" =>
      let [some cond, some t, some f] ← body.fields? (room + 1) ["cond", "t", "f"] | none
      return ite (← ofJson? room cond) (← ofJson? room t) (← ofJson? room f)
    | "undefined" =>
      let [some size] ← body.fields? (room + 1) ["size"] | none
      return undefined (← size.nat8?)
    | _ => none

end Expr

/-! ### Statements -/

namespace Statement

def toJson : Statement → Json
  | setRegister register value =>
    .record [("type", .text "set_reg"), ("reg", .text register), ("value", value.toJson)]
  | store size address value =>
    .record [("type", .text "store"), ("size", .nat size), ("addr", address.toJson),
      ("value", value.toJson)]
  | jump target => .record [("type", .text "goto"), ("target", target.toJson)]
  | trap vector => .record [("type", .text "trap"), ("vector", .nat vector)]

def ofJson? (room : Nat) (v : Json) : Option Statement := do
  if room < v.depth ∨ v.isPlain = false then none
  else
    let (tag, body) ← v.untag?
    match ← tag.text? with
    | "set_reg" =>
      let [some register, some value] ← body.fields? room ["reg", "value"] | none
      return setRegister (← register.text?) (← Expr.ofJson? room value)
    | "store" =>
      let [some size, some address, some value] ← body.fields? room ["size", "addr", "value"] | none
      return store (← size.nat8?) (← Expr.ofJson? room address) (← Expr.ofJson? room value)
    | "goto" =>
      let [some target] ← body.fields? room ["target"] | none
      return jump (← Expr.ofJson? room target)
    | "trap" =>
      let [some vector] ← body.fields? room ["vector"] | none
      return trap (← vector.nat8?)
    | _ => none

end Statement

/-! ### Instructions -/

/-- The class that a document names; any name is one. -/
def InstructionKind.ofJson? (room : Nat) (v : Json) : Option InstructionKind :=
  (v.name? room).map ofName

namespace Instruction

/-- The document of an instruction. -/
def toJson (i : Instruction) : Json :=
  .record [("address", .nat i.address), ("length", .nat i.length), ("kind", .text i.kind.name),
    ("text", .text i.text), ("semantics", .array (i.statements.map Statement.toJson))]

/-- The instruction of a document; its class and its text may be missing. -/
def ofJson? (room : Nat) (v : Json) : Option Instruction := do
  let [some address, some length, kind, text, some semantics] ←
    v.fields? room ["address", "length", "kind", "text", "semantics"] | none
  return {
    address := ← address.nat32?
    length := ← length.nat8?
    kind := ← Json.withDefault .other (InstructionKind.ofJson? (room - 1)) kind
    text := ← Json.withDefault "" Json.text? text
    statements := ← semantics.list? (room - 1) Statement.ofJson? }

/-- The text of an instruction as JSON. -/
def write (i : Instruction) : String := i.toJson.compact

/-- The instruction of a JSON text. -/
def read? (s : String) : Option Instruction := (Json.read? s).bind (ofJson? Json.maxDepth)

end Instruction

end Lockstep
