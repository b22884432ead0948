/-
# Programs

An instruction has an address, a length and a list of statements that say what
it does. Statements change registers and memory; expressions compute values.

Key definitions: `Expr`, `Statement`, `InstructionKind`, `Instruction`.
-/
import Lockstep.Word

namespace Lockstep

/-- What computes a value. Registers go by their names, which need not exist. -/
inductive Expr where
  | const (value size : Nat)
  | register (name : String)
  | memory (size : Nat) (address : Expr)
  | binary (op : BinaryOp) (a b : Expr)
  | invert (a : Expr)
  | slice (a : Expr) (lo hi : Nat)
  | concat (lo hi : Expr)
  | isZero (a : Expr)
  | ite (cond t f : Expr)
  | undefined (size : Nat)
  deriving DecidableEq, Repr

/-- What changes the machine. -/
inductive Statement where
  | setRegister (register : String) (value : Expr)
  | store (size : Nat) (address value : Expr)
  | jump (target : Expr)
  | trap (vector : Nat)
  deriving DecidableEq, Repr

/-- Does the statement set the address of the next instruction? -/
def Statement.isJump : Statement → Bool
  | jump _ => true
  | _ => false

/-- The class of an instruction. -/
inductive InstructionKind where
  | int
  | int3
  | into
  | syscall
  | sysenter
  | other
  deriving DecidableEq, Repr

namespace InstructionKind

def all : List InstructionKind := [int, int3, into, syscall, sysenter, other]

def name : InstructionKind → String
  | int => "int"
  | int3 => "int3"
  | into => "into"
  | syscall => "syscall"
  | sysenter => "sysenter"
  | other => "other"

/-- The class of a written name; a name of no class is `other`. -/
def ofName (s : String) : InstructionKind := (all.find? (·.name = s)).getD other

/-- Does the instruction hand control to a system or a debugger? -/
def isTrap (k : InstructionKind) : Bool := k ≠ other

end InstructionKind

/-- An instruction: its text is for events only. -/
structure Instruction where
  address : Nat
  length : Nat
  kind : InstructionKind := .other
  text : String := ""
  statements : List Statement
  deriving DecidableEq, Repr

/-- Does a statement of the instruction set the address of the next one? -/
def Instruction.jumps (i : Instruction) : Bool := i.statements.any Statement.isJump

end Lockstep
