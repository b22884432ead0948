/-
# The text of a term

Terms are written as bit-vector terms of SMT-LIB, which is what a solver is
sent. A condition or a comparison is a bit there, and is written as a choice
between the two one-bit constants.

Key definitions: `Term.text`, `Term.textWithWidth`.
-/
import Lockstep.Term

namespace Lockstep

/-- The name of an operation in the text of a term. -/
def BinaryOp.symbol : BinaryOp → String
  | add => "bvadd"
  | sub => "bvsub"
  | and => "bvand"
  | or => "bvor"
  | xor => "bvxor"

namespace Term

def constText (width value : Nat) : String :=
  "(_ bv" ++ toString value ++ " " ++ toString width ++ ")"

def variableText (id : Nat) : String := "v" ++ toString id

def text : Term → String
  | const w v => constText w v
  | var _ i => variableText i
  | binary op _ a b => "(" ++ op.symbol ++ " " ++ text a ++ " " ++ text b ++ ")"
  | invert _ a => "(bvnot " ++ text a ++ ")"
  | slice w a lo =>
    "((_ extract " ++ toString (lo + w - 1) ++ " " ++ toString lo ++ ") " ++ text a ++ ")"
  | concat _ lo hi => "(concat " ++ text hi ++ " " ++ text lo ++ ")"
  | ite _ c t f => "(ite (= " ++ text c ++ " (_ bv1 1)) " ++ text t ++ " " ++ text f ++ ")"
  | equal a b => "(ite (= " ++ text a ++ " " ++ text b ++ ") (_ bv1 1) (_ bv0 1))"

/-- The text of a term followed by its width in brackets. -/
def textWithWidth (t : Term) : String := t.text ++ "[" ++ toString t.width ++ "]"

end Term

end Lockstep
