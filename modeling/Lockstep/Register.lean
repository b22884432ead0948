/-
# Registers

The registers are eight general ones, the address of the next instruction,
six segment registers and seven one-bit flags.

Key definitions: `Register`, `Register.name`, `Register.bits`, `Register.all`,
`Register.ofName?`.
-/

namespace Lockstep

/-- A register of the machine. -/
inductive Register where
  | eax | ecx | edx | ebx | esp | ebp | esi | edi
  | eip
  | es | cs | ss | ds | fs | gs
  | cf | pf | af | zf | sf | df | of
  deriving DecidableEq, Repr

namespace Register

/-- Every register, in dictionary order. -/
def all : List Register :=
  [eax, ecx, edx, ebx, esp, ebp, esi, edi, eip, es, cs, ss, ds, fs, gs, cf, pf, af, zf, sf, df, of]

/-- The written name of a register. -/
def name : Register → String
  | eax => "eax" | ecx => "ecx" | edx => "edx" | ebx => "ebx"
  | esp => "esp" | ebp => "ebp" | esi => "esi" | edi => "edi"
  | eip => "eip"
  | es => "es" | cs => "cs" | ss => "ss" | ds => "ds" | fs => "fs" | gs => "gs"
  | cf => "cf" | pf => "pf" | af => "af" | zf => "zf" | sf => "sf" | df => "df" | of => "of"

def bits : Register → Nat
  | es | cs | ss | ds | fs | gs => 16
  | cf | pf | af | zf | sf | df | of => 1
  | _ => 32

/-- The register of a written name. -/
def ofName? (s : String) : Option Register := all.find? (·.name = s)

/-- The place of a register in dictionary order. -/
def index : Register → Fin 22
  | eax => 0 | ecx => 1 | edx => 2 | ebx => 3 | esp => 4 | ebp => 5 | esi => 6 | edi => 7
  | eip => 8
  | es => 9 | cs => 10 | ss => 11 | ds => 12 | fs => 13 | gs => 14
  | cf => 15 | pf => 16 | af => 17 | zf => 18 | sf => 19 | df => 20 | of => 21

theorem mem_all (r : Register) : r ∈ all := by cases r <;> decide

def ofIndex (i : Fin 22) : Register := all.get ⟨i, i.isLt⟩

@[simp] theorem ofIndex_index (r : Register) : ofIndex r.index = r := by cases r <;> rfl

@[simp] theorem index_ofIndex (i : Fin 22) : (ofIndex i).index = i := by
  revert i
  decide

theorem index_inj {r s : Register} (h : r.index = s.index) : r = s := by
  rw [← ofIndex_index r, h, ofIndex_index]

theorem ofName?_name (r : Register) : ofName? r.name = some r := by cases r <;> decide

end Register

end Lockstep
