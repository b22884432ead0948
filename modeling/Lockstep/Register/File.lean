/-
# The register file

Every register has one slot, which holds a value of the width of the register.

Key definitions: `RegisterFile`, `RegisterFile.get`, `RegisterFile.set`,
`RegisterFile.replace`, `RegisterFile.ofVariables`.
Key theorems: `RegisterFile.get_set`, `RegisterFile.ext_get`, `RegisterFile.get_ofFn`.
-/
import Lockstep.Fault

namespace Lockstep

/-- The register of a name; any other name is refused. -/
def Register.named (name : String) : Except Fault Register :=
  match ofName? name with
  | some r => pure r
  | none => throw (.unknownRegister name)

/-- The slots, in dictionary order. -/
structure RegisterFile where
  slots : Vector Value 22

namespace RegisterFile

def get (f : RegisterFile) (r : Register) : Value := f.slots[r.index]

/-- The file with the slot of one register replaced. -/
def set (f : RegisterFile) (r : Register) (v : Value) : RegisterFile :=
  ⟨f.slots.set r.index v⟩

/-- The file with the given value in each register. -/
def ofFn (f : Register → Value) : RegisterFile :=
  ⟨Vector.ofFn fun i => f (.ofIndex i)⟩

/-- The registers with their values, in dictionary order. -/
def toList (f : RegisterFile) : List (Register × Value) := Register.all.map fun r => (r, f.get r)

/-- Every register as a new variable, numbered from `first`, that is zero now. -/
def ofVariables (first : Nat) : RegisterFile :=
  ofFn fun r => .seeded 0 (.var r.bits (first + r.index))

/-- The old value of the named register and the file with a new one, which
must have the width of the register. -/
def replace (f : RegisterFile) (name : String) (v : Value) :
    Except Fault (Value × RegisterFile) := do
  let r ← Register.named name
  if v.bits = r.bits then pure (f.get r, f.set r v) else throw (.registerWidth v.bits r)

/-! ### Slots -/

theorem get_set (f : RegisterFile) (r s : Register) (v : Value) :
    (f.set r v).get s = if s = r then v else f.get s := by
  by_cases h : s = r
  · subst h
    simp [get, set]
  · have : r.index.val ≠ s.index.val := fun e => h (Register.index_inj (Fin.ext e)).symm
    simp [get, set, h, this]

theorem ext_get {f g : RegisterFile} (h : ∀ r, f.get r = g.get r) : f = g := by
  obtain ⟨f⟩ := f
  obtain ⟨g⟩ := g
  congr 1
  ext i hi : 1
  simpa [get] using h (.ofIndex ⟨i, hi⟩)

theorem get_ofFn (f : Register → Value) (r : Register) : (ofFn f).get r = f r := by
  simp [get, ofFn]

end RegisterFile

end Lockstep
