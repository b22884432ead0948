/-
# Bytes of words

A word that is loaded is gathered from the bytes at its addresses, the low
byte first, and its bytes are its slices. A byte on the bus, or under staged
stores, is that of the newest write at its address.

Key definitions: `Word.gather`, `newest`.
Key theorems: `Word.gather_succ`, `Word.ofBytes_range`, `byteAddress_inj`,
`Bus.getByte_setBytes`, `Machine.load_eq_gather`, `Machine.load_lt`.
-/
import Mathlib.Data.Nat.ModEq
import Lockstep.Machine
import Lockstep.Proofs.Word

namespace Lockstep

/-! ### Words out of bytes -/

namespace Word

/-- The word of the first `n` bytes that `f` gives, the low byte first. -/
def gather (f : Nat → Nat) : Nat → Nat
  | 0 => 0
  | n + 1 => gather f n + weight (8 * n) * f n

variable {f g : Nat → Nat} {n : Nat}

theorem gather_congr (h : ∀ i, i < n → f i = g i) : gather f n = gather g n := by
  induction n with
  | zero => rfl
  | succ n ih =>
    rw [gather, gather, h n (Nat.lt_succ_self n), ih fun i hi => h i (Nat.lt_succ_of_lt hi)]

theorem gather_lt (h : ∀ i, i < n → f i < count 8) : gather f n < weight (8 * n) := by
  induction n with
  | zero => exact weight_pos 0
  | succ n ih =>
    have hlow := ih fun i hi => h i (Nat.lt_succ_of_lt hi)
    have hhigh : f n + 1 ≤ weight 8 := h n (Nat.lt_succ_self n)
    calc gather f n + weight (8 * n) * f n
        < weight (8 * n) + weight (8 * n) * f n := Nat.add_lt_add_right hlow _
      _ = weight (8 * n) * (f n + 1) := by rw [Nat.mul_add, Nat.mul_one, Nat.add_comm]
      _ ≤ weight (8 * n) * weight 8 := Nat.mul_le_mul_left _ hhigh
      _ = weight (8 * (n + 1)) := by rw [← weight_add, Nat.mul_add, Nat.mul_one]

theorem gather_succ (h : ∀ i, i < n + 1 → f i < count 8) (hmax : 8 * n ≤ maxBits) :
    gather f (n + 1) = concat (gather f n) (8 * n) (f n) 8 := by
  have hlow : gather f n < count (8 * n) := by
    rw [count_of_le hmax]
    exact gather_lt fun i hi => h i (Nat.lt_succ_of_lt hi)
  rw [concat, truncate_of_lt hlow, truncate_of_lt (h n (Nat.lt_succ_self n)), gather,
    Nat.add_comm, Nat.mul_comm]

theorem ofBytes_append (xs : List UInt8) (b : UInt8) :
    ofBytes (xs ++ [b]) = ofBytes xs + weight (8 * xs.length) * b.toNat := by
  induction xs with
  | nil => simp [ofBytes, weight]
  | cons x xs ih =>
    have hweight : weight (8 * (xs.length + 1)) = weight 8 * weight (8 * xs.length) := by
      rw [← weight_add, Nat.mul_add, Nat.mul_one, Nat.add_comm]
    rw [List.cons_append, ofBytes, ofBytes, ih, List.length_cons, hweight, Nat.mul_add,
      Nat.mul_assoc, Nat.add_assoc]

theorem ofBytes_range (b : Nat → UInt8) (n : Nat) :
    ofBytes ((List.range n).map b) = gather (fun i => (b i).toNat) n := by
  induction n with
  | zero => rfl
  | succ n ih =>
    rw [List.range_succ, List.map_append, List.map_singleton, ofBytes_append, ih, gather,
      List.length_map, List.length_range]

theorem toNat_byte (n i : Nat) : (byte n i).toNat = slice n (8 * i) (8 * i + 8) := by
  rw [byte, UInt8.toNat_ofNat', slice, Nat.add_sub_cancel_left]
  rfl

theorem byte_truncate {w i : Nat} (hw : w ≤ maxBits) (h : 8 * i + 8 ≤ w) (n : Nat) :
    byte (truncate w n) i = byte n i := by
  refine UInt8.toNat_inj.1 ?_
  rw [toNat_byte, toNat_byte, slice_truncate hw h]

end Word

theorem UInt8.toNat_lt_count (b : UInt8) : b.toNat < Word.count 8 := b.toNat_lt

/-! ### Wrapping addresses -/

theorem byteAddress_lt (n i : Nat) : byteAddress n i < Word.count addressBits :=
  Word.truncate_lt _ _

theorem byteAddress_byteAddress (k m n : Nat) :
    byteAddress k (byteAddress m n) = byteAddress (byteAddress k m) n := by
  simp only [byteAddress, Word.truncate, Nat.add_mod_mod, Nat.mod_add_mod, Nat.add_assoc]

/-- Different offsets from one address are at different addresses. -/
theorem byteAddress_inj {k m n : Nat} (hm : m < Word.count addressBits)
    (hn : n < Word.count addressBits) (h : byteAddress k m = byteAddress k n) : m = n := by
  have hmod : m ≡ n [MOD Word.count addressBits] := Nat.ModEq.add_left_cancel' k h
  rwa [Nat.ModEq, Nat.mod_eq_of_lt hm, Nat.mod_eq_of_lt hn] at hmod

namespace Bus

/-- The bytes of a word at an address are at the offsets of the bytes of one at an offset. -/
theorem writes_byteAddress (k m count n : Nat) :
    writes (byteAddress k m) count n =
      (writes m count n).map fun w => (byteAddress k w.1, w.2) := by
  unfold writes
  rw [List.map_map]
  refine List.map_congr_left fun i _ => ?_
  simp only [Function.comp_apply, byteAddress_byteAddress]

theorem writes_truncate {bits : Nat} (hle : bits ≤ maxBits) (address n : Nat) :
    writes address (bits / 8) (Word.truncate bits n) = writes address (bits / 8) n := by
  unfold writes
  refine List.map_congr_left fun i hi => ?_
  have hi := List.mem_range.1 hi
  rw [Word.byte_truncate hle (by omega)]

theorem lt_of_mem_writes {address count n : Nat} {w : Nat × UInt8}
    (h : w ∈ writes address count n) : w.1 < Word.count addressBits := by
  obtain ⟨i, -, rfl⟩ := List.mem_map.1 h
  exact byteAddress_lt _ _

end Bus

/-! ### The newest write -/

/-- The byte of the first write at an address, and otherwise the given one. -/
def newest (writes : List (Nat × UInt8)) (a : Nat) (otherwise : UInt8) : UInt8 :=
  match writes.find? (·.1 = a) with
  | some (_, byte) => byte
  | none => otherwise

theorem newest_cons (w : Nat × UInt8) (ws : List (Nat × UInt8)) (a : Nat) (b : UInt8) :
    newest (w :: ws) a b = if w.1 = a then w.2 else newest ws a b := by
  unfold newest
  rw [List.find?_cons]
  by_cases h : w.1 = a
  · simp [h]
  · simp [h]

theorem newest_append (ws vs : List (Nat × UInt8)) (a : Nat) (b : UInt8) :
    newest (ws ++ vs) a b = newest ws a (newest vs a b) := by
  induction ws with
  | nil => rfl
  | cons w ws ih => rw [List.cons_append, newest_cons, newest_cons, ih]

theorem newest_of_forall_ne {ws : List (Nat × UInt8)} {a : Nat} (h : ∀ w ∈ ws, w.1 ≠ a)
    (b : UInt8) : newest ws a b = b := by
  induction ws with
  | nil => rfl
  | cons w ws ih =>
    obtain ⟨hw, hws⟩ := List.forall_mem_cons.1 h
    rw [newest_cons, if_neg hw]
    exact ih hws

/-- Where there is a write at an address, what was there before does not count. -/
theorem newest_of_mem {ws : List (Nat × UInt8)} {a : Nat} (h : ∃ w ∈ ws, w.1 = a) (b c : UInt8) :
    newest ws a b = newest ws a c := by
  induction ws with
  | nil => simp at h
  | cons w ws ih =>
    rw [newest_cons, newest_cons]
    by_cases hw : w.1 = a
    · rw [if_pos hw, if_pos hw]
    · rw [if_neg hw, if_neg hw]
      exact ih (by simpa [hw] using h)

/-- Where addresses are moved and none meets another, the newest byte moves along. -/
theorem newest_map {f : Nat → Nat} {ws : List (Nat × UInt8)} {a : Nat}
    (h : ∀ w ∈ ws, f w.1 = f a → w.1 = a) (b : UInt8) :
    newest (ws.map fun w => (f w.1, w.2)) (f a) b = newest ws a b := by
  induction ws with
  | nil => rfl
  | cons w ws ih =>
    obtain ⟨hw, hws⟩ := List.forall_mem_cons.1 h
    rw [List.map_cons, newest_cons, newest_cons, ih hws]
    by_cases heq : w.1 = a
    · rw [if_pos heq, if_pos (congrArg f heq)]
    · rw [if_neg heq, if_neg fun hf => heq (hw hf)]

namespace Bus

theorem setBytes_append (b : Bus) (ws vs : List (Nat × UInt8)) :
    b.setBytes (ws ++ vs) = (b.setBytes ws).setBytes vs := List.foldl_append

/-- After writes in order, the last first, the bus has the newest byte at an address. -/
theorem getByte_setBytes (b : Bus) (ws : List (Nat × UInt8)) (a : Nat) :
    (b.setBytes ws.reverse).getByte a = newest ws a (b.getByte a) := by
  induction ws with
  | nil => rfl
  | cons w ws ih =>
    have hlast (c : Bus) : c.setBytes [w] = c.setByte w.1 w.2 := rfl
    rw [List.reverse_cons, setBytes_append, hlast, getByte_setByte, newest_cons, ih]

/-- Writes at other addresses leave the byte at an address. -/
theorem getByte_setBytes_of_ne (b : Bus) {ws : List (Nat × UInt8)} {a : Nat}
    (h : ∀ w ∈ ws, w.1 ≠ a) : (b.setBytes ws).getByte a = b.getByte a := by
  rw [← List.reverse_reverse ws, getByte_setBytes]
  exact newest_of_forall_ne (fun w hw => h w (List.mem_reverse.1 hw)) _

theorem getByte_setBytes_of_mem (b c : Bus) {ws : List (Nat × UInt8)} {a : Nat}
    (h : ∃ w ∈ ws, w.1 = a) : (b.setBytes ws).getByte a = (c.setBytes ws).getByte a := by
  rw [← List.reverse_reverse ws, getByte_setBytes, getByte_setBytes]
  obtain ⟨w, hw, ha⟩ := h
  exact newest_of_mem ⟨w, List.mem_reverse.2 hw, ha⟩ _ _

end Bus

namespace Machine

variable {σ : Type}

theorem getByte_eq (m : Machine σ) (a : Nat) :
    m.getByte a = newest (m.staged.getD []) a (m.bus.getByte a) := rfl

theorem load_eq_gather (m : Machine σ) (address bits : Nat) :
    m.load address bits =
      Word.gather (fun i => (m.getByte (byteAddress address i)).toNat) (bits / 8) :=
  Word.ofBytes_range _ _

theorem load_lt (m : Machine σ) (address : Nat) {bits : Nat} (h8 : 8 * (bits / 8) = bits)
    (hle : bits ≤ maxBits) : m.load address bits < Word.count bits := by
  have hlt := Word.gather_lt (f := fun i => (m.getByte (byteAddress address i)).toNat)
    (n := bits / 8) fun i _ => UInt8.toNat_lt_count _
  rw [load_eq_gather, Word.count_of_le hle]
  rwa [h8] at hlt

end Machine
end Lockstep
