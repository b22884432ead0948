/-
# The parts of a value stay about one number

Operands may lack any of their parts: what an active domain needs is taken over
from another domain, or its part of the result is missing. Whatever parts the
operands have, those of the result tell of the number that the operation on
words gives for the numbers of the operands, and an operation that 64 bits
suffice for is refused for its widths only. Bridging, restricting and overlaying
keep the number.

Key definitions: `Value.Gives`.
Key theorems: `Value.number_gives`, `Value.binary_gives`, `Value.invert_gives`,
`Value.slice_gives`, `Value.concat_gives`, `Value.ite_gives`, `Value.isZero_gives`,
`Value.parts_agree`.
-/
import Lockstep.Proofs.Value.Bridge
import Lockstep.Proofs.Value.Checked

namespace Lockstep
namespace Value

/-- What an operation gives: it succeeds exactly if `fits` holds, and then with a well-formed
value of the given width whose parts tell of `n`. -/
structure Gives (V : Widths) (ρ : Assignment) (result : Except Fault Value) (fits : Prop)
    (bits n : Nat) : Prop where
  succeeds : (∃ v, result = .ok v) ↔ fits
  about : ∀ v, result = .ok v → v.bits = bits ∧ v.WellFormed V ∧ v.About ρ n

section

variable {V : Widths} {ρ : Assignment} {result : Except Fault Value} {fits : Prop} {bits n : Nat}

theorem gives_ok {v : Value} (h : result = .ok v) (hfits : fits) (hbits : v.bits = bits)
    (hv : v.WellFormed V) (hn : v.About ρ n) : Gives V ρ result fits bits n := by
  refine ⟨⟨fun _ => hfits, fun _ => ⟨v, h⟩⟩, fun u hu => ?_⟩
  rw [h] at hu
  cases hu
  exact ⟨hbits, hv, hn⟩

theorem gives_error {f : Fault} (h : result = .error f) (hfits : ¬ fits) :
    Gives V ρ result fits bits n := by
  refine ⟨⟨?_, fun hf => absurd hf hfits⟩, ?_⟩
  · rintro ⟨v, hv⟩
    rw [h] at hv
    cases hv
  · intro v hv
    rw [h] at hv
    cases hv

end

variable {V : Widths} {ρ : Assignment} (active : DomainSet) {a b c : Value} {x y z : Nat}

/-! ### Operations -/

theorem number_gives (bits n : Nat) :
    Gives V ρ (number active bits n) (0 < bits ∧ bits ≤ maxBits) bits (Word.truncate bits n) := by
  by_cases h : 0 < bits ∧ bits ≤ maxBits
  · obtain ⟨v, hv, hshape, hdesc⟩ := number_ok (V := V) active h.1 h.2 n
    exact gives_ok hv h hshape.bits hshape.wellFormed (hdesc ρ).about
  · refine gives_error (f := .width bits) ?_ h
    rw [number, checkWidth, if_pos (by omega)]
    rfl

theorem binary_gives (op : BinaryOp) (ha : a.WellFormed V) (hb : b.WellFormed V)
    (hx : a.About ρ x) (hy : b.About ρ y) :
    Gives V ρ (binary active op a b) (a.bits = b.bits) a.bits (Word.binary op a.bits x y) := by
  by_cases hw : a.bits = b.bits
  · obtain ⟨v, hv, hshape, -⟩ := binary_ok active op ha hb hw
    refine gives_ok hv hw hshape.bits hshape.wellFormed ?_
    unfold binary sameWidth at hv
    rw [if_pos hw] at hv
    exact (lifts_binary op ha hw).about active ha hb hv hx hy
  · exact gives_error (binary_error active op hw) hw

theorem invert_gives (ha : a.WellFormed V) (hx : a.About ρ x) :
    Gives V ρ (invert active a) True a.bits (Word.invert a.bits x) := by
  obtain ⟨v, hv, hshape, -⟩ := invert_ok active ha
  exact gives_ok hv trivial hshape.bits hshape.wellFormed
    ((lifts_invert ha).about active ha hv hx)

theorem slice_gives (lo hi : Nat) (ha : a.WellFormed V) (hx : a.About ρ x) :
    Gives V ρ (a.slice active lo hi) (lo < hi ∧ hi ≤ a.bits) (hi - lo) (Word.slice x lo hi) := by
  by_cases h : lo < hi ∧ hi ≤ a.bits
  · obtain ⟨v, hv, hshape, -⟩ := slice_ok active ha h.1 h.2
    refine gives_ok hv h hshape.bits hshape.wellFormed ?_
    unfold slice at hv
    rw [if_neg (by omega)] at hv
    exact (lifts_slice ha h.1 h.2).about active ha hv hx
  · refine gives_error (f := .sliceRange lo hi a.bits) ?_ h
    unfold slice
    rw [if_pos (by omega)]
    rfl

theorem concat_gives (ha : a.WellFormed V) (hb : b.WellFormed V) (hx : a.About ρ x)
    (hy : b.About ρ y) :
    Gives V ρ (concat active a b) (a.bits + b.bits ≤ maxBits) (a.bits + b.bits)
      (Word.concat x a.bits y b.bits) := by
  by_cases hmax : a.bits + b.bits ≤ maxBits
  · obtain ⟨v, hv, hshape, -⟩ := concat_ok active ha hb hmax
    refine gives_ok hv hmax hshape.bits hshape.wellFormed ?_
    unfold concat at hv
    rw [checkWidth_eq (Nat.add_pos_left ha.pos _) hmax] at hv
    exact (lifts_concat ha hmax).about active ha hb hv hx hy
  · refine gives_error (f := .width (a.bits + b.bits)) ?_ hmax
    rw [concat, checkWidth, if_pos (.inr (by omega))]
    rfl

theorem ite_gives (hc : c.WellFormed V) (ha : a.WellFormed V) (hb : b.WellFormed V)
    (hz : c.About ρ z) (hx : a.About ρ x) (hy : b.About ρ y) :
    Gives V ρ (ite active c a b) (c.bits = 1 ∧ a.bits = b.bits) a.bits
      (Word.ite a.bits z x y) := by
  by_cases hbit : c.bits = 1
  · by_cases hw : a.bits = b.bits
    · obtain ⟨v, hv, hshape, -⟩ := ite_ok active hc ha hb hbit hw
      refine gives_ok hv ⟨hbit, hw⟩ hshape.bits hshape.wellFormed ?_
      unfold ite sameWidth at hv
      rw [if_neg (not_not_intro hbit), if_pos hw] at hv
      exact ite_about active hc ha hb hbit hw hv hz hx hy
    · refine gives_error (f := .operandWidths "ite" a.bits b.bits) ?_ fun h => hw h.2
      unfold ite sameWidth
      rw [if_neg (not_not_intro hbit), if_neg hw]
      rfl
  · refine gives_error (f := .conditionWidth c.bits) ?_ fun h => hbit h.1
    unfold ite
    rw [if_pos hbit]
    rfl

theorem isZero_gives (ha : a.WellFormed V) (hx : a.About ρ x) :
    Gives V ρ (isZero active a) True 1 (Word.isZero a.bits x) := by
  obtain ⟨v, hv, hshape, -⟩ := isZero_ok active ha
  exact gives_ok hv trivial hshape.bits hshape.wellFormed
    ((lifts_isZero ha).about active ha hv hx)

/-! ### Bridges -/

theorem ensure_gives (d : Domain) (ha : a.WellFormed V) (hx : a.About ρ x) :
    Gives V ρ (a.ensure active d) (active.contains d = true ∧ a.canEnsure d = true) a.bits x := by
  obtain ⟨hactive, hcan, u, hu, hens⟩ | ⟨hnot, f, hf⟩ := ensure_cases ha active d
  · exact gives_ok hu ⟨hactive, hcan⟩ hens.bits hens.wellFormed (hens.about ρ x hx)
  · exact gives_error hf hnot

theorem overlay_gives (taken : DomainSet) (ha : a.WellFormed V) (hb : b.WellFormed V)
    (hx : a.About ρ x) (hy : b.About ρ x) :
    Gives V ρ (a.overlay b taken) (b.bits = a.bits) a.bits x := by
  by_cases hw : b.bits = a.bits
  · exact gives_ok (overlay_eq hw taken) hw rfl (wellFormed_takeParts ha hb hw taken)
      (hx.takeParts hy hw taken)
  · refine gives_error (f := .overlayWidth b.bits a.bits) ?_ hw
    rw [overlay, if_neg hw]
    rfl

/-- **The parts of a value stay about one number.** Take operands whose parts, as far as they
have any, tell of `x`, `y` and `z` under an assignment, and any set of active domains. What an
operation returns, if no bound of a range leaves 64 bits, tells of the operation on these numbers,
and of the same number where parts are only taken over, dropped or pinned. Each operation that
returns succeeds exactly where the widths allow it, and a part is ensured exactly where its domain
is active and it can be taken over. A solver has to be right only where it says that a term is
zero. -/
theorem parts_agree {σ : Type} [Solver σ] (hsolver : Solver.ZeroRightOver σ V)
    (ha : a.WellFormed V) (hb : b.WellFormed V) (hc : c.WellFormed V)
    (hx : a.About ρ x) (hy : b.About ρ y) (hz : c.About ρ z) :
    (∀ op r, Checked.binary active op a b = some r →
      Gives V ρ r (a.bits = b.bits) a.bits (Word.binary op a.bits x y)) ∧
    (∀ r, Checked.invert active a = some r → Gives V ρ r True a.bits (Word.invert a.bits x)) ∧
    (∀ lo hi r, Checked.slice active a lo hi = some r →
      Gives V ρ r (lo < hi ∧ hi ≤ a.bits) (hi - lo) (Word.slice x lo hi)) ∧
    (∀ r, Checked.concat active a b = some r →
      Gives V ρ r (a.bits + b.bits ≤ maxBits) (a.bits + b.bits)
        (Word.concat x a.bits y b.bits)) ∧
    (∀ r, Checked.ite active c a b = some r →
      Gives V ρ r (c.bits = 1 ∧ a.bits = b.bits) a.bits (Word.ite a.bits z x y)) ∧
    (∀ r, Checked.isZero active a = some r → Gives V ρ r True 1 (Word.isZero a.bits x)) ∧
    (∀ bits n, Gives V ρ (number active bits n) (0 < bits ∧ bits ≤ maxBits) bits
      (Word.truncate bits n)) ∧
    (∀ d, Gives V ρ (a.ensure active d) (active.contains d = true ∧ a.canEnsure d = true)
      a.bits x) ∧
    (∀ keep, (a.restrict keep).bits = a.bits ∧ (a.restrict keep).WellFormed V ∧
      (a.restrict keep).About ρ x) ∧
    (∀ taken, b.About ρ x → Gives V ρ (a.overlay b taken) (b.bits = a.bits) a.bits x) ∧
    ∀ s : Symbolic σ, (a.refineZero active s).1.bits = a.bits ∧
      (a.refineZero active s).1.WellFormed V ∧ (a.refineZero active s).1.About ρ x := by
  refine ⟨?_, ?_, ?_, ?_, ?_, ?_, ?_, ?_, ?_, ?_, ?_⟩
  · intro op r hr
    rw [Checked.only_binary active ha.le op b r hr]
    exact binary_gives active op ha hb hx hy
  · intro r hr
    rw [Checked.only_invert active a r hr]
    exact invert_gives active ha hx
  · intro lo hi r hr
    rw [Checked.only_slice active ha.le lo hi r hr]
    exact slice_gives active lo hi ha hx
  · intro r hr
    rw [Checked.only_concat active a b r hr]
    exact concat_gives active ha hb hx hy
  · intro r hr
    rw [Checked.only_ite active c a b r hr]
    exact ite_gives active hc ha hb hz hx hy
  · intro r hr
    rw [Checked.only_isZero active ha.le r hr]
    exact isZero_gives active ha hx
  · exact number_gives active
  · exact fun d => ensure_gives active d ha hx
  · exact fun keep => ⟨rfl, wellFormed_restrict ha keep, hx.restrict keep⟩
  · exact fun taken hy => overlay_gives taken ha hb hx hy
  · exact refineZero_about hsolver ha hx active

/-- Three operands with one part each: a byte that is known as the number 7, one that is known
as the range of 249 alone, and a bit that is any variable. In all domains the sum of the first
two is zero: its range and its term are taken over from the known numbers. -/
theorem parts_agree_bridged :
    let a : Value := { bits := 8, concrete := some 7 }
    let b : Value := { bits := 8, interval := some ⟨-7, -7⟩ }
    let c : Value := { bits := 1, symbolic := some (.var 1 0) }
    (a.About (fun _ => 1) 7 ∧ b.About (fun _ => 1) 249 ∧ c.About (fun _ => 1) 1) ∧
      Checked.binary .all .add a b =
        some (.ok { bits := 8, concrete := some 0, interval := some ⟨0, 0⟩,
                    symbolic := some (.const 8 0) }) ∧
      Gives (fun id w => id = 0 ∧ w = 1) (fun _ => 1) (binary .all .add a b) (8 = 8) 8 0 ∧
      Gives (fun id w => id = 0 ∧ w = 1) (fun _ => 1) (ite .all c a b) (1 = 1 ∧ 8 = 8) 8 7 := by
  intro a b c
  have hV : Widths.Functional fun id w => id = 0 ∧ w = 1 := by
    rintro id w w' ⟨-, rfl⟩ ⟨-, rfl⟩
    rfl
  have ha : a.WellFormed fun id w => id = 0 ∧ w = 1 := by
    refine ⟨by decide, by decide, ?_, nofun⟩
    rintro n ⟨⟩
    decide
  have hb : b.WellFormed fun id w => id = 0 ∧ w = 1 := ⟨by decide, by decide, nofun, nofun⟩
  have hc : c.WellFormed fun id w => id = 0 ∧ w = 1 := by
    refine ⟨by decide, by decide, nofun, ?_⟩
    rintro t ⟨⟩
    exact ⟨Term.typed_var.2 ⟨by decide, by decide, rfl, rfl⟩, rfl⟩
  have hx : a.About (fun _ => 1) 7 := by
    refine ⟨?_, nofun, nofun⟩
    rintro m ⟨⟩
    rfl
  have hy : b.About (fun _ => 1) 249 := by
    refine ⟨nofun, ?_, nofun⟩
    rintro i ⟨⟩
    exact ⟨-7, by decide, by decide, by decide⟩
  have hz : c.About (fun _ => 1) 1 := by
    refine ⟨nofun, nofun, ?_⟩
    rintro t ⟨⟩
    rfl
  obtain ⟨hbinary, -, -, -, hite, -⟩ :=
    parts_agree .all (Backend.rightOver hV).zero ha hb hc hx hy hz
  have hsum : Word.binary .add 8 7 249 = 0 := by decide
  have hchoice : Word.ite 8 1 7 249 = 7 := by decide
  have hadd := hbinary .add (binary .all .add a b) (by decide +kernel)
  have hchoose := hite (ite .all c a b) (by decide +kernel)
  exact ⟨⟨hx, hy, hz⟩, by decide +kernel, hsum ▸ hadd, hchoice ▸ hchoose⟩

end Value
end Lockstep
