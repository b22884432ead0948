/-
# The range of a byte that is read

The range of a byte is the hull around the base and the candidates. The distance
of the bounds of a hull must fit into 64 bits, and it does if no lower bound is
far below zero and no upper bound far above. What bounds are in order or not
does not matter.

Key definitions: `Interval.Hullable`, `Cell.Hullable`.
Key theorems: `Interval.Checked.hull_of_hullable`, `MemoryLog.checkedMerge_eq`,
`MemoryLog.readFits_of_hullable`.
-/
import Lockstep.Overflow
import Lockstep.Proofs.Memory.Walk
import Lockstep.Proofs.Value.Checked

namespace Lockstep
namespace Interval

variable {w : Nat} {i j : Interval}

/-- Are the bounds of 64 bits, the lower one not far below zero and the upper one not far above? -/
structure Hullable (i : Interval) : Prop where
  lo : -2 ^ 62 ≤ i.lo ∧ i.lo < 2 ^ 63
  hi : -2 ^ 63 ≤ i.hi ∧ i.hi < 2 ^ 62

theorem Near.hullable (h : i.Near) : i.Hullable := by
  obtain ⟨hle, hlow, hhigh⟩ := h
  exact ⟨by omega, by omega⟩

theorem computed_long {α : Type} {x : Int} (h1 : -2 ^ 63 ≤ x) (h2 : x < 2 ^ 63)
    (f : Int → Option α) : (computed long x >>= f) = f x := by
  have h : long x = true := by
    simp only [long, Bool.and_eq_true, decide_eq_true_eq]
    omega
  rw [computed, if_pos h]
  rfl

theorem Checked.hull_of_hullable (hw : w ≤ maxBits) (hi : i.Hullable) (hj : j.Hullable) :
    Checked.hull long i w j = some (i.hull w j) := by
  obtain ⟨hilo, hihi⟩ := hi
  obtain ⟨hjlo, hjhi⟩ := hj
  unfold Checked.hull
  rw [computed_long (by omega) (by omega), computed_long (by omega) (by omega),
    Checked.make_eq roomy_long hw (by omega) (by omega)]
  rfl

/-- A slice gives such bounds of any bounds of 64 bits: where it keeps them they are words, though
they may be out of order. -/
theorem hullable_slice {lo hi : Nat} (hw : hi - lo ≤ maxBits) (hlow : i.lo < 2 ^ 63)
    (hhigh : -2 ^ 63 ≤ i.hi) : (slice w i lo hi).Hullable := by
  have hmax := maxWord_eq hw
  have hmod := modulus_le hw
  unfold slice
  split
  · exact (near_exact hw _).hullable
  by_cases hcan : i.isCanonical w = true
  · have hpos : 0 ≤ i.lo := of_decide_eq_true (Bool.and_eq_true_iff.1 hcan).1
    rw [if_pos hcan]
    split
    · exact ⟨⟨by omega, hlow⟩, hhigh, by omega⟩
    · split
      · exact ((normal_make hw _ _).near hw).hullable
      · exact (near_top hw).hullable
  · rw [if_neg hcan]
    exact (near_top hw).hullable

end Interval

/-- Is a hull with the range of the cell, if it has one, sure to fit? -/
def Cell.Hullable (c : Cell) : Prop := ∀ i, c.value.interval = some i → i.Hullable

theorem Cell.Hullable.interval? {c : Cell} (h : c.Hullable) (hle : c.value.bits ≤ maxBits)
    {i : Interval} (hi : c.value.interval? = some i) : i.Hullable := by
  unfold Value.interval? at hi
  cases hrange : c.value.interval with
  | some j =>
    rw [hrange] at hi
    obtain rfl := Option.some.inj hi
    exact h _ hrange
  | none =>
    rw [hrange, Option.none_or] at hi
    obtain ⟨n, -, rfl⟩ := Option.map_eq_some_iff.1 hi
    exact (Interval.near_exact hle n).hullable

namespace MemoryLog

theorem checkedHull_eq {i? j? : Option Interval} (hi : ∀ i, i? = some i → i.Hullable)
    (hj : ∀ j, j? = some j → j.Hullable) : checkedHull i? j? = some (hullByte i? j?) := by
  cases i? with
  | none => rfl
  | some i =>
    cases j? with
    | none => rfl
    | some j =>
      have hhull := Interval.Checked.hull_of_hullable (w := 8) (by decide) (hi i rfl) (hj j rfl)
      show some <$> Interval.Checked.hull Interval.long i 8 j = _
      rw [hhull]
      rfl

theorem near_hullByte (i? j? : Option Interval) {k : Interval} (h : hullByte i? j? = some k) :
    k.Near := by
  unfold hullByte at h
  split at h
  · obtain rfl := Option.some.inj h
    exact Interval.near_hull (by decide) _ _
  · obtain rfl := Option.some.inj h
    exact Interval.near_top (by decide)

theorem near_mergeInterval {base : Cell} (hbase : ∀ i, base.value.interval? = some i → i.Near)
    (candidates : List Cell) {k : Interval} (h : mergeInterval base candidates = some k) :
    k.Near := by
  unfold mergeInterval at h
  generalize base.value.interval? = range at h hbase
  induction candidates generalizing range with
  | nil => exact hbase k h
  | cons c cs ih => exact ih _ h fun _ => near_hullByte _ _

/-- **The range around the base and every candidate** is computed in 64 bits. By induction on the
candidates: what one hull gives is near zero. -/
theorem checkedMerge_eq {base : Cell} {candidates : List Cell}
    (hbase : ∀ i, base.value.interval? = some i → i.Hullable)
    (hcs : ∀ c ∈ candidates, ∀ i, c.value.interval? = some i → i.Hullable) :
    checkedMerge base candidates = some (mergeInterval base candidates) := by
  unfold checkedMerge mergeInterval
  generalize base.value.interval? = range at hbase
  induction candidates generalizing range with
  | nil => rfl
  | cons c cs ih =>
    obtain ⟨hc, hcs⟩ := List.forall_mem_cons.1 hcs
    rw [List.foldlM_cons, List.foldl_cons, checkedHull_eq hbase hc]
    exact ih hcs (hullByte range c.value.interval?) fun _ hk => (near_hullByte _ _ hk).hullable

variable {σ : Type} [Solver σ]

/-- **A read of a byte fits** in a log of bytes whose hulls do. -/
theorem readFits_of_hullable {log : MemoryLog} (hbits : ∀ c ∈ log.cells, c.value.bits ≤ maxBits)
    (hlog : ∀ c ∈ log.cells, c.Hullable) (address : Term) (prune : Bool) (s : Symbolic σ) :
    log.readFits address prune s = true := by
  unfold readFits
  split
  · rfl
  obtain ⟨hmem, hmemBase⟩ := mem_scan address prune log.cells s
  have hrange : ∀ c ∈ log.cells, ∀ i, c.value.interval? = some i → i.Hullable :=
    fun c hc _ hi => (hlog c hc).interval? (hbits c hc) hi
  split
  · rename_i candidates base hscan
    rw [hscan] at hmem hmemBase
    rw [checkedMerge_eq (hrange base (hmemBase base rfl)) fun c hc => hrange c (hmem c hc)]
    rfl
  · rfl

end MemoryLog
end Lockstep
