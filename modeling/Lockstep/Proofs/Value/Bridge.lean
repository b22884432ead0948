/-
# Bridging keeps the number

A part that is taken over from another domain, from an update, or from a proof
that the term is zero tells of the number that the other parts tell of. A
bridge adds or replaces parts only: the width stays, and a well-formed value
stays well formed.

Key definitions: `Value.Ensured`, `Value.canEnsure`.
Key theorems: `Value.About.takeParts`, `Value.ensure_cases`, `Value.refineZero_spec`,
`Value.refineZero_about`.
-/
import Lockstep.Proofs.Solver.Right
import Lockstep.Proofs.Value.Meaning

namespace Lockstep
namespace Value

variable {V : Widths} {ρ : Assignment} {u v : Value} {n : Nat}

/-- Parts of two values of one width that tell of the same number still do so together. -/
theorem About.takeParts (hv : v.About ρ n) (hu : u.About ρ n) (h : u.bits = v.bits)
    (s : DomainSet) : (v.takeParts u s).About ρ n := by
  refine ⟨fun m hm => ?_, fun i hi => ?_, fun t ht => ?_⟩
  · simp only [Value.takeParts] at hm
    split at hm
    · exact hu.concrete m hm
    · exact hv.concrete m hm
  · simp only [Value.takeParts] at hi
    split at hi
    · exact h ▸ hu.interval i hi
    · exact hv.interval i hi
  · simp only [Value.takeParts] at ht
    split at ht
    · exact hu.symbolic t ht
    · exact hv.symbolic t ht

/-! ### Ensured parts -/

/-- A value with a part for the domain, taken over if it has none. -/
structure Ensured (V : Widths) (v u : Value) : Prop where
  bits : u.bits = v.bits
  wellFormed : u.WellFormed V
  about : ∀ ρ n, v.About ρ n → u.About ρ n

theorem ensured_refl (hv : v.WellFormed V) : Ensured V v v := ⟨rfl, hv, fun _ _ h => h⟩

theorem ensured_concrete (hv : v.WellFormed V) (hk : v.known? = some n) :
    Ensured V v (v.setConcrete n) := by
  refine ⟨rfl, wellFormed_setConcrete hv n, fun ρ m h => ⟨?_, h.interval, h.symbolic⟩⟩
  rintro _ ⟨⟩
  rw [h.known? hv.le hk, Word.truncate_of_lt (h.lt_of_known? hv hk)]

theorem ensured_interval (hv : v.WellFormed V) {i : Interval} (hi : v.interval? = some i) :
    Ensured V v { v with interval := some i } := by
  refine ⟨rfl, ⟨hv.pos, hv.le, hv.concrete, hv.symbolic⟩, fun ρ m h =>
    ⟨h.concrete, ?_, h.symbolic⟩⟩
  rintro _ ⟨⟩
  exact h.interval? hv.le (fun _ hk => h.lt_of_known? hv hk) hi

theorem ensured_symbolic (hv : v.WellFormed V) {t : Term} (ht : v.symbolic? = some t) :
    Ensured V v { v with symbolic := some t } := by
  refine ⟨rfl, ⟨hv.pos, hv.le, hv.concrete, ?_⟩, fun ρ m h => ⟨h.concrete, h.interval, ?_⟩⟩
  · rintro _ ⟨⟩
    exact hv.symbolic? ht
  · rintro _ ⟨⟩
    exact h.symbolic? hv.le (fun _ hk => h.lt_of_known? hv hk) ht

theorem isSome_interval? (v : Value) :
    v.interval?.isSome = (v.isValid .interval || v.known?.isSome) := by
  simp only [Value.interval?, Option.isSome_or, Option.isSome_map, isValid]

theorem isSome_symbolic? (v : Value) :
    v.symbolic?.isSome = (v.isValid .symbolic || v.known?.isSome) := by
  simp only [Value.symbolic?, Option.isSome_or, Option.isSome_map, isValid]

/-- Does the value have a part for the domain, or is its number known? -/
def canEnsure (v : Value) (d : Domain) : Bool := v.isValid d || v.known?.isSome

/-- **A part is ensured** if its domain is active and the part is there or the number is
known, and otherwise it is refused. -/
theorem ensure_cases (hv : v.WellFormed V) (active : DomainSet) (d : Domain) :
    (active.contains d = true ∧ v.canEnsure d = true ∧
      ∃ u, v.ensure active d = .ok u ∧ Ensured V v u) ∨
    (¬ (active.contains d = true ∧ v.canEnsure d = true) ∧
      ∃ f, v.ensure active d = .error f) := by
  unfold ensure canEnsure
  cases active.contains d with
  | false => exact .inr ⟨fun h => Bool.false_ne_true h.1, _, rfl⟩
  | true =>
    rw [Bool.not_true, if_neg Bool.false_ne_true]
    cases hvalid : v.isValid d with
    | true => exact .inl ⟨rfl, rfl, v, rfl, ensured_refl hv⟩
    | false =>
      rw [if_neg Bool.false_ne_true, Bool.false_or]
      cases d with
      | concrete =>
        cases hk : v.known? with
        | some n => exact .inl ⟨rfl, rfl, _, rfl, ensured_concrete hv hk⟩
        | none => exact .inr ⟨fun h => Bool.false_ne_true h.2, _, rfl⟩
      | interval =>
        have hsome := isSome_interval? v
        rw [hvalid, Bool.false_or] at hsome
        rw [← hsome]
        cases hi : v.interval? with
        | some i => exact .inl ⟨rfl, rfl, _, rfl, ensured_interval hv hi⟩
        | none => exact .inr ⟨fun h => Bool.false_ne_true h.2, _, rfl⟩
      | symbolic =>
        have hsome := isSome_symbolic? v
        rw [hvalid, Bool.false_or] at hsome
        rw [← hsome]
        cases ht : v.symbolic? with
        | some t =>
          exact .inl ⟨rfl, rfl, _, setSymbolic_eq (hv.symbolic? ht).2, ensured_symbolic hv ht⟩
        | none => exact .inr ⟨fun h => Bool.false_ne_true h.2, _, rfl⟩

/-! ### Refinement -/

/-- Refining keeps all parts but the range, which becomes zero if the term is proved zero. -/
theorem refineZero_spec {σ : Type} [Solver σ] (v : Value) (active : DomainSet)
    (s : Symbolic σ) :
    (v.refineZero active s).2.nextVariable = s.nextVariable ∧
      ((v.refineZero active s).1 = v ∨
        (v.refineZero active s).1 = { v with interval := some (.exact v.bits 0) } ∧
          ∃ t, v.symbolic = some t ∧ (Symbolic.proveZero t s).1 = .zero) := by
  unfold refineZero
  split
  · cases ht : v.symbolic with
    | none => exact ⟨rfl, .inl rfl⟩
    | some t =>
      have hnext := Symbolic.nextVariable_proveZero t s
      dsimp only
      rw [applyState_bind]
      by_cases hzero : (Symbolic.proveZero t s).1 = .zero
      · rw [if_pos hzero]
        exact ⟨hnext, .inr ⟨rfl, t, rfl, hzero⟩⟩
      · rw [if_neg hzero]
        exact ⟨hnext, .inl rfl⟩
  · exact ⟨rfl, .inl rfl⟩

/-- **A refined value tells of the same number**: its range is pinned to zero only where its
term is zero. -/
theorem refineZero_about {σ : Type} [Solver σ] (hsolver : Solver.ZeroRightOver σ V)
    (hv : v.WellFormed V) (h : v.About ρ n) (active : DomainSet) (s : Symbolic σ) :
    (v.refineZero active s).1.bits = v.bits ∧ (v.refineZero active s).1.WellFormed V ∧
      (v.refineZero active s).1.About ρ n := by
  obtain ⟨-, heq | ⟨heq, t, ht, hzero⟩⟩ := refineZero_spec v active s
  · rw [heq]
    exact ⟨rfl, hv, h⟩
  · have hn : n = 0 := by
      rw [← h.symbolic t ht]
      exact Symbolic.eval_of_proveZero hsolver (hv.symbolic t ht).1 hzero ρ
    rw [heq]
    refine ⟨rfl, ⟨hv.pos, hv.le, hv.concrete, hv.symbolic⟩, h.concrete, ?_, h.symbolic⟩
    rintro _ ⟨⟩
    rw [hn]
    exact Interval.mem_exact_of_lt hv.le (Word.count_pos _)

end Value
end Lockstep
