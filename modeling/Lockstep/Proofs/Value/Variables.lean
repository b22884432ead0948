/-
# The variables of a value

The term of a result of an operation is built of the terms of the operands, or
of constants where these have none. So a result mentions the variables of the
operands only, whatever domains are active and whatever the widths are.

Key definitions: `Value.Over`.
Key theorems: `Value.over_assemble`, `Value.over_binary`, `Value.over_slice`, `Value.over_ite`,
`Value.over_ensure`.
-/
import Lockstep.Proofs.Computation
import Lockstep.Proofs.Term.Variables
import Lockstep.Proofs.Value.Operations

namespace Lockstep
namespace Value

variable {V V' : Widths} {active : DomainSet} {u v a b c : Value} {t : Term}

/-- Does every variable of the term of the value, if it has one, stand at an allowed width? -/
def Over (V : Widths) (v : Value) : Prop := ∀ t, v.symbolic = some t → t.Over V

theorem Over.mono (h : v.Over V) (hV : V.Sub V') : v.Over V' := fun t ht => (h t ht).mono hV

theorem over_of_none (h : v.symbolic = none) : v.Over V := by
  intro t ht
  rw [h] at ht
  cases ht

theorem over_of_some (h : v.symbolic = some t) (ht : t.Over V) : v.Over V := by
  intro s hs
  rw [h] at hs
  cases hs
  exact ht

/-! ### Parts -/

theorem Over.restrict (h : v.Over V) (s : DomainSet) : (v.restrict s).Over V :=
  fun t ht => h t (only_eq_some.1 ht).2

theorem Over.takeParts (hv : v.Over V) (hu : u.Over V) (s : DomainSet) :
    (v.takeParts u s).Over V := by
  intro t ht
  unfold Value.takeParts at ht
  dsimp only at ht
  split at ht
  · exact hu t ht
  · exact hv t ht

theorem Over.symbolic? (h : v.Over V) (ht : v.symbolic? = some t) : t.Over V := by
  simp only [Value.symbolic?, Option.or_eq_some_iff, Option.map_eq_some_iff] at ht
  rcases ht with ht | ⟨-, n, -, rfl⟩
  · exact h t ht
  · exact trivial

theorem over_setSymbolic (ht : t.Over V) (h : v.setSymbolic t = .ok u) : u.Over V := by
  rw [eq_of_setSymbolic h]
  exact over_of_some rfl ht

theorem over_ensure {d : Domain} (hv : v.Over V) (h : v.ensure active d = .ok u) : u.Over V := by
  unfold ensure at h
  split_ifs at h
  · obtain rfl := Except.ok.inj h
    exact hv
  · split at h
    · split at h
      · obtain rfl := Except.ok.inj h
        exact hv
      · cases h
    · split at h
      · obtain rfl := Except.ok.inj h
        exact hv
      · cases h
    · split at h
      · rename_i t ht
        exact over_setSymbolic (hv.symbolic? ht) h
      · cases h

theorem over_ensureTerm (hv : v.Over V) (h : v.ensureTerm active = .ok t) : t.Over V := by
  unfold ensureTerm at h
  split_ifs at h
  split at h
  · rename_i t' ht
    obtain rfl := Except.ok.inj h
    exact hv.symbolic? ht
  · cases h

/-! ### Operations -/

/-- **An assembled value** has the given term, or none. -/
theorem over_assemble {bits : Nat} {known : Option Nat} {range : Option Interval}
    {term : Option Term} (h : assemble active bits known range term = .ok v)
    (ht : ∀ t, term = some t → t.Over V) : v.Over V := by
  rw [eq_of_assemble active h]
  exact fun t hsome => ht t (only_eq_some.1 hsome).2

theorem over_number {bits n : Nat} (h : number active bits n = .ok v) : v.Over V := by
  obtain ⟨_, -, h⟩ := bind_eq_ok h
  refine over_assemble h ?_
  rintro t ⟨⟩
  exact trivial

theorem over_binary {op : BinaryOp} (ha : a.Over V) (hb : b.Over V)
    (h : binary active op a b = .ok v) : v.Over V := by
  obtain ⟨bits, -, h⟩ := bind_eq_ok h
  refine over_assemble h fun t ht => ?_
  obtain ⟨s, u, hs, hu, rfl⟩ := bind₂_eq_some ht
  exact Term.over_mkBinary op bits (ha.symbolic? hs) (hb.symbolic? hu)

theorem over_invert (ha : a.Over V) (h : invert active a = .ok v) : v.Over V := by
  refine over_assemble h fun t ht => ?_
  obtain ⟨s, hs, rfl⟩ := bind_eq_some ht
  exact Term.over_mkInvert _ (ha.symbolic? hs)

theorem over_slice {lo hi : Nat} (ha : a.Over V) (h : slice a active lo hi = .ok v) :
    v.Over V := by
  unfold slice at h
  split at h
  · cases h
  · refine over_assemble h fun t ht => ?_
    obtain ⟨s, hs, rfl⟩ := bind_eq_some ht
    exact Term.over_mkSlice _ _ _ (ha.symbolic? hs)

theorem over_concat (ha : a.Over V) (hb : b.Over V) (h : concat active a b = .ok v) :
    v.Over V := by
  obtain ⟨_, -, h⟩ := bind_eq_ok h
  refine over_assemble h fun t ht => ?_
  obtain ⟨s, hs, ht⟩ := Option.bind_eq_some_iff.1 ht
  obtain ⟨u, hu, rfl⟩ := bind_eq_some ht
  exact Term.over_mkConcat _ _ (ha.symbolic? hs) (hb.symbolic? hu)

theorem over_ite (hc : c.Over V) (ha : a.Over V) (hb : b.Over V)
    (h : ite active c a b = .ok v) : v.Over V := by
  unfold ite at h
  split at h
  · cases h
  · obtain ⟨bits, -, h⟩ := bind_eq_ok h
    refine over_assemble h fun t ht => ?_
    obtain ⟨r, s, u, hr, hs, hu, rfl⟩ := bind₃_eq_some ht
    exact Term.over_mkIte bits (hc.symbolic? hr) (ha.symbolic? hs) (hb.symbolic? hu)

theorem over_isZero (ha : a.Over V) (h : isZero active a = .ok v) : v.Over V := by
  refine over_assemble h fun t ht => ?_
  obtain ⟨s, hs, rfl⟩ := bind_eq_some ht
  exact Term.over_mkEqual (ha.symbolic? hs) trivial

end Value
end Lockstep
