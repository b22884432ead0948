/-
# The number that a value describes

A value describes a word if each part it has does: the number is the word, the
range has it as a member, the term denotes it under the assignment. A value
is well formed if its parts fit its width, and then everything that is taken
over from one domain to another describes the same word.

Key definitions: `Value.WellFormed`, `Value.About`, `Value.Describes`.
Key theorems: `Value.Describes.known?`, `Value.Describes.interval?`,
`Value.WellFormed.symbolic?`, `Value.Describes.symbolic?`, `Value.describes_restrict`,
`Value.restrict_takeParts`, `Value.ensureTerm_ok`.
-/
import Lockstep.Proofs.Interval
import Lockstep.Proofs.Term.Folding
import Lockstep.Value.Bridge

namespace Lockstep
namespace Value

/-! ### Well-formed values -/

/-- The width is one that values have, the number is a word of it, and the
term is typed and has it. Any range will do. -/
structure WellFormed (V : Widths) (v : Value) : Prop where
  pos : 0 < v.bits
  le : v.bits ≤ maxBits
  concrete : ∀ n, v.concrete = some n → n < Word.count v.bits
  symbolic : ∀ t, v.symbolic = some t → t.Typed V ∧ t.width = v.bits

/-- Under an assignment every part of the value that there is tells of `n`: the number is `n`,
the range has it as a member, the term denotes it. A value without parts tells of any number. -/
structure About (ρ : Assignment) (v : Value) (n : Nat) : Prop where
  concrete : ∀ m, v.concrete = some m → m = n
  interval : ∀ i, v.interval = some i → i.Mem v.bits n
  symbolic : ∀ t, v.symbolic = some t → t.eval ρ = n

/-- Under an assignment every part of the value describes the word `n`. -/
structure Describes (ρ : Assignment) (v : Value) (n : Nat) : Prop where
  lt : n < Word.count v.bits
  concrete : ∀ m, v.concrete = some m → m = n
  interval : ∀ i, v.interval = some i → i.Mem v.bits n
  symbolic : ∀ t, v.symbolic = some t → t.eval ρ = n

variable {V V' : Widths} {ρ ρ' : Assignment} {v u : Value} {n m : Nat}

theorem Describes.about (h : v.Describes ρ n) : v.About ρ n := ⟨h.concrete, h.interval, h.symbolic⟩

theorem About.describes (h : v.About ρ n) (hlt : n < Word.count v.bits) : v.Describes ρ n :=
  ⟨hlt, h.concrete, h.interval, h.symbolic⟩

theorem WellFormed.mono (h : v.WellFormed V) (hV : ∀ id w, V id w → V' id w) : v.WellFormed V' :=
  ⟨h.pos, h.le, h.concrete, fun t ht =>
    ⟨(h.symbolic t ht).1.mono fun id w _ => hV id w, (h.symbolic t ht).2⟩⟩

/-- Assignments that agree on the variables of a value make it describe the same words. -/
theorem Describes.congr (h : v.Describes ρ n) (hv : v.WellFormed V)
    (hρ : ∀ id w, V id w → ρ id = ρ' id) : v.Describes ρ' n := by
  refine ⟨h.lt, h.concrete, h.interval, fun t ht => ?_⟩
  rw [← h.symbolic t ht]
  exact Term.eval_congr fun id w hm => (hρ id w ((hv.symbolic t ht).1.vars id w hm)).symm

/-! ### Known numbers -/

theorem known?_of_concrete (h : v.concrete = some n) : v.known? = some n := by
  rw [known?, h, Option.some_or]

theorem known?_cases (h : v.known? = some n) :
    v.concrete = some n ∨ (∃ i, v.interval = some i ∧ i.singleton? v.bits = some n) ∨
      ∃ t, v.symbolic = some t ∧ t.const? = some n := by
  simp only [known?, Option.or_eq_some_iff, Option.bind_eq_some_iff] at h
  rcases h with h | ⟨-, h | ⟨-, h⟩⟩
  · exact .inl h
  · exact .inr (.inl h)
  · exact .inr (.inr h)

/-- Of a value without a known number no part pins a number down. -/
theorem known?_eq_none (h : v.known? = none) :
    v.concrete = none ∧ (∀ i, v.interval = some i → i.singleton? v.bits = none) ∧
      ∀ t, v.symbolic = some t → t.const? = none := by
  simp only [known?, Option.or_eq_none_iff, Option.bind_eq_none_iff] at h
  exact ⟨h.1, h.2.1, h.2.2⟩

/-- The known number of a value is the one that its parts tell of. -/
theorem About.known? (h : v.About ρ n) (hle : v.bits ≤ maxBits) (hm : v.known? = some m) :
    m = n := by
  rcases known?_cases hm with hc | ⟨i, hi, hs⟩ | ⟨t, ht, hc⟩
  · exact h.concrete m hc
  · exact Interval.singleton?_eq hle (h.interval i hi) hs
  · rw [← h.symbolic t ht, Term.eval_of_const? hc]

/-- A number that is known of a well-formed value is a word of its width. -/
theorem About.lt_of_known? (h : v.About ρ n) (hv : v.WellFormed V) (hm : v.known? = some m) :
    n < Word.count v.bits := by
  rcases known?_cases hm with hc | ⟨i, hi, -⟩ | ⟨t, ht, -⟩
  · exact h.concrete m hc ▸ hv.concrete m hc
  · exact (h.interval i hi).lt hv.le
  · obtain ⟨hty, hw⟩ := hv.symbolic t ht
    rw [← h.symbolic t ht, ← hw]
    exact hty.eval_lt ρ

theorem About.interval? (h : v.About ρ n) (hle : v.bits ≤ maxBits)
    (hlt : ∀ m, v.known? = some m → n < Word.count v.bits) {i : Interval}
    (hi : v.interval? = some i) : i.Mem v.bits n := by
  simp only [Value.interval?, Option.or_eq_some_iff, Option.map_eq_some_iff] at hi
  rcases hi with hi | ⟨-, k, hk, rfl⟩
  · exact h.interval i hi
  · rw [h.known? hle hk]
    exact Interval.mem_exact_of_lt hle (hlt k hk)

theorem About.symbolic? (h : v.About ρ n) (hle : v.bits ≤ maxBits)
    (hlt : ∀ m, v.known? = some m → n < Word.count v.bits) {t : Term}
    (ht : v.symbolic? = some t) : t.eval ρ = n := by
  simp only [Value.symbolic?, Option.or_eq_some_iff, Option.map_eq_some_iff] at ht
  rcases ht with ht | ⟨-, k, hk, rfl⟩
  · exact h.symbolic t ht
  · rw [Term.eval, h.known? hle hk, Word.truncate_of_lt (hlt k hk)]

theorem Describes.known? (h : v.Describes ρ n) (hle : v.bits ≤ maxBits) (hm : v.known? = some m) :
    m = n := h.about.known? hle hm

theorem Describes.interval? (h : v.Describes ρ n) (hle : v.bits ≤ maxBits) {i : Interval}
    (hi : v.interval? = some i) : i.Mem v.bits n := h.about.interval? hle (fun _ _ => h.lt) hi

theorem Describes.symbolic? (h : v.Describes ρ n) (hle : v.bits ≤ maxBits) {t : Term}
    (ht : v.symbolic? = some t) : t.eval ρ = n := h.about.symbolic? hle (fun _ _ => h.lt) ht

theorem WellFormed.symbolic? (hv : v.WellFormed V) {t : Term} (ht : v.symbolic? = some t) :
    t.Typed V ∧ t.width = v.bits := by
  simp only [Value.symbolic?, Option.or_eq_some_iff, Option.map_eq_some_iff] at ht
  rcases ht with ht | ⟨-, k, -, rfl⟩
  · exact hv.symbolic t ht
  · exact ⟨Term.typed_const.2 ⟨hv.pos, hv.le, Word.truncate_lt _ _⟩, rfl⟩

/-- The term of a well-formed value, or the constant of its known number, denotes a word of
the width of the value. -/
theorem WellFormed.denotes (hv : v.WellFormed V) {t : Term} (ht : v.symbolic? = some t) :
    t.Denotes V v.bits t.eval :=
  ⟨(hv.symbolic? ht).1, (hv.symbolic? ht).2, fun _ => rfl⟩

/-! ### Parts -/

theorem only_eq_some {α : Type} {s : DomainSet} {d : Domain} {part : Option α} {a : α} :
    s.only d part = some a ↔ s.contains d = true ∧ part = some a := by
  unfold DomainSet.only
  split
  · rename_i h
    exact ⟨fun hp => ⟨h, hp⟩, fun hp => hp.2⟩
  · rename_i h
    exact ⟨nofun, fun hp => absurd hp.1 h⟩

theorem wellFormed_restrict (hv : v.WellFormed V) (s : DomainSet) : (v.restrict s).WellFormed V :=
  ⟨hv.pos, hv.le, fun n hn => hv.concrete n (only_eq_some.1 hn).2,
    fun t ht => hv.symbolic t (only_eq_some.1 ht).2⟩

theorem About.restrict (h : v.About ρ n) (s : DomainSet) : (v.restrict s).About ρ n :=
  ⟨fun m hm => h.concrete m (only_eq_some.1 hm).2, fun i hi => h.interval i (only_eq_some.1 hi).2,
    fun t ht => h.symbolic t (only_eq_some.1 ht).2⟩

theorem describes_restrict (h : v.Describes ρ n) (s : DomainSet) : (v.restrict s).Describes ρ n :=
  (h.about.restrict s).describes h.lt

/-- What some domains tell of a number, fewer of them tell too. -/
theorem describes_restrict_of_sub {s d : DomainSet}
    (hsub : ∀ x, d.contains x = true → s.contains x = true)
    (h : (v.restrict s).Describes ρ n) : (v.restrict d).Describes ρ n := by
  have hinter : s.inter d = d := DomainSet.ext_contains fun x => by
    rw [DomainSet.contains_inter]
    cases hx : d.contains x with
    | false => rw [Bool.and_false]
    | true => rw [hsub x hx, Bool.and_true]
  have hr := describes_restrict h d
  rwa [restrict_restrict, hinter] at hr

theorem restrict_takeParts (h : u.bits = v.bits) (s : DomainSet) :
    (v.takeParts u s).restrict s = u.restrict s := by
  obtain ⟨c, i, y⟩ := s
  cases c <;> cases i <;> cases y <;> simp [restrict, takeParts, DomainSet.only,
    DomainSet.contains, h]

theorem wellFormed_takeParts (hv : v.WellFormed V) (hu : u.WellFormed V) (h : u.bits = v.bits)
    (s : DomainSet) : (v.takeParts u s).WellFormed V := by
  refine ⟨hv.pos, hv.le, fun n hn => ?_, fun t ht => ?_⟩
  · simp only [takeParts] at hn
    split at hn
    · exact h ▸ hu.concrete n hn
    · exact hv.concrete n hn
  · simp only [takeParts] at ht
    split at ht
    · exact h ▸ hu.symbolic t ht
    · exact hv.symbolic t ht

theorem overlay_eq (h : u.bits = v.bits) (s : DomainSet) :
    v.overlay u s = .ok (v.takeParts u s) := by
  rw [overlay, if_pos h]
  rfl

theorem setSymbolic_eq {t : Term} (h : t.width = v.bits) :
    v.setSymbolic t = .ok { v with symbolic := some t } := by
  rw [setSymbolic, if_pos h]
  rfl

theorem eq_of_setSymbolic {t : Term} (h : v.setSymbolic t = .ok u) :
    u = { v with symbolic := some t } := by
  unfold setSymbolic at h
  split at h
  · exact (Except.ok.inj h).symm
  · cases h

theorem wellFormed_setConcrete (hv : v.WellFormed V) (n : Nat) :
    (v.setConcrete n).WellFormed V := by
  refine ⟨hv.pos, hv.le, fun m hm => ?_, hv.symbolic⟩
  obtain rfl := Option.some.inj hm
  exact Word.truncate_lt _ _

theorem describes_setConcrete (h : v.Describes ρ n) : (v.setConcrete n).Describes ρ n := by
  refine ⟨h.lt, fun m hm => ?_, h.interval, h.symbolic⟩
  obtain rfl := Option.some.inj hm
  exact Word.truncate_of_lt h.lt

/-! ### Parts taken over from other domains -/

section

variable {active : DomainSet}

theorem checkOperand_eq (h : v.concrete = some n) (role : String) :
    v.checkOperand role = .ok () := by
  simp only [checkOperand, validDomains, DomainSet.isEmpty, h, Option.isSome_some, Bool.true_or,
    Bool.not_true, Bool.false_eq_true, if_false]
  rfl

theorem symbolic?_of_symbolic {t : Term} (h : v.symbolic = some t) : v.symbolic? = some t := by
  rw [Value.symbolic?, h, Option.some_or]

theorem symbolic?_isSome (h : v.known? = some n) : ∃ t, v.symbolic? = some t := by
  cases hs : v.symbolic with
  | some t => exact ⟨t, symbolic?_of_symbolic hs⟩
  | none => exact ⟨_, by rw [Value.symbolic?, hs, h, Option.none_or, Option.map_some]⟩

theorem checkOperand_of_symbolic? {t : Term} (h : v.symbolic? = some t) (role : String) :
    v.checkOperand role = .ok () := by
  have hvalid : v.validDomains.isEmpty = false := by
    cases hs : v.symbolic with
    | some u => simp [validDomains, DomainSet.isEmpty, hs]
    | none =>
      rw [Value.symbolic?, hs, Option.none_or, Option.map_eq_some_iff] at h
      obtain ⟨k, hk, -⟩ := h
      rcases known?_cases hk with hc | ⟨i, hi, -⟩ | ⟨u, hu, -⟩
      · simp [validDomains, DomainSet.isEmpty, hc]
      · simp [validDomains, DomainSet.isEmpty, hi]
      · simp [validDomains, DomainSet.isEmpty, hu]
  unfold checkOperand
  rw [hvalid, if_neg Bool.false_ne_true]
  rfl

theorem ensureTerm_of_symbolic? (hs : active.contains .symbolic = true) {t : Term}
    (h : v.symbolic? = some t) : v.ensureTerm active = .ok t := by
  rw [ensureTerm, hs, h]
  rfl

/-- A value of a known number has a term while the symbolic domain is active. -/
theorem ensureTerm_ok (hs : active.contains .symbolic = true) (h : v.known? = some n) :
    ∃ t, v.ensureTerm active = .ok t ∧ v.symbolic? = some t := by
  obtain ⟨t, ht⟩ := symbolic?_isSome h
  exact ⟨t, ensureTerm_of_symbolic? hs ht, ht⟩

theorem ensure_of_symbolic? (hs : active.contains .symbolic = true) {t : Term}
    (h : v.symbolic? = some t) (hw : t.width = v.bits) :
    v.ensure active .symbolic = .ok { v with symbolic := some t } := by
  unfold ensure
  rw [hs, Bool.not_true, if_neg Bool.false_ne_true]
  by_cases hvalid : v.isValid .symbolic = true
  · obtain ⟨u, hu⟩ := Option.isSome_iff_exists.1 hvalid
    obtain rfl : u = t := Option.some.inj ((symbolic?_of_symbolic hu).symm.trans h)
    rw [if_pos hvalid, ← hu]
    rfl
  · rw [if_neg hvalid]
    simp only [h]
    exact setSymbolic_eq hw

/-- A value that is ensured to have a term is as good as before. -/
theorem ensure_symbolic_ok (hs : active.contains .symbolic = true) (hv : v.WellFormed V)
    (h : v.known? = some n) :
    ∃ u, v.ensure active .symbolic = .ok u ∧ u.bits = v.bits ∧ u.WellFormed V ∧
      u.concrete = v.concrete ∧ ∀ ρ k, v.Describes ρ k → u.Describes ρ k := by
  obtain ⟨t, ht⟩ := symbolic?_isSome h
  obtain ⟨hty, hw⟩ := hv.symbolic? ht
  refine ⟨{ v with symbolic := some t }, ensure_of_symbolic? hs ht hw, rfl, ?_, rfl,
    fun ρ k hd => ?_⟩
  · refine ⟨hv.pos, hv.le, hv.concrete, fun t' ht' => ?_⟩
    obtain rfl := Option.some.inj ht'
    exact ⟨hty, hw⟩
  · refine ⟨hd.lt, hd.concrete, hd.interval, fun t' ht' => ?_⟩
    obtain rfl := Option.some.inj ht'
    exact hd.symbolic? hv.le ht

end

end Value
end Lockstep
