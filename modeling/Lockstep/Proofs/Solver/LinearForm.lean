/-
# Linear forms modulo a power of two

The value of a linear form is a number modulo two to its width, once every
atom has one. Adding, scaling and negating forms does the same to their
values. The terms of a form stay sorted and without zero coefficients, which
makes the form a normal form: two forms of one value whatever the atoms are,
are equal.

Key definitions: `LinearForm.value`, `LinearForm.Canonical`, `LinearForm.single`.
Key theorems: `LinearForm.value_addScaled`, `LinearForm.value_negate`,
`LinearForm.Canonical.addScaled`, `LinearForm.Canonical.ext_value`.
-/
import Mathlib.Data.List.Sort
import Mathlib.Data.String.Basic
import Mathlib.Data.ZMod.Basic
import Mathlib.Tactic.Ring
import Lockstep.Proofs.Term.Reading
import Lockstep.Solver.Linear

namespace Lockstep
namespace LinearForm

/-! ### The value of a form -/

section

variable {w : Nat}

/-- The sum of the multiples of the atoms, where `val` gives the atoms their values. -/
def termsValue (val : String → ZMod (Word.weight w)) (ts : List (String × Nat)) :
    ZMod (Word.weight w) :=
  (ts.map fun t => (t.2 : ZMod (Word.weight w)) * val t.1).sum

/-- The value of a form modulo two to a width. -/
def value (val : String → ZMod (Word.weight w)) (f : LinearForm) : ZMod (Word.weight w) :=
  f.constant + termsValue val f.terms

variable (val : String → ZMod (Word.weight w))

@[simp] theorem termsValue_nil : termsValue val [] = 0 := rfl

@[simp] theorem termsValue_cons (t : String × Nat) (ts : List (String × Nat)) :
    termsValue val (t :: ts) = t.2 * val t.1 + termsValue val ts := by
  simp only [termsValue, List.map_cons, List.sum_cons]

@[simp] theorem cast_wrap (n : Nat) : (wrap w n : ZMod (Word.weight w)) = n :=
  ZMod.natCast_mod n _

theorem wrap_lt (n : Nat) : wrap w n < Word.weight w := Nat.mod_lt _ (Word.weight_pos w)

@[simp] theorem cast_weight_sub_one :
    ((Word.weight w - 1 : Nat) : ZMod (Word.weight w)) = -1 := by
  rw [Nat.cast_sub (Word.weight_pos w), ZMod.natCast_self, Nat.cast_one, zero_sub]

theorem cast_eq_zero {n : Nat} (h : wrap w n = 0) : (n : ZMod (Word.weight w)) = 0 := by
  rw [← cast_wrap, h, Nat.cast_zero]

theorem termsValue_addAtom (atom : String) (n : Nat) (ts : List (String × Nat)) :
    termsValue val (addAtom w atom n ts) = n * val atom + termsValue val ts := by
  have hsum (c : Nat) (a : String) : ((c + n : Nat) : ZMod (Word.weight w)) * val a =
      n * val a + c * val a := by
    push_cast
    ring
  fun_induction addAtom w atom n ts with
  | case1 h => simp only [termsValue_nil, cast_eq_zero h, zero_mul, add_zero]
  | case2 h => simp only [termsValue_cons, termsValue_nil, cast_wrap]
  | case3 a c ts hlt h => simp only [cast_eq_zero h, zero_mul, zero_add]
  | case4 a c ts hlt h => simp only [termsValue_cons, cast_wrap]
  | case5 c ts h =>
    have hzero := hsum c atom
    rw [cast_eq_zero h, zero_mul] at hzero
    rw [termsValue_cons, ← add_assoc, ← hzero, zero_add]
  | case6 c ts => rw [termsValue_cons, termsValue_cons, cast_wrap, hsum, add_assoc]
  | case7 a c ts hlt hne ih =>
    rw [termsValue_cons, termsValue_cons, ih]
    ring

theorem termsValue_foldl (k : Nat) (gs ts : List (String × Nat)) :
    termsValue val (gs.foldl (fun ts (atom, c) => addAtom w atom (c * k) ts) ts) =
      termsValue val ts + k * termsValue val gs := by
  induction gs generalizing ts with
  | nil => simp only [List.foldl_nil, termsValue_nil, mul_zero, add_zero]
  | cons g gs ih =>
    rw [List.foldl_cons, ih, termsValue_addAtom, termsValue_cons]
    push_cast
    ring

/-- **Adding a multiple of a form adds the multiple of its value.** -/
theorem value_addScaled {f : LinearForm} (hf : f.bits = w) (g : LinearForm) (k : Nat) :
    (f.addScaled g k).value val = f.value val + k * g.value val := by
  subst hf
  unfold value addScaled
  rw [termsValue_foldl, cast_wrap]
  push_cast
  ring

theorem value_negate {f : LinearForm} (hf : f.bits = w) :
    f.negate.value val = -f.value val := by
  have hzero : ({ bits := f.bits } : LinearForm).value val = 0 := by
    simp only [value, termsValue_nil, Nat.cast_zero, add_zero]
  subst hf
  have hbits : ({ bits := f.bits } : LinearForm).bits = f.bits := rfl
  rw [negate, value_addScaled val hbits, hzero, cast_weight_sub_one]
  ring

theorem termsValue_congr {val val' : String → ZMod (Word.weight w)} {ts : List (String × Nat)}
    (h : ∀ t ∈ ts, val t.1 = val' t.1) : termsValue val ts = termsValue val' ts := by
  unfold termsValue
  congr 1
  refine List.map_congr_left fun t ht => ?_
  rw [h t ht]

end

/-! ### Normal forms -/

/-- Terms by strictly increasing text, coefficients that are neither zero nor
beyond the width, and a constant within the width. -/
structure Canonical (f : LinearForm) : Prop where
  sorted : f.terms.Pairwise fun s t => s.1 < t.1
  coefficient : ∀ t ∈ f.terms, 0 < t.2 ∧ t.2 < Word.weight f.bits
  constant : f.constant < Word.weight f.bits

theorem mem_addAtom {bits : Nat} {atom : String} {n : Nat} {ts : List (String × Nat)}
    {t : String × Nat} (h : t ∈ addAtom bits atom n ts) : t.1 = atom ∨ ∃ u ∈ ts, t.1 = u.1 := by
  fun_induction addAtom bits atom n ts with
  | case1 => cases h
  | case2 => exact .inl (List.mem_singleton.1 h ▸ rfl)
  | case3 => exact .inr ⟨t, h, rfl⟩
  | case4 =>
    rcases List.mem_cons.1 h with rfl | h
    · exact .inl rfl
    · exact .inr ⟨t, h, rfl⟩
  | case5 => exact .inr ⟨t, List.mem_cons_of_mem _ h, rfl⟩
  | case6 c ts =>
    rcases List.mem_cons.1 h with rfl | h
    · exact .inl rfl
    · exact .inr ⟨t, List.mem_cons_of_mem _ h, rfl⟩
  | case7 a c ts _ _ ih =>
    rcases List.mem_cons.1 h with rfl | h
    · exact .inr ⟨(a, c), List.mem_cons_self, rfl⟩
    · rcases ih h with h | ⟨u, hu, hut⟩
      · exact .inl h
      · exact .inr ⟨u, List.mem_cons_of_mem _ hu, hut⟩

theorem sorted_addAtom (bits : Nat) (atom : String) (n : Nat) {ts : List (String × Nat)}
    (h : ts.Pairwise fun s t => s.1 < t.1) :
    (addAtom bits atom n ts).Pairwise fun s t => s.1 < t.1 := by
  fun_induction addAtom bits atom n ts with
  | case1 => exact h
  | case2 => exact List.pairwise_singleton _ _
  | case3 => exact h
  | case4 a c ts hlt =>
    have hhead := (List.pairwise_cons.1 h).1
    refine List.pairwise_cons.2 ⟨fun t ht => ?_, h⟩
    rcases List.mem_cons.1 ht with rfl | ht
    · exact hlt
    · exact lt_trans hlt (hhead t ht)
  | case5 => exact (List.pairwise_cons.1 h).2
  | case6 =>
    obtain ⟨hhead, htail⟩ := List.pairwise_cons.1 h
    exact List.pairwise_cons.2 ⟨hhead, htail⟩
  | case7 a c ts hlt hne ih =>
    obtain ⟨hhead, htail⟩ := List.pairwise_cons.1 h
    refine List.pairwise_cons.2 ⟨fun t ht => ?_, ih htail⟩
    rcases mem_addAtom ht with ht | ⟨u, hu, ht⟩
    · exact ht ▸ lt_of_le_of_ne (not_lt.1 hlt) (Ne.symm hne)
    · exact ht ▸ hhead u hu

theorem coefficient_addAtom (bits : Nat) (atom : String) (n : Nat) {ts : List (String × Nat)}
    (h : ∀ t ∈ ts, 0 < t.2 ∧ t.2 < Word.weight bits) :
    ∀ t ∈ addAtom bits atom n ts, 0 < t.2 ∧ t.2 < Word.weight bits := by
  have hwrap : ∀ m, wrap bits m ≠ 0 → 0 < wrap bits m ∧ wrap bits m < Word.weight bits :=
    fun m hm => ⟨Nat.pos_of_ne_zero hm, wrap_lt m⟩
  fun_induction addAtom bits atom n ts with
  | case1 => exact h
  | case2 hne => exact List.forall_mem_singleton.2 (hwrap n hne)
  | case3 => exact h
  | case4 a c ts hlt hne => exact List.forall_mem_cons.2 ⟨hwrap n hne, h⟩
  | case5 => exact (List.forall_mem_cons.1 h).2
  | case6 c ts hne =>
    exact List.forall_mem_cons.2 ⟨hwrap (c + n) hne, (List.forall_mem_cons.1 h).2⟩
  | case7 a c ts hlt hne ih =>
    obtain ⟨hhead, htail⟩ := List.forall_mem_cons.1 h
    exact List.forall_mem_cons.2 ⟨hhead, ih htail⟩

theorem Canonical.addScaled {f : LinearForm} (hf : f.Canonical) (g : LinearForm) (k : Nat) :
    (f.addScaled g k).Canonical := by
  have hterms : ((f.addScaled g k).terms.Pairwise fun s t => s.1 < t.1) ∧
      ∀ t ∈ (f.addScaled g k).terms, 0 < t.2 ∧ t.2 < Word.weight f.bits := by
    refine List.foldlRecOn (motive := fun ts : List (String × Nat) =>
      (ts.Pairwise fun s t => s.1 < t.1) ∧ ∀ t ∈ ts, 0 < t.2 ∧ t.2 < Word.weight f.bits)
      g.terms _ ⟨hf.sorted, hf.coefficient⟩ ?_
    intro ts h u _
    exact ⟨sorted_addAtom _ _ _ h.1, coefficient_addAtom _ _ _ h.2⟩
  exact ⟨hterms.1, hterms.2, wrap_lt _⟩

theorem mem_addScaled {f g : LinearForm} {k : Nat} {t : String × Nat}
    (h : t ∈ (f.addScaled g k).terms) :
    (∃ u ∈ f.terms, t.1 = u.1) ∨ ∃ u ∈ g.terms, t.1 = u.1 := by
  have hall : ∀ t ∈ (f.addScaled g k).terms,
      (∃ u ∈ f.terms, t.1 = u.1) ∨ ∃ u ∈ g.terms, t.1 = u.1 := by
    refine List.foldlRecOn (motive := fun ts : List (String × Nat) => ∀ t ∈ ts,
      (∃ u ∈ f.terms, t.1 = u.1) ∨ ∃ u ∈ g.terms, t.1 = u.1) g.terms _
      (fun t ht => .inl ⟨t, ht, rfl⟩) ?_
    intro ts ih v hv t ht
    rcases mem_addAtom ht with heq | ⟨u, hu, heq⟩
    · exact .inr ⟨v, hv, heq⟩
    · rw [heq]
      exact ih u hu
  exact hall t h

theorem canonical_negate (f : LinearForm) : f.negate.Canonical :=
  Canonical.addScaled ⟨.nil, List.forall_mem_nil _, Word.weight_pos _⟩ f _

/-! ### Forms of one value -/

section

variable {w : Nat}

/-- The value of one atom is one, and that of every other is zero. -/
def single (a : String) : String → ZMod (Word.weight w) := fun s => if s = a then 1 else 0

theorem termsValue_zero (ts : List (String × Nat)) :
    termsValue (w := w) (fun _ => 0) ts = 0 := by
  induction ts with
  | nil => rfl
  | cons t ts ih => rw [termsValue_cons, ih, mul_zero, add_zero]

theorem termsValue_single_absent {a : String} {ts : List (String × Nat)}
    (h : ∀ t ∈ ts, t.1 ≠ a) : termsValue (w := w) (single a) ts = 0 := by
  induction ts with
  | nil => rfl
  | cons t ts ih =>
    obtain ⟨ht, hts⟩ := List.forall_mem_cons.1 h
    rw [termsValue_cons, ih hts, single, if_neg ht, mul_zero, add_zero]

/-- Where one atom alone has a value, sorted terms have its coefficient. -/
theorem termsValue_single {a : String} {c : Nat} {ts : List (String × Nat)}
    (hts : ts.Pairwise fun s t => s.1 < t.1) (h : (a, c) ∈ ts) :
    termsValue (w := w) (single a) ts = c := by
  induction ts with
  | nil => cases h
  | cons t ts ih =>
    obtain ⟨ht, hts⟩ := List.pairwise_cons.1 hts
    rw [termsValue_cons]
    rcases List.mem_cons.1 h with rfl | h
    · rw [termsValue_single_absent fun u hu => (ht u hu).ne', single, if_pos rfl, mul_one, add_zero]
    · rw [ih hts h, single, if_neg (ht _ h).ne, mul_zero, zero_add]

end

theorem cast_inj {w m n : Nat} (hm : m < Word.weight w) (hn : n < Word.weight w) :
    (m : ZMod (Word.weight w)) = n ↔ m = n := by
  rw [ZMod.natCast_eq_natCast_iff', Nat.mod_eq_of_lt hm, Nat.mod_eq_of_lt hn]

/-- The terms of a canonical form stand in every canonical form of one width
that has its value where no atom or one alone has a value. -/
theorem Canonical.terms_subset {f g : LinearForm} (hf : f.Canonical) (hg : g.Canonical)
    (hbits : g.bits = f.bits) (hconst : f.constant = g.constant)
    (h : ∀ t ∈ f.terms, f.value (w := f.bits) (single t.1) = g.value (single t.1)) :
    f.terms ⊆ g.terms := by
  rintro ⟨a, c⟩ ht
  obtain ⟨hpos, hlt⟩ := hf.coefficient _ ht
  have hvalue := h _ ht
  rw [value, value, hconst, add_right_inj, termsValue_single hf.sorted ht] at hvalue
  by_cases habsent : ∀ u ∈ g.terms, u.1 ≠ a
  · rw [termsValue_single_absent habsent, ← Nat.cast_zero, cast_inj hlt (Word.weight_pos _)]
      at hvalue
    exact absurd hvalue hpos.ne'
  · push Not at habsent
    obtain ⟨⟨b, d⟩, hmem, rfl⟩ := habsent
    have hd := (hg.coefficient _ hmem).2
    rw [termsValue_single hg.sorted hmem, cast_inj hlt (hbits ▸ hd)] at hvalue
    obtain rfl : c = d := hvalue
    exact hmem

/-- **Canonical forms are normal forms**: two of one width that have one value
where no atom has one, and where one atom alone has one, are equal. -/
theorem Canonical.ext_value {f g : LinearForm} (hf : f.Canonical) (hg : g.Canonical)
    (hbits : f.bits = g.bits)
    (hzero : f.value (w := f.bits) (fun _ => 0) = g.value fun _ => 0)
    (h : ∀ a, (∃ t, (t ∈ f.terms ∨ t ∈ g.terms) ∧ t.1 = a) →
      f.value (w := f.bits) (single a) = g.value (single a)) : f = g := by
  have hconst : f.constant = g.constant := by
    rw [value, value, termsValue_zero, termsValue_zero, add_zero, add_zero,
      cast_inj hf.constant (hbits ▸ hg.constant)] at hzero
    exact hzero
  have hfg := hf.terms_subset hg hbits.symm hconst fun t ht => h t.1 ⟨t, .inl ht, rfl⟩
  have hgf := hg.terms_subset hf hbits hconst.symm fun t ht => by
    rw [← hbits]
    exact (h t.1 ⟨t, .inr ht, rfl⟩).symm
  refine LinearForm.ext hbits ?_ hconst
  have : Std.Irrefl fun s t : String × Nat => s.1 < t.1 := ⟨fun s => lt_irrefl s.1⟩
  exact hf.sorted.eq_of_mem_iff hg.sorted fun t => ⟨fun ht => hfg ht, fun ht => hgf ht⟩

end LinearForm
end Lockstep
