/-
# Built terms fold nowhere

A term that was built by folding has no part left that folding would change:
its constants are words, a part without variables is a constant, slices and
complements are of what cannot be sliced or complemented away, operations on
equal operands and the halves of one slice do not stand in it. What the top of
one part may look like is `Settled`; it is asked of every part at once, since
folding may bring a part of an operand to the top of the result.

Key definitions: `Term.parts`, `Term.Settled`, `Term.Reduced`, `Term.InFoldedForm`.
Key theorems: `Term.reduced_mkSlice`, `Term.reduced_mkConcat`, `Term.Reduced.exists_mentions`,
`Term.Built.folds_nowhere`.
-/
import Lockstep.Proofs.Term.Built

namespace Lockstep
namespace Term

variable {w lo hi : Nat} {a b c s t : Term}

/-! ### Parts -/

/-- The term itself and the parts of its operands. -/
def parts : Term → List Term
  | .const w v => [.const w v]
  | .var w i => [.var w i]
  | .binary op w a b => .binary op w a b :: (a.parts ++ b.parts)
  | .invert w a => .invert w a :: a.parts
  | .slice w a lo => .slice w a lo :: a.parts
  | .concat w lo hi => .concat w lo hi :: (lo.parts ++ hi.parts)
  | .ite w c t f => .ite w c t f :: (c.parts ++ (t.parts ++ f.parts))
  | .equal a b => .equal a b :: (a.parts ++ b.parts)

theorem mem_parts_trans (h : a ∈ s.parts) (hs : s ∈ t.parts) : a ∈ t.parts := by
  induction t with
  | const | var =>
    obtain rfl := List.mem_singleton.1 hs
    exact h
  | invert w x ih | slice w x lo ih =>
    rcases List.mem_cons.1 hs with rfl | hx
    · exact h
    · exact List.mem_cons_of_mem _ (ih hx)
  | binary op w x y ihx ihy | concat w x y ihx ihy | equal x y ihx ihy =>
    rcases List.mem_cons.1 hs with rfl | hs
    · exact h
    · rcases List.mem_append.1 hs with hx | hy
      · exact List.mem_cons_of_mem _ (List.mem_append_left _ (ihx hx))
      · exact List.mem_cons_of_mem _ (List.mem_append_right _ (ihy hy))
  | ite w c x y ihc ihx ihy =>
    rcases List.mem_cons.1 hs with rfl | hs
    · exact h
    · rcases List.mem_append.1 hs with hc | hs
      · exact List.mem_cons_of_mem _ (List.mem_append_left _ (ihc hc))
      · refine List.mem_cons_of_mem _ (List.mem_append_right _ ?_)
        rcases List.mem_append.1 hs with hx | hy
        · exact List.mem_append_left _ (ihx hx)
        · exact List.mem_append_right _ (ihy hy)

/-- Is one term the lower and another the upper part of one slice? -/
def Adjacent (lo hi : Term) : Prop :=
  ∃ arg start, lo.slice? = some (arg, start) ∧ hi.slice? = some (arg, start + lo.width)

/-- Does folding leave the top of the term as it is? -/
def Settled : Term → Prop
  | .const w v => v < 2 ^ w
  | .var _ _ => True
  | .binary op _ a b => (a.const? = none ∨ b.const? = none) ∧ (op = .add ∨ a ≠ b)
  | .invert _ a => a.const? = none ∧ ∀ w b, a ≠ .invert w b
  | .slice w a lo =>
    a.const? = none ∧ a.slice? = none ∧ w < a.width ∧
      ∀ v low high, a = .concat v low high → lo < low.width ∧ low.width < lo + w
  | .concat _ lo hi => (lo.const? = none ∨ hi.const? = none) ∧ ¬ Adjacent lo hi
  | .ite _ c _ _ => c.const? = none
  | .equal a b => (a.const? = none ∨ b.const? = none) ∧ a ≠ b

/-- Does folding leave every part of the term as it is? -/
def Reduced (t : Term) : Prop := ∀ s ∈ t.parts, s.Settled

/-- A term is reduced if it is settled and its proper parts are. -/
theorem reduced_iff {l : List Term} (h : t.parts = t :: l) :
    t.Reduced ↔ t.Settled ∧ ∀ s ∈ l, s.Settled := by
  show (∀ s ∈ t.parts, s.Settled) ↔ _
  rw [h]
  exact List.forall_mem_cons

theorem reduced_var (w id : Nat) : (var w id).Reduced :=
  (reduced_iff rfl).2 ⟨trivial, nofun⟩

theorem reduced_const {v : Nat} : (const w v).Reduced ↔ v < 2 ^ w :=
  (reduced_iff rfl).trans (and_iff_left nofun)

theorem reduced_binary {op : BinaryOp} :
    (binary op w a b).Reduced ↔ (binary op w a b).Settled ∧ a.Reduced ∧ b.Reduced :=
  (reduced_iff rfl).trans (and_congr_right' List.forall_mem_append)

theorem reduced_invert : (invert w a).Reduced ↔ (invert w a).Settled ∧ a.Reduced :=
  reduced_iff rfl

theorem reduced_slice : (slice w a lo).Reduced ↔ (slice w a lo).Settled ∧ a.Reduced :=
  reduced_iff rfl

theorem reduced_concat :
    (concat w a b).Reduced ↔ (concat w a b).Settled ∧ a.Reduced ∧ b.Reduced :=
  (reduced_iff rfl).trans (and_congr_right' List.forall_mem_append)

theorem reduced_ite :
    (ite w c a b).Reduced ↔ (ite w c a b).Settled ∧ c.Reduced ∧ a.Reduced ∧ b.Reduced :=
  (reduced_iff rfl).trans (and_congr_right'
    (List.forall_mem_append.trans (and_congr_right' List.forall_mem_append)))

theorem reduced_equal :
    (equal a b).Reduced ↔ (equal a b).Settled ∧ a.Reduced ∧ b.Reduced :=
  (reduced_iff rfl).trans (and_congr_right' List.forall_mem_append)

/-- Of two operands one mentions a variable if those that are no constants do. -/
theorem exists_mentions_or (h : a.const? = none ∨ b.const? = none)
    (ha : a.const? = none → ∃ id w, a.Mentions id w)
    (hb : b.const? = none → ∃ id w, b.Mentions id w) :
    ∃ id w, a.Mentions id w ∨ b.Mentions id w := by
  rcases h with hopen | hopen
  · obtain ⟨id, w, hm⟩ := ha hopen
    exact ⟨id, w, .inl hm⟩
  · obtain ⟨id, w, hm⟩ := hb hopen
    exact ⟨id, w, .inr hm⟩

/-- **What no folding changes mentions a variable**, unless it is a constant: some operand of each
operation is no constant. -/
theorem Reduced.exists_mentions (h : t.Reduced) (hc : t.const? = none) :
    ∃ id w, t.Mentions id w := by
  induction t with
  | const w v => cases hc
  | var w id => exact ⟨id, w, rfl, rfl⟩
  | binary op w a b iha ihb =>
    obtain ⟨⟨hopen, -⟩, ha, hb⟩ := reduced_binary.1 h
    exact exists_mentions_or hopen (iha ha) (ihb hb)
  | invert w a ih =>
    obtain ⟨⟨hopen, -⟩, ha⟩ := reduced_invert.1 h
    exact ih ha hopen
  | slice w a lo ih =>
    obtain ⟨⟨hopen, -⟩, ha⟩ := reduced_slice.1 h
    exact ih ha hopen
  | concat w a b iha ihb =>
    obtain ⟨⟨hopen, -⟩, ha, hb⟩ := reduced_concat.1 h
    exact exists_mentions_or hopen (iha ha) (ihb hb)
  | ite w c a b ihc _ _ =>
    obtain ⟨hopen, hc, -, -⟩ := reduced_ite.1 h
    obtain ⟨id, v, hm⟩ := ihc hc hopen
    exact ⟨id, v, .inl hm⟩
  | equal a b iha ihb =>
    obtain ⟨⟨hopen, -⟩, ha, hb⟩ := reduced_equal.1 h
    exact exists_mentions_or hopen (iha ha) (ihb hb)

/-! ### Folding -/

theorem reduced_number (w n : Nat) : (number w n).Reduced := by
  have hcount : Word.count w ≤ 2 ^ w := Nat.pow_le_pow_right (by decide) (Nat.min_le_left _ _)
  exact reduced_const.2 (Nat.lt_of_lt_of_le (Word.truncate_lt w n) hcount)

theorem const?_eq_none_or (h : ∀ m n, a.const? = some m → b.const? = some n → False) :
    a.const? = none ∨ b.const? = none := by
  cases ha : a.const? with
  | none => exact .inl rfl
  | some m =>
    cases hb : b.const? with
    | none => exact .inr rfl
    | some n => exact (h m n ha hb).elim

theorem reduced_mkBinary (op : BinaryOp) (w : Nat) (ha : a.Reduced) (hb : b.Reduced) :
    (mkBinary op w a b).Reduced := by
  unfold mkBinary
  split
  · exact reduced_number _ _
  · rename_i hopen
    have hopen := const?_eq_none_or hopen
    have hadd : (binary .add w a b).Reduced := reduced_binary.2 ⟨⟨hopen, .inl rfl⟩, ha, hb⟩
    have hne (op : BinaryOp) (hab : ¬ a = b) : (binary op w a b).Reduced :=
      reduced_binary.2 ⟨⟨hopen, .inr hab⟩, ha, hb⟩
    cases op <;> simp only [mkBinaryOpen] <;> split_ifs <;>
      first | exact ha | exact hb | exact reduced_number _ _ | exact hadd | exact hne _ ‹_›

theorem reduced_mkInvert (w : Nat) (ha : a.Reduced) : (mkInvert w a).Reduced := by
  unfold mkInvert
  split
  · exact reduced_number _ _
  · exact (reduced_invert.1 ha).2
  · rename_i hconst hinvert
    exact reduced_invert.2 ⟨⟨const?_eq_none hconst, hinvert⟩, ha⟩

/-- **A slice folds** until it is one of a wider term that is no constant and no slice, and over
the seam of the term if this is a concatenation. -/
theorem reduced_mkSlice {bits : Nat} (ha : a.Reduced) (hty : a.WellTyped) (hw : a.width = bits)
    (h1 : lo < hi) (h2 : hi ≤ bits) : (mkSlice bits a lo hi).Reduced := by
  fun_induction mkSlice bits a lo hi with
  | case1 => exact reduced_number _ _
  | case2 => exact ha
  | case3 bits lo hi w arg base hall ih =>
    obtain ⟨harg, -, hfit⟩ := hty
    obtain rfl : w = bits := hw
    exact ih (reduced_slice.1 ha).2 harg rfl (by omega) (by omega)
  | case4 => exact ha
  | case5 bits lo hi w low high hall hlow ih =>
    exact ih (reduced_concat.1 ha).2.1 hty.1 rfl h1 hlow
  | case6 bits lo hi w low high hall hlow hhigh ih =>
    obtain ⟨-, hhi, hsum, -⟩ := hty
    obtain rfl : w = bits := hw
    exact ih (reduced_concat.1 ha).2.2 hhi rfl (by omega) (by omega)
  | case7 bits lo hi w low high hall hlow hhigh =>
    obtain rfl : w = bits := hw
    refine reduced_slice.2 ⟨⟨rfl, rfl, show hi - lo < w by omega, ?_⟩, ha⟩
    rintro v low' high' heq
    cases heq
    omega
  | case8 => exact ha
  | case9 bits lo hi a hconst hslice hconcat hall =>
    refine reduced_slice.2 ⟨⟨const?_eq_none hconst, slice?_eq_none hslice, by omega, ?_⟩, ha⟩
    exact fun v low high heq => (hconcat v low high heq).elim

/-- **A concatenation folds**: the halves of one slice become the slice again, which may fold on. -/
theorem reduced_mkConcat {m n : Nat} (ha : a.Reduced) (hb : b.Reduced) (hta : a.WellTyped)
    (htb : b.WellTyped) (hm : a.width = m) (hn : b.width = n) : (mkConcat a m b n).Reduced := by
  subst hm
  unfold mkConcat
  split
  · exact reduced_number _ _
  · rename_i hopen
    have hopen := const?_eq_none_or hopen
    split
    · rename_i arg start arg' next hs ht
      split_ifs with hglue
      · obtain ⟨rfl, rfl⟩ := hglue
        have ea := slice?_eq_some hs
        have eb := slice?_eq_some ht
        rw [ea] at ha hta
        rw [eb] at htb
        obtain ⟨harg, hpos, -⟩ := hta
        obtain ⟨-, -, hfit⟩ := htb
        exact reduced_mkSlice (reduced_slice.1 ha).2 harg rfl (by omega) (by omega)
      · refine reduced_concat.2 ⟨⟨hopen, ?_⟩, ha, hb⟩
        rintro ⟨x, first, hx, hy⟩
        obtain ⟨rfl, rfl⟩ := Prod.mk.inj (Option.some.inj (hs.symm.trans hx))
        obtain ⟨rfl, rfl⟩ := Prod.mk.inj (Option.some.inj (ht.symm.trans hy))
        exact hglue ⟨rfl, rfl⟩
    · rename_i hnot
      refine reduced_concat.2 ⟨⟨hopen, ?_⟩, ha, hb⟩
      rintro ⟨x, first, hx, hy⟩
      exact hnot _ _ _ _ hx hy

theorem reduced_mkIte (w : Nat) (hc : c.Reduced) (ha : a.Reduced) (hb : b.Reduced) :
    (mkIte w c a b).Reduced := by
  unfold mkIte
  split
  · split_ifs <;> assumption
  · rename_i hopen
    split_ifs
    · exact ha
    · exact reduced_ite.2 ⟨hopen, hc, ha, hb⟩

theorem reduced_mkEqual (ha : a.Reduced) (hb : b.Reduced) : (mkEqual a b).Reduced := by
  unfold mkEqual
  split
  · exact reduced_number _ _
  · rename_i hopen
    split_ifs with heq
    · exact reduced_number _ _
    · exact reduced_equal.2 ⟨⟨const?_eq_none_or hopen, heq⟩, ha, hb⟩

/-- **No part of a built term folds.** By induction on how it is built. -/
theorem Built.reduced (h : t.Built) : t.Reduced := by
  induction h with
  | number w n _ _ => exact reduced_number w n
  | var w id _ _ => exact reduced_var w id
  | binary op w _ _ _ _ iha ihb => exact reduced_mkBinary op w iha ihb
  | invert w _ _ ih => exact reduced_mkInvert w ih
  | slice w lo hi ha hw h1 h2 ih => exact reduced_mkSlice ih ha.folded.1 hw h1 h2
  | concat m n ha hb hm hn _ iha ihb =>
    exact reduced_mkConcat iha ihb ha.folded.1 hb.folded.1 hm hn
  | ite w _ _ _ _ _ _ ihc iha ihb => exact reduced_mkIte w ihc iha ihb
  | equal _ _ _ iha ihb => exact reduced_mkEqual iha ihb

/-! ### The shapes that do not occur -/

/-- The test for zero builds terms too: it is one for equality with a number. -/
theorem Built.isZero (h : t.Built) : (mkIsZero t.width t).Built := by
  obtain ⟨hpos, hle⟩ := h.folded.1.width_bounds
  exact h.equal (.number t.width 0 hpos hle) rfl

/-- The shapes of the parts of a term in folded form. -/
structure InFoldedForm (t : Term) : Prop where
  const : ∀ w v, .const w v ∈ t.parts → v < 2 ^ w
  closed : ∀ s ∈ t.parts, (∀ id w, ¬ s.Mentions id w) → ∃ w v, s = .const w v
  slice : ∀ w a lo, .slice w a lo ∈ t.parts →
    (∀ v n, a ≠ .const v n) ∧ (∀ v arg start, a ≠ .slice v arg start) ∧ w ≠ a.width
  straddles : ∀ w v low high lo, .slice w (.concat v low high) lo ∈ t.parts →
    lo < low.width ∧ low.width < lo + w
  invert : ∀ w a, .invert w a ∈ t.parts → (∀ v n, a ≠ .const v n) ∧ ∀ v b, a ≠ .invert v b
  binary : ∀ op w a b, .binary op w a b ∈ t.parts → op ≠ .add → a ≠ b
  equal : ∀ a b, .equal a b ∈ t.parts → a ≠ b
  concat : ∀ w m n arg lo, .concat w (.slice m arg lo) (.slice n arg (lo + m)) ∉ t.parts

theorem ne_const_of_const? (h : a.const? = none) (w n : Nat) : a ≠ .const w n := by
  rintro rfl
  cases h

theorem Reduced.inFoldedForm (h : t.Reduced) : t.InFoldedForm where
  const w v hmem := h _ hmem
  closed s hmem hclosed := by
    cases hs : s.const? with
    | none =>
      have hparts : s.Reduced := fun r hr => h r (mem_parts_trans hr hmem)
      obtain ⟨id, w, hm⟩ := hparts.exists_mentions hs
      exact (hclosed id w hm).elim
    | some v =>
      cases s with
      | const w v => exact ⟨w, v, rfl⟩
      | _ => cases hs
  slice w a lo hmem := by
    obtain ⟨hc, hs, hlt, -⟩ := h _ hmem
    refine ⟨ne_const_of_const? hc, ?_, Nat.ne_of_lt hlt⟩
    rintro v arg start rfl
    cases hs
  straddles w v low high lo hmem := (h _ hmem).2.2.2 v low high rfl
  invert w a hmem := ⟨ne_const_of_const? (h _ hmem).1, (h _ hmem).2⟩
  binary op w a b hmem hop := (h _ hmem).2.resolve_left hop
  equal a b hmem := (h _ hmem).2
  concat w m n arg lo hmem := (h _ hmem).2 ⟨arg, lo, rfl, rfl⟩

/-- **Folding leaves folded forms.** What was built of numbers and variables by the operations
that fold, the test for zero among them, is in folded form. -/
theorem Built.folds_nowhere (h : t.Built) :
    t.InFoldedForm ∧ (mkIsZero t.width t).InFoldedForm :=
  ⟨h.reduced.inFoldedForm, h.isZero.reduced.inFoldedForm⟩

/-- The middle 16 bits of two words, which go over the seam, and a third word. -/
theorem Built.folds_nowhere_seam :
    let x := Term.var 16 0
    let y := Term.var 16 1
    let z := Term.var 16 2
    let t := mkBinary .xor 16 (mkSlice 32 (mkConcat x 16 y 16) 8 24) z
    t = .binary .xor 16 (.slice 16 (.concat 32 x y) 8) z ∧ t.Built ∧ t.InFoldedForm ∧
      (mkIsZero 16 t).InFoldedForm := by
  intro x y z t
  have hx : x.Built := .var 16 0 (by decide) (by decide)
  have hy : y.Built := .var 16 1 (by decide) (by decide)
  have hz : z.Built := .var 16 2 (by decide) (by decide)
  have hmiddle : (mkSlice 32 (mkConcat x 16 y 16) 8 24).Built :=
    .slice 32 8 24 (.concat 16 16 hx hy rfl rfl (by decide)) rfl (by decide) (by decide)
  have ht : t.Built := .binary .xor 16 hmiddle hz rfl rfl
  exact ⟨rfl, ht, ht.folds_nowhere⟩

end Term
end Lockstep
