/-
# Slices of built terms

A term that was built by folding has no slice of a constant, of a slice or of
a whole term in it. So slices of one built term keep what they are slices of,
and adjacent ones are glued together again to the slice that spans both: cut
into pieces and put together, the term itself comes back. A concatenation is
cut at its seam, and it comes back as what its halves make of it, which need
not be the same term.

Key definitions: `Term.Built`, `Term.Folded`, `Term.Seamless`.
Key theorems: `Term.folded_mkSlice`, `Term.Built.folded`, `Term.Seamless.glue`,
`Term.Seamless.slice_all`.
-/
import Lockstep.Proofs.Term.Folding

namespace Lockstep
namespace Term

variable {w lo hi : Nat} {a b c t : Term}

/-! ### Terms without slices to fold -/

/-- The terms that are built of numbers and variables by the operations that fold, each on
operands of the widths it asks for. -/
inductive Built : Term → Prop where
  | number (w n : Nat) (hpos : 0 < w) (hle : w ≤ maxBits) : Built (.number w n)
  | var (w id : Nat) (hpos : 0 < w) (hle : w ≤ maxBits) : Built (.var w id)
  | binary (op : BinaryOp) (w : Nat) {a b : Term} (ha : Built a) (hb : Built b)
      (hwa : a.width = w) (hwb : b.width = w) : Built (mkBinary op w a b)
  | invert (w : Nat) {a : Term} (ha : Built a) (hw : a.width = w) : Built (mkInvert w a)
  | slice (w lo hi : Nat) {a : Term} (ha : Built a) (hw : a.width = w) (h1 : lo < hi)
      (h2 : hi ≤ w) : Built (mkSlice w a lo hi)
  | concat (m n : Nat) {a b : Term} (ha : Built a) (hb : Built b) (hm : a.width = m)
      (hn : b.width = n) (hmax : m + n ≤ maxBits) : Built (mkConcat a m b n)
  | ite (w : Nat) {c a b : Term} (hc : Built c) (ha : Built a) (hb : Built b)
      (hwc : c.width = 1) (hwa : a.width = w) (hwb : b.width = w) : Built (mkIte w c a b)
  | equal {a b : Term} (ha : Built a) (hb : Built b) (hw : a.width = b.width) :
      Built (mkEqual a b)

/-- Has the term no slice in it of a constant, of a slice or of a whole term? -/
def Folded : Term → Prop
  | .const _ _ => True
  | .var _ _ => True
  | .binary _ _ a b => a.Folded ∧ b.Folded
  | .invert _ a => a.Folded
  | .slice w a _ => a.Folded ∧ a.const? = none ∧ a.slice? = none ∧ w < a.width
  | .concat _ lo hi => lo.Folded ∧ hi.Folded
  | .ite _ c t f => c.Folded ∧ t.Folded ∧ f.Folded
  | .equal a b => a.Folded ∧ b.Folded

theorem WellTyped.typed (h : t.WellTyped) : t.Typed fun _ _ => True := ⟨h, fun _ _ _ => trivial⟩

theorem const?_eq_none (h : ∀ w v, a = .const w v → False) : a.const? = none := by
  cases a with
  | const w v => exact (h w v rfl).elim
  | _ => rfl

theorem slice?_eq_none (h : ∀ w arg lo, a = .slice w arg lo → False) : a.slice? = none := by
  cases a with
  | slice w arg lo => exact (h w arg lo rfl).elim
  | _ => rfl

theorem folded_mkBinary (op : BinaryOp) (w : Nat) (ha : a.Folded) (hb : b.Folded) :
    (mkBinary op w a b).Folded := by
  unfold mkBinary
  split
  · exact trivial
  · cases op <;> simp only [mkBinaryOpen] <;> split_ifs <;>
      first | exact ha | exact hb | exact trivial | exact ⟨ha, hb⟩

theorem folded_mkInvert (w : Nat) (ha : a.Folded) : (mkInvert w a).Folded := by
  unfold mkInvert
  split
  · exact trivial
  · exact ha
  · exact ha

/-- **A slice folds**: it is one of what is no constant and no slice, and that is wider. -/
theorem folded_mkSlice {bits : Nat} (ha : a.Folded) (hty : a.WellTyped) (hw : a.width = bits)
    (h1 : lo < hi) (h2 : hi ≤ bits) : (mkSlice bits a lo hi).Folded := by
  fun_induction mkSlice bits a lo hi with
  | case1 => exact trivial
  | case2 => exact ha
  | case3 bits lo hi w arg base hall ih =>
    obtain ⟨harg, -, hfit⟩ := hty
    obtain rfl : w = bits := hw
    exact ih ha.1 harg rfl (by omega) (by omega)
  | case4 => exact ha
  | case5 bits lo hi w low high hall hlow ih => exact ih ha.1 hty.1 rfl h1 hlow
  | case6 bits lo hi w low high hall hlow hhigh ih =>
    obtain ⟨-, hhi, hsum, -⟩ := hty
    obtain rfl : w = bits := hw
    exact ih ha.2 hhi rfl (by omega) (by omega)
  | case7 bits lo hi w low high hall hlow hhigh =>
    obtain rfl : w = bits := hw
    exact ⟨ha, rfl, rfl, show hi - lo < w by omega⟩
  | case8 => exact ha
  | case9 bits lo hi a hconst hslice _ hall =>
    exact ⟨ha, const?_eq_none hconst, slice?_eq_none hslice, by omega⟩

theorem folded_mkConcat {m n : Nat} (ha : a.Folded) (hb : b.Folded) (hta : a.WellTyped)
    (htb : b.WellTyped) (hm : a.width = m) (hn : b.width = n) : (mkConcat a m b n).Folded := by
  unfold mkConcat
  split
  · exact trivial
  · split
    · rename_i s start t next hs ht
      split_ifs with hglue
      · obtain ⟨rfl, rfl⟩ := hglue
        have ea := slice?_eq_some hs
        have eb := slice?_eq_some ht
        rw [ea] at ha hta
        rw [eb] at htb
        obtain ⟨hs, hpos, -⟩ := hta
        obtain ⟨-, -, hfit⟩ := htb
        exact folded_mkSlice ha.1 hs rfl (by omega) (by omega)
      · exact ⟨ha, hb⟩
    · exact ⟨ha, hb⟩

theorem folded_mkIte (w : Nat) (hc : c.Folded) (ha : a.Folded) (hb : b.Folded) :
    (mkIte w c a b).Folded := by
  unfold mkIte
  split
  · split_ifs <;> assumption
  · split_ifs
    · exact ha
    · exact ⟨hc, ha, hb⟩

theorem folded_mkEqual (ha : a.Folded) (hb : b.Folded) : (mkEqual a b).Folded := by
  unfold mkEqual
  split
  · exact trivial
  · split_ifs
    · exact trivial
    · exact ⟨ha, hb⟩

/-- **A built term** is well typed and folded. By induction on how it is built. -/
theorem Built.folded (h : t.Built) : t.WellTyped ∧ t.Folded := by
  have hden {a : Term} {w : Nat} (ha : a.WellTyped) (hw : a.width = w) :
      a.Denotes (fun _ _ => True) w a.eval := ⟨ha.typed, hw, fun _ => rfl⟩
  induction h with
  | number w n hpos hle =>
    exact ⟨(denotes_number (V := fun _ _ => True) hpos hle n).typed.wellTyped, trivial⟩
  | var w id hpos hle => exact ⟨⟨hpos, hle⟩, trivial⟩
  | binary op w _ _ hwa hwb iha ihb =>
    exact ⟨(denotes_mkBinary (hden iha.1 hwa) (hden ihb.1 hwb) op).typed.wellTyped,
      folded_mkBinary op w iha.2 ihb.2⟩
  | invert w _ hw ih =>
    exact ⟨(denotes_mkInvert (hden ih.1 hw)).typed.wellTyped, folded_mkInvert w ih.2⟩
  | slice w lo hi _ hw h1 h2 ih =>
    exact ⟨(denotes_mkSlice (hden ih.1 hw) h1 h2).typed.wellTyped,
      folded_mkSlice ih.2 ih.1 hw h1 h2⟩
  | concat m n _ _ hm hn hmax iha ihb =>
    exact ⟨(denotes_mkConcat (hden iha.1 hm) (hden ihb.1 hn) hmax).typed.wellTyped,
      folded_mkConcat iha.2 ihb.2 iha.1 ihb.1 hm hn⟩
  | ite w _ _ _ hwc hwa hwb ihc iha ihb =>
    exact ⟨(denotes_mkIte (hden ihc.1 hwc) (hden iha.1 hwa) (hden ihb.1 hwb)).typed.wellTyped,
      folded_mkIte w ihc.2 iha.2 ihb.2⟩
  | equal _ _ hw iha ihb =>
    exact ⟨(denotes_mkEqual (hden iha.1 hw) (hden ihb.1 rfl)).typed.wellTyped,
      folded_mkEqual iha.2 ihb.2⟩

/-! ### Cutting and gluing -/

/-- A well-typed folded term that is no concatenation and no slice of one. -/
structure Seamless (t : Term) : Prop where
  wellTyped : t.WellTyped
  folded : t.Folded
  concat : ∀ w low high, t ≠ .concat w low high
  slice : ∀ w v low high lo, t ≠ .slice w (.concat v low high) lo

theorem Built.seamless (h : t.Built) (hconcat : ∀ w low high, t ≠ .concat w low high)
    (hslice : ∀ w v low high lo, t ≠ .slice w (.concat v low high) lo) : t.Seamless :=
  ⟨h.folded.1, h.folded.2, hconcat, hslice⟩

/-- A slice of what is no constant, no slice and no concatenation folds only if it is whole. -/
theorem mkSlice_open {bits : Nat} (hconst : a.const? = none) (hslice : a.slice? = none)
    (hconcat : ∀ w low high, a ≠ .concat w low high) :
    mkSlice bits a lo hi = if lo = 0 ∧ hi = bits then a else .slice (hi - lo) a lo := by
  cases a with
  | const w v => cases hconst
  | slice w arg lo => cases hslice
  | concat w low high => exact absurd rfl (hconcat w low high)
  | _ => rfl

/-- A seamless term is a constant, or all of its slices are of one term at one distance: of
itself, or of what it is a slice of. -/
theorem Seamless.pieces (h : t.Seamless) (hconst : t.const? = none) :
    ∃ arg base,
      (∀ lo hi, lo < hi → hi ≤ t.width → ¬ (lo = 0 ∧ hi = t.width) →
        mkSlice t.width t lo hi = .slice (hi - lo) arg (base + lo)) ∧
      ∀ hi, 0 < hi → hi ≤ t.width →
        mkSlice arg.width arg base (base + hi) = mkSlice t.width t 0 hi := by
  cases hslice : t.slice? with
  | none =>
    refine ⟨t, 0, fun lo hi _ _ hall => ?_, fun hi _ _ => by rw [Nat.zero_add]⟩
    rw [mkSlice_open hconst hslice h.concat, if_neg hall, Nat.zero_add]
  | some p =>
    obtain ⟨arg, base⟩ := p
    obtain ⟨-, hfolded, -, hseam⟩ := h
    rw [slice?_eq_some hslice] at hfolded hseam ⊢
    obtain ⟨-, hc, hs, hlt⟩ := hfolded
    have hopen (lo hi : Nat) (hhi : hi ≤ lo + t.width) :
        mkSlice arg.width arg lo hi = .slice (hi - lo) arg lo := by
      rw [mkSlice_open hc hs fun v low high heq => hseam t.width v low high base (heq ▸ rfl),
        if_neg (by omega)]
    have hpiece (lo hi : Nat) (hhi : hi ≤ t.width) :
        mkSlice t.width (.slice t.width arg base) lo hi = .slice (hi - lo) arg (base + lo) := by
      unfold mkSlice
      by_cases hall : lo = 0 ∧ hi = t.width
      · rw [if_pos hall, hall.1, hall.2]
        rfl
      · rw [if_neg hall, hopen _ _ (by omega), Nat.add_sub_add_left]
    refine ⟨arg, base, fun lo hi _ hhi _ => hpiece lo hi hhi, fun hi _ hhi => ?_⟩
    show _ = mkSlice t.width (.slice t.width arg base) 0 hi
    rw [hpiece 0 hi hhi, hopen _ _ (by exact Nat.add_le_add_left hhi base),
      Nat.add_sub_cancel_left]
    rfl

/-- **Adjacent slices are glued** to the slice that spans both. -/
theorem Seamless.glue (h : t.Seamless) {mid : Nat} (h0 : 0 < mid) (h1 : mid < hi)
    (h2 : hi ≤ t.width) :
    mkConcat (mkSlice t.width t 0 mid) mid (mkSlice t.width t mid hi) (hi - mid) =
      mkSlice t.width t 0 hi := by
  have hsum : mid + (hi - mid) = hi := by omega
  cases hconst : t.const? with
  | some v =>
    have ht : t = .const t.width v := by
      cases t with
      | const w x => cases hconst; rfl
      | _ => cases hconst
    have hle := h.wellTyped.width_bounds.2
    have hglue := Word.concat_slices v 0 (m := mid) (n := hi - mid) (by omega)
    have hlow : Word.truncate mid (Word.slice v 0 mid) = Word.slice v 0 mid :=
      Word.truncate_of_lt (Word.slice_lt v 0 mid)
    have hhigh : Word.truncate (hi - mid) (Word.slice v mid hi) = Word.slice v mid hi :=
      Word.truncate_of_lt (Word.slice_lt v mid hi)
    rw [Nat.zero_add, Nat.zero_add, hsum] at hglue
    rw [ht]
    simp only [mkSlice, mkConcat, number, const?, hlow, hhigh, hglue, hsum, Nat.sub_zero]
  | none =>
    obtain ⟨arg, base, hpiece, hspan⟩ := h.pieces hconst
    rw [hpiece 0 mid h0 (by omega) (by omega), hpiece mid hi h1 h2 (by omega)]
    have hstart : base + mid = base + 0 + mid := rfl
    unfold mkConcat
    simp only [const?, slice?, hstart, and_self, if_true, hsum, Nat.add_zero]
    exact hspan hi (by omega) h2

theorem Seamless.slice_all (h : t.Seamless) : mkSlice t.width t 0 t.width = t := by
  cases t with
  | const w v =>
    obtain ⟨-, -, hlt⟩ := h.wellTyped
    have hlt : v < Word.count w := hlt
    simp only [mkSlice, width, number, Word.slice_all hlt, Nat.sub_zero, Word.truncate_of_lt hlt]
  | concat w low high => exact absurd rfl (h.concat w low high)
  | _ => exact if_pos ⟨rfl, rfl⟩

end Term
end Lockstep
