/-
# Folding keeps the meaning

Each `mk` function gives a typed term of the declared width that denotes what
the operation on words gives, and that mentions no variable its operands do
not mention: the lemmas hold for every `Widths`, and so for the one that
allows exactly the variables of the operands.

Key theorems: `Term.denotes_mkBinary`, `Term.denotes_mkInvert`, `Term.denotes_mkSlice`,
`Term.denotes_mkConcat`, `Term.denotes_mkIte`, `Term.denotes_mkEqual`, `Term.denotes_mkIsZero`.
-/
import Mathlib.Tactic.SplitIfs
import Lockstep.Proofs.Term.Typing
import Lockstep.Term.Build

namespace Lockstep
namespace Term

variable {V : Widths} {w m n : Nat} {f g h : Assignment → Nat} {a b c : Term}

theorem denotes_number (hpos : 0 < w) (hle : w ≤ maxBits) (n : Nat) :
    (number w n).Denotes V w fun _ => Word.truncate w n :=
  ⟨typed_const.2 ⟨hpos, hle, Word.truncate_lt w n⟩, rfl, fun _ => rfl⟩

theorem denotes_number_of_lt (hpos : 0 < w) (hle : w ≤ maxBits) (hn : n < Word.count w) :
    (number w n).Denotes V w fun _ => n :=
  (denotes_number hpos hle n).congr fun _ => Word.truncate_of_lt hn

/-! ### Two-operand operations -/

theorem denotes_binary (ha : a.Denotes V w f) (hb : b.Denotes V w g) (op : BinaryOp) :
    (binary op w a b).Denotes V w fun ρ => Word.binary op w (f ρ) (g ρ) :=
  ⟨typed_binary.2 ⟨ha.typed, hb.typed, ha.width, hb.width⟩, rfl, fun ρ => by
    simp only [eval, ha.eval, hb.eval]⟩

theorem Denotes.eq_of_eq (ha : a.Denotes V w f) (hb : b.Denotes V w g) (hab : a = b) (ρ) :
    f ρ = g ρ := by rw [← ha.eval, ← hb.eval, hab]

theorem denotes_mkAdd (ha : a.Denotes V w f) (hb : b.Denotes V w g) :
    (mkBinaryOpen .add w a b).Denotes V w fun ρ => Word.binary .add w (f ρ) (g ρ) := by
  simp only [mkBinaryOpen]
  split_ifs with h1 h2
  · exact hb.congr fun ρ => by rw [ha.const? h1, Word.zero_add (hb.lt ρ)]
  · exact ha.congr fun ρ => by rw [hb.const? h2, Word.add_zero (ha.lt ρ)]
  · exact denotes_binary ha hb .add

theorem denotes_mkSub (ha : a.Denotes V w f) (hb : b.Denotes V w g) :
    (mkBinaryOpen .sub w a b).Denotes V w fun ρ => Word.binary .sub w (f ρ) (g ρ) := by
  simp only [mkBinaryOpen]
  split_ifs with h1 h2
  · refine (denotes_number_of_lt ha.pos ha.le (Word.count_pos w)).congr fun ρ => ?_
    rw [ha.eq_of_eq hb h1 ρ, Word.sub_self (hb.lt ρ)]
  · exact ha.congr fun ρ => by rw [hb.const? h2, Word.sub_zero (ha.lt ρ)]
  · exact denotes_binary ha hb .sub

theorem denotes_mkAnd (ha : a.Denotes V w f) (hb : b.Denotes V w g) :
    (mkBinaryOpen .and w a b).Denotes V w fun ρ => Word.binary .and w (f ρ) (g ρ) := by
  simp only [mkBinaryOpen]
  split_ifs with h1 h2 h3 h4
  · refine (denotes_number_of_lt ha.pos ha.le (Word.count_pos w)).congr fun ρ => ?_
    rcases h1 with h1 | h1
    · rw [ha.const? h1, Word.zero_and]
    · rw [hb.const? h1, Word.and_zero]
  · exact hb.congr fun ρ => by rw [ha.const? h2, Word.max_and (hb.lt ρ)]
  · exact ha.congr fun ρ => by rw [hb.const? h3, Word.and_max (ha.lt ρ)]
  · exact ha.congr fun ρ => by rw [← ha.eq_of_eq hb h4 ρ, Word.and_self (ha.lt ρ)]
  · exact denotes_binary ha hb .and

theorem denotes_mkOr (ha : a.Denotes V w f) (hb : b.Denotes V w g) :
    (mkBinaryOpen .or w a b).Denotes V w fun ρ => Word.binary .or w (f ρ) (g ρ) := by
  simp only [mkBinaryOpen]
  split_ifs with h1 h2 h3 h4
  · exact hb.congr fun ρ => by rw [ha.const? h1, Word.zero_or (hb.lt ρ)]
  · exact ha.congr fun ρ => by rw [hb.const? h2, Word.or_zero (ha.lt ρ)]
  · have hmax : Word.max w < Word.count w := Nat.sub_lt (Word.count_pos w) Nat.one_pos
    refine (denotes_number_of_lt ha.pos ha.le hmax).congr fun ρ => ?_
    rcases h3 with h3 | h3
    · rw [ha.const? h3, Word.max_or (hb.lt ρ)]
    · rw [hb.const? h3, Word.or_max (ha.lt ρ)]
  · exact ha.congr fun ρ => by rw [← ha.eq_of_eq hb h4 ρ, Word.or_self (ha.lt ρ)]
  · exact denotes_binary ha hb .or

theorem denotes_mkXor (ha : a.Denotes V w f) (hb : b.Denotes V w g) :
    (mkBinaryOpen .xor w a b).Denotes V w fun ρ => Word.binary .xor w (f ρ) (g ρ) := by
  simp only [mkBinaryOpen]
  split_ifs with h1 h2 h3
  · refine (denotes_number_of_lt ha.pos ha.le (Word.count_pos w)).congr fun ρ => ?_
    rw [ha.eq_of_eq hb h1 ρ, Word.xor_self]
  · exact hb.congr fun ρ => by rw [ha.const? h2, Word.zero_xor (hb.lt ρ)]
  · exact ha.congr fun ρ => by rw [hb.const? h3, Word.xor_zero (ha.lt ρ)]
  · exact denotes_binary ha hb .xor

/-- **Two-operand operations keep the meaning.** -/
theorem denotes_mkBinary (ha : a.Denotes V w f) (hb : b.Denotes V w g) (op : BinaryOp) :
    (mkBinary op w a b).Denotes V w fun ρ => Word.binary op w (f ρ) (g ρ) := by
  unfold mkBinary
  split
  · rename_i m n hm hn
    refine (denotes_number_of_lt ha.pos ha.le (Word.binary_lt op w m n)).congr fun ρ => ?_
    rw [ha.const? hm, hb.const? hn]
  · cases op with
    | add => exact denotes_mkAdd ha hb
    | sub => exact denotes_mkSub ha hb
    | and => exact denotes_mkAnd ha hb
    | or => exact denotes_mkOr ha hb
    | xor => exact denotes_mkXor ha hb

theorem denotes_mkInvert (ha : a.Denotes V w f) :
    (mkInvert w a).Denotes V w fun ρ => Word.invert w (f ρ) := by
  unfold mkInvert
  split
  · rename_i w' v
    refine (denotes_number_of_lt ha.pos ha.le (Word.invert_lt w v)).congr fun ρ => ?_
    rw [← ha.eval, eval]
  · rename_i w' a
    obtain ⟨hty, hw⟩ := typed_invert.1 ha.typed
    obtain rfl : w' = w := ha.width
    refine ⟨hty, hw, fun ρ => ?_⟩
    rw [← ha.eval, eval, Word.invert_invert (hw ▸ hty.eval_lt ρ)]
  · exact ⟨typed_invert.2 ⟨ha.typed, ha.width⟩, rfl, fun ρ => by rw [eval, ha.eval]⟩

/-! ### Slices and concatenations -/

theorem denotes_slice {lo hi : Nat} (ha : a.Denotes V w f) (h1 : lo < hi) (h2 : hi ≤ w) :
    (slice (hi - lo) a lo).Denotes V (hi - lo) fun ρ => Word.slice (f ρ) lo hi := by
  refine ⟨typed_slice.2 ⟨ha.typed, by omega, ?_⟩, rfl, fun ρ => ?_⟩
  · rw [ha.width]
    omega
  · rw [eval, ha.eval, show lo + (hi - lo) = hi by omega]

theorem Denotes.whole {lo hi : Nat} (ha : a.Denotes V w f) (hall : lo = 0 ∧ hi = w) :
    a.Denotes V (hi - lo) fun ρ => Word.slice (f ρ) lo hi := by
  obtain ⟨rfl, rfl⟩ := hall
  exact ⟨ha.typed, ha.width, fun ρ => by rw [Word.slice_all (ha.lt ρ), ha.eval]⟩

/-- **A slice keeps the meaning**, through slices and into the halves of concatenations. -/
theorem denotes_mkSlice {bits lo hi : Nat} (ha : a.Denotes V bits f) (h1 : lo < hi)
    (h2 : hi ≤ bits) :
    (mkSlice bits a lo hi).Denotes V (hi - lo) fun ρ => Word.slice (f ρ) lo hi := by
  fun_induction mkSlice bits a lo hi generalizing f with
  | case1 bits lo hi w v =>
    have hle := ha.le
    refine (denotes_number_of_lt (by omega) (by omega) (Word.slice_lt v lo hi)).congr fun ρ => ?_
    rw [← ha.eval, eval]
  | case2 bits lo hi w arg base hall => exact ha.whole hall
  | case3 bits lo hi w arg base hall ih =>
    obtain ⟨hty, -, hbase⟩ := typed_slice.1 ha.typed
    obtain rfl : w = bits := ha.width
    have hle := hty.width_le
    have := ih (.of_typed hty) (by omega) (by omega)
    rw [show base + hi - (base + lo) = hi - lo by omega] at this
    refine this.congr fun ρ => ?_
    rw [← ha.eval, eval, Word.slice_slice _ _ (by omega) h2]
  | case4 bits lo hi w low high hall => exact ha.whole hall
  | case5 bits lo hi w low high hall hlow ih =>
    obtain ⟨hl, -, rfl, hmax⟩ := typed_concat.1 ha.typed
    refine (ih (.of_typed hl) h1 hlow).congr fun ρ => ?_
    rw [← ha.eval, eval, Word.slice_concat_low _ _ hmax hlow]
  | case6 bits lo hi w low high hall hlow hhigh ih =>
    obtain ⟨-, hh, rfl, hmax⟩ := typed_concat.1 ha.typed
    obtain rfl : low.width + high.width = bits := ha.width
    have := ih (.of_typed hh) (by omega) (by omega)
    rw [show hi - low.width - (lo - low.width) = hi - lo by omega] at this
    refine this.congr fun ρ => ?_
    rw [← ha.eval, eval, Word.slice_concat_high _ _ hmax hhigh h2]
  | case7 bits lo hi w low high hall hlow hhigh => exact denotes_slice ha h1 h2
  | case8 bits a lo hi _ _ _ hall => exact ha.whole hall
  | case9 bits a lo hi _ _ _ hall => exact denotes_slice ha h1 h2

theorem denotes_concat (ha : a.Denotes V m f) (hb : b.Denotes V n g) (hmax : m + n ≤ maxBits) :
    (concat (m + n) a b).Denotes V (m + n) fun ρ => Word.concat (f ρ) m (g ρ) n := by
  refine ⟨typed_concat.2 ⟨ha.typed, hb.typed, ?_, hmax⟩, rfl, fun ρ => ?_⟩
  · rw [ha.width, hb.width]
  · rw [eval, ha.eval, hb.eval, ha.width, hb.width]

theorem slice?_eq_some {t arg : Term} {start : Nat} (h : t.slice? = some (arg, start)) :
    t = slice t.width arg start := by
  cases t with
  | slice w a lo => cases h; rfl
  | _ => cases h

/-- **A concatenation keeps the meaning**, also where two slices are glued. -/
theorem denotes_mkConcat (ha : a.Denotes V m f) (hb : b.Denotes V n g) (hmax : m + n ≤ maxBits) :
    (mkConcat a m b n).Denotes V (m + n) fun ρ => Word.concat (f ρ) m (g ρ) n := by
  have hm := ha.pos
  have hn := hb.pos
  unfold mkConcat
  split
  · rename_i x y hx hy
    refine (denotes_number_of_lt (by omega) hmax (Word.concat_lt x y hmax)).congr fun ρ => ?_
    rw [ha.const? hx, hb.const? hy]
  · split
    · rename_i s start t next hs ht
      split_ifs with hglue
      · obtain ⟨rfl, rfl⟩ := hglue
        have ea := slice?_eq_some hs
        have eb := slice?_eq_some ht
        rw [ha.width] at ea
        rw [hb.width] at eb
        subst ea eb
        obtain ⟨hty, -, -⟩ := typed_slice.1 ha.typed
        obtain ⟨-, -, hfit⟩ := typed_slice.1 hb.typed
        have := denotes_mkSlice (.of_typed hty) (show start < start + (m + n) by omega) (by omega)
        rw [Nat.add_sub_cancel_left] at this
        refine this.congr fun ρ => ?_
        rw [← ha.eval, ← hb.eval, eval, eval, Word.concat_slices _ _ hmax]
      · exact denotes_concat ha hb hmax
    · exact denotes_concat ha hb hmax

/-! ### Choices and comparisons -/

theorem denotes_mkIte (hc : c.Denotes V 1 h) (ha : a.Denotes V w f) (hb : b.Denotes V w g) :
    (mkIte w c a b).Denotes V w fun ρ => Word.ite w (h ρ) (f ρ) (g ρ) := by
  unfold mkIte
  split
  · rename_i n hn
    split_ifs with hodd
    · refine ha.congr fun ρ => ?_
      rw [Word.ite, hc.const? hn, if_pos hodd, Word.truncate_of_lt (ha.lt ρ)]
    · refine hb.congr fun ρ => ?_
      rw [Word.ite, hc.const? hn, if_neg hodd, Word.truncate_of_lt (hb.lt ρ)]
  · split_ifs with heq
    · refine ha.congr fun ρ => ?_
      rw [Word.ite, ← ha.eq_of_eq hb heq ρ, ite_self, Word.truncate_of_lt (ha.lt ρ)]
    · refine ⟨typed_ite.2 ⟨hc.typed, ha.typed, hb.typed, hc.width, ha.width, hb.width⟩, rfl, ?_⟩
      intro ρ
      rw [eval, hc.eval, ha.eval, hb.eval]

theorem denotes_mkEqual (ha : a.Denotes V w f) (hb : b.Denotes V w g) :
    (mkEqual a b).Denotes V 1 fun ρ => if f ρ = g ρ then 1 else 0 := by
  have hbit (p : Prop) [Decidable p] : (if p then 1 else 0) < Word.count 1 := by
    split <;> decide
  unfold mkEqual
  split
  · rename_i m n hm hn
    refine (denotes_number_of_lt Nat.one_pos (by decide) (hbit (m = n))).congr fun ρ => ?_
    rw [ha.const? hm, hb.const? hn]
  · split_ifs with heq
    · refine (denotes_number_of_lt Nat.one_pos (by decide) (by decide)).congr fun ρ => ?_
      rw [if_pos (ha.eq_of_eq hb heq ρ)]
    · refine ⟨typed_equal.2 ⟨ha.typed, hb.typed, ?_⟩, rfl, fun ρ => ?_⟩
      · rw [ha.width, hb.width]
      · rw [eval, ha.eval, hb.eval]

theorem denotes_mkIsZero (ha : a.Denotes V w f) :
    (mkIsZero w a).Denotes V 1 fun ρ => Word.isZero w (f ρ) := by
  unfold mkIsZero
  refine (denotes_mkEqual ha (denotes_number_of_lt ha.pos ha.le (Word.count_pos w))).congr ?_
  intro ρ
  rw [Word.isZero, Word.truncate_of_lt (ha.lt ρ)]

end Term
end Lockstep
