/-
# Numbers that every domain knows

With every domain active the value of a number has all its parts, and none of
them loses anything: the range holds the number alone and the term is a
constant. Taking bits and putting numbers side by side keeps it so.

Key definitions: `Value.exact`.
Key theorems: `Value.number_all`, `Value.slice_exact`, `Value.concat_exact`.
-/
import Lockstep.Proofs.Value.Operations

namespace Lockstep

namespace Interval

variable {m n : Nat}

@[simp] theorem singleton?_exact (n a : Nat) :
    (exact n a).singleton? n = some (Word.truncate n a) := by
  have hlt := Int.ofNat_lt.2 (Word.truncate_lt n a)
  unfold singleton? exact
  rw [if_pos rfl, Int.emod_eq_of_lt (Int.natCast_nonneg _) hlt, Int.toNat_natCast]

theorem isCanonical_exact (hn : n ≤ maxBits) (a : Nat) : (exact n a).isCanonical n = true := by
  have hlt := Word.truncate_lt n a
  have hmax := maxWord_eq hn
  rw [modulus_of_le hn] at hmax
  have hupper : (Word.truncate n a : Int) ≤ maxWord n := by omega
  exact Bool.and_eq_true_iff.2 ⟨decide_eq_true (Int.natCast_nonneg _), decide_eq_true hupper⟩

/-- Bounds that are not equal pin no word down, whatever becomes of them. -/
theorem singleton?_make {w : Nat} (hpos : 0 < w) {lo hi : Int} (h : lo ≠ hi) :
    (make w lo hi).singleton? w = none := by
  unfold make
  split
  · have hexp : min w maxBits ≠ 0 := by
      unfold maxBits
      omega
    have hcount : 1 < Word.count w := Nat.one_lt_two_pow hexp
    have hne : (0 : Int) ≠ maxWord w := by
      unfold maxWord Word.max
      omega
    exact if_neg hne
  · exact if_neg fun heq => h ((Int.sub_left_inj _).1 heq)

theorem make_self {a : Nat} (hn : n ≤ maxBits) (h : a < Word.count n) :
    make n a a = ⟨a, a⟩ := by
  have hpos := modulus_pos n
  have hlt : (a : Int) < modulus n := by
    rw [modulus_of_le hn]
    exact Int.ofNat_lt.2 h
  unfold make
  rw [if_neg (by omega), Int.ediv_eq_zero_of_lt (Int.natCast_nonneg a) hlt]
  simp only [Int.zero_mul, Int.sub_zero]

theorem concat_exact (h : m + n ≤ maxBits) (a b : Nat) :
    concat (exact m a) m (exact n b) n = exact (m + n) (Word.concat a m b n) := by
  have hword : (Word.truncate n b : Int) * modulus m + Word.truncate m a =
      (Word.concat a m b n : Nat) := by
    rw [Word.concat, modulus, Int.natCast_add, Int.natCast_mul]
  have hlt := Word.concat_lt a b h
  have hn : n ≤ maxBits := by omega
  have hup : moveUp (Word.truncate n b) m = Word.truncate n b * modulus m :=
    moveUp_eq h (Int.natCast_nonneg _) (modulus_of_le hn ▸ Int.ofNat_lt.2 (Word.truncate_lt n b))
  unfold concat
  rw [isCanonical_exact (by omega), isCanonical_exact hn, Bool.and_self, if_pos rfl]
  show make (m + n) (moveUp (Word.truncate n b) m + Word.truncate m a)
    (moveUp (Word.truncate n b) m + Word.truncate m a) = _
  rw [hup, hword, make_self h hlt, exact, Word.truncate_of_lt hlt]

end Interval

namespace Value

variable {bits m n : Nat}

/-- The value of a number that every domain knows. -/
def exact (bits n : Nat) : Value where
  bits
  concrete := some (Word.truncate bits n)
  interval := some (.exact bits n)
  symbolic := some (.number bits n)

theorem exact_of_lt (h : n < Word.count bits) :
    exact bits n = ⟨bits, some n, some ⟨n, n⟩, some (.const bits n)⟩ := by
  simp only [exact, Interval.exact, Term.number, Word.truncate_of_lt h]

@[simp] theorem known?_exact (bits n : Nat) :
    (exact bits n).known? = some (Word.truncate bits n) := rfl

theorem assemble_all {known : Option Nat} {range : Option Interval} {t : Term}
    (ht : t.width = bits) :
    assemble .all bits known range (some t) = .ok ⟨bits, known, range, some t⟩ :=
  setSymbolic_eq ht

/-- **A number is known to every active domain.** -/
theorem number_all (hpos : 0 < bits) (hle : bits ≤ maxBits) (n : Nat) :
    number .all bits n = .ok (exact bits n) := by
  unfold number
  rw [checkWidth_eq hpos hle]
  exact assemble_all rfl

/-- **The bits of a number** are a number. -/
theorem slice_exact {lo hi : Nat} (hlt : lo < hi) (hhi : hi ≤ bits) (hle : bits ≤ maxBits)
    (n : Nat) : (exact bits n).slice .all lo hi = .ok (exact (hi - lo) (Word.slice n lo hi)) := by
  have hword : Word.slice (Word.truncate bits n) lo hi =
      Word.truncate (hi - lo) (Word.slice n lo hi) := by
    rw [Word.slice_truncate hle hhi, Word.truncate_of_lt (Word.slice_lt n lo hi)]
  have hrange : Interval.slice bits (.exact bits n) lo hi =
      .exact (hi - lo) (Word.slice n lo hi) := by
    unfold Interval.slice
    rw [Interval.singleton?_exact]
    show (⟨Word.slice (Word.truncate bits n) lo hi, Word.slice (Word.truncate bits n) lo hi⟩ :
      Interval) = _
    rw [hword]
    rfl
  have hterm : Term.mkSlice bits (.number bits n) lo hi =
      .number (hi - lo) (Word.slice n lo hi) := by
    simp only [Term.number, Term.mkSlice, hword, Word.truncate_truncate]
  have hfits : ¬ (hi ≤ lo ∨ (exact bits n).bits < hi) :=
    not_or.2 ⟨Nat.not_le.2 hlt, Nat.not_lt.2 hhi⟩
  unfold slice
  rw [if_neg hfits]
  show assemble .all (hi - lo) (some (Word.slice (Word.truncate bits n) lo hi))
    (some (Interval.slice bits (.exact bits n) lo hi))
    (some (Term.mkSlice bits (.number bits n) lo hi)) = _
  rw [hword, hrange, hterm]
  exact assemble_all rfl

/-- **One number above another** is a number. -/
theorem concat_exact (hpos : 0 < m) (h : m + n ≤ maxBits) (a b : Nat) :
    concat .all (exact m a) (exact n b) = .ok (exact (m + n) (Word.concat a m b n)) := by
  have hword : Word.concat (Word.truncate m a) m (Word.truncate n b) n =
      Word.truncate (m + n) (Word.concat a m b n) := by
    rw [Word.truncate_of_lt (Word.concat_lt a b h)]
    simp only [Word.concat, Word.truncate_truncate]
  have hterm : Term.mkConcat (.number m a) m (.number n b) n =
      .number (m + n) (Word.concat a m b n) := by
    simp only [Term.number, Term.mkConcat, Term.const?, hword, Word.truncate_truncate]
  unfold concat
  show (checkWidth (m + n) >>= fun _ => assemble .all (m + n)
    (some (Word.concat (Word.truncate m a) m (Word.truncate n b) n))
    (some (Interval.concat (.exact m a) m (.exact n b) n))
    (some (Term.mkConcat (.number m a) m (.number n b) n))) = _
  rw [checkWidth_eq (Nat.add_pos_left hpos n) h, Interval.concat_exact h, hword, hterm]
  exact assemble_all rfl

end Value
end Lockstep
