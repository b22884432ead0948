/-
# The verdicts of the built-in solver

A verdict is right if it holds under every assignment. The built-in solver
decides by linear forms, and its verdicts are right because the form of a term
has the value of the term, as soon as a text stands for one value. On terms of
sums, differences and complements it is also complete: the coefficients of
the form can be read off from the assignments that set one variable to one.

Key definitions: `Verdict.Right`, `Term.Reads`, `Term.Linear`.
Key theorems: `Term.value_linearForm`, `Term.linearVerdict_right`,
`Term.linearVerdict_linear`, `Normalizer.verdict_exact`.
-/
import Mathlib.Data.Nat.Bitwise
import Lockstep.Proofs.Solver.LinearForm
import Lockstep.Solver.Backend

namespace Lockstep

/-- Does a verdict on a term hold under every assignment? -/
def Verdict.Right : Verdict → Term → Prop
  | zero, t => ∀ ρ, t.eval ρ = 0
  | nonzero, t => ∀ ρ, t.eval ρ ≠ 0
  | unknown, _ => True

namespace Term

open LinearForm

variable {V : Widths}

/-! ### The value of the form of a term -/

/-- Does `val` give the text of every typed term the word that the term denotes? -/
def Reads (V : Widths) (ρ : Assignment) (val : String → Nat) : Prop :=
  ∀ t : Term, t.Typed V → val t.text = t.eval ρ

/-- Where each variable has one width, a text stands for one word. -/
theorem exists_reads (hV : V.Functional) (ρ : Assignment) : ∃ val, Reads V ρ val := by
  classical
  refine ⟨fun s => if h : ∃ u : Term, u.Typed V ∧ u.text = s then h.choose.eval ρ else 0, ?_⟩
  intro t ht
  have h : ∃ u : Term, u.Typed V ∧ u.text = t.text := ⟨t, ht, rfl⟩
  beta_reduce
  rw [dif_pos h]
  exact (same_of_text_eq hV h.choose_spec.1 ht h.choose_spec.2).eval ρ

section

variable {w : Nat} (hw : w ≤ maxBits)
include hw

theorem cast_truncate (n : Nat) : (Word.truncate w n : ZMod (Word.weight w)) = n := by
  rw [Word.truncate, Word.count_of_le hw]
  exact ZMod.natCast_mod n _

theorem cast_add (a b : Nat) :
    (Word.binary .add w a b : ZMod (Word.weight w)) = a + b := by
  rw [Word.binary, cast_truncate hw, Nat.cast_add]

theorem cast_sub (a b : Nat) :
    (Word.binary .sub w a b : ZMod (Word.weight w)) = a - b := by
  rw [Word.binary, cast_truncate hw, Nat.cast_add, Nat.cast_sub (Word.truncate_lt w b).le,
    cast_truncate hw, Word.count_of_le hw, ZMod.natCast_self]
  ring

theorem cast_invert (a : Nat) : (Word.invert w a : ZMod (Word.weight w)) = -a - 1 := by
  have hlt := Word.truncate_lt w a
  rw [Word.invert, Nat.cast_sub (by omega), cast_truncate hw, Word.count_of_le hw,
    cast_weight_sub_one]
  ring

end

theorem linearForm_bits {t : Term} (ht : t.Typed V) : t.linearForm.bits = t.width := by
  fun_induction linearForm t with
  | case1 w v => rfl
  | case2 w a b iha ihb =>
    obtain ⟨hta, -, hwa, -⟩ := typed_binary.1 ht
    exact (iha hta).trans hwa
  | case3 w a b iha ihb =>
    obtain ⟨hta, -, hwa, -⟩ := typed_binary.1 ht
    exact (iha hta).trans hwa
  | case4 w a f ih =>
    obtain ⟨hta, hwa⟩ := typed_invert.1 ht
    exact (ih hta).trans hwa
  | case5 t => rfl

/-- **The linear form of a typed term has the value of the term.** -/
theorem value_linearForm {ρ : Assignment} {val : String → Nat} (hval : Reads V ρ val) {t : Term}
    (ht : t.Typed V) {w : Nat} (hw : t.width = w) :
    t.linearForm.value (w := w) (fun s => val s) = t.eval ρ := by
  have hle : w ≤ maxBits := hw ▸ ht.width_le
  fun_induction linearForm t with
  | case1 w' v => simp only [value, termsValue_nil, add_zero, eval]
  | case2 w' a b iha ihb =>
    obtain rfl : w' = w := hw
    obtain ⟨hta, htb, hwa, hwb⟩ := typed_binary.1 ht
    rw [value_addScaled _ ((linearForm_bits hta).trans hwa), iha hta hwa, ihb htb hwb, eval,
      cast_add hle]
    ring
  | case3 w' a b iha ihb =>
    obtain rfl : w' = w := hw
    obtain ⟨hta, htb, hwa, hwb⟩ := typed_binary.1 ht
    rw [value_addScaled _ ((linearForm_bits hta).trans hwa),
      value_negate _ ((linearForm_bits htb).trans hwb), iha hta hwa, ihb htb hwb, eval,
      cast_sub hle]
    ring
  | case4 w' a f ih =>
    obtain rfl : w' = w := hw
    obtain ⟨hta, hwa⟩ := typed_invert.1 ht
    have hbits : a.linearForm.bits = w' := (linearForm_bits hta).trans hwa
    have hneg := value_negate (fun s => (val s : ZMod (Word.weight w'))) hbits
    rw [ih hta hwa] at hneg
    have hf : f.bits = w' := hbits
    rw [eval, cast_invert hle, ← hneg]
    simp only [value, hf, cast_wrap, Nat.cast_add, cast_weight_sub_one, f]
    ring
  | case5 t =>
    simp only [value, termsValue_cons, termsValue_nil, Nat.cast_zero, Nat.cast_one, hval t ht]
    ring

theorem canonical_linearForm {t : Term} (ht : t.Typed V) : t.linearForm.Canonical := by
  fun_induction linearForm t with
  | case1 w v =>
    obtain ⟨-, hle, hlt⟩ := typed_const.1 ht
    exact ⟨.nil, List.forall_mem_nil _, Word.count_of_le hle ▸ hlt⟩
  | case2 w a b iha ihb => exact (iha (typed_binary.1 ht).1).addScaled _ _
  | case3 w a b iha ihb => exact (iha (typed_binary.1 ht).1).addScaled _ _
  | case4 w a f ih =>
    have hf := canonical_negate a.linearForm
    exact ⟨hf.sorted, hf.coefficient, wrap_lt _⟩
  | case5 t =>
    have hone : 1 < Word.weight t.width := Nat.one_lt_two_pow ht.width_pos.ne'
    refine ⟨List.pairwise_singleton _ _, List.forall_mem_singleton.2 ⟨Nat.one_pos, hone⟩, ?_⟩
    exact Word.weight_pos _

/-! ### Right verdicts -/

/-- Terms of one width and one linear form denote one word. -/
theorem eval_eq_of_linearForm_eq (hV : V.Functional) {a b : Term} (ha : a.Typed V)
    (hb : b.Typed V) (hw : a.width = b.width) (h : a.linearForm = b.linearForm)
    (ρ : Assignment) : a.eval ρ = b.eval ρ := by
  obtain ⟨val, hval⟩ := exists_reads hV ρ
  have hea := value_linearForm hval ha hw
  have heb := value_linearForm hval hb rfl
  rw [h, heb] at hea
  have hla : a.eval ρ < Word.weight b.width := by
    rw [← hw, ← Word.count_of_le ha.width_le]
    exact ha.eval_lt ρ
  have hlb : b.eval ρ < Word.weight b.width := by
    rw [← Word.count_of_le hb.width_le]
    exact hb.eval_lt ρ
  exact ((cast_inj hlb hla).1 hea).symm

/-- A term whose form has no atom denotes the constant of the form. -/
theorem eval_eq_constant (hV : V.Functional) {t : Term} (ht : t.Typed V)
    (h : t.linearForm.terms = []) (ρ : Assignment) : t.eval ρ = t.linearForm.constant := by
  obtain ⟨val, hval⟩ := exists_reads hV ρ
  have hvalue := value_linearForm hval ht rfl
  rw [value, h, termsValue_nil, add_zero] at hvalue
  have hlt : t.eval ρ < Word.weight t.width := by
    rw [← Word.count_of_le ht.width_le]
    exact ht.eval_lt ρ
  have hconst := (canonical_linearForm ht).constant
  rw [linearForm_bits ht] at hconst
  exact ((cast_inj hconst hlt).1 hvalue).symm

/-- **A verdict by linear forms is right.** -/
theorem linearVerdict_right (hV : V.Functional) {t : Term} (ht : t.Typed V) :
    t.linearVerdict.Right t := by
  unfold linearVerdict
  split
  · rename_i h
    cases t with
    | binary op w a b =>
      cases op with
      | xor =>
        obtain ⟨hta, htb, hwa, hwb⟩ := typed_binary.1 ht
        have heq : a.linearForm = b.linearForm := of_decide_eq_true h
        intro ρ
        rw [eval, eval_eq_of_linearForm_eq hV hta htb (hwa.trans hwb.symm) heq, Word.xor_self]
      | _ => cases h
    | _ => cases h
  · split
    · rename_i h
      have heval := eval_eq_constant hV ht h
      unfold Verdict.ofNumber
      split
      · rename_i hzero
        exact fun ρ => (heval ρ).trans hzero
      · rename_i hzero
        exact fun ρ => heval ρ ▸ hzero
    · trivial

/-! ### Terms of sums, differences and complements -/

/-- Is a term built from constants, variables, sums, differences and complements only? -/
def Linear : Term → Prop
  | const _ _ => True
  | var _ _ => True
  | binary .add _ a b => a.Linear ∧ b.Linear
  | binary .sub _ a b => a.Linear ∧ b.Linear
  | invert _ a => a.Linear
  | _ => False

/-- The assignment of one to a variable and of zero to every other. -/
def unit (id : Nat) : Assignment := fun i => if i = id then 1 else 0

theorem var_text_inj {w i j : Nat} (h : (var w i).text = (var w j).text) : i = j := by
  have := phrase_eq_of_text_eq h
  simp only [phrase, Phrase.word.injEq, List.cons.injEq, true_and] at this
  exact toDigits_inj this

theorem atom_of_linear {t : Term} (ht : t.Typed V) (hl : t.Linear) :
    ∀ u ∈ t.linearForm.terms,
      ∃ id, u.1 = (var t.width id).text ∧ (var t.width id).Typed V := by
  induction t with
  | const w v => exact List.forall_mem_nil _
  | var w id => exact List.forall_mem_singleton.2 ⟨id, rfl, ht⟩
  | invert w a ih =>
    obtain ⟨hta, hwa⟩ := typed_invert.1 ht
    intro u hu
    rcases mem_addScaled hu with ⟨u', hu', heq⟩ | ⟨u', hu', heq⟩
    · cases hu'
    · obtain ⟨id, hid, hty⟩ := ih hta hl u' hu'
      rw [hwa] at hid hty
      exact ⟨id, heq.trans hid, hty⟩
  | binary op w a b iha ihb =>
    obtain ⟨hta, htb, hwa, hwb⟩ := typed_binary.1 ht
    have left : a.Linear → ∀ u : String × Nat, (∃ u' ∈ a.linearForm.terms, u.1 = u'.1) →
        ∃ id, u.1 = (var w id).text ∧ (var w id).Typed V := by
      rintro hla u ⟨u', hu', heq⟩
      obtain ⟨id, hid, hty⟩ := iha hta hla u' hu'
      rw [hwa] at hid hty
      exact ⟨id, heq.trans hid, hty⟩
    have right : b.Linear → ∀ u : String × Nat, (∃ u' ∈ b.linearForm.terms, u.1 = u'.1) →
        ∃ id, u.1 = (var w id).text ∧ (var w id).Typed V := by
      rintro hlb u ⟨u', hu', heq⟩
      obtain ⟨id, hid, hty⟩ := ihb htb hlb u' hu'
      rw [hwb] at hid hty
      exact ⟨id, heq.trans hid, hty⟩
    cases op with
    | add =>
      intro u hu
      rcases mem_addScaled hu with h | h
      · exact left hl.1 u h
      · exact right hl.2 u h
    | sub =>
      intro u hu
      rcases mem_addScaled hu with h | ⟨u', hu', heq⟩
      · exact left hl.1 u h
      · rcases mem_addScaled hu' with ⟨v, hv, -⟩ | ⟨v, hv, hv'⟩
        · cases hv
        · exact right hl.2 u ⟨v, hv, heq.trans hv'⟩
    | and | or | xor => exact hl.elim
  | slice | concat | ite | equal => exact hl.elim

theorem linearVerdict_of_linear {t : Term} (hl : t.Linear) :
    t.linearVerdict =
      if t.linearForm.terms = [] then .ofNumber t.linearForm.constant else .unknown := by
  have hxor : t.isXorOfEqualForms = false := by
    cases t with
    | binary op w a b =>
      cases op with
      | xor => exact hl.elim
      | _ => rfl
    | _ => rfl
  unfold linearVerdict
  rw [hxor, if_neg Bool.false_ne_true]

section

variable {t : Term} (hV : V.Functional) (ht : t.Typed V) (hl : t.Linear)
include hV ht hl

/-- Where no atom has a value, the form has the value of the term with all variables zero. -/
theorem value_zero {w : Nat} (hw : t.width = w) :
    t.linearForm.value (w := w) (fun _ => 0) = t.eval fun _ => 0 := by
  obtain ⟨val, hval⟩ := exists_reads hV fun _ => 0
  subst hw
  rw [← value_linearForm hval ht rfl, value, value]
  congr 1
  refine termsValue_congr fun u hu => ?_
  obtain ⟨id, hid, hty⟩ := atom_of_linear ht hl u hu
  rw [hid, hval _ hty, eval, Word.truncate, Nat.zero_mod, Nat.cast_zero]

/-- Where one variable alone has a value, the form has the value of the term with this
variable one and all others zero. -/
theorem value_unit {w : Nat} (hw : t.width = w) (id : Nat) :
    t.linearForm.value (w := w) (single (var w id).text) = t.eval (unit id) := by
  obtain ⟨val, hval⟩ := exists_reads hV (unit id)
  subst hw
  rw [← value_linearForm hval ht rfl, value, value]
  congr 1
  refine termsValue_congr fun u hu => ?_
  obtain ⟨i, hi, hty⟩ := atom_of_linear ht hl u hu
  rw [hi, hval _ hty, eval, cast_truncate ht.width_le, single, unit]
  by_cases h : i = id
  · rw [h, if_pos rfl, if_pos rfl, Nat.cast_one]
  · rw [if_neg h, if_neg fun heq => h (var_text_inj heq), Nat.cast_zero]

/-- A linear term that denotes one word under every assignment has a form without atoms. -/
theorem terms_eq_nil {n : Nat} (h : ∀ ρ, t.eval ρ = n) : t.linearForm.terms = [] := by
  have hf := canonical_linearForm ht
  refine List.eq_nil_iff_forall_not_mem.2 fun u hu => ?_
  obtain ⟨id, hid, -⟩ := atom_of_linear ht hl u hu
  have hzero := value_zero hV ht hl rfl
  have hunit := value_unit hV ht hl rfl id
  rw [h, ← h fun _ => 0, ← hzero, value, value, add_right_inj, ← hid,
    termsValue_single hf.sorted hu, termsValue_zero] at hunit
  obtain ⟨hpos, hlt⟩ := hf.coefficient u hu
  rw [linearForm_bits ht] at hlt
  rw [← Nat.cast_zero, cast_inj hlt (Word.weight_pos _)] at hunit
  exact hpos.ne' hunit

/-- A linear term has a verdict that is not unknown exactly if it denotes one word. -/
theorem linearVerdict_ne_unknown : t.linearVerdict ≠ .unknown ↔ ∃ n, ∀ ρ, t.eval ρ = n := by
  rw [linearVerdict_of_linear hl]
  constructor
  · intro h
    by_cases hnil : t.linearForm.terms = []
    · exact ⟨_, eval_eq_constant hV ht hnil⟩
    · rw [if_neg hnil] at h
      exact absurd rfl h
  · rintro ⟨n, hn⟩
    rw [if_pos (terms_eq_nil hV ht hl hn), Verdict.ofNumber]
    split <;> simp

/-- **On linear terms the verdict is complete.** -/
theorem linearVerdict_linear :
    (t.linearVerdict = .zero ↔ ∀ ρ, t.eval ρ = 0) ∧
      (t.linearVerdict = .nonzero ↔ ∃ n, n ≠ 0 ∧ ∀ ρ, t.eval ρ = n) ∧
      (t.linearVerdict = .unknown ↔
        (¬ ∀ ρ, t.eval ρ = 0) ∧ ¬ ∃ n, n ≠ 0 ∧ ∀ ρ, t.eval ρ = n) := by
  have hright := linearVerdict_right hV ht
  have hknown := linearVerdict_ne_unknown hV ht hl
  cases hv : t.linearVerdict with
  | zero =>
    rw [hv] at hright
    have hzero : ∀ ρ, t.eval ρ = 0 := hright
    refine ⟨⟨fun _ => hzero, fun _ => rfl⟩, ⟨nofun, ?_⟩, ⟨nofun, fun h => absurd hzero h.1⟩⟩
    rintro ⟨n, hn, h⟩
    exact absurd ((h fun _ => 0).symm.trans (hzero _)) hn
  | nonzero =>
    rw [hv] at hright hknown
    have hne : ∀ ρ, t.eval ρ ≠ 0 := hright
    obtain ⟨n, hn⟩ := hknown.1 (by simp)
    have hex : ∃ n, n ≠ 0 ∧ ∀ ρ, t.eval ρ = n := ⟨n, hn (fun _ => 0) ▸ hne _, hn⟩
    refine ⟨⟨nofun, fun h => absurd (h fun _ => 0) (hne _)⟩, ⟨fun _ => hex, fun _ => rfl⟩, ?_⟩
    exact ⟨nofun, fun h => absurd hex h.2⟩
  | unknown =>
    rw [hv] at hknown
    have hno : ¬ ∃ n, ∀ ρ, t.eval ρ = n := fun h => hknown.2 h rfl
    refine ⟨⟨nofun, fun h => absurd ⟨0, h⟩ hno⟩, ⟨nofun, ?_⟩, ⟨fun _ => ?_, fun _ => rfl⟩⟩
    · rintro ⟨n, -, h⟩
      exact absurd ⟨n, h⟩ hno
    · exact ⟨fun h => hno ⟨0, h⟩, fun ⟨n, _, h⟩ => hno ⟨n, h⟩⟩

end

/-- Linear terms that denote one word under every assignment have one form. -/
theorem linearForm_eq (hV : V.Functional) {a b : Term} (ha : a.Typed V) (hb : b.Typed V)
    (hla : a.Linear) (hlb : b.Linear) (hw : a.width = b.width) (h : ∀ ρ, a.eval ρ = b.eval ρ) :
    a.linearForm = b.linearForm := by
  have hfa := canonical_linearForm ha
  have hfb := canonical_linearForm hb
  refine hfa.ext_value hfb ?_ ?_ ?_
  · rw [linearForm_bits ha, linearForm_bits hb, hw]
  · rw [linearForm_bits ha, value_zero hV ha hla rfl, hw, value_zero hV hb hlb rfl, h]
  · rintro _ ⟨u, hu, rfl⟩
    obtain ⟨id, hid⟩ : ∃ id, u.1 = (var a.width id).text := by
      rcases hu with hu | hu
      · obtain ⟨id, hid, -⟩ := atom_of_linear ha hla u hu
        exact ⟨id, hid⟩
      · obtain ⟨id, hid, -⟩ := atom_of_linear hb hlb u hu
        exact ⟨id, hw ▸ hid⟩
    rw [linearForm_bits ha, hid, value_unit hV ha hla rfl, hw, value_unit hV hb hlb rfl, h]

/-- **The exclusive or of two linear terms is found to be zero exactly if they are equal.** -/
theorem linearVerdict_xor (hV : V.Functional) {w : Nat} {a b : Term}
    (ht : (binary .xor w a b).Typed V) (hla : a.Linear) (hlb : b.Linear) :
    (binary .xor w a b).linearVerdict = .zero ↔ ∀ ρ, a.eval ρ = b.eval ρ := by
  obtain ⟨hta, htb, hwa, hwb⟩ := typed_binary.1 ht
  constructor
  · intro h ρ
    have hright := linearVerdict_right hV ht
    rw [h] at hright
    have hzero : Word.binary .xor w (a.eval ρ) (b.eval ρ) = 0 := hright ρ
    have hlt : a.eval ρ ^^^ b.eval ρ < Word.count w :=
      Nat.xor_lt_two_pow (hwa ▸ hta.eval_lt ρ) (hwb ▸ htb.eval_lt ρ)
    rw [Word.binary, Word.truncate_of_lt hlt] at hzero
    exact Nat.eq_of_xor_eq_zero hzero
  · intro h
    have heq := linearForm_eq hV hta htb hla hlb (hwa.trans hwb.symm) h
    unfold linearVerdict
    rw [isXorOfEqualForms, if_pos (decide_eq_true heq)]

/-- Every variable stands at one width only in the term. -/
def OneWidth (t : Term) : Prop := Widths.Functional fun id w => t.Mentions id w

theorem WellTyped.typed_mentions {t : Term} (h : t.WellTyped) :
    t.Typed fun id w => t.Mentions id w :=
  ⟨h, fun _ _ h => h⟩

end Term

namespace Normalizer

/-- **The built-in solver is right, and complete on linear terms**: its answers
of zero and of not zero hold under every assignment; on a term of constants,
variables, sums, differences and complements it tells the terms that are zero,
those that are one number other than zero, and all others apart; and it finds
the exclusive or of two such terms to be zero exactly if they are equal. -/
theorem verdict_exact (n : Normalizer) {t : Term} (ht : t.WellTyped) (hone : t.OneWidth) :
    ∃ v, (Solver.askZero n t).1.verdict = .ok v ∧
      (v = .zero → ∀ ρ, t.eval ρ = 0) ∧
      (v = .nonzero → ∀ ρ, t.eval ρ ≠ 0) ∧
      (t.Linear →
        (v = .zero ↔ ∀ ρ, t.eval ρ = 0) ∧
        (v = .nonzero ↔ ∃ n, n ≠ 0 ∧ ∀ ρ, t.eval ρ = n) ∧
        (v = .unknown ↔ (¬ ∀ ρ, t.eval ρ = 0) ∧ ¬ ∃ n, n ≠ 0 ∧ ∀ ρ, t.eval ρ = n)) ∧
      ∀ w a b, t = .binary .xor w a b → a.Linear → b.Linear →
        (v = .zero ↔ ∀ ρ, a.eval ρ = b.eval ρ) := by
  have hty := ht.typed_mentions
  have hright := Term.linearVerdict_right hone hty
  refine ⟨t.linearVerdict, rfl, ?_, ?_, ?_, ?_⟩
  · intro hv
    rwa [hv] at hright
  · intro hv
    rwa [hv] at hright
  · exact Term.linearVerdict_linear hone hty
  · rintro w a b rfl hla hlb
    exact Term.linearVerdict_xor hone hty hla hlb

/-- Two orders of a sum of two bytes are found to be equal. -/
theorem verdict_exact_sums :
    let a := Term.binary .add 8 (.var 8 0) (.var 8 1)
    let b := Term.binary .add 8 (.var 8 1) (.var 8 0)
    (Term.binary .xor 8 a b).WellTyped ∧ (Term.binary .xor 8 a b).OneWidth ∧
      (Solver.askZero ({} : Normalizer) (.binary .xor 8 a b)).1.verdict = .ok .zero := by
  intro a b
  have ht : (Term.binary .xor 8 a b).WellTyped := by
    simp only [Term.WellTyped, Term.width, maxBits, a, b]
    decide
  have hone : (Term.binary .xor 8 a b).OneWidth := by
    rintro id w w' h h'
    simp only [Term.Mentions, a, b] at h h'
    omega
  obtain ⟨v, hv, -, -, -, hxor⟩ := verdict_exact {} ht hone
  refine ⟨ht, hone, hv.trans ?_⟩
  rw [(hxor 8 a b rfl ⟨trivial, trivial⟩ ⟨trivial, trivial⟩).2]
  intro ρ
  simp only [Term.eval, Word.binary, Nat.add_comm, a, b]

end Normalizer
end Lockstep
