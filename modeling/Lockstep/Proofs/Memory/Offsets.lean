/-
# Bytes at offsets from one base

Whatever the base of an address is, the linear forms of two sums of it and
constants differ by a constant. So the built-in solver tells any two of them
apart, or equal, and the walk through cells at such addresses stops at the
newest byte that was written at the offset, without a candidate before it.

Key definitions: `Term.AtOffset`, `Symbolic.Normalizes`, `Cell.HoldsAt`.
Key theorems: `Term.AtOffset.add`, `Term.AtOffset.linearForm_sub`,
`Term.AtOffset.linearVerdict_sub`, `Cell.classify_atOffset`, `MemoryLog.scan_atOffset`,
`MemoryLog.readByte_atOffset`, `MemoryLog.scan_first`.
-/
import Lockstep.Proofs.Memory.Bytes
import Lockstep.Proofs.Memory.Terms
import Lockstep.Proofs.Value.Exact

namespace Lockstep

/-- Two offsets are the same modulo two to the width of addresses. -/
theorem truncate_eq_iff {m n : Nat} :
    Word.truncate addressBits m = Word.truncate addressBits n ↔
      (m : ZMod (Word.weight addressBits)) = n := by
  rw [ZMod.natCast_eq_natCast_iff']
  rfl

namespace Term

open LinearForm

variable {base s t : Term} {m n : Nat}

/-! ### Sums of a base and constants -/

/-- Is the term, by its linear form, the base and an offset? It folds to a constant exactly if
the base is one. -/
structure AtOffset (base : Term) (n : Nat) (t : Term) : Prop where
  width : t.width = addressBits
  bits : t.linearForm.bits = addressBits
  canonical : t.linearForm.Canonical
  value : ∀ val : String → ZMod (Word.weight addressBits),
    t.linearForm.value val = base.linearForm.value val + n
  const : t.const?.isSome = base.const?.isSome

theorem atOffset_zero {V : Widths} (hbase : base.Typed V) (hw : base.width = addressBits) :
    base.AtOffset 0 base where
  width := hw
  bits := (linearForm_bits hbase).trans hw
  canonical := canonical_linearForm hbase
  value _ := by rw [Nat.cast_zero, add_zero]
  const := rfl

theorem value_const (val : String → ZMod (Word.weight addressBits)) (w n : Nat) :
    (const w n).linearForm.value val = n := add_zero _

theorem AtOffset.lt_of_const? (h : base.AtOffset n t) {x : Nat} (hx : t.const? = some x) :
    x < Word.weight addressBits := by
  cases t with
  | const w v =>
    obtain rfl := Option.some.inj hx
    obtain rfl : w = addressBits := h.width
    exact h.canonical.constant
  | _ => cases hx

theorem AtOffset.value_of_const? (h : base.AtOffset n t) {x : Nat} (hx : t.const? = some x)
    (val : String → ZMod (Word.weight addressBits)) : base.linearForm.value val + n = x := by
  rw [← h.value]
  cases t with
  | const w v =>
    obtain rfl := Option.some.inj hx
    exact value_const val w v
  | _ => cases hx

theorem mkBinary_of_some {op : BinaryOp} {w x y : Nat} (hs : s.const? = some x)
    (ht : t.const? = some y) : mkBinary op w s t = number w (Word.binary op w x y) := by
  unfold mkBinary
  rw [hs, ht]

theorem mkBinary_of_none {op : BinaryOp} {w : Nat} (hs : s.const? = none) :
    mkBinary op w s t = mkBinaryOpen op w s t := by
  unfold mkBinary
  rw [hs]

theorem mkEqual_of_some {x y : Nat} (hs : s.const? = some x) (ht : t.const? = some y) :
    mkEqual s t = number 1 (if x = y then 1 else 0) := by
  unfold mkEqual
  rw [hs, ht]

theorem mkEqual_of_none (hs : s.const? = none) :
    mkEqual s t = if s = t then number 1 1 else equal s t := by
  unfold mkEqual
  rw [hs]

/-- **Adding a constant** to a sum gives one at the sum of both offsets. -/
theorem AtOffset.add (h : base.AtOffset m t) (n : Nat) :
    base.AtOffset (m + n) (mkBinary .add addressBits t (number addressBits n)) := by
  have hcast := cast_truncate (w := addressBits) (by decide)
  have hnumber : (number addressBits n).const? = some (Word.truncate addressBits n) := rfl
  cases hx : t.const? with
  | some x =>
    have hconst := h.const
    rw [hx] at hconst
    rw [mkBinary_of_some hx hnumber]
    refine ⟨rfl, rfl, ⟨.nil, List.forall_mem_nil _, Word.truncate_lt _ _⟩, fun val => ?_, hconst⟩
    have hvalue := h.value_of_const? hx val
    rw [number, value_const, hcast, cast_add (by decide), hcast, ← hvalue, Nat.cast_add, add_assoc]
  | none =>
    rw [mkBinary_of_none hx]
    simp only [mkBinaryOpen, hx, hnumber, reduceCtorEq, if_false, Option.some.injEq]
    by_cases hzero : Word.truncate addressBits n = 0
    · have hn : (n : ZMod (Word.weight addressBits)) = 0 := by
        rw [← hcast, hzero, Nat.cast_zero]
      rw [if_pos hzero]
      refine ⟨h.width, h.bits, h.canonical, fun val => ?_, h.const⟩
      rw [h.value, Nat.cast_add, hn, add_zero]
    · rw [if_neg hzero]
      refine ⟨rfl, h.bits, h.canonical.addScaled _ _, fun val => ?_, ?_⟩
      · show (t.linearForm.addScaled (number addressBits n).linearForm 1).value val = _
        rw [value_addScaled val h.bits, h.value, number, value_const, hcast, Nat.cast_one, one_mul,
          Nat.cast_add, add_assoc]
      · rw [← h.const, hx]
        rfl

/-! ### Telling offsets apart -/

theorem AtOffset.truncate (h : base.AtOffset n t) :
    base.AtOffset (Word.truncate addressBits n) t where
  width := h.width
  bits := h.bits
  canonical := h.canonical
  value val := by rw [h.value, cast_truncate (by decide)]
  const := h.const

theorem AtOffset.unique (hm : base.AtOffset m t) (hn : base.AtOffset n t) :
    Word.truncate addressBits m = Word.truncate addressBits n :=
  truncate_eq_iff.2 (add_left_cancel ((hm.value fun _ => 0).symm.trans (hn.value fun _ => 0)))

/-- Two sums of one base that are constants are equal exactly if the offsets are the same. -/
theorem AtOffset.const_eq_iff (hs : base.AtOffset m s) (ht : base.AtOffset n t) {x y : Nat}
    (hx : s.const? = some x) (hy : t.const? = some y) :
    x = y ↔ Word.truncate addressBits m = Word.truncate addressBits n := by
  have hvx := hs.value_of_const? hx fun _ => 0
  have hvy := ht.value_of_const? hy fun _ => 0
  rw [truncate_eq_iff, ← cast_inj (hs.lt_of_const? hx) (ht.lt_of_const? hy), ← hvx, ← hvy,
    add_right_inj]

/-- The distance from one offset to another, which may wrap. -/
def distance (m n : Nat) : Nat :=
  Word.binary .sub addressBits (Word.truncate addressBits m) (Word.truncate addressBits n)

theorem distance_eq_zero_iff :
    distance m n = 0 ↔ Word.truncate addressBits m = Word.truncate addressBits n :=
  Word.sub_eq_zero_iff (Word.truncate_lt _ _) (Word.truncate_lt _ _)

theorem cast_distance (m n : Nat) : (distance m n : ZMod (Word.weight addressBits)) = m - n := by
  rw [distance, cast_sub (by decide), cast_truncate (by decide), cast_truncate (by decide)]

/-- **The difference of two sums of one base** has the form of a constant, as no atom changes its
value. -/
theorem AtOffset.linearForm_sub (hs : base.AtOffset m s) (ht : base.AtOffset n t) :
    (binary .sub addressBits s t).linearForm =
      (Term.const addressBits (distance m n)).linearForm := by
  have hbits : (binary .sub addressBits s t).linearForm.bits = addressBits := hs.bits
  have hvalue (val : String → ZMod (Word.weight addressBits)) :
      (binary .sub addressBits s t).linearForm.value val =
        (Term.const addressBits (distance m n)).linearForm.value val := by
    show (s.linearForm.addScaled t.linearForm.negate 1).value val = _
    rw [value_addScaled val hs.bits, value_negate val ht.bits, hs.value, ht.value, value_const,
      cast_distance]
    ring
  have hlt : distance m n < Word.count addressBits := Word.binary_lt _ _ _ _
  have hcanonical : (binary .sub addressBits s t).linearForm.Canonical :=
    hs.canonical.addScaled _ _
  refine hcanonical.ext_value ⟨.nil, List.forall_mem_nil _, hlt⟩ hbits ?_ ?_
  · rw [hbits, hvalue]
  · intro a _
    rw [hbits, hvalue]

/-- **The solver's verdict on the difference**: it is zero exactly if the offsets are the same. -/
theorem AtOffset.linearVerdict_sub (hs : base.AtOffset m s) (ht : base.AtOffset n t) :
    (binary .sub addressBits s t).linearVerdict =
      if Word.truncate addressBits m = Word.truncate addressBits n then .zero else .nonzero := by
  have hxor : (binary .sub addressBits s t).isXorOfEqualForms = false := rfl
  unfold linearVerdict
  rw [hxor, if_neg Bool.false_ne_true, hs.linearForm_sub ht]
  show Verdict.ofNumber (distance m n) = _
  simp only [Verdict.ofNumber, distance_eq_zero_iff]

end Term

/-! ### The walk -/

/-- Is the built-in solver attached? -/
def Symbolic.Normalizes (s : Symbolic Backend) : Prop := ∃ n, s.solver = some (.normalizer n)

/-- The built-in solver answers by linear forms, and it stays attached. -/
theorem Symbolic.Normalizes.proveZero {s : Symbolic Backend} (hs : s.Normalizes) {t : Term}
    (ht : t.const? = none) :
    ∃ s', Symbolic.proveZero t s = (t.linearVerdict, s') ∧ s'.Normalizes := by
  obtain ⟨next, solver, journal⟩ := s
  obtain ⟨n, rfl⟩ := hs
  unfold Symbolic.proveZero
  rw [ht]
  exact ⟨_, rfl, _, rfl⟩

section

variable {base address : Term} {m n : Nat} {s : Symbolic Backend}

/-- **Cells at offsets from the base of an address are told apart.** -/
theorem Cell.classify_atOffset (ha : base.AtOffset n address) {c : Cell}
    (hc : base.AtOffset m c.address) (hs : s.Normalizes) :
    ∃ s', c.classify address true s =
        (if Word.truncate addressBits n = Word.truncate addressBits m then .must else .never, s') ∧
      s'.Normalizes := by
  have hconst := ha.const.trans hc.const.symm
  cases hx : address.const? with
  | some x =>
    rw [hx, Option.isSome_some] at hconst
    obtain ⟨y, hy⟩ := Option.isSome_iff_exists.1 hconst.symm
    have hequal := congrArg Term.const? (Term.mkEqual_of_some hx hy)
    refine ⟨s, ?_, hs⟩
    rw [classify_of_some hequal]
    simp only [ha.const_eq_iff hc hx hy]
    split <;> rfl
  | none =>
    rw [hx, Option.isSome_none] at hconst
    have hy : c.address.const? = none := Option.not_isSome_iff_eq_none.1 (by rw [← hconst]; decide)
    have hequal := Term.mkEqual_of_none (t := c.address) hx
    by_cases heq : address = c.address
    · rw [if_pos heq] at hequal
      have hsame := ha.unique (heq ▸ hc)
      refine ⟨s, ?_, hs⟩
      rw [classify_of_some (congrArg Term.const? hequal), if_pos hsame]
      rfl
    · rw [if_neg heq] at hequal
      have hsub : Term.mkBinary .sub addressBits address c.address =
          .binary .sub addressBits address c.address := by
        rw [Term.mkBinary_of_none hx]
        simp only [Term.mkBinaryOpen, heq, hy, reduceCtorEq, if_false]
      obtain ⟨s', hprove, hs'⟩ := hs.proveZero
        (t := .binary .sub addressBits address c.address) rfl
      refine ⟨s', ?_, hs'⟩
      unfold classify
      rw [hequal]
      show (((Symbolic.proveZero (.mkBinary .sub addressBits address c.address)) s).1.alias,
        ((Symbolic.proveZero (.mkBinary .sub addressBits address c.address)) s).2) = _
      rw [hsub, hprove, ha.linearVerdict_sub hc]
      split <;> rfl

/-- Is the cell the byte of a write at an offset from a base? -/
structure Cell.HoldsAt (base : Term) (c : Cell) (w : Nat × UInt8) : Prop where
  address : base.AtOffset w.1 c.address
  offset : w.1 < Word.count addressBits
  value : c.value = .exact 8 w.2.toNat

namespace MemoryLog

/-- **The walk finds the newest byte at the offset**, and no candidate before it. By induction
on the writes from the newest: its cell is the base of the walk, or it is skipped. -/
theorem scan_atOffset {cells older : List Cell} {writes : List (Nat × UInt8)}
    (hcells : List.Forall₂ (Cell.HoldsAt base) cells writes) (ha : base.AtOffset n address)
    (hn : n < Word.count addressBits) (hwritten : ∃ w ∈ writes, w.1 = n) (hs : s.Normalizes) :
    ∃ c s', scan address true (cells ++ older) s = (([], some c), s') ∧ s'.Normalizes ∧
      c.value = .exact 8 (newest writes n 0).toNat := by
  induction hcells generalizing s with
  | nil =>
    obtain ⟨w, hw, -⟩ := hwritten
    cases hw
  | @cons c w cells writes hc hcells ih =>
    obtain ⟨s', hclassify, hs'⟩ := Cell.classify_atOffset ha hc.address hs
    rw [Word.truncate_of_lt hn, Word.truncate_of_lt hc.offset] at hclassify
    rw [List.cons_append, scan_cons, hclassify, newest_cons]
    by_cases hw : n = w.1
    · rw [if_pos hw, if_pos hw.symm]
      exact ⟨c, s', rfl, hs', hc.value⟩
    · rw [if_neg hw, if_neg (Ne.symm hw)]
      refine ih ?_ hs'
      obtain ⟨v, hv, heq⟩ := hwritten
      rcases List.mem_cons.1 hv with rfl | hv
      · exact absurd heq.symm hw
      · exact ⟨v, hv, heq⟩

/-- A walk that stops at a byte every domain knows, without a candidate before it, gives it. -/
theorem readByte_of_scan {σ : Type} [Solver σ] {log : MemoryLog} {prune : Bool}
    {s s₁ : Symbolic σ} {c : Cell} {b : Nat} (hwidth : address.width = addressBits)
    (hscan : scan address prune log.cells s = (([], some c), s₁)) (hc : c.value = .exact 8 b) :
    ∃ s', log.readByte address prune s = (.ok (.exact 8 b), s') ∧ s'.solver = s₁.solver := by
  have hterm : c.value.symbolic? = some (.number 8 b) := congrArg Value.symbolic? hc
  have hconcrete : mergeConcrete c [] = some (Word.truncate 8 b) := congrArg Value.concrete hc
  have hinterval : mergeInterval c [] = some (.exact 8 b) := congrArg Value.interval? hc
  obtain ⟨s', hread, hsolver⟩ := readByte_of_base hwidth hscan hterm rfl
  refine ⟨s', ?_, hsolver⟩
  rw [hread, known, hconcrete, hinterval]
  rfl

/-- **The walk skips cells at other offsets** and stops at the first cell at the very address. -/
theorem scan_first {cells older : List Cell}
    (hcells : ∀ c ∈ cells, c.address = address ∨ ∃ m, base.AtOffset m c.address ∧
      Word.truncate addressBits n ≠ Word.truncate addressBits m)
    (hmem : ∃ c ∈ cells, c.address = address) (ha : base.AtOffset n address) (hs : s.Normalizes) :
    ∃ c s', c ∈ cells ∧ c.address = address ∧
      scan address true (cells ++ older) s = (([], some c), s') ∧ s'.Normalizes := by
  induction cells generalizing s with
  | nil =>
    obtain ⟨c, hc, -⟩ := hmem
    cases hc
  | cons d cells ih =>
    obtain ⟨hd, hcells⟩ := List.forall_mem_cons.1 hcells
    rw [List.cons_append, scan_cons]
    by_cases heq : d.address = address
    · have hequal : (Term.mkEqual address d.address).const? = some 1 := by
        rw [heq]
        exact Term.const?_mkEqual_self address
      rw [Cell.classify_of_some hequal]
      exact ⟨d, s, List.mem_cons_self, heq, rfl, hs⟩
    · obtain ⟨m, hm, hne⟩ := hd.resolve_left heq
      obtain ⟨s₁, hclassify, hs₁⟩ := Cell.classify_atOffset ha hm hs
      have hmem : ∃ c ∈ cells, c.address = address := by
        obtain ⟨c, hc, hca⟩ := hmem
        rcases List.mem_cons.1 hc with rfl | hc
        · exact absurd hca heq
        · exact ⟨c, hc, hca⟩
      obtain ⟨c, s₂, hc, hca, hscan, hs₂⟩ := ih hcells hmem hs₁
      rw [hclassify, if_neg hne]
      exact ⟨c, s₂, List.mem_cons_of_mem _ hc, hca, hscan, hs₂⟩

/-- **The byte at an offset** is the newest that was written there. -/
theorem readByte_atOffset {log : MemoryLog} {cells older : List Cell}
    {writes : List (Nat × UInt8)} (hlog : log.cells = cells ++ older)
    (hcells : List.Forall₂ (Cell.HoldsAt base) cells writes) (ha : base.AtOffset n address)
    (hn : n < Word.count addressBits) (hwritten : ∃ w ∈ writes, w.1 = n) (hs : s.Normalizes) :
    ∃ s', log.readByte address true s = (.ok (.exact 8 (newest writes n 0).toNat), s') ∧
      s'.Normalizes := by
  obtain ⟨c, s₁, hscan, ⟨k, hk⟩, hc⟩ :
      ∃ c s₁, scan address true (cells ++ older) s = (([], some c), s₁) ∧ s₁.Normalizes ∧
        c.value = .exact 8 (newest writes n 0).toNat :=
    scan_atOffset hcells ha hn hwritten hs
  rw [← hlog] at hscan
  obtain ⟨s', hread, hsolver⟩ := readByte_of_scan ha.width hscan hc
  exact ⟨s', hread, k, hsolver.trans hk⟩

/-- The byte is the only one found, so no bounds are put together. -/
theorem readFits_atOffset {log : MemoryLog} {cells older : List Cell}
    {writes : List (Nat × UInt8)} (hlog : log.cells = cells ++ older)
    (hcells : List.Forall₂ (Cell.HoldsAt base) cells writes) (ha : base.AtOffset n address)
    (hn : n < Word.count addressBits) (hwritten : ∃ w ∈ writes, w.1 = n) (hs : s.Normalizes) :
    log.readFits address true s = true := by
  obtain ⟨c, s₁, hscan, -, -⟩ :
      ∃ c s₁, scan address true (cells ++ older) s = (([], some c), s₁) ∧ s₁.Normalizes ∧
        c.value = .exact 8 (newest writes n 0).toNat :=
    scan_atOffset hcells ha hn hwritten hs
  unfold readFits
  rw [if_neg (not_not_intro ha.width), hlog, hscan]
  rfl

end MemoryLog

end

end Lockstep
