/-
# The walk through the log

A log stands for a memory: an initial one, overwritten cell by cell, the
oldest first. The walk from the newest cell keeps the byte at an address,
whatever the addresses and the bytes of the cells are: a skipped cell is
elsewhere under every assignment, and the base hides what is older.

Key definitions: `Cell.WellFormed`, `Alias.Right`, `MemoryLog.overwritten`.
Key theorems: `Cell.classify_right`, `MemoryLog.scan_sound`.
-/
import Lockstep.Memory.Log
import Lockstep.Proofs.Solver.Right
import Lockstep.Proofs.Term.Folding
import Lockstep.Proofs.Value.Meaning

namespace Lockstep

/-! ### Aliases -/

/-- Does an alias of two addresses hold under every assignment? -/
def Alias.Right : Alias → Term → Term → Prop
  | must, s, t => ∀ ρ, s.eval ρ = t.eval ρ
  | never, s, t => ∀ ρ, s.eval ρ ≠ t.eval ρ
  | may, _, _ => True

/-- A byte cell at a typed address of the width of addresses. -/
structure Cell.WellFormed (V : Widths) (c : Cell) : Prop where
  address : c.address.Typed V
  width : c.address.width = addressBits
  value : c.value.WellFormed V
  bits : c.value.bits = 8

theorem Cell.WellFormed.mono {V V' : Widths} {c : Cell} (h : c.WellFormed V)
    (hV : ∀ id w, V id w → V' id w) : c.WellFormed V' :=
  ⟨h.address.mono fun id w _ => hV id w, h.width, h.value.mono hV, h.bits⟩

/-- The difference of two words is zero exactly if they are equal. -/
theorem Word.sub_eq_zero_iff {w a b : Nat} (ha : a < count w) (hb : b < count w) :
    binary .sub w a b = 0 ↔ a = b := by
  constructor
  · intro h
    rw [binary, truncate_of_lt hb, truncate] at h
    by_cases hlt : a < b
    · rw [Nat.mod_eq_of_lt (by omega)] at h
      omega
    · rw [show a + (count w - b) = a - b + count w by omega, Nat.add_mod_right,
        Nat.mod_eq_of_lt (by omega)] at h
      omega
  · rintro rfl
    exact sub_self ha

namespace Cell

variable {σ : Type} [Solver σ] {V : Widths} {address : Term} {c : Cell}

theorem nextVariable_classify (address : Term) (prune : Bool) (c : Cell) (s : Symbolic σ) :
    (c.classify address prune s).2.nextVariable = s.nextVariable := by
  unfold classify
  cases (Term.mkEqual address c.address).const? with
  | some n => rfl
  | none =>
    cases prune with
    | false => rfl
    | true => exact Symbolic.nextVariable_proveZero _ s

/-- What folding decides is not put to the solver, with or without pruning. -/
theorem classify_of_some {k : Nat} (h : (Term.mkEqual address c.address).const? = some k)
    (prune : Bool) (s : Symbolic σ) :
    c.classify address prune s = (if k = 1 then .must else .never, s) := by
  unfold classify
  rw [h]
  rfl

/-- **What is told of two addresses is right**, whether folding or the solver tells it. -/
theorem classify_right (hsolver : Solver.RightOver σ V) (ha : address.Typed V)
    (hwidth : address.width = addressBits) (hc : c.WellFormed V) (prune : Bool) (s : Symbolic σ) :
    (c.classify address prune s).1.Right address c.address := by
  have hda : address.Denotes V addressBits address.eval := ⟨ha, hwidth, fun _ => rfl⟩
  have hdc : c.address.Denotes V addressBits c.address.eval := ⟨hc.address, hc.width, fun _ => rfl⟩
  unfold classify
  cases hn : (Term.mkEqual address c.address).const? with
  | some n =>
    have heq := (Term.denotes_mkEqual hda hdc).const? hn
    show (if n = 1 then Alias.must else Alias.never).Right address c.address
    split
    · rename_i hone
      intro ρ
      by_contra hne
      have := heq ρ
      rw [if_neg hne] at this
      omega
    · rename_i hone
      intro ρ hne
      have := heq ρ
      rw [if_pos hne] at this
      omega
  | none =>
    cases prune with
    | false => trivial
    | true =>
      have hsub := Term.denotes_mkBinary hda hdc .sub
      have hright := Symbolic.proveZero_right hsolver hsub.typed s
      show (Symbolic.proveZero (.mkBinary .sub addressBits address c.address) s).1.alias.Right
        address c.address
      have hzero (ρ : Assignment) := Word.sub_eq_zero_iff (hda.lt ρ) (hdc.lt ρ)
      cases hv : (Symbolic.proveZero (.mkBinary .sub addressBits address c.address) s).1 with
      | zero =>
        rw [hv] at hright
        exact fun ρ => (hzero ρ).1 ((hsub.eval ρ).symm.trans (hright ρ))
      | nonzero =>
        rw [hv] at hright
        exact fun ρ heq => hright ρ ((hsub.eval ρ).trans ((hzero ρ).2 heq))
      | unknown => trivial

end Cell

namespace MemoryLog

variable {σ : Type} {V : Widths} {address : Term}

/-! ### The walk -/

/-- A memory overwritten by bytes at the addresses of cells. The first cell is
the newest: the others are written before it. -/
def overwritten (ρ : Assignment) (memory : Nat → Nat) : List (Cell × Nat) → Nat → Nat
  | [], a => memory a
  | (c, byte) :: cs, a => if a = c.address.eval ρ then byte else overwritten ρ memory cs a

/-- A byte of the memory is an initial one or that of a cell. -/
theorem overwritten_cases (ρ : Assignment) (memory : Nat → Nat) (l : List (Cell × Nat)) (a : Nat) :
    overwritten ρ memory l a = memory a ∨ ∃ p ∈ l, overwritten ρ memory l a = p.2 := by
  induction l with
  | nil => exact .inl rfl
  | cons p l ih =>
    obtain ⟨c, byte⟩ := p
    unfold overwritten
    split
    · exact .inr ⟨(c, byte), List.mem_cons_self, rfl⟩
    · rcases ih with h | ⟨p, hp, h⟩
      · exact .inl h
      · exact .inr ⟨p, List.mem_cons_of_mem _ hp, h⟩

theorem overwritten_lt {ρ : Assignment} {memory : Nat → Nat} {l : List (Cell × Nat)}
    (hmemory : ∀ a, memory a < Word.count 8) (hl : ∀ p ∈ l, p.2 < Word.count 8) (a : Nat) :
    overwritten ρ memory l a < Word.count 8 := by
  rcases overwritten_cases ρ memory l a with h | ⟨p, hp, h⟩
  · exact h ▸ hmemory a
  · exact h ▸ hl p hp

/-- A byte depends on the addresses of the cells and on the initial byte at its address. -/
theorem overwritten_congr {ρ ρ' : Assignment} {memory memory' : Nat → Nat} {a : Nat}
    (hmemory : memory a = memory' a) {l : List (Cell × Nat)}
    (hl : ∀ p ∈ l, p.1.address.eval ρ = p.1.address.eval ρ') :
    overwritten ρ memory l a = overwritten ρ' memory' l a := by
  induction l with
  | nil => exact hmemory
  | cons p l ih =>
    obtain ⟨c, byte⟩ := p
    obtain ⟨hc, hl⟩ := List.forall_mem_cons.1 hl
    have hc : c.address.eval ρ = c.address.eval ρ' := hc
    simp only [overwritten, hc, ih hl]

variable [Solver σ]

theorem scan_cons (address : Term) (prune : Bool) (c : Cell) (cs : List Cell) (s : Symbolic σ) :
    scan address prune (c :: cs) s =
      match (c.classify address prune s).1 with
      | .never => scan address prune cs (c.classify address prune s).2
      | .must => (([], some c), (c.classify address prune s).2)
      | .may =>
        ((c :: (scan address prune cs (c.classify address prune s).2).1.1,
          (scan address prune cs (c.classify address prune s).2).1.2),
         (scan address prune cs (c.classify address prune s).2).2) := by
  rw [scan, applyState_bind]
  cases (c.classify address prune s).1 <;> rfl

theorem nextVariable_scan (address : Term) (prune : Bool) (cs : List Cell) (s : Symbolic σ) :
    (scan address prune cs s).2.nextVariable = s.nextVariable := by
  induction cs generalizing s with
  | nil => rfl
  | cons c cs ih =>
    have hc := Cell.nextVariable_classify address prune c s
    rw [scan_cons]
    cases (c.classify address prune s).1 with
    | must => exact hc
    | may => exact (ih _).trans hc
    | never => exact (ih _).trans hc

theorem mem_scan (address : Term) (prune : Bool) (cs : List Cell) (s : Symbolic σ) :
    (∀ c ∈ (scan address prune cs s).1.1, c ∈ cs) ∧
      ∀ c ∈ (scan address prune cs s).1.2, c ∈ cs := by
  induction cs generalizing s with
  | nil => exact ⟨nofun, nofun⟩
  | cons c cs ih =>
    rw [scan_cons]
    obtain ⟨h1, h2⟩ := ih (c.classify address prune s).2
    cases (c.classify address prune s).1 with
    | must =>
      refine ⟨nofun, ?_⟩
      rintro c' ⟨⟩
      exact List.mem_cons_self
    | may =>
      refine ⟨fun c' hc' => ?_, fun c' hc' => List.mem_cons_of_mem _ (h2 c' hc')⟩
      rcases List.mem_cons.1 hc' with rfl | hc'
      · exact List.mem_cons_self
      · exact List.mem_cons_of_mem _ (h1 c' hc')
    | never =>
      exact ⟨fun c' hc' => List.mem_cons_of_mem _ (h1 c' hc'),
        fun c' hc' => List.mem_cons_of_mem _ (h2 c' hc')⟩

/-- **The walk keeps the byte at the address**: it is that of a memory which is
the base, or the initial memory if there is none, overwritten by the candidates. -/
theorem scan_sound (hsolver : Solver.RightOver σ V) (ha : address.Typed V)
    (hwidth : address.width = addressBits) (prune : Bool) (ρ : Assignment) (memory : Nat → Nat)
    (l : List (Cell × Nat)) (hl : ∀ p ∈ l, p.1.WellFormed V) (s : Symbolic σ) :
    ∃ (candidates : List (Cell × Nat)) (base : Option (Cell × Nat)),
      (scan address prune (l.map Prod.fst) s).1 = (candidates.map Prod.fst, base.map Prod.fst) ∧
      (∀ p ∈ candidates, p ∈ l) ∧ (∀ p ∈ base, p ∈ l) ∧
      overwritten ρ memory l (address.eval ρ) =
        overwritten ρ (fun a => (base.map Prod.snd).getD (memory a)) candidates
          (address.eval ρ) := by
  induction l generalizing s with
  | nil => exact ⟨[], none, rfl, nofun, nofun, rfl⟩
  | cons p l ih =>
    obtain ⟨c, byte⟩ := p
    obtain ⟨hc, hl⟩ := List.forall_mem_cons.1 hl
    have hright := Cell.classify_right hsolver ha hwidth hc prune s
    obtain ⟨cs, base, hscan, hcs, hbase, heq⟩ := ih hl (c.classify address prune s).2
    rw [List.map_cons, scan_cons]
    cases hv : (c.classify address prune s).1 with
    | must =>
      rw [hv] at hright
      refine ⟨[], some (c, byte), rfl, nofun, ?_, ?_⟩
      · rintro p ⟨⟩
        exact List.mem_cons_self
      · exact if_pos (hright ρ)
    | never =>
      rw [hv] at hright
      refine ⟨cs, base, hscan, fun p hp => List.mem_cons_of_mem _ (hcs p hp),
        fun p hp => List.mem_cons_of_mem _ (hbase p hp), ?_⟩
      rw [← heq]
      exact if_neg (hright ρ)
    | may =>
      refine ⟨(c, byte) :: cs, base, ?_, ?_, fun p hp => List.mem_cons_of_mem _ (hbase p hp), ?_⟩
      · simp only [hscan, List.map_cons]
      · intro p hp
        rcases List.mem_cons.1 hp with rfl | hp
        · exact List.mem_cons_self
        · exact List.mem_cons_of_mem _ (hcs p hp)
      · simp only [overwritten, heq]

end MemoryLog
end Lockstep
