/-
# What pruning does to a read

With pruning the solver rules out candidates and finds bases earlier, and if
it is right this only sharpens a read: the term denotes the same byte under
every assignment, the range has no new members, and a number stays what it
was. The two walks may end at different cells, but what the pruned one finds
is among what the other one finds.

Key definitions: `Cell.Full`.
Key theorems: `MemoryLog.scan_pruned`, `MemoryLog.mergeInterval_around`,
`MemoryLog.readByte_pruned`.
-/
import Lockstep.Proofs.Interval.Hull
import Lockstep.Proofs.Memory.Terms
import Lockstep.Proofs.Value.Exact

namespace Lockstep

/-- Does the byte of the cell have a term and a normal range? -/
structure Cell.Full (c : Cell) : Prop where
  symbolic : c.value.symbolic.isSome = true
  interval : ∃ i, c.value.interval = some i ∧ i.Normal 8

theorem Cell.Full.hasTerm {c : Cell} (h : c.Full) : c.HasTerm := by
  obtain ⟨t, ht⟩ := Option.isSome_iff_exists.1 h.symbolic
  exact Option.isSome_iff_exists.2 ⟨t, Value.symbolic?_of_symbolic ht⟩

def Cell.range (c : Cell) : Interval := c.value.interval.getD (.top 8)

theorem Cell.Full.range {c : Cell} (h : c.Full) :
    c.value.interval? = some c.range ∧ c.range.Normal 8 := by
  obtain ⟨i, hi, hnormal⟩ := h.interval
  unfold Cell.range Value.interval?
  rw [hi]
  exact ⟨rfl, hnormal⟩

namespace MemoryLog

variable {σ : Type} {V : Widths} {address : Term}

/-! ### The two walks -/

section

variable [Solver σ]

/-- **What the pruned walk finds**: its candidates are candidates of the other walk, and where
that finds a base it finds one too, this or a candidate. By induction on the cells: what folding
decides, both skip or stop at, and the rest are candidates without pruning. -/
theorem scan_pruned (address : Term) (cells : List Cell) (s s' : Symbolic σ) :
    let pruned := (scan address true cells s).1
    let whole := (scan address false cells s').1
    (∀ c ∈ pruned.1, c ∈ whole.1) ∧
      ∀ b, whole.2 = some b → ∃ b', pruned.2 = some b' ∧ b' ∈ b :: whole.1 := by
  induction cells generalizing s s' with
  | nil => exact ⟨nofun, nofun⟩
  | cons c cells ih =>
    rw [scan_cons, scan_cons]
    cases hequal : (Term.mkEqual address c.address).const? with
    | some k =>
      rw [Cell.classify_of_some hequal, Cell.classify_of_some hequal]
      by_cases hk : k = 1
      · rw [if_pos hk]
        refine ⟨nofun, ?_⟩
        rintro b ⟨⟩
        exact ⟨c, rfl, List.mem_cons_self⟩
      · rw [if_neg hk]
        exact ih s s'
    | none =>
      have hmay : c.classify address false s' = (.may, s') := by
        unfold Cell.classify
        rw [hequal]
        rfl
      rw [hmay]
      obtain ⟨hcandidates, hbase⟩ := ih (c.classify address true s).2 s'
      cases (c.classify address true s).1 with
      | must =>
        exact ⟨nofun, fun b _ => ⟨c, rfl, List.mem_cons_of_mem _ List.mem_cons_self⟩⟩
      | may =>
        refine ⟨fun d hd => ?_, fun b hb => ?_⟩
        · rcases List.mem_cons.1 hd with rfl | hd
          · exact List.mem_cons_self
          · exact List.mem_cons_of_mem _ (hcandidates d hd)
        · obtain ⟨b', hb', hmem⟩ := hbase b hb
          exact ⟨b', hb', (List.cons_subset_cons b (List.subset_cons_self _ _)) hmem⟩
      | never =>
        refine ⟨fun d hd => List.mem_cons_of_mem _ (hcandidates d hd), fun b hb => ?_⟩
        obtain ⟨b', hb', hmem⟩ := hbase b hb
        exact ⟨b', hb', (List.cons_subset_cons b (List.subset_cons_self _ _)) hmem⟩

end

/-! ### The number and the range -/

/-- The number of the base stays where every candidate has it. -/
theorem mergeConcrete_of_forall {base : Cell} {cs : List Cell} {n : Nat}
    (h : ∀ c ∈ base :: cs, c.value.concrete = some n) : mergeConcrete base cs = some n := by
  obtain ⟨hbase, hcs⟩ := List.forall_mem_cons.1 h
  unfold mergeConcrete
  rw [if_pos, hbase]
  exact List.all_eq_true.2 fun c hc => decide_eq_true ((hcs c hc).trans hbase.symm)

/-- A range around some ranges becomes one around those of the candidates too. By induction on
the candidates: each is one more hull. -/
theorem foldl_hullByte_around {cs : List Cell} (hcs : ∀ c ∈ cs, c.Full) {i : Interval}
    {js : List Interval} (hi : Interval.Around 8 js i) :
    ∃ k, cs.foldl (fun i c => hullByte i c.value.interval?) (some i) = some k ∧
      Interval.Around 8 (cs.reverse.map Cell.range ++ js) k := by
  induction cs generalizing i js with
  | nil => exact ⟨i, rfl, hi⟩
  | cons c cs ih =>
    obtain ⟨hc, hcs⟩ := List.forall_mem_cons.1 hcs
    obtain ⟨hrange, hnormal⟩ := hc.range
    obtain ⟨k, hk, haround⟩ := ih hcs (hi.hull (by decide) hnormal)
    refine ⟨k, ?_, ?_⟩
    · rw [List.foldl_cons, hrange]
      exact hk
    · simpa using haround

/-- **The merged range** is around the ranges of the base and the candidates. -/
theorem mergeInterval_around {base : Cell} {cs : List Cell} (hbase : base.Full)
    (hcs : ∀ c ∈ cs, c.Full) :
    ∃ i, mergeInterval base cs = some i ∧
      Interval.Around 8 (cs.reverse.map Cell.range ++ [base.range]) i := by
  obtain ⟨hrange, hnormal⟩ := hbase.range
  unfold mergeInterval
  rw [hrange]
  exact foldl_hullByte_around hcs hnormal.around

theorem mem_ranges {base : Cell} {cs : List Cell} {k : Interval} :
    k ∈ cs.reverse.map Cell.range ++ [base.range] ↔ ∃ c ∈ base :: cs, c.range = k := by
  simp [or_comm, eq_comm]

/-! ### The byte -/

/-- What the pruned read knows besides the term, where the other read has a base. -/
theorem known_pruned {base base' : Cell} {cs cs' : List Cell} (hbase : base.Full)
    (hcs : ∀ c ∈ cs, c.Full) (hmem : base' ∈ base :: cs) (hsub : ∀ c ∈ cs', c ∈ cs) :
    (∃ i i', (known (some base) cs).interval = some i ∧
      (known (some base') cs').interval = some i' ∧ ∀ n, i'.Mem 8 n → i.Mem 8 n) ∧
    ∀ n, (known (some base) cs).concrete = some n → (known (some base') cs').concrete = some n := by
  have hall : ∀ c ∈ base :: cs, c.Full := List.forall_mem_cons.2 ⟨hbase, hcs⟩
  have hfound : ∀ c ∈ base' :: cs', c ∈ base :: cs :=
    List.forall_mem_cons.2 ⟨hmem, fun c hc => List.mem_cons_of_mem _ (hsub c hc)⟩
  refine ⟨?_, fun n hn => mergeConcrete_of_forall fun c hc => ?_⟩
  · obtain ⟨i, hi, haround⟩ := mergeInterval_around hbase hcs
    obtain ⟨i', hi', haround'⟩ := mergeInterval_around (hall base' hmem)
      fun c hc => hcs c (hsub c hc)
    refine ⟨i, i', hi, hi', fun n hn => haround'.mem_mono (by decide) haround (fun k hk => ?_) hn⟩
    obtain ⟨c, hc, rfl⟩ := mem_ranges.1 hk
    exact mem_ranges.2 ⟨c, hfound c hc, rfl⟩
  · have hnumbers : ∀ c ∈ base :: cs, c.value.concrete = some n :=
      List.forall_mem_cons.2 (mergeConcrete_eq_some hn)
    exact hnumbers c (hfound c hc)

variable [Solver σ]

/-- **Pruning only sharpens a read.** If the solver is right and the cells have terms and normal
ranges, a read with pruning and one without, from the same state, both succeed, with terms
that denote the same byte under every assignment. The range with pruning has no member that
the one without has not, and the number without pruning, if there is one, is that with it. -/
theorem readByte_pruned (hsolver : Solver.RightOver σ V) (log : MemoryLog)
    (hlog : ∀ c ∈ log.cells, c.WellFormed V ∧ c.Full) (ha : address.Typed V)
    (hwidth : address.width = addressBits) (s : Symbolic σ) :
    ∃ v v' s₁ s₂, log.readByte address false s = (.ok v, s₁) ∧
      log.readByte address true s = (.ok v', s₂) ∧
      (∃ t t', v.symbolic = some t ∧ v'.symbolic = some t' ∧ ∀ ρ, t'.eval ρ = t.eval ρ) ∧
      (∃ i i', v.interval = some i ∧ v'.interval = some i' ∧ ∀ n, i'.Mem 8 n → i.Mem 8 n) ∧
      ∀ n, v.concrete = some n → v'.concrete = some n := by
  have hterms : ∀ c ∈ log.cells, c.WellFormed V ∧ c.HasTerm :=
    fun c hc => ⟨(hlog c hc).1, (hlog c hc).2.hasTerm⟩
  obtain ⟨t, s₁, hread, ht⟩ := readByte_terms hsolver hterms ha hwidth false (s := s) rfl
  obtain ⟨t', s₂, hread', ht'⟩ := readByte_terms hsolver hterms ha hwidth true (s := s) rfl
  refine ⟨_, _, s₁, s₂, hread, hread',
    ⟨t, t', rfl, rfl, fun ρ => (ht'.eval ρ).trans (ht.eval ρ).symm⟩, ?_⟩
  obtain ⟨hcandidates, hbases⟩ := scan_pruned address log.cells s s
  obtain ⟨hmem, hmemBase⟩ := mem_scan address false log.cells s
  obtain ⟨hmem', hmemBase'⟩ := mem_scan address true log.cells s
  generalize scan address false log.cells s = whole at hcandidates hbases hmem hmemBase ⊢
  generalize scan address true log.cells s = pruned at hcandidates hbases hmem' hmemBase' ⊢
  obtain ⟨⟨cs, base⟩, _⟩ := whole
  obtain ⟨⟨cs', base'⟩, _⟩ := pruned
  cases base with
  | none =>
    -- without a base nothing is known but that it is a byte
    refine ⟨?_, nofun⟩
    cases base' with
    | none => exact ⟨.top 8, .top 8, rfl, rfl, fun _ h => h⟩
    | some b' =>
      obtain ⟨i', hi', -⟩ := mergeInterval_around (hlog b' (hmemBase' b' rfl)).2
        fun c hc => (hlog c (hmem' c hc)).2
      exact ⟨.top 8, i', rfl, hi', fun n hn => Interval.mem_top (by decide) (hn.lt (by decide))⟩
  | some b =>
    obtain ⟨b', rfl, hb'⟩ := hbases b rfl
    exact known_pruned (hlog b (hmemBase b rfl)).2 (fun c hc => (hlog c (hmem c hc)).2) hb'
      hcandidates

/-- A read at a variable, where the newest cell is one byte above: only the solver tells them
apart. -/
theorem readByte_pruned_above :
    let x : Term := .var 32 3
    let log : MemoryLog :=
      ⟨[⟨.binary .add 32 x (.const 32 1), .exact 8 7⟩, ⟨x, .exact 8 9⟩]⟩
    let s : Symbolic Normalizer := { solver := some {} }
    ∃ v v' s₁ s₂, log.readByte x false s = (.ok v, s₁) ∧ log.readByte x true s = (.ok v', s₂) ∧
      (∃ t t', v.symbolic = some t ∧ v'.symbolic = some t' ∧ ∀ ρ, t'.eval ρ = t.eval ρ) ∧
      (∃ i i', v.interval = some i ∧ v'.interval = some i' ∧ ∀ n, i'.Mem 8 n → i.Mem 8 n) ∧
      ∀ n, v.concrete = some n → v'.concrete = some n := by
  intro x log s
  have hV : Widths.Functional fun _ w => w = 32 := by
    rintro id w w' rfl rfl
    rfl
  have hx : x.Typed fun _ w => w = 32 := Term.typed_var.2 ⟨by decide, by decide, rfl⟩
  have hone : (Term.const 32 1).Typed fun _ w => w = 32 :=
    Term.typed_const.2 ⟨by decide, by decide, by decide⟩
  have hcell {address : Term} (ha : address.Typed fun _ w => w = 32)
      (hw : address.width = addressBits) {n : Nat} (hn : n < 256) :
      (Cell.mk address (.exact 8 n)).WellFormed (fun _ w => w = 32) ∧
        (Cell.mk address (.exact 8 n)).Full := by
    have hlt : n < Word.count 8 := hn
    have hnumber := Term.denotes_number (V := fun _ w => w = 32) (w := 8) (by decide) (by decide) n
    refine ⟨⟨ha, hw, ⟨Nat.succ_pos 7, show 8 ≤ maxBits by decide, ?_, ?_⟩, rfl⟩, rfl,
      .exact 8 n, rfl, ?_⟩
    · rintro m ⟨⟩
      exact Word.truncate_lt 8 n
    · rintro t ⟨⟩
      exact ⟨hnumber.typed, rfl⟩
    · rw [Interval.exact, Word.truncate_of_lt hlt, ← Interval.make_self (by decide) hlt]
      exact Interval.normal_make (by decide) _ _
  exact readByte_pruned (Normalizer.rightOver hV) log
    (List.forall_mem_cons.2 ⟨hcell (Term.typed_binary.2 ⟨hx, hone, rfl, rfl⟩) rfl (by decide),
      List.forall_mem_singleton.2 (hcell hx rfl (by decide))⟩) hx rfl s

end MemoryLog
end Lockstep
