/-
# Reading cells that all have terms

A read that meets cells with terms only makes at most one variable, for the
byte that lies under all choices. What its term denotes is then known under
every assignment, with nothing to be filled in: the byte at the address of a
memory that the cells overwrite with the bytes their terms denote.

Of the cells only the newest matter down to one whose address is the very term
that is read at: there the walk stops, whatever is older.

Key definitions: `Cell.HasTerm`, `Cell.byteUnder`, `MemoryLog.withBytes`.
Key theorems: `MemoryLog.selectAll_terms`, `MemoryLog.readByte_terms`,
`MemoryLog.scan_append_of_mem`, `MemoryLog.readByte_of_base`.
-/
import Lockstep.Proofs.Memory.Read

namespace Lockstep

/-- Is there a term for the byte of the cell? -/
def Cell.HasTerm (c : Cell) : Prop := c.value.symbolic?.isSome = true

/-- The byte that the term of a cell denotes, zero if it has none. -/
def Cell.byteUnder (ρ : Assignment) (c : Cell) : Nat :=
  (c.value.symbolic?.map (Term.eval ρ)).getD 0

theorem Cell.byteUnder_of_some {c : Cell} {t : Term} (h : c.value.symbolic? = some t)
    (ρ : Assignment) : c.byteUnder ρ = t.eval ρ := by
  rw [byteUnder, h]
  rfl

theorem Term.Denotes.mono {V W : Widths} {w : Nat} {f : Assignment → Nat} {t : Term}
    (h : t.Denotes V w f) (hV : ∀ id x, V id x → W id x) : t.Denotes W w f :=
  ⟨h.typed.mono fun id x _ => hV id x, h.width, h.eval⟩

theorem Term.const?_mkEqual_self (t : Term) : (mkEqual t t).const? = some 1 := by
  unfold mkEqual
  split
  · rename_i m n hm hn
    rw [hm] at hn
    rw [if_pos (Option.some.inj hn)]
    rfl
  · rw [if_pos rfl]
    rfl

namespace MemoryLog

/-- The cells with the bytes that their terms denote. -/
def withBytes (ρ : Assignment) (cells : List Cell) : List (Cell × Nat) :=
  cells.map fun c => (c, c.byteUnder ρ)

variable {σ : Type} {V : Widths} {address : Term}

theorem map_fst_withBytes (ρ : Assignment) (cells : List Cell) :
    (withBytes ρ cells).map Prod.fst = cells := by
  rw [withBytes, List.map_map]
  exact List.map_id cells

/-- Cells that are among others with their bytes have these bytes. -/
theorem eq_withBytes {ρ : Assignment} {cells : List Cell} {l : List (Cell × Nat)}
    (h : ∀ p ∈ l, p ∈ withBytes ρ cells) : l = withBytes ρ (l.map Prod.fst) := by
  have hbyte : ∀ p ∈ l, p = (p.1, p.1.byteUnder ρ) := fun p hp => by
    obtain ⟨c, -, rfl⟩ := List.mem_map.1 (h p hp)
    rfl
  rw [withBytes, List.map_map]
  exact (List.map_id l).symm.trans (List.map_congr_left hbyte)

/-- A byte is the one that all cells at its address have, if there is such a cell. -/
theorem overwritten_of_forall {ρ : Assignment} {memory : Nat → Nat} {l : List (Cell × Nat)}
    {a n : Nat} (h : ∃ p ∈ l, p.1.address.eval ρ = a)
    (hall : ∀ p ∈ l, p.1.address.eval ρ = a → p.2 = n) : overwritten ρ memory l a = n := by
  induction l with
  | nil =>
    obtain ⟨p, hp, -⟩ := h
    cases hp
  | cons q l ih =>
    obtain ⟨c, byte⟩ := q
    obtain ⟨hq, hl⟩ := List.forall_mem_cons.1 hall
    unfold overwritten
    by_cases hc : a = c.address.eval ρ
    · rw [if_pos hc]
      exact hq hc.symm
    · rw [if_neg hc]
      refine ih ?_ hl
      obtain ⟨p, hp, hpa⟩ := h
      rcases List.mem_cons.1 hp with rfl | hp
      · exact absurd hpa.symm hc
      · exact ⟨p, hp, hpa⟩

/-- **Choices over cells with terms** make no variable. -/
theorem selectAll_terms (ha : address.Typed V) (hwidth : address.width = addressBits)
    {cs : List Cell} (hcs : ∀ c ∈ cs, c.WellFormed V ∧ c.HasTerm) {t : Term}
    {f : Assignment → Nat} (ht : t.Denotes V 8 f) (s : Symbolic σ) :
    ∃ u, selectAll address cs t s = (u, s) ∧
      u.Denotes V 8 fun ρ => overwritten ρ (fun _ => f ρ) (withBytes ρ cs) (address.eval ρ) := by
  induction cs with
  | nil => exact ⟨t, rfl, ht⟩
  | cons c cs ih =>
    obtain ⟨⟨hc, hterm⟩, hcs⟩ := List.forall_mem_cons.1 hcs
    obtain ⟨u, hselect, hu⟩ := ih hcs
    obtain ⟨b, hb⟩ := Option.isSome_iff_exists.1 hterm
    have hcell : b.Denotes V 8 b.eval := hc.bits ▸ hc.value.denotes hb
    have hbit := Term.denotes_mkEqual (⟨ha, hwidth, fun _ => rfl⟩ : address.Denotes V addressBits _)
      ⟨hc.address, hc.width, fun _ => rfl⟩
    have hite := Term.denotes_mkIte hbit hcell hu
    refine ⟨_, ?_, hite.congr fun ρ => ?_⟩
    · rw [selectAll_cons, hselect]
      dsimp only
      rw [baseTerm_of_some (show (some c).bind (·.value.symbolic?) = some b from hb)]
    · show _ = if address.eval ρ = c.address.eval ρ then c.byteUnder ρ else
        overwritten ρ (fun _ => f ρ) (withBytes ρ cs) (address.eval ρ)
      rw [Word.ite, Cell.byteUnder_of_some hb]
      by_cases h : address.eval ρ = c.address.eval ρ
      · rw [if_pos h, if_pos rfl, if_pos h, Word.truncate_of_lt (hcell.lt ρ)]
      · rw [if_neg h, if_neg (by decide), if_neg h]
        exact Word.truncate_of_lt (hu.lt ρ)

variable [Solver σ]

/-- **A read that meets cells with terms only**: it gives the byte at the address of a memory that
these cells overwrite, over one byte that may be any. The cells may be all of the log or as many
of the newest as the walk looks at. -/
theorem readByte_terms (hsolver : Solver.RightOver σ V) {log : MemoryLog} {cells : List Cell}
    (hcells : ∀ c ∈ cells, c.WellFormed V ∧ c.HasTerm) (ha : address.Typed V)
    (hwidth : address.width = addressBits) (prune : Bool) {s : Symbolic σ}
    (hscan : scan address prune log.cells s = scan address prune cells s) :
    ∃ t s', log.readByte address prune s =
        (.ok { known (scan address prune cells s).1.2 (scan address prune cells s).1.1 with
          symbolic := some t }, s') ∧
      t.Denotes (V.withBytes s.nextVariable (s.nextVariable + 1)) 8 fun ρ =>
        overwritten ρ (fun _ => Word.truncate 8 (ρ s.nextVariable)) (withBytes ρ cells)
          (address.eval ρ) := by
  obtain ⟨s₁, hnext, hread⟩ := readByte_eq log hwidth prune s
  rw [hscan] at hread
  obtain ⟨hcandidates, hbase⟩ := mem_scan address prune cells s
  have hsound (ρ : Assignment) (memory : Nat → Nat) := scan_sound hsolver ha hwidth prune ρ memory
    (withBytes ρ cells) (fun p hp => by
      obtain ⟨c, hc, rfl⟩ := List.mem_map.1 hp
      exact (hcells c hc).1) s
  simp only [map_fst_withBytes] at hsound
  generalize scan address prune cells s = walk at hread hcandidates hbase hsound
  obtain ⟨⟨candidates, base⟩, s₂⟩ := walk
  dsimp only at hread hcandidates hbase hsound ⊢
  let n := s.nextVariable
  have hold : ∀ id w, V id w → V.withBytes n (n + 1) id w := fun _ _ => .inl
  -- the term under the choices is that of the base, and without a base the new variable
  have hunder : (baseTerm base s₁).1.Denotes (V.withBytes n (n + 1)) 8 fun ρ =>
      (base.map (Cell.byteUnder ρ)).getD (Word.truncate 8 (ρ n)) := by
    cases base with
    | none =>
      rw [baseTerm_of_none rfl, hnext]
      exact ⟨Term.typed_var.2 ⟨by decide, by decide, .inr ⟨Nat.le_refl n, Nat.lt_succ_self n, rfl⟩⟩,
        rfl, fun _ => rfl⟩
    | some c =>
      obtain ⟨hc, hterm⟩ := hcells c (hbase c rfl)
      obtain ⟨b, hb⟩ := Option.isSome_iff_exists.1 hterm
      have hcell : b.Denotes V 8 b.eval := hc.bits ▸ hc.value.denotes hb
      rw [baseTerm_of_some (show (some c).bind (·.value.symbolic?) = some b from hb)]
      exact (hcell.mono hold).congr fun ρ => (Cell.byteUnder_of_some hb ρ).symm
  obtain ⟨u, hselect, hu⟩ := selectAll_terms (ha.mono fun id w _ => hold id w) hwidth
    (fun c hc => ⟨(hcells c (hcandidates c hc)).1.mono hold, (hcells c (hcandidates c hc)).2⟩)
    hunder (baseTerm base s₁).2
  refine ⟨u, (baseTerm base s₁).2, ?_, hu.congr fun ρ => ?_⟩
  · rw [hread, hselect, Value.setSymbolic_eq (hu.width.trans (bits_known base candidates).symm)]
  · obtain ⟨cs, b, hfound, hcs, hb, hbyte⟩ := hsound ρ fun _ => Word.truncate 8 (ρ n)
    obtain ⟨rfl, rfl⟩ := Prod.mk.inj hfound
    rw [hbyte, ← eq_withBytes hcs]
    congr 1
    funext _
    cases b with
    | none => rfl
    | some p =>
      obtain ⟨c, -, rfl⟩ := List.mem_map.1 (hb p rfl)
      rfl

/-- **The walk stops at the address itself**: what is older than a cell at the very term that is
read at is not looked at. -/
theorem scan_append_of_mem {cells : List Cell} (h : ∃ c ∈ cells, c.address = address)
    (older : List Cell) (prune : Bool) (s : Symbolic σ) :
    scan address prune (cells ++ older) s = scan address prune cells s := by
  induction cells generalizing s with
  | nil =>
    obtain ⟨c, hc, -⟩ := h
    cases hc
  | cons d cells ih =>
    rw [List.cons_append, scan_cons, scan_cons]
    by_cases hd : d.address = address
    · have hequal : (Term.mkEqual address d.address).const? = some 1 := by
        rw [hd]
        exact Term.const?_mkEqual_self address
      rw [Cell.classify_of_some hequal]
      rfl
    · have hcells : ∃ c ∈ cells, c.address = address := by
        obtain ⟨c, hc, hca⟩ := h
        rcases List.mem_cons.1 hc with rfl | hc
        · exact absurd hca hd
        · exact ⟨c, hc, hca⟩
      rw [ih hcells]

/-- A walk that stops at a cell with a term, without a candidate before it, gives what the cell
has. -/
theorem readByte_of_base {log : MemoryLog} {prune : Bool} {s s₁ : Symbolic σ} {c : Cell} {t : Term}
    (hwidth : address.width = addressBits)
    (hscan : scan address prune log.cells s = (([], some c), s₁))
    (ht : c.value.symbolic? = some t) (htw : t.width = 8) :
    ∃ s', log.readByte address prune s =
        (.ok { known (some c) [] with symbolic := some t }, s') ∧ s'.solver = s₁.solver := by
  have hterm (s : Symbolic σ) : c.term s = (t, s) := by
    unfold Cell.term
    rw [ht]
    rfl
  have hselect (s : Symbolic σ) : selectAll address [] t s = (t, s) := rfl
  unfold readByte
  rw [if_neg (not_not_intro hwidth)]
  beta_reduce
  rw [apply_bind_ok (apply_liftM _ _), hscan]
  dsimp only
  rw [apply_bind_ok (apply_liftM _ _), apply_bind_ok (apply_liftM _ _), hterm,
    apply_bind_ok (apply_liftM _ _), hselect, apply_liftExcept, Value.setSymbolic_eq htw]
  exact ⟨_, rfl, rfl⟩

end MemoryLog
end Lockstep
