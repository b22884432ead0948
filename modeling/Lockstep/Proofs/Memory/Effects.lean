/-
# The variables of a read

A read of the log chooses between the terms of cells by conditions on their
addresses. So it mentions the variables of the cells and of the address, and
those that it gives out where a cell has no term or no base is found.

Key definitions: `Cell.Over`.
Key theorems: `Cell.classify_leads`, `MemoryLog.scan_leads`, `MemoryLog.selectAll_leads`,
`MemoryLog.readByte_leads`.
-/
import Lockstep.Memory.Log
import Lockstep.Proofs.Solver.Effects

namespace Lockstep

open Symbolic (Effect sub_of_effects)

variable {σ : Type} [Solver σ] {w : World (Symbolic σ)} {V V' : Widths} {address otherwise : Term}
  {c : Cell}

namespace Cell

/-- Does every variable of the address and of the value stand at an allowed width? -/
structure Over (V : Widths) (c : Cell) : Prop where
  address : c.address.Over V
  value : c.value.Over V

theorem Over.mono (h : c.Over V) (hV : V.Sub V') : c.Over V' :=
  ⟨h.address.mono hV, h.value.mono hV⟩

theorem over_make {v : Value} (ha : address.Over V) (hv : v.Over V)
    (h : make address v = .ok c) : c.Over V := by
  unfold make at h
  dsimp only at h
  split at h
  · cases h
  · split at h
    · cases h
    · obtain ⟨_, -, h⟩ := bind_eq_ok h
      obtain rfl := Except.ok.inj h
      exact ⟨ha, hv⟩

theorem term_leads (hc : c.Over w.widths) : Leads Effect w c.term fun V t => t.Over V := by
  unfold term
  split
  · rename_i t ht
    exact leads_pure (hc.value.symbolic? ht)
  · exact Symbolic.fresh_leads 8

theorem select_leads (ha : address.Over w.widths) (hc : c.Over w.widths)
    (ho : otherwise.Over w.widths) :
    Leads Effect w (c.select address otherwise) fun V t => t.Over V := by
  refine (term_leads hc).bind fun t w' h ht => leads_pure ?_
  have hsub := sub_of_effects h
  exact Term.over_mkIte 8 (Term.over_mkEqual (ha.mono hsub) (hc.address.mono hsub)) ht
    (ho.mono hsub)

/-- Folding decides, or the solver is asked about the difference of the addresses. -/
theorem classify_leads (prune : Bool) (ha : address.Over w.widths) (hc : c.Over w.widths) :
    Leads Effect w (c.classify address prune) fun _ _ => True := by
  unfold classify
  split
  · exact leads_pure trivial
  · split
    · have hdifference := Term.over_mkBinary .sub addressBits ha hc.address
      exact (Symbolic.proveZero_leads hdifference).bind fun _ _ _ _ => leads_pure trivial
    · exact leads_pure trivial

end Cell

namespace MemoryLog

theorem scan_leads (prune : Bool) {cells : List Cell} (ha : address.Over w.widths)
    (hcells : ∀ c ∈ cells, c.Over w.widths) :
    Leads Effect w (scan address prune cells) fun V found =>
      (∀ c ∈ found.1, c.Over V) ∧ ∀ c, found.2 = some c → c.Over V := by
  induction cells generalizing w with
  | nil => exact leads_pure ⟨nofun, nofun⟩
  | cons c cells ih =>
    have hc := hcells c List.mem_cons_self
    refine (Cell.classify_leads prune ha hc).bind fun found w' h _ => ?_
    have hsub := sub_of_effects h
    have hrest := ih (ha.mono hsub) fun b hb => (hcells b (List.mem_cons_of_mem c hb)).mono hsub
    cases found with
    | never => exact hrest
    | must =>
      refine leads_pure ⟨nofun, ?_⟩
      rintro _ ⟨⟩
      exact hc.mono hsub
    | may =>
      refine hrest.bind fun (candidates, base) w'' h' ⟨hcandidates, hbase⟩ => leads_pure ⟨?_, hbase⟩
      exact List.forall_mem_cons.2 ⟨hc.mono (hsub.trans (sub_of_effects h')), hcandidates⟩

theorem selectAll_leads {candidates : List Cell} (ha : address.Over w.widths)
    (hcandidates : ∀ c ∈ candidates, c.Over w.widths) (ho : otherwise.Over w.widths) :
    Leads Effect w (selectAll address candidates otherwise) fun V t => t.Over V := by
  unfold selectAll
  induction candidates with
  | nil => exact leads_pure ho
  | cons c candidates ih =>
    obtain ⟨hc, hcandidates⟩ := List.forall_mem_cons.1 hcandidates
    rw [List.foldrM_cons]
    refine (ih hcandidates).bind fun t w' h ht => ?_
    have hsub := sub_of_effects h
    exact Cell.select_leads (ha.mono hsub) (hc.mono hsub) ht

/-- **A byte out of the log** mentions variables that were given out, if the cells and the
address do. -/
theorem readByte_leads (log : MemoryLog) (prune : Bool) (ha : address.Over w.widths)
    (hlog : ∀ c ∈ log.cells, c.Over w.widths) :
    Leads Effect w (log.readByte address prune) (OnSuccess fun V v => v.Over V) := by
  unfold readByte
  split
  · exact leads_liftExcept (x := .error _) nofun
  refine (leads_lift (scan_leads prune ha hlog)).bindExcept
    fun (candidates, base) w₁ h₁ hfound => ?_
  obtain ⟨hcandidates, hbase⟩ := hfound
  refine (leads_lift (Symbolic.note_leads _ _)).bindExcept fun _ w₂ h₂ _ => ?_
  have hsub₂ := sub_of_effects h₂
  -- under the choices lies the base or a new variable
  have hselect {t : Term} {w₃ : World (Symbolic σ)} (h₃ : Relation.ReflTransGen Effect w₂ w₃)
      (ht : t.Over w₃.widths) (v : Value) :
      Leads Effect w₃ (do
        let t : Term ← (selectAll address candidates t : SymbolicM σ Term)
        v.setSymbolic t : ExceptT Fault (SymbolicM σ) Value) (OnSuccess fun V v => v.Over V) := by
    have hsub := hsub₂.trans (sub_of_effects h₃)
    have hcells : ∀ c ∈ candidates, c.Over w₃.widths := fun c hc => (hcandidates c hc).mono hsub
    have haddress := ha.mono ((sub_of_effects h₁).trans hsub)
    refine (leads_lift (selectAll_leads haddress hcells ht)).bindExcept fun t w₄ _ ht => ?_
    exact leads_liftExcept fun u hu => Value.over_setSymbolic ht hu
  cases base with
  | none =>
    exact (leads_lift (Symbolic.fresh_leads 8)).bindExcept fun any w₃ h₃ hany =>
      hselect h₃ hany _
  | some base =>
    exact (leads_lift (Cell.term_leads ((hbase base rfl).mono hsub₂))).bindExcept
      fun under w₃ h₃ hunder => hselect h₃ hunder _

end MemoryLog
end Lockstep
