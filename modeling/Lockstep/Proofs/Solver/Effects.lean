/-
# What can happen to the symbolic state

Computations on the symbolic state note events, give out variables and ask the
solver, and nothing else. A variable that is given out has the number that the
next variable was to have, and what the solver is asked mentions variables that
were given out only.

Key definitions: `Widths.allot`, `Symbolic.Effect`.
Key theorems: `Symbolic.sub_of_effects`, `Symbolic.fresh_leads`, `Symbolic.proveZero_leads`,
`Value.undefined_leads`, `Value.refineZero_leads`.
-/
import Lockstep.Proofs.Value.Variables
import Lockstep.Proofs.World

namespace Lockstep

/-- The widths with one more variable. -/
def Widths.allot (V : Widths) (id width : Nat) : Widths := fun i w => V i w ∨ (i = id ∧ w = width)

theorem Widths.sub_allot (V : Widths) (id width : Nat) : V.Sub (V.allot id width) :=
  fun _ _ => .inl

variable {σ : Type} [Solver σ]

namespace Symbolic

/-- One thing that can happen to the symbolic state. -/
inductive Effect : World (Symbolic σ) → World (Symbolic σ) → Prop
  | note {V : Widths} {s : Symbolic σ} (j : Journal) : Effect ⟨V, s⟩ ⟨V, { s with journal := j }⟩
  | fresh {V : Widths} {s : Symbolic σ} (bits : Nat) :
    Effect ⟨V, s⟩ ⟨V.allot s.nextVariable bits, { s with nextVariable := s.nextVariable + 1 }⟩
  | ask {V : Widths} {s : Symbolic σ} {state : σ} {t : Term} (hsolver : s.solver = some state)
    (ht : t.Over V) : Effect ⟨V, s⟩ ⟨V, { s with solver := some (Solver.askZero state t).2 }⟩

variable {w w' : World (Symbolic σ)} {t : Term}

theorem sub_of_effects (h : Relation.ReflTransGen Effect w w') : w.widths.Sub w'.widths := by
  induction h with
  | refl => exact .refl _
  | tail _ h ih =>
    refine ih.trans ?_
    cases h with
    | fresh bits => exact Widths.sub_allot _ _ _
    | _ => exact .refl _

theorem note_leads (level : Level) (message : Unit → String) :
    Leads Effect w (note level message) fun _ _ => True :=
  leads_modify (.note _) trivial

theorem fresh_leads (bits : Nat) : Leads Effect w (fresh bits) fun V t => t.Over V :=
  ⟨_, .single (.fresh bits), .inr ⟨rfl, rfl⟩⟩

/-- A query asks the solver and notes what this wants to have noted. -/
theorem queryZero_leads (ht : t.Over w.widths) : Leads Effect w (queryZero t) fun _ _ => True := by
  obtain ⟨V, next, solver, journal⟩ := w
  cases solver with
  | none => exact ⟨V, .refl, trivial⟩
  | some state =>
    let asked : Symbolic σ := ⟨next, some (Solver.askZero state t).2, journal⟩
    have hafter : (queryZero t ⟨next, some state, journal⟩).2 =
        { asked with journal := noteReply (Solver.askZero state t).1 journal } := by
      unfold queryZero
      rw [apply_get_bind]
      dsimp only
      rw [apply_bind_ok (apply_modify _ _)]
      cases (Solver.askZero state t).1.verdict <;> rfl
    refine ⟨V, ?_, trivial⟩
    rw [hafter]
    exact .tail (.single (.ask rfl ht)) (.note (s := asked) _)

theorem proveZero_leads (ht : t.Over w.widths) : Leads Effect w (proveZero t) fun _ _ => True := by
  unfold proveZero
  split
  · exact leads_pure trivial
  · refine leads_get ?_
    split
    · exact leads_pure trivial
    · refine (queryZero_leads ht).bind fun r w' _ _ => ?_
      cases r with
      | ok verdict => exact leads_pure trivial
      | error fault => exact (note_leads _ _).bind fun _ _ _ _ => leads_pure trivial

end Symbolic

namespace Value

variable {w : World (Symbolic σ)} {active : DomainSet} {v : Value}

/-- A value of which nothing is known has a new variable for its term. -/
theorem undefined_leads (bits : Nat) :
    Leads Symbolic.Effect w (undefined active bits)
      (OnSuccess fun V v => v.Over V) := by
  refine leads_check fun _ _ => ?_
  split
  · refine (leads_lift (Symbolic.fresh_leads bits)).bindExcept fun t w' _ ht => ?_
    exact leads_liftExcept fun u hu => over_setSymbolic ht hu
  · refine leads_pure ?_
    rintro _ ⟨⟩
    exact over_of_none rfl

omit [Solver σ] in
/-- Without the symbolic domain a value of which nothing is known takes no variable. -/
theorem undefined_inactive (hs : active.contains .symbolic = false) (bits : Nat)
    (s : Symbolic σ) : (undefined active bits s).2 = s ∧
      ∀ v, (undefined active bits s).1 = .ok v → v.symbolic = none := by
  unfold undefined
  cases checkWidth bits with
  | error fault => exact ⟨rfl, nofun⟩
  | ok _ =>
    rw [apply_check_ok rfl, hs]
    refine ⟨rfl, ?_⟩
    rintro v ⟨⟩
    rfl

theorem refineZero_leads (hv : v.Over w.widths) :
    Leads Symbolic.Effect w (v.refineZero active) fun V u => u.Over V := by
  unfold refineZero
  split
  · split
    · exact leads_pure hv
    · rename_i t ht
      refine (Symbolic.proveZero_leads (hv t ht)).bind fun verdict w' h _ => ?_
      have hv' : v.Over w'.widths := hv.mono (Symbolic.sub_of_effects h)
      split
      · exact (Symbolic.note_leads _ _).bind fun _ w'' h' _ =>
          leads_pure (hv'.mono (Symbolic.sub_of_effects h'))
      · exact leads_pure hv'
  · exact leads_pure hv

theorem refineZero_inactive (hs : active.contains .symbolic = false) (v : Value)
    (s : Symbolic σ) : v.refineZero active s = (v, s) := by
  unfold refineZero
  rw [hs]
  rfl

end Value
end Lockstep
