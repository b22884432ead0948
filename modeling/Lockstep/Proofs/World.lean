/-
# Computations in a world

A world is a state with the widths of the variables that were given out so far.
What a computation can do is said as a relation between worlds, one thing at a
time. A computation leads, if it does only such things, to a world whose widths
its result is good for. What is good stays good in later worlds, so facts about
a sequence come from facts about its parts.

Key definitions: `World`, `Leads`, `OnSuccess`.
Key theorems: `Leads.bind`, `Leads.bindExcept`, `leads_forM`, `leads_foldlM`.
-/
import Mathlib.Logic.Relation
import Lockstep.Proofs.Computation
import Lockstep.Proofs.Term.Typing

namespace Lockstep

/-- A state, and the widths of the variables that were given out until then. -/
structure World (S : Type) where
  widths : Widths
  state : S

/-- A computation that, run in a world, takes steps of the relation only and ends with a result
that is good for the widths there. -/
def Leads {S α : Type} (R : World S → World S → Prop) (w : World S) (x : StateM S α)
    (P : Widths → α → Prop) : Prop :=
  ∃ V, Relation.ReflTransGen R w ⟨V, (x w.state).2⟩ ∧ P V (x w.state).1

/-- A result that is good if it is no fault. -/
def OnSuccess {ε α : Type} (P : Widths → α → Prop) (V : Widths) (r : Except ε α) : Prop :=
  ∀ a, r = .ok a → P V a

variable {S ε α β : Type} {R : World S → World S → Prop} {w : World S}
  {P : Widths → α → Prop} {Q : Widths → β → Prop}

theorem leads_pure {a : α} (h : P w.widths a) : Leads R w (pure a) P :=
  ⟨w.widths, .refl, h⟩

theorem leads_get {f : S → StateM S α} (h : Leads R w (f w.state) P) :
    Leads R w (get >>= f) P := h

theorem leads_modify {f : S → S} {V : Widths} {P : Widths → PUnit → Prop}
    (h : R w ⟨V, f w.state⟩) (hP : P V ⟨⟩) :
    Leads R w (modify f) P := ⟨V, .single h, hP⟩

/-- **Leading in sequence.** -/
theorem Leads.bind {x : StateM S α} {f : α → StateM S β} (hx : Leads R w x P)
    (hf : ∀ a w', Relation.ReflTransGen R w w' → P w'.widths a → Leads R w' (f a) Q) :
    Leads R w (x >>= f) Q := by
  obtain ⟨V, hsteps, ha⟩ := hx
  obtain ⟨V', hsteps', hb⟩ := hf _ ⟨V, _⟩ hsteps ha
  exact ⟨V', hsteps.trans hsteps', hb⟩

/-! ### Faults -/

theorem leads_liftExcept {x : Except ε α} (h : ∀ a, x = .ok a → P w.widths a) :
    Leads R w (liftM x : ExceptT ε (StateM S) α) (OnSuccess P) := by
  refine ⟨w.widths, ?_, ?_⟩
  · rw [apply_liftExcept]
  · rw [apply_liftExcept]
    exact h

theorem leads_lift {x : StateM S α} (hx : Leads R w x P) :
    Leads R w (ExceptT.lift x : ExceptT ε (StateM S) α) (OnSuccess P) := by
  obtain ⟨V, hsteps, ha⟩ := hx
  refine ⟨V, hsteps, ?_⟩
  rintro _ ⟨⟩
  exact ha

/-- **Leading in sequence**, where a fault ends the sequence. -/
theorem Leads.bindExcept {x : ExceptT ε (StateM S) α} {f : α → ExceptT ε (StateM S) β}
    (hx : Leads R w x (OnSuccess P))
    (hf : ∀ a w', Relation.ReflTransGen R w w' → P w'.widths a →
      Leads R w' (f a) (OnSuccess Q)) :
    Leads R w (x >>= f : ExceptT ε (StateM S) β) (OnSuccess Q) := by
  obtain ⟨V, hsteps, ha⟩ := hx
  unfold Leads
  rcases hact : x w.state with ⟨fault | a, s⟩
  · rw [hact] at hsteps
    rw [apply_bind_error hact]
    exact ⟨V, hsteps, nofun⟩
  · rw [hact] at hsteps ha
    rw [apply_bind_ok hact]
    obtain ⟨V', hsteps', hb⟩ := hf a ⟨V, s⟩ hsteps (ha a rfl)
    exact ⟨V', hsteps.trans hsteps', hb⟩

theorem leads_check {x : Except ε α} {f : α → ExceptT ε (StateM S) β}
    (hf : ∀ a, x = .ok a → Leads R w (f a) (OnSuccess Q)) :
    Leads R w (liftM x >>= f : ExceptT ε (StateM S) β) (OnSuccess Q) := by
  cases x with
  | error fault => exact ⟨w.widths, .refl, nofun⟩
  | ok a =>
    unfold Leads
    rw [apply_check_ok rfl]
    exact hf a rfl

theorem leads_getExcept {f : S → ExceptT ε (StateM S) α}
    (h : Leads R w (f w.state) (OnSuccess P)) :
    Leads R w (get >>= f : ExceptT ε (StateM S) α) (OnSuccess P) := by
  unfold Leads
  rw [apply_get_bind]
  exact h

/-! ### Loops -/

theorem leads_forM {f : α → ExceptT ε (StateM S) PUnit} (l : List α)
    (hf : ∀ a ∈ l, ∀ w', Relation.ReflTransGen R w w' →
      Leads R w' (f a) (OnSuccess fun _ _ => True)) :
    Leads R w (l.forM f : ExceptT ε (StateM S) PUnit) (OnSuccess fun _ _ => True) := by
  induction l generalizing w with
  | nil => exact leads_pure fun _ _ => trivial
  | cons a l ih =>
    refine (hf a List.mem_cons_self w .refl).bindExcept fun _ w' h _ => ih fun b hb w'' h' => ?_
    exact hf b (List.mem_cons_of_mem a hb) w'' (h.trans h')

theorem leads_foldlM {f : β → α → ExceptT ε (StateM S) β} (l : List α) {b : β}
    (hb : Q w.widths b) (hf : ∀ b a w', Relation.ReflTransGen R w w' → Q w'.widths b →
      Leads R w' (f b a) (OnSuccess Q)) :
    Leads R w (l.foldlM f b : ExceptT ε (StateM S) β) (OnSuccess Q) := by
  induction l generalizing w b with
  | nil =>
    refine leads_pure ?_
    rintro _ ⟨⟩
    exact hb
  | cons a l ih =>
    rw [List.foldlM_cons]
    refine (hf b a w .refl hb).bindExcept fun b' w' h hb' => ih hb' fun c d w'' h' hc => ?_
    exact hf c d w'' (h.trans h') hc

end Lockstep
