/-
# Computations at a state

What a computation with faults and a state gives at one state, construct by
construct. Rewriting with these equations runs a computation on paper. And what
it gives at two related states: a computation respects a relation if it cannot
tell them apart.

Key definitions: `Respects`.
Key theorems: `apply_bind_ok`, `apply_bind_error`, `apply_check_ok`, `apply_check_error`,
`apply_bind_eq_ok`, `bind_eq_ok`, `Respects.bind`, `Respects.bindExcept`.
-/

namespace Lockstep

variable {S ε α β : Type}

theorem apply_get (s : S) : (get : ExceptT ε (StateM S) S) s = (.ok s, s) := rfl

theorem apply_modify (f : S → S) (s : S) :
    (modify f : ExceptT ε (StateM S) PUnit) s = (.ok ⟨⟩, f s) := rfl

theorem apply_lift (x : StateM S α) (s : S) :
    (ExceptT.lift x : ExceptT ε (StateM S) α) s = (.ok (x s).1, (x s).2) := rfl

theorem apply_liftM (x : StateM S α) (s : S) :
    (liftM x : ExceptT ε (StateM S) α) s = (.ok (x s).1, (x s).2) := rfl

theorem apply_liftExcept (x : Except ε α) (s : S) :
    (liftM x : ExceptT ε (StateM S) α) s = (x, s) := by
  cases x <;> rfl

/-- A computation that is run for its result, be it a fault. -/
theorem apply_lift_run {x : ExceptT ε (StateM S) α} {s t : S} {r : Except ε α} (h : x s = (r, t)) :
    (ExceptT.lift x.run : ExceptT ε (StateM S) (Except ε α)) s = (.ok r, t) := by
  rw [apply_lift]
  show (Except.ok (x s).1, (x s).2) = _
  rw [h]

theorem apply_bind_ok {x : ExceptT ε (StateM S) α} {s t : S} {a : α} (h : x s = (.ok a, t))
    (f : α → ExceptT ε (StateM S) β) : (x >>= f) s = f a t := by
  show (ExceptT.bindCont f (x s).1 : StateM S (Except ε β)) (x s).2 = _
  rw [h]
  rfl

theorem apply_bind_error {x : ExceptT ε (StateM S) α} {s t : S} {e : ε} (h : x s = (.error e, t))
    (f : α → ExceptT ε (StateM S) β) : (x >>= f) s = (.error e, t) := by
  show (ExceptT.bindCont f (x s).1 : StateM S (Except ε β)) (x s).2 = _
  rw [h]
  rfl

/-- A computation continues with the state that it asks for. -/
theorem apply_get_bind (f : S → ExceptT ε (StateM S) β) (s : S) : (get >>= f) s = f s s :=
  apply_bind_ok (apply_get s) f

theorem apply_check_ok {x : Except ε α} {a : α} (h : x = .ok a)
    (f : α → ExceptT ε (StateM S) β) (s : S) :
    ((liftM x : ExceptT ε (StateM S) α) >>= f) s = f a s := by
  rw [h]
  exact apply_bind_ok (apply_liftExcept _ _) f

theorem apply_check_error {x : Except ε α} {e : ε} (h : x = .error e)
    (f : α → ExceptT ε (StateM S) β) (s : S) :
    ((liftM x : ExceptT ε (StateM S) α) >>= f) s = (.error e, s) := by
  rw [h]
  exact apply_bind_error (apply_liftExcept _ _) f

/-- A sequence of computations that succeeds has a first one that does. -/
theorem apply_bind_eq_ok {x : ExceptT ε (StateM S) α} {f : α → ExceptT ε (StateM S) β} {s t : S}
    {b : β} (h : (x >>= f) s = (.ok b, t)) :
    ∃ a u, x s = (.ok a, u) ∧ f a u = (.ok b, t) := by
  rcases hx : x s with ⟨e | a, u⟩
  · rw [apply_bind_error hx] at h
    cases h
  · rw [apply_bind_ok hx] at h
    exact ⟨a, u, rfl, h⟩

theorem apply_check_eq_ok {x : Except ε α} {f : α → ExceptT ε (StateM S) β} {s t : S} {b : β}
    (h : ((liftM x : ExceptT ε (StateM S) α) >>= f) s = (.ok b, t)) :
    ∃ a, x = .ok a ∧ f a s = (.ok b, t) := by
  obtain ⟨a, u, hx, hf⟩ := apply_bind_eq_ok h
  rw [apply_liftExcept] at hx
  obtain ⟨rfl, rfl⟩ := Prod.mk.inj hx
  exact ⟨a, rfl, hf⟩

/-- A sequence of results that succeeds has a first result. -/
theorem bind_eq_ok {x : Except ε α} {f : α → Except ε β} {b : β} (h : (x >>= f) = .ok b) :
    ∃ a, x = .ok a ∧ f a = .ok b := by
  cases x with
  | ok a => exact ⟨a, rfl, h⟩
  | error e => cases h

/-- A computation on the state alone continues with its result. -/
theorem applyState_bind (x : StateM S α) (f : α → StateM S β) (s : S) :
    (x >>= f) s = f (x s).1 (x s).2 := rfl

/-! ### Related states -/

/-- A computation that has the same result from related states and leaves related states. -/
def Respects (R : S → S → Prop) (x : StateM S α) : Prop :=
  ∀ s t, R s t → (x t).1 = (x s).1 ∧ R (x s).2 (x t).2

variable {R : S → S → Prop}

theorem respects_pure (a : α) : Respects R (pure a : StateM S α) := fun _ _ h => ⟨rfl, h⟩

theorem respects_modify {f : S → S} (hf : ∀ s t, R s t → R (f s) (f t)) :
    Respects R (modify f : StateM S PUnit) := fun s t h => ⟨rfl, hf s t h⟩

/-- **Respecting in sequence.** -/
theorem Respects.bind {x : StateM S α} {f : α → StateM S β} (hx : Respects R x)
    (hf : ∀ a, Respects R (f a)) : Respects R (x >>= f) := by
  intro s t h
  obtain ⟨hresult, hstates⟩ := hx s t h
  rw [applyState_bind, applyState_bind, hresult]
  exact hf _ _ _ hstates

/-- What depends on the state may depend on what related states have in common. -/
theorem respects_get {f : S → StateM S α}
    (hf : ∀ s t, R s t → f t = f s ∧ Respects R (f s)) : Respects R (get >>= f) := by
  intro s t h
  obtain ⟨hsame, hrespects⟩ := hf s t h
  show (f t t).1 = (f s s).1 ∧ R (f s s).2 (f t t).2
  rw [hsame]
  exact hrespects s t h

theorem respects_liftExcept (x : Except ε α) :
    Respects R (liftM x : ExceptT ε (StateM S) α) := by
  intro s t h
  rw [apply_liftExcept, apply_liftExcept]
  exact ⟨rfl, h⟩

theorem Respects.lift {x : StateM S α} (hx : Respects R x) :
    Respects R (ExceptT.lift x : ExceptT ε (StateM S) α) := by
  intro s t h
  obtain ⟨hresult, hstates⟩ := hx s t h
  exact ⟨congrArg Except.ok hresult, hstates⟩

/-- **Respecting in sequence**, where a fault ends the sequence. -/
theorem Respects.bindExcept {x : ExceptT ε (StateM S) α} {f : α → ExceptT ε (StateM S) β}
    (hx : Respects R x) (hf : ∀ a, Respects R (f a)) :
    Respects R (x >>= f : ExceptT ε (StateM S) β) := by
  have hcont (r : Except ε α) : Respects R (ExceptT.bindCont f r : StateM S (Except ε β)) := by
    cases r with
    | error fault => exact respects_pure _
    | ok a => exact hf a
  exact Respects.bind hx hcont

theorem respects_check {x : Except ε α} {f : α → ExceptT ε (StateM S) β}
    (hf : ∀ a, x = .ok a → Respects R (f a)) :
    Respects R (liftM x >>= f : ExceptT ε (StateM S) β) := by
  cases x with
  | error fault => exact respects_pure _
  | ok a => exact hf a rfl

theorem respects_getExcept {f : S → ExceptT ε (StateM S) α}
    (hf : ∀ s t, R s t → f t = f s ∧ Respects R (f s)) :
    Respects R (get >>= f : ExceptT ε (StateM S) α) := by
  intro s t h
  obtain ⟨hsame, hrespects⟩ := hf s t h
  rw [apply_get_bind, apply_get_bind, hsame]
  exact hrespects s t h

theorem respects_forM {f : α → ExceptT ε (StateM S) PUnit} (hf : ∀ a, Respects R (f a))
    (l : List α) : Respects R (l.forM f : ExceptT ε (StateM S) PUnit) := by
  induction l with
  | nil => exact respects_pure _
  | cons a l ih => exact Respects.bindExcept (hf a) fun _ => ih

theorem respects_foldlM {f : β → α → ExceptT ε (StateM S) β} (hf : ∀ b a, Respects R (f b a))
    (l : List α) (b : β) : Respects R (l.foldlM f b : ExceptT ε (StateM S) β) := by
  induction l generalizing b with
  | nil => exact respects_pure _
  | cons a l ih =>
    rw [List.foldlM_cons]
    exact Respects.bindExcept (hf b a) ih

end Lockstep
