/-
# Activation

A state that says which domains are active can run a body under another set
of domains; afterwards the former set is active again, whether the body
succeeded or not.

Key definitions: `Activation`, `Activation.replace`, `withActive`.
Key theorems: `active_withActive`.
-/
import Lockstep.Domain

namespace Lockstep

/-- States with a set of active domains. -/
class Activation (S : Type) where
  active : S → DomainSet
  setActive : S → DomainSet → S
  active_setActive : ∀ s d, active (setActive s d) = d

instance : Activation DomainSet where
  active s := s
  setActive _ d := d
  active_setActive _ _ := rfl

namespace Activation

variable {S : Type} [Activation S]

/-- The state with another set active, and the set that was. -/
def replace (s : S) (d : DomainSet) : DomainSet × S := (active s, setActive s d)

end Activation

variable {S ε α : Type} [Activation S]

/-- Runs a body with exactly the given domains active. -/
def withActive (d : DomainSet) (body : ExceptT ε (StateM S) α) : ExceptT ε (StateM S) α :=
  fun s =>
    let (result, after) := body (Activation.setActive s d)
    (result, Activation.setActive after (Activation.active s))

theorem active_withActive (d : DomainSet) (body : ExceptT ε (StateM S) α) (s : S) :
    Activation.active (withActive d body s).2 = Activation.active s :=
  Activation.active_setActive _ _

end Lockstep
