/-
# Domains and sets of domains

A value is looked at in three ways: as one number (`concrete`), as a range
of numbers (`interval`) and as a bit-vector term (`symbolic`). An operation
runs in the domains of a `DomainSet`, always in the order of `Domain.all`.

Key definitions: `Domain`, `DomainSet`, `DomainSet.toList`, `DomainSet.only`.
Key theorems: `DomainSet.contains_insert`, `DomainSet.contains_erase`,
`DomainSet.contains_inter`, `DomainSet.ext_contains`, `DomainSet.ofList_toList`.
-/

namespace Lockstep

/-- One way of looking at a value. -/
inductive Domain where
  | concrete
  | interval
  | symbolic
  deriving DecidableEq, Repr

namespace Domain

/-- Every domain, in the order in which operations run them. -/
def all : List Domain := [concrete, interval, symbolic]

def name : Domain → String
  | concrete => "concrete"
  | interval => "interval"
  | symbolic => "symbolic"

/-- The name of a domain as a constructor, with a capital. -/
def title : Domain → String
  | concrete => "Concrete"
  | interval => "Interval"
  | symbolic => "Symbolic"

def ofName? (s : String) : Option Domain := all.find? (·.name = s)

/-- The weight of a domain in the number of a domain set. -/
def bit : Domain → Nat
  | concrete => 1
  | interval => 2
  | symbolic => 4

theorem mem_all (d : Domain) : d ∈ all := by cases d <;> decide

end Domain

/-- A set of domains. -/
@[ext] structure DomainSet where
  concrete : Bool := false
  interval : Bool := false
  symbolic : Bool := false
  deriving DecidableEq, Repr

namespace DomainSet

def empty : DomainSet := {}

def concreteOnly : DomainSet := ⟨true, false, false⟩

def all : DomainSet := ⟨true, true, true⟩

def contains (s : DomainSet) : Domain → Bool
  | .concrete => s.concrete
  | .interval => s.interval
  | .symbolic => s.symbolic

/-- The set with the membership of one domain replaced. -/
def set (s : DomainSet) (d : Domain) (present : Bool) : DomainSet :=
  match d with
  | .concrete => { s with concrete := present }
  | .interval => { s with interval := present }
  | .symbolic => { s with symbolic := present }

def insert (s : DomainSet) (d : Domain) : DomainSet := s.set d true

def erase (s : DomainSet) (d : Domain) : DomainSet := s.set d false

/-- The domains that both sets hold. -/
def inter (s t : DomainSet) : DomainSet :=
  ⟨s.concrete && t.concrete, s.interval && t.interval, s.symbolic && t.symbolic⟩

def isEmpty (s : DomainSet) : Bool := !(s.concrete || s.interval || s.symbolic)

/-- The set of the domains of a list, in any order and with repeats. -/
def ofList (ds : List Domain) : DomainSet := ds.foldl insert empty

/-- The domains of the set, in the order of `Domain.all`. -/
def toList (s : DomainSet) : List Domain := Domain.all.filter s.contains

/-- The set as a number: the sum of the weights of its domains. -/
def number (s : DomainSet) : Nat := s.toList.foldl (fun n d => n + d.bit) 0

/-- The written form: the names joined by plus signs, `none` for the empty set. -/
def text (s : DomainSet) : String :=
  if s.isEmpty then "none" else "+".intercalate (s.toList.map Domain.name)

/-- The form of a set literal: the titles between braces. -/
def literal (s : DomainSet) : String :=
  "\x7b" ++ ", ".intercalate (s.toList.map Domain.title) ++ "\x7d"

/-- The given part of a value if its domain is in the set, and otherwise none. -/
@[macro_inline] def only {α : Type} (s : DomainSet) (d : Domain) (part : Option α) : Option α :=
  if s.contains d then part else none

/-! ### Membership -/

@[simp] theorem contains_empty (d : Domain) : empty.contains d = false := by cases d <;> rfl

@[simp] theorem contains_all (d : Domain) : all.contains d = true := by cases d <;> rfl

@[simp] theorem contains_concreteOnly (d : Domain) :
    concreteOnly.contains d = decide (d = .concrete) := by cases d <;> rfl

theorem contains_set (s : DomainSet) (d e : Domain) (present : Bool) :
    (s.set d present).contains e = if e = d then present else s.contains e := by
  cases d <;> cases e <;> rfl

@[simp] theorem contains_insert (s : DomainSet) (d e : Domain) :
    (s.insert d).contains e = (decide (e = d) || s.contains e) := by
  cases d <;> cases e <;> rfl

@[simp] theorem contains_erase (s : DomainSet) (d e : Domain) :
    (s.erase d).contains e = (decide (e ≠ d) && s.contains e) := by
  cases d <;> cases e <;> rfl

@[simp] theorem contains_inter (s t : DomainSet) (d : Domain) :
    (s.inter t).contains d = (s.contains d && t.contains d) := by cases d <;> rfl

theorem ext_contains {s t : DomainSet} (h : ∀ d, s.contains d = t.contains d) : s = t :=
  DomainSet.ext (h .concrete) (h .interval) (h .symbolic)

@[simp] theorem mem_toList (s : DomainSet) (d : Domain) : d ∈ s.toList ↔ s.contains d = true := by
  simp [toList, Domain.mem_all]

theorem ofList_toList (s : DomainSet) : ofList s.toList = s := by
  obtain ⟨c, i, y⟩ := s
  cases c <;> cases i <;> cases y <;> rfl

theorem isEmpty_iff (s : DomainSet) : s.isEmpty = true ↔ s = empty := by
  obtain ⟨c, i, y⟩ := s
  cases c <;> cases i <;> cases y <;> decide

end DomainSet

end Lockstep
