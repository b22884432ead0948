/-
# The journal

A run notes events, each of a level. The journal keeps those that are at
least as severe as its limit; without a limit it keeps none.

Key definitions: `Level`, `Event`, `Journal`, `Journal.note`.
-/

namespace Lockstep

/-- How severe an event is, the most severe first. -/
inductive Level where
  | error
  | warn
  | info
  | debug
  | trace
  deriving DecidableEq, Repr

namespace Level

def all : List Level := [error, warn, info, debug, trace]

/-- The place of a level; the most severe is first. -/
def rank : Level → Nat
  | error => 0
  | warn => 1
  | info => 2
  | debug => 3
  | trace => 4

/-- The name of a level in a written event. -/
def name : Level → String
  | error => "ERROR"
  | warn => "WARN"
  | info => "INFO"
  | debug => "DEBUG"
  | trace => "TRACE"

end Level

/-- Something that happened. -/
structure Event where
  level : Level
  message : String
  deriving DecidableEq, Repr

def Event.text (e : Event) : String := e.level.name ++ " " ++ e.message

/-- The events that were kept, the newest first. -/
structure Journal where
  limit : Option Level := none
  events : List Event := []

namespace Journal

def enabled (j : Journal) (l : Level) : Bool :=
  match j.limit with
  | none => false
  | some limit => l.rank ≤ limit.rank

/-- One more event; its message is made only if it is kept. -/
def note (j : Journal) (l : Level) (message : Unit → String) : Journal :=
  if j.enabled l then { j with events := ⟨l, message ()⟩ :: j.events } else j

/-- The events, the oldest first, and the journal without them. -/
def take (j : Journal) : List Event × Journal := (j.events.reverse, { j with events := [] })

end Journal

end Lockstep
