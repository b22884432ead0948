/-
# Configurations as JSON documents

Every setting may be missing and has then its default; a member that is no
setting is refused.

Key definitions: `DomainSet.toJson`, `DomainSet.ofJson?`, `Config.toJson`,
`Config.ofJson?`, `Config.read?`.
-/
import Lockstep.Config
import Lockstep.Json.Decode
import Lockstep.Json.Reader

namespace Lockstep

namespace DomainSet

/-- The names of the domains in their order. -/
def toJson (s : DomainSet) : Json := .array (s.toList.map fun d => .text d.name)

/-- The set of a list of names, in any order and with repeats. -/
def ofJson? (room : Nat) (v : Json) : Option DomainSet :=
  (v.list? room fun room v => (v.name? room).bind Domain.ofName?).map ofList

def read? (s : String) : Option DomainSet := (Json.read? s).bind (ofJson? Json.maxDepth)

end DomainSet

namespace Config

/-- The document of a configuration, every setting in it. -/
def toJson (c : Config) : Json :=
  .record [("name", .text c.name), ("complexity_threshold", .nat c.complexityThreshold),
    ("report_interval", .nat c.reportInterval), ("allowed_domains", c.allowed.toJson),
    ("read_pruning", .bool c.readPruning), ("solver_debug", .bool c.solverDebug)]

/-- The configuration of a document. -/
def ofJson? (room : Nat) (v : Json) : Option Config := do
  let [name, threshold, interval, allowed, pruning, debug] ←
    v.settings? room ["name", "complexity_threshold", "report_interval", "allowed_domains",
      "read_pruning", "solver_debug"] | none
  let d : Config := {}
  return {
    name := ← Json.withDefault d.name Json.text? name
    complexityThreshold := ← Json.withDefault d.complexityThreshold Json.nat64? threshold
    reportInterval := ← Json.withDefault d.reportInterval Json.nat64? interval
    allowed := ← Json.withDefault d.allowed (DomainSet.ofJson? (room - 1)) allowed
    readPruning := ← Json.withDefault d.readPruning Json.bool? pruning
    solverDebug := ← Json.withDefault d.solverDebug Json.bool? debug }

/-- The configuration of a JSON text. -/
def read? (s : String) : Option Config := (Json.read? s).bind (ofJson? Json.maxDepth)

end Config

end Lockstep
