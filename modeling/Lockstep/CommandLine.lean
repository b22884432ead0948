/-
# The command line

The arguments are options, which may stand anywhere and once each, and at most
one path of a program; without a path, or with a hyphen for it, the program is
read from the input. After two hyphens alone nothing is an option any more.

Key definitions: `Options`, `Options.parse?`, `Options.configure`, `Outcome`,
`Options.run`, `CommandLine.run`.
-/
import Lockstep.Config.Document
import Lockstep.Overflow
import Lockstep.Run.Document

namespace Lockstep

/-- What the arguments ask for. -/
structure Options where
  program : Option String := none
  config : Option String := none
  trigger : Option Nat := none
  reportInterval : Option Nat := none
  complexityLimit : Option Nat := none
  noReadPruning : Bool := false
  maxSteps : Option Nat := none
  deriving DecidableEq, Repr

/-! ### Numbers -/

/-- The value of a digit in a base up to sixteen, in either case. -/
def digitValue? (base : Nat) (c : Char) : Option Nat :=
  let value :=
    if c.isDigit then some (c.toNat - 48)
    else if 'a' ≤ c ∧ c ≤ 'f' then some (c.toNat - 87)
    else if 'A' ≤ c ∧ c ≤ 'F' then some (c.toNat - 55)
    else none
  value.filter (· < base)

/-- The number that digits of a base denote, below a bound. -/
def digitsBelow? (base bound : Nat) (ds : List Char) : Option Nat :=
  if ds = [] then none
  else (ds.foldlM (fun n c => return base * n + (← digitValue? base c)) 0).filter (· < bound)

/-- The number below a bound that a text denotes; a plus sign may lead. -/
def numberBelow? (base bound : Nat) : List Char → Option Nat
  | '+' :: ds => digitsBelow? base bound ds
  | ds => digitsBelow? base bound ds

/-- The address that a text denotes, hexadecimal after `0x`. -/
def address? (s : String) : Option Nat :=
  match s.toList with
  | '0' :: 'x' :: ds => numberBelow? 16 0x100000000 ds
  | '0' :: 'X' :: ds => numberBelow? 16 0x100000000 ds
  | ds => numberBelow? 10 0x100000000 ds

/-- The 64-bit number that a text denotes. -/
def count? (s : String) : Option Nat := numberBelow? 10 0x10000000000000000 s.toList

/-! ### Arguments -/

namespace Options

/-- The value for something that may be given once. -/
def once {α : Type} (old : Option α) (new : Option α) : Option (Option α) :=
  if old.isSome ∨ new.isNone then none else some new

def path? (s : String) : Option String := if s = "" then none else some s

/-- The options with a path of a program. -/
def setProgram (o : Options) (s : String) : Option Options :=
  return { o with program := ← once o.program (path? s) }

/-- The options that take a value. -/
def valued : List String :=
  ["config", "trigger", "report-interval", "complexity-limit", "max-steps"]

/-- The options with the value of one option set. -/
def setValue (o : Options) (name value : String) : Option Options :=
  match name with
  | "config" => return { o with config := ← once o.config (path? value) }
  | "trigger" => return { o with trigger := ← once o.trigger (address? value) }
  | "report-interval" =>
    return { o with reportInterval := ← once o.reportInterval (count? value) }
  | "complexity-limit" =>
    return { o with complexityLimit := ← once o.complexityLimit (count? value) }
  | "max-steps" => return { o with maxSteps := ← once o.maxSteps (count? value) }
  | _ => none

/-- The name of an option and the value after its equals sign, if there is one. -/
def splitValue (s : List Char) : String × Option String :=
  match s.dropWhile (· ≠ '=') with
  | [] => (String.ofList s, none)
  | _ :: value => (String.ofList (s.takeWhile (· ≠ '=')), some (String.ofList value))

/-- Does the argument stand for itself, and not for an option? -/
def isPlain (s : String) : Bool :=
  match s.toList with
  | '-' :: _ :: _ => false
  | _ => true

/-- The options of arguments, added to those of the arguments before. -/
def parseFrom (o : Options) : List String → Option Options
  | [] => some o
  | arg :: args =>
    match arg.toList with
    | ['-', '-'] => args.foldlM setProgram o
    | '-' :: '-' :: option =>
      match splitValue option with
      | ("no-read-pruning", none) =>
        if o.noReadPruning then none else parseFrom { o with noReadPruning := true } args
      | (name, some value) => (setValue o name value).bind (parseFrom · args)
      | (name, none) =>
        match args with
        | value :: args =>
          if valued.contains name && isPlain value then
            (setValue o name value).bind (parseFrom · args)
          else none
        | [] => none
    | _ => if isPlain arg then (setProgram o arg).bind (parseFrom · args) else none

/-- The options of the arguments; none if the arguments are not understood. -/
def parse? (args : List String) : Option Options := parseFrom {} args

/-- The configuration with what the options override. -/
def configure (o : Options) (c : Config) : Config :=
  { c with
    reportInterval := o.reportInterval.getD c.reportInterval
    complexityThreshold := o.complexityLimit.getD c.complexityThreshold
    readPruning := c.readPruning && !o.noReadPruning }

/-- The number of instructions after which a run stops. -/
def stepLimit (o : Options) : Nat := o.maxSteps.getD 10000

end Options

/-! ### Running -/

/-- How the command ends: the arguments are not understood, something else is
wrong, or a run is finished. -/
inductive Outcome where
  | misuse
  | failure (message : String)
  | finished (run : Run Backend)

/-- The exit code of the command. A run in which a number does not fit ends in the middle. -/
def Outcome.code : Outcome → Nat
  | misuse => 2
  | failure _ => 1
  | finished run => if run.engine.governor.overflowed then 101 else 0

namespace CommandLine

/-- Reads a configuration; without a path it is the default one. -/
def loadConfig {m : Type → Type} [Monad m] (readFile : String → m (Option String)) :
    Option String → m (Option Config)
  | none => pure (some {})
  | some path => return (← readFile path).bind Config.read?

/-- Reads the text of a program from a path or from the input. -/
def loadProgram {m : Type → Type} [Monad m] (readFile : String → m (Option String))
    (readInput : m (Option String)) : Option String → m (Except String String)
  | none => return (← readInput).elim (.error "reading input") .ok
  | some "-" => return (← readInput).elim (.error "reading input") .ok
  | some path => return (← readFile path).elim (.error ("reading " ++ path)) .ok

/-- Runs a job under the options, with a journal up to the given level. -/
def runJob (o : Options) (c : Config) (limit : Option Level) (j : Job) : Outcome :=
  let e : Engine Backend :=
    .start (Bus.empty.setBytes j.memory) (o.configure c) (some (Engine.builtIn c))
  let symbolic := { e.machine.symbolic with journal := { limit } }
  let e := { e with machine := { e.machine with symbolic } }
  let j := { j with trigger := o.trigger.or j.trigger }
  match j.run o.stepLimit e with
  | .ok run => .finished (if j.fits o.stepLimit e then run else run.overflow)
  | .error fault => .failure fault.message

/-- The command: reads the configuration and then the program, and runs it. -/
def run {m : Type → Type} [Monad m] (readFile : String → m (Option String))
    (readInput : m (Option String)) (limit : Option Level) (args : List String) : m Outcome := do
  let some o := Options.parse? args | return .misuse
  let some c ← loadConfig readFile o.config | return .failure "loading config"
  match ← loadProgram readFile readInput o.program with
  | .error message => return .failure message
  | .ok text =>
    let some j := Job.read? text | return .failure "parsing program"
    return runJob o c limit j

end CommandLine

end Lockstep
