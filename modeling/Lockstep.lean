import Lockstep.Main
import Lockstep.Proofs.Engine.Agreement
import Lockstep.Proofs.Engine.Atomicity
import Lockstep.Proofs.Engine.Inactive
import Lockstep.Proofs.Engine.Indifference
import Lockstep.Proofs.Engine.LastStore
import Lockstep.Proofs.Engine.Missed
import Lockstep.Proofs.Engine.Offsets
import Lockstep.Proofs.Engine.RoundTrip
import Lockstep.Proofs.Interval.Exact
import Lockstep.Proofs.Memory.Pruning
import Lockstep.Proofs.Run.Independence
import Lockstep.Proofs.Term.Preservation
import Lockstep.Proofs.Value.Agreement
import Lockstep.Proofs.Term.Variables
import Lockstep.Proofs.Value.Variables
import Lockstep.Proofs.Solver.Effects
import Lockstep.Proofs.Memory.Effects
import Lockstep.Proofs.Memory.Merge
import Lockstep.Proofs.Engine.Effects
import Lockstep.Proofs.Engine.Calls
import Lockstep.Proofs.Solver.Recorder
import Lockstep.Proofs.Engine.Freshness
import Lockstep.Proofs.Engine.Budget
import Lockstep.Proofs.Solver.Steady
import Lockstep.Proofs.Memory.Order
import Lockstep.Proofs.Engine.Logged
import Lockstep.Proofs.Engine.Registers
import Lockstep.Proofs.Engine.Rejected
import Lockstep.Proofs.Engine.Steady
import Lockstep.Proofs.Engine.Order
import Lockstep.Proofs.Json.Text
import Lockstep.Proofs.Json.RoundTrip
import Lockstep.Proofs.Json.Records
import Lockstep.Proofs.Program.RoundTrip
import Lockstep.Proofs.Memory.Transparency
import Lockstep.Proofs.Value.Parts
import Lockstep.Proofs.Engine.XorZero
import Lockstep.Proofs.Engine.ActiveParts
import Lockstep.Proofs.Engine.LastAddress
import Lockstep.Proofs.Engine.NextAddress
import Lockstep.Proofs.Interval.Closed
import Lockstep.Proofs.Value.Checked
import Lockstep.Proofs.Engine.Ranges
import Lockstep.Proofs.Term.Reduced
import Lockstep.Proofs.Engine.Accounts
