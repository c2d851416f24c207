import BytecodeChecker.Value
import BytecodeChecker.Signature
import BytecodeChecker.Lineage
import BytecodeChecker.Instruction
import BytecodeChecker.NameMap
import BytecodeChecker.Json
import BytecodeChecker.Json.Number
import BytecodeChecker.Json.Reader
import BytecodeChecker.Json.Writer
import BytecodeChecker.Predicate
import BytecodeChecker.Event
import BytecodeChecker.Model
import BytecodeChecker.Model.Format
import BytecodeChecker.Model.Builder
import BytecodeChecker.Program
import BytecodeChecker.Program.Load
import BytecodeChecker.Heap
import BytecodeChecker.Locals
import BytecodeChecker.Frame
import BytecodeChecker.Machine
import BytecodeChecker.Event.Expansion
import BytecodeChecker.Event.Tree
import BytecodeChecker.Choice
import BytecodeChecker.Text.Hex
import BytecodeChecker.Text.Hidden
import BytecodeChecker.Text.Quoted
import BytecodeChecker.State
import BytecodeChecker.Violation
import BytecodeChecker.Path
import BytecodeChecker.Peer
import BytecodeChecker.Peer.Builtin
import BytecodeChecker.Peer.Stub
import BytecodeChecker.Explorer
import BytecodeChecker.Transition
import BytecodeChecker.Search
import BytecodeChecker.Replay
import BytecodeChecker.Enumeration
import BytecodeChecker.Text.Lines
import BytecodeChecker.Command
import BytecodeChecker.Command.Answer
import BytecodeChecker.Main
import BytecodeChecker.Proofs.Loading
import BytecodeChecker.Proofs.Natives
import BytecodeChecker.Proofs.Ranges
import BytecodeChecker.Proofs.Peers
import BytecodeChecker.Proofs.Standard
import BytecodeChecker.Proofs.Transition
import BytecodeChecker.Proofs.Renaming
import BytecodeChecker.Proofs.Upshot
import BytecodeChecker.Proofs.Equivariance
import BytecodeChecker.Proofs.Commuting
import BytecodeChecker.Proofs.Deeds
import BytecodeChecker.Proofs.Run
import BytecodeChecker.Proofs.Branching
import BytecodeChecker.Proofs.Frontier
import BytecodeChecker.Proofs.Violations
import BytecodeChecker.Proofs.Worklist
import BytecodeChecker.Proofs.Decisions
import BytecodeChecker.Proofs.Matching
import BytecodeChecker.Proofs.Schedules
import BytecodeChecker.Proofs.Interleaving
import BytecodeChecker.Proofs.Checked
import BytecodeChecker.Proofs.Operands
import BytecodeChecker.Proofs.WellFormed
import BytecodeChecker.Proofs.Course
import BytecodeChecker.Proofs.Faults
import BytecodeChecker.Proofs.StepBound
import BytecodeChecker.Proofs.History
import BytecodeChecker.Proofs.Scene
import BytecodeChecker.Proofs.Preemption
import BytecodeChecker.Proofs.Chronicle
import BytecodeChecker.Proofs.Monitors
import BytecodeChecker.Proofs.FirstSteps
import BytecodeChecker.Proofs.Dispatches
import BytecodeChecker.Proofs.NativeEffects
import BytecodeChecker.Proofs.Descent
import BytecodeChecker.Proofs.Statistics
import BytecodeChecker.Proofs.Cutoff
import BytecodeChecker.Proofs.Meters
import BytecodeChecker.Proofs.Denotation
import BytecodeChecker.Proofs.EventLoop
import BytecodeChecker.Proofs.Sharing
import BytecodeChecker.Proofs.Tour
import BytecodeChecker.Proofs.Descriptors
import BytecodeChecker.Proofs.Itinerary
import BytecodeChecker.Proofs.Validation
import BytecodeChecker.Proofs.RoundTrip
import BytecodeChecker.Proofs.Tolerance
import BytecodeChecker.Proofs.Siblings
import BytecodeChecker.Proofs.Lengths
import BytecodeChecker.Proofs.Counting
import BytecodeChecker.Proofs.Meaning
import BytecodeChecker.Proofs.Signatures
import BytecodeChecker.Proofs.Unwinding
import BytecodeChecker.Proofs.Locality
import BytecodeChecker.Proofs.Exchange
import BytecodeChecker.Proofs.Reached
import BytecodeChecker.Proofs.Independence
import BytecodeChecker.Proofs.Calls
import BytecodeChecker.Proofs.Division
import BytecodeChecker.Proofs.StateLimit
import BytecodeChecker.Proofs.FailedCalls
