import Std.Data.HashSet
import BytecodeChecker.Peer.Builtin
import BytecodeChecker.Program.Load
import BytecodeChecker.Text.Quoted

/-! Explorers: what stays fixed while the decisions of a program are explored, and the memory that a
run builds up. -/
namespace BytecodeChecker

/-- The bounds and the manner of a search. A bound of zero is none. -/
structure Config where
  checkDeadlock : Bool
  maxStates : Nat
  maxDepth : Nat
  maxTimeSecs : Nat
  memoryLimitMb : Nat
  stopOnFirstViolation : Bool
  stateMatching : Bool
  maxTransitionSteps : Nat
  noteInstructions : Bool
  deriving DecidableEq, Repr

def Config.default : Config :=
  { checkDeadlock := true
    maxStates := 0
    maxDepth := 0
    maxTimeSecs := 0
    memoryLimitMb := 0
    stopOnFirstViolation := true
    stateMatching := false
    maxTransitionSteps := 1000000
    noteInstructions := false }

structure Property where
  name : String
  holds : State → Bool

inductive Finish where
  | completed
  | stepLimit
  | violated (failure : Failure)
  deriving DecidableEq, Repr

inductive Ending where
  | choice (generator : Generator)
  | finished (finish : Finish)

inductive Divergence where
  | pathEnded (finish : Finish)
  | noSuchChoice (generator : String) (total index : Nat)
  deriving DecidableEq, Repr

inductive CheckError where
  | load (e : LoadError)
  | script (e : ScriptError)
  | peer (e : PeerError)
  | machine (fault : Fault)
  | config (text : String)
  | replayDiverged (step : Nat) (cause : Divergence)
  | internal (text : String)
  deriving DecidableEq, Repr

namespace Failure

def threadTag (t : ThreadId) : String := "ThreadId(" ++ toString t.index ++ ")"

def debugText : Failure → String
  | uncaughtException t className message =>
    "UncaughtException \x7b thread: " ++ threadTag t ++ ", class: " ++ Text.quoted className
      ++ ", message: "
      ++ (match message with | some m => "Some(" ++ Text.quoted m ++ ")" | none => "None")
      ++ " \x7d"
  | deadlock blocked =>
    "Deadlock \x7b blocked: [" ++ ", ".intercalate (blocked.map threadTag) ++ "] \x7d"
  | checkFailed check predicate =>
    "CheckFailed \x7b check: " ++ Text.quoted check ++ ", predicate: " ++ Text.quoted predicate
      ++ " \x7d"
  | property name message =>
    "Property \x7b name: " ++ Text.quoted name ++ ", message: " ++ Text.quoted message ++ " \x7d"

end Failure

def Finish.debugText : Finish → String
  | completed => "Completed"
  | stepLimit => "StepLimit"
  | violated failure => "Violation(" ++ failure.debugText ++ ")"

def Divergence.message : Divergence → String
  | pathEnded finish => "path already ended (" ++ finish.debugText ++ ")"
  | noSuchChoice generator total index =>
    "generator '" ++ generator ++ "' has " ++ toString total ++ " choices, index "
      ++ toString index ++ " requested"

def CheckError.message : CheckError → String
  | load e => e.message
  | script e => "event script: " ++ e.message
  | peer e => "peer configuration: " ++ e.message
  | machine fault => "vm error: " ++ fault.message
  | config text => "configuration error: " ++ text
  | replayDiverged step cause =>
    "replay diverged at choice " ++ toString step ++ ": " ++ cause.message
  | internal text => "internal error: " ++ text

inductive Bound where
  | depth | states | time | memory | transitionSteps
  deriving DecidableEq, Repr

inductive Notice where
  | started (program : String)
  | instruction (thread : ThreadId) (method : MethodId) (pc : Nat) (op : Op)
  | registered (generator : Generator) (state : State)
  | advanced (state : State) (depth : Nat)
  | backtracked (state : State) (depth : Nat)
  | exception (thrown : Thrown)
  | bound (which : Bound)
  | peerError (thread : ThreadId) (symbol : String) (error : PeerError)
  | completed (state : State)
  | violated (violation : Violation)
  | finished

structure Statistics where
  states : Nat
  maxDepth : Nat
  paths : Nat
  truncated : Nat
  backtracks : Nat
  revisited : Nat
  deriving DecidableEq, Repr

def Statistics.zero : Statistics := ⟨0, 0, 0, 0, 0, 0⟩

/-- The memory of a run. The path has the last decision first, and so have the notices. -/
structure Memory where
  path : Path
  visited : Std.HashSet State.Key
  coverage : Coverage
  stats : Statistics
  notices : List Notice

namespace Memory

def empty : Memory := ⟨Path.empty, ∅, Coverage.empty, Statistics.zero, []⟩

def note (m : Memory) (n : Notice) : Memory := { m with notices := n :: m.notices }

end Memory

/-- What a search can tell of its surroundings when a transition has ended: the time since its start,
and the memory in use, looked up once for the bound and once more for the report. -/
structure Reading where
  nanoseconds : Nat
  megabytes : Option Nat
  reported : Option Nat
  deriving DecidableEq, Repr

def Reading.idle : Reading := ⟨0, none, none⟩

structure Explorer where
  program : Program
  registry : Registry
  config : Config
  properties : List Property
  meters : Nat → Reading

def Registry.withModel (r : Registry) (p : Program) (model : Model) : Except CheckError Registry := do
  let tree ← match model.events with
    | none => pure r.tree
    | some script => (EventTree.ofScript script).mapError CheckError.script |>.map some
  let (r, bound) := { r with tree }.bindActions p model.actions.entries
  match bound with
  | .ok () => return r
  | .error e => throw (.peer e)

namespace Explorer

def make (p : Program) (r : Registry) (config : Config) (properties : List Property) :
    Except CheckError Explorer :=
  let needsTree (m : Method) : Bool :=
    m.native && Builtin.isEventProducer m.symbol && r.contains m.symbol
  match r.tree, p.methods.find? needsTree with
  | none, some m => .error (.config (m.symbol ++ " is called but the model has no event script"))
  | _, _ => .ok ⟨p, r, config, properties, fun _ => .idle⟩

def ofModel (model : Model) (config : Config) : Except CheckError Explorer := do
  let p ← (Program.load model).mapError CheckError.load
  let r ← Builtin.registry.withModel p model
  make p r config []

def metered (e : Explorer) (meters : Nat → Reading) : Explorer := { e with meters }

end Explorer

end BytecodeChecker
