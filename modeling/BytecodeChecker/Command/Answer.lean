import BytecodeChecker.Command
import BytecodeChecker.Json.Reader
import BytecodeChecker.Model.Format
import BytecodeChecker.Replay
import BytecodeChecker.Search
import BytecodeChecker.Text.Lines

/-! What a command answers, and how the answer is printed. -/
namespace BytecodeChecker

open Text (line indent)

inductive CommandError where
  | unreadable (file reason : String)
  | badModel
  | check (error : CheckError)
  | script (error : ScriptError)
  | noScript (file : String)
  deriving DecidableEq, Repr

namespace CommandError

def code? : CommandError → Option String
  | unreadable .. => none
  | badModel => some "bcmc::model_error"
  | check (.load _) => some "bcmc::load_error"
  | check (.config _) => some "bcmc::config_error"
  | check (.script _) => some "bcmc::config_error"
  | check (.peer _) => some "bcmc::config_error"
  | check _ => none
  | script _ => some "bcmc::config_error"
  | noScript _ => none

def message : CommandError → String
  | unreadable file reason => "failed to read " ++ file ++ ": " ++ reason
  | badModel => "invalid model file"
  | check (.load error) => "load error: " ++ error.message
  | check error =>
    match error with
    | .config _ | .script _ | .peer _ => "configuration error: " ++ error.message
    | _ => "check error: " ++ error.message
  | script error => "configuration error: " ++ error.message
  | noScript file => file ++ " has no event script"

end CommandError

inductive Answer where
  | checked (explorer : Explorer) (memory : Memory) (report : Report)
  | simulated (program : Program) (path : Simulated)
  | replayed (program : Program) (path : Replayed)
  | listed (program : Program)
  | scripted (tree : EventTree)

/-- What commands leave open: a search that may look at the clock and at the memory in use, and the
choices of a simulation, by the seed, the number of the decision and its count of choices. -/
structure Host (m : Type → Type) where
  search : Explorer → m (Option (Memory × Except CheckError Report))
  pick : UInt64 → Nat → Nat → Nat

namespace Command

variable {m : Type → Type} [Monad m]

def finished {α β : Type} (f : Memory → α → β) :
    Option (Memory × Except CheckError α) → Option (Except CommandError β)
  | none => none
  | some (_, .error error) => some (.error (.check error))
  | some (memory, .ok a) => some (.ok (f memory a))

def explored (model : Model) (config : Config)
    (run : Explorer → m (Option (Except CommandError Answer))) :
    m (Option (Except CommandError Answer)) :=
  match Explorer.ofModel model config with
  | .error error => pure (some (.error (.check error)))
  | .ok e => run e

/-- Answers a command for a model. Without enough fuel there is no answer. -/
def answer (host : Host m) (fuel : Nat) (model : Model) :
    Command → m (Option (Except CommandError Answer))
  | check _ config =>
    explored model config fun e => do return finished (Answer.checked e) (← host.search e)
  | simulate _ steps seed =>
    explored model Config.default fun e =>
      pure (finished (fun _ => Answer.simulated e.program) (e.simulate fuel (host.pick seed) steps))
  | replay _ choices =>
    explored model Config.default fun e =>
      pure (finished (fun _ => Answer.replayed e.program) (e.replay fuel choices))
  | disassemble _ =>
    pure (some ((Program.load model).map Answer.listed |>.mapError (.check ∘ .load)))
  | events file =>
    match model.events with
    | none => pure (some (.error (.noScript file)))
    | some script =>
      pure (some ((EventTree.ofScript script).map Answer.scripted |>.mapError .script))

def run (host : Host m) (fuel : Nat) (c : Command) (source : Except String String) :
    m (Option (Except CommandError Answer)) :=
  match source with
  | .error reason => pure (some (.error (.unreadable c.file reason)))
  | .ok text =>
    match (Json.parse? text).bind Model.ofJson? with
    | none => pure (some (.error .badModel))
    | some model => c.answer host fuel model

end Command

namespace Answer

def exitCode : Answer → UInt32
  | checked _ _ report =>
    if !report.violations.isEmpty then 1
    else
      match report.verdict with
      | .ok => 0
      | .violations => 1
      | .stateLimit | .timeLimit | .memoryLimit _ => 2
  | simulated _ (.completed ..) => 0
  | simulated _ (.stepLimit ..) => 2
  | simulated _ (.violated _) => 1
  | replayed _ path =>
    match path.stop with
    | .finished .completed => 0
    | .finished (.violated _) => 1
    | .finished .stepLimit => 2
    | .pending .. => 0
  | listed _ => 0
  | scripted _ => 0

def verdictText (r : Report) : String :=
  match r.verdict with
  | .ok => "OK"
  | .violations => toString r.violations.length ++ " VIOLATION(S)"
  | .stateLimit => "STATE LIMIT REACHED"
  | .timeLimit => "TIME LIMIT REACHED"
  | .memoryLimit _ => "MEMORY LIMIT REACHED"

def memoryText (r : Report) : String :=
  match r.verdict with
  | .memoryLimit megabytes => line ("  Memory usage: " ++ toString megabytes ++ " MB")
  | _ => ""

def countLine (label : String) (n : Nat) : String :=
  if 0 < n then line (label ++ toString n) else ""

def statisticsText (s : Statistics) : String :=
  line ("  States explored: " ++ toString s.states)
    ++ line ("  Paths completed: " ++ toString s.paths)
    ++ line ("  Max depth: " ++ toString s.maxDepth)
    ++ line ("  Backtracks: " ++ toString s.backtracks)
    ++ countLine "  Truncated paths: " s.truncated
    ++ countLine "  Revisited states: " s.revisited

def timeText (states nanoseconds : Nat) : String :=
  let hundredths := (nanoseconds + 5000000) / 10000000
  let digit (n : Nat) : String := toString (n % 10)
  line ("  Time: " ++ toString (hundredths / 100) ++ "." ++ digit (hundredths / 10)
      ++ digit hundredths ++ "s")
    ++ (if 0 < nanoseconds then
        line ("  States/sec: "
          ++ toString ((2 * states * 1000000000 + nanoseconds) / (2 * nanoseconds)))
      else "")

def violationText (p : Program) (v : Violation) : String :=
  line "" ++ line ("Violation: " ++ v.failure.text)
    ++ line ("  Choices: " ++ ",".intercalate (v.trace.choices.map toString))
    ++ line ("  Trace (" ++ toString v.trace.steps.length ++ " steps):")
    ++ indent "    " (v.trace.render p)

def coverageText (e : Explorer) (m : Memory) : String :=
  match e.registry.tree with
  | none => ""
  | some t =>
    line ("  Event coverage: " ++ toString (t.leafCount - m.coverage.uncovered t) ++ "/"
      ++ toString t.leafCount ++ " leaves")

def simulatedText (p : Program) : Simulated → String
  | .completed steps trace =>
    line ("Result: COMPLETED after " ++ toString steps ++ " choices") ++ line (trace.final.render p)
  | .stepLimit steps trace =>
    line ("Result: STEP LIMIT after " ++ toString steps ++ " choices") ++ line (trace.final.render p)
  | .violated violation => line "Result: VIOLATION" ++ violationText p violation

def stopText : PathEnd → String
  | .finished .completed => "COMPLETED"
  | .finished (.violated failure) => "VIOLATION: " ++ failure.text
  | .finished .stepLimit => "TRUNCATED (transition step bound)"
  | .pending generator total =>
    "STOPPED at generator '" ++ generator ++ "' with " ++ toString total ++ " choices"

def pathLine (index : Nat) (path : List Event) : String :=
  line ("  " ++ Program.padLeft 4 (toString index) ++ ": "
    ++ " ".intercalate (path.map Event.text))

def text (nanoseconds? : Option Nat) : Answer → String
  | checked e memory report =>
    line "" ++ line ("Result: " ++ verdictText report) ++ memoryText report
      ++ statisticsText report.stats
      ++ (match nanoseconds? with | some n => timeText report.stats.states n | none => "")
      ++ String.join (report.violations.map (violationText e.program))
      ++ coverageText e memory
  | simulated p path => line "" ++ simulatedText p path
  | replayed p path =>
    line "" ++ indent "  " (path.trace.render p) ++ line ("Result: " ++ stopText path.stop)
  | listed p => line ("program " ++ p.name) ++ String.join (p.methods.toList.map p.listing)
  | scripted t =>
    line ("event tree: " ++ toString t.nodeCount ++ " nodes, " ++ toString t.leafCount ++ " paths")
      ++ String.join (t.paths.zipIdx.map fun (path, i) => pathLine i path)

end Answer

end BytecodeChecker
