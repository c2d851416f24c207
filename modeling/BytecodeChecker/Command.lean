import BytecodeChecker.Explorer

/-! Commands, and how the arguments of a command line are read. -/
namespace BytecodeChecker

inductive Command where
  | check (file : String) (config : Config)
  | simulate (file : String) (steps : Nat) (seed : UInt64)
  | replay (file : String) (choices : List Nat)
  | disassemble (file : String)
  | events (file : String)
  deriving DecidableEq, Repr

inductive Argument where
  | operand (text : String)
  | option (name value : String)
  | flag (name : String)
  deriving DecidableEq, Repr

structure Options where
  valued : List String
  flags : List String
  letters : List (Char × String)
  deriving DecidableEq, Repr

namespace Options

def splitEquals (cs : List Char) : String × Option String :=
  (String.ofList (cs.takeWhile (· ≠ '=')),
    match cs.dropWhile (· ≠ '=') with
    | [] => none
    | _ :: value => some (String.ofList value))

/-- A text that is read as a name, so that it cannot be the value of an option before it. -/
def isName (s : String) : Bool :=
  match s.toList with
  | '-' :: _ :: _ => true
  | _ => false

/-- The arguments that a command line is made of. Everything after two dashes stands for itself. -/
def read? (o : Options) : List String → Option (List Argument)
  | [] => some []
  | first :: rest =>
    match first.toList with
    | ['-', '-'] => some (rest.map .operand)
    | '-' :: '-' :: text =>
      match splitEquals text with
      | (name, some value) =>
        if name ∈ o.valued then (read? o rest).map (.option name value :: ·) else none
      | (name, none) =>
        if name ∈ o.flags then (read? o rest).map (.flag name :: ·)
        else
          match rest with
          | [] => none
          | value :: rest =>
            if name ∈ o.valued ∧ ¬ isName value then (read? o rest).map (.option name value :: ·)
            else none
    | '-' :: letter :: letters => do
      let flags ← (letter :: letters).mapM fun c => o.letters.lookup c
      return flags.map .flag ++ (← read? o rest)
    | _ => (read? o rest).map (.operand first :: ·)

end Options

namespace Argument

def key? : Argument → Option (Option String)
  | operand _ => some none
  | option name _ => if name = "choices" then none else some (some name)
  | flag name => some (some name)

def number? (s : String) : Option Nat :=
  let digits := match s.toList with
    | '+' :: digits => digits
    | digits => digits
  if !digits.isEmpty && digits.all Char.isDigit then
    let n := digits.foldl (fun n c => n * 10 + (c.toNat - '0'.toNat)) 0
    if n < UInt64.size then some n else none
  else none

def file? (args : List Argument) : Option String :=
  match args.filterMap (fun | operand text => some text | _ => none) with
  | [text] => if text.isEmpty then none else some text
  | _ => none

def values (args : List Argument) (name : String) : List String :=
  args.filterMap fun
    | option other value => if other = name then some value else none
    | _ => none

def numberOr? (args : List Argument) (name : String) (default : Nat) : Option Nat :=
  match values args name with
  | [] => some default
  | value :: _ => number? value

def has (args : List Argument) (name : String) : Bool := args.contains (flag name)

def numbers? (args : List Argument) (name : String) : Option (List Nat) :=
  ((values args name).flatMap (·.splitOn ",")).mapM number?

end Argument

namespace Command

def checkOptions : Options :=
  { valued :=
      ["max-states", "max-depth", "max-time", "memory-limit", "max-transition-steps"]
    flags := ["no-deadlock", "state-matching", "all", "verbose"]
    letters := [('v', "verbose")] }

def simulateOptions : Options := ⟨["steps", "seed"], ["verbose"], [('v', "verbose")]⟩

def replayOptions : Options := ⟨["choices"], ["verbose"], [('v', "verbose")]⟩

def noOptions : Options := ⟨[], [], []⟩

def readOnce? (o : Options) (args : List String) : Option (List Argument) := do
  let args ← o.read? args
  if (args.filterMap Argument.key?).Nodup then some args else none

def config? (args : List Argument) : Option Config := do
  let maxStates ← Argument.numberOr? args "max-states" 0
  let maxDepth ← Argument.numberOr? args "max-depth" 0
  let maxTimeSecs ← Argument.numberOr? args "max-time" 0
  let memoryLimitMb ← Argument.numberOr? args "memory-limit" 0
  let maxTransitionSteps ← Argument.numberOr? args "max-transition-steps" 1000000
  return {
    checkDeadlock := !Argument.has args "no-deadlock"
    maxStates
    maxDepth
    maxTimeSecs
    memoryLimitMb
    stopOnFirstViolation := !Argument.has args "all"
    stateMatching := Argument.has args "state-matching"
    maxTransitionSteps
    noteInstructions := false }

def ofArguments? : List String → Option Command
  | "check" :: args => do
    let args ← readOnce? checkOptions args
    return check (← Argument.file? args) (← config? args)
  | "simulate" :: args => do
    let args ← readOnce? simulateOptions args
    let steps ← Argument.numberOr? args "steps" 1000
    let seed ← Argument.numberOr? args "seed" 0
    return simulate (← Argument.file? args) steps (UInt64.ofNat seed)
  | "replay" :: args => do
    let args ← readOnce? replayOptions args
    return replay (← Argument.file? args) (← Argument.numbers? args "choices")
  | "disasm" :: args => do
    let args ← readOnce? noOptions args
    return disassemble (← Argument.file? args)
  | "events" :: args => do
    let args ← readOnce? noOptions args
    return events (← Argument.file? args)
  | _ => none

def file : Command → String
  | check file _ => file
  | simulate file _ _ => file
  | replay file _ => file
  | disassemble file => file
  | events file => file

def usage : String :=
  "usage: bytecode-checker check FILE [OPTIONS]\n"
    ++ "         --max-states N, --max-depth N, --max-time N, --memory-limit N,\n"
    ++ "         --max-transition-steps N, --no-deadlock, --state-matching, --all, --verbose\n"
    ++ "       bytecode-checker simulate FILE [--steps N] [--seed N] [--verbose]\n"
    ++ "       bytecode-checker replay FILE [--choices INDICES] [--verbose]\n"
    ++ "       bytecode-checker disasm FILE\n"
    ++ "       bytecode-checker events FILE\n"

end Command

end BytecodeChecker
