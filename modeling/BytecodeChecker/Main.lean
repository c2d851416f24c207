import BytecodeChecker.Command.Answer

/-! The command line. -/
namespace BytecodeChecker

def readSource (file : String) : IO (Except String String) := do
  try
    return .ok (← IO.FS.readFile ⟨file⟩)
  catch error =>
    return .error <| match error with
      | .noFileOrDirectory .. => "No such file or directory (os error 2)"
      | .permissionDenied .. => "Permission denied (os error 13)"
      | .inappropriateType _ code details =>
        details ++ " (os error " ++ toString code ++ ")"
      | other => toString other

def unlimited : Nat := 1000000000000000000

def memoryInUse : IO (Option Nat) := do
  try
    let counts := (← IO.FS.readFile ⟨"/proc/self/statm"⟩).splitOn " "
    return counts[1]?.bind String.toNat? |>.map (· * 4096 / 1048576)
  catch _ =>
    return none

/-- A reading after so many transitions. Memory is looked up only where it can matter. -/
def readMeters (config : Config) (start states : Nat) : IO Reading := do
  let now ← IO.monoNanosNow
  if 0 < config.memoryLimitMb ∧ states % 1024 = 0 then
    return ⟨now - start, ← memoryInUse, ← memoryInUse⟩
  else return ⟨now - start, none, none⟩

def searchLive (e : Explorer) : IO (Option (Memory × Except CheckError Report)) := do
  let start ← IO.monoNanosNow
  e.checkReading (readMeters e.config start) unlimited

def pickBySeed (seed : UInt64) (step total : Nat) : Nat :=
  let mixed := (seed + UInt64.ofNat (step + 1)) * 0x9E3779B97F4A7C15
  (mixed ^^^ (mixed >>> 31)).toNat % total

def runCommand (c : Command) : IO UInt32 := do
  let source ← readSource c.file
  let start ← IO.monoNanosNow
  let outcome ← c.run ⟨searchLive, pickBySeed⟩ unlimited source
  let stop ← IO.monoNanosNow
  match outcome with
  | some (.ok answer) =>
    IO.print (answer.text (some (stop - start)))
    return answer.exitCode
  | some (.error error) =>
    IO.eprintln (((error.code?.map (· ++ ": ")).getD "") ++ error.message)
    return 1
  | none =>
    IO.eprintln "the run was not finished"
    return 1

end BytecodeChecker

def main (args : List String) : IO UInt32 :=
  match BytecodeChecker.Command.ofArguments? args with
  | some c => BytecodeChecker.runCommand c
  | none => do
    IO.eprint BytecodeChecker.Command.usage
    return 2
