import BytecodeChecker.Replay
import BytecodeChecker.Search

/-! Listing all completed paths: by a search, and without one by replaying ever longer lists of
choices from the start. -/
namespace BytecodeChecker

inductive EnumerationError where
  | check (error : CheckError)
  | tooMany (limit : Nat)
  | violated (choices : List Nat) (failure : Failure)
  | truncated (choices : List Nat)
  deriving DecidableEq, Repr

namespace EnumerationError

def choicesText (choices : List Nat) : String :=
  "[" ++ ", ".intercalate (choices.map toString) ++ "]"

def message : EnumerationError → String
  | check error => error.message
  | tooMany limit => "more than " ++ toString limit ++ " replays"
  | violated choices failure => "violation at " ++ choicesText choices ++ ": " ++ failure.text
  | truncated choices => "truncated at " ++ choicesText choices

end EnumerationError

structure CompletedPath where
  choices : List Nat
  state : State
  deriving DecidableEq, Repr

namespace Explorer

/-- Replays the lists of choices that are still to be tried, the next one first; the paths found are
listed with the last one first. -/
def enumerateFrom (e : Explorer) (fuel limit : Nat) :
    (budget : Nat) → List (List Nat) → List CompletedPath →
    Option (Except EnumerationError (List CompletedPath))
  | _, [], found => some (.ok found.reverse)
  | 0, _ :: _, _ => some (.error (.tooMany limit))
  | budget + 1, choices :: rest, found =>
    match e.replay fuel choices with
    | none => none
    | some (_, .error error) => some (.error (.check error))
    | some (_, .ok replayed) =>
      match replayed.stop with
      | .finished .completed =>
        enumerateFrom e fuel limit budget rest (⟨choices, replayed.state⟩ :: found)
      | .pending _ total =>
        let longer := (List.range total).map fun i => choices ++ [i]
        enumerateFrom e fuel limit budget (longer ++ rest) found
      | .finished (.violated failure) => some (.error (.violated choices failure))
      | .finished .stepLimit => some (.error (.truncated choices))

def enumerate (e : Explorer) (fuel limit : Nat) :
    Option (Except EnumerationError (List CompletedPath)) :=
  e.enumerateFrom fuel limit limit [[]] []

end Explorer

namespace Memory

def completedStates (m : Memory) : List State :=
  m.notices.reverse.filterMap fun
    | .completed s => some s
    | _ => none

end Memory

namespace Model

def check (model : Model) (config : Config) (fuel : Nat) : Option (Except CheckError Report) :=
  match Explorer.ofModel model config with
  | .error error => some (.error error)
  | .ok e => (e.check fuel).map (·.2)

def completedStates (model : Model) (config : Config) (fuel : Nat) :
    Option (Except CheckError (Report × List State)) :=
  match Explorer.ofModel model config with
  | .error error => some (.error error)
  | .ok e => (e.check fuel).map fun (m, result) => result.map (·, m.completedStates)

end Model

end BytecodeChecker
