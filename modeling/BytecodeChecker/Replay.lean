import BytecodeChecker.Transition

/-! Following one path: with given choices, or with choices that are picked on the way. -/
namespace BytecodeChecker

inductive PathEnd where
  | pending (generator : String) (total : Nat)
  | finished (finish : Finish)
  deriving DecidableEq, Repr

structure Replayed where
  state : State
  stop : PathEnd
  trace : Trace
  deriving DecidableEq, Repr

inductive Simulated where
  | completed (steps : Nat) (trace : Trace)
  | stepLimit (steps : Nat) (trace : Trace)
  | violated (violation : Violation)
  deriving DecidableEq, Repr

namespace Explorer

def begin (e : Explorer) (fuel : Nat) : Option Advance :=
  e.advance fuel Memory.empty (State.initial e.program)

def take (e : Explorer) (fuel : Nat) (m : Memory) (s : State) (g : Generator) : Option Advance :=
  match applyChoice { m with path := m.path.push g s } s with
  | (m, .error error) => some ⟨m, s, .error error⟩
  | (m, .ok s) => e.advance fuel m s

def pathEnd : Ending → PathEnd
  | .choice g => .pending g.id g.total
  | .finished finish => .finished finish

def follow (e : Explorer) (fuel : Nat) :
    (step : Nat) → List Nat → Advance → Option (Memory × Except CheckError Replayed)
  | _, _, ⟨m, _, .error error⟩ => some (m, .error error)
  | _, [], ⟨m, s, .ok ending⟩ => some (m, .ok ⟨s, pathEnd ending, m.path.trace s⟩)
  | step, _ :: _, ⟨m, _, .ok (.finished finish)⟩ =>
    some (m, .error (.replayDiverged step (.pathEnded finish)))
  | step, i :: rest, ⟨m, s, .ok (.choice g)⟩ =>
    match g.select? i with
    | none => some (m, .error (.replayDiverged step (.noSuchChoice g.id g.total i)))
    | some g =>
      match e.take fuel m s g with
      | none => none
      | some next => follow e fuel (step + 1) rest next

def replay (e : Explorer) (fuel : Nat) (choices : List Nat) :
    Option (Memory × Except CheckError Replayed) :=
  (e.begin fuel).bind (e.follow fuel 0 choices)

/-- Goes on from where a run stands for at most `remaining` decisions, the choice at each being the
one that `pick` gives for its number and its count of choices. -/
def walk (e : Explorer) (fuel : Nat) (pick : Nat → Nat → Nat) :
    (remaining : Nat) → (steps : Nat) → Advance → Option (Memory × Except CheckError Simulated)
  | _, _, ⟨m, _, .error error⟩ => some (m, .error error)
  | _, steps, ⟨m, s, .ok (.finished .completed)⟩ => some (m, .ok (.completed steps (m.path.trace s)))
  | _, steps, ⟨m, s, .ok (.finished .stepLimit)⟩ => some (m, .ok (.stepLimit steps (m.path.trace s)))
  | _, _, ⟨m, s, .ok (.finished (.violated failure))⟩ =>
    some (m, .ok (.violated ⟨failure, m.path.trace s⟩))
  | 0, steps, ⟨m, s, .ok (.choice _)⟩ => some (m, .ok (.stepLimit steps (m.path.trace s)))
  | remaining + 1, steps, ⟨m, s, .ok (.choice g)⟩ =>
    match g.select? (pick steps g.total % g.total) with
    | none => some (m, .ok (.completed steps (m.path.trace s)))
    | some g =>
      match e.take fuel m s g with
      | none => none
      | some next => walk e fuel pick remaining (steps + 1) next

def simulate (e : Explorer) (fuel : Nat) (pick : Nat → Nat → Nat) (maxSteps : Nat) :
    Option (Memory × Except CheckError Simulated) :=
  (e.begin fuel).bind (e.walk fuel pick maxSteps 0)

end Explorer

end BytecodeChecker
