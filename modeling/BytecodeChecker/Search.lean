import BytecodeChecker.Transition

/-! Depth-first search over all decisions. The last decision with a choice left is taken again from
the state in which it first came up, until none is left or a bound cuts the search. -/
namespace BytecodeChecker

inductive Verdict where
  | ok
  | violations
  | stateLimit
  | timeLimit
  | memoryLimit (megabytes : Nat)
  deriving DecidableEq, Repr

structure Report where
  verdict : Verdict
  violations : List Violation
  stats : Statistics
  deriving DecidableEq, Repr

structure Search where
  memory : Memory
  violations : List Violation

namespace Memory

def truncate (m : Memory) (which : Bound) : Memory :=
  { m with stats := { m.stats with truncated := m.stats.truncated + 1 } }.note (.bound which)

def countPath (m : Memory) : Memory :=
  { m with stats := { m.stats with paths := m.stats.paths + 1 } }

def countRevisit (m : Memory) : Memory :=
  { m with stats := { m.stats with revisited := m.stats.revisited + 1 } }

def see (m : Memory) (key : State.Key) : Memory := { m with visited := m.visited.insert key }

def push (m : Memory) (g : Generator) (s : State) : Memory :=
  { m with path := m.path.push g s }.note (.registered g s)

end Memory

def Config.exceeded? (c : Config) (states : Nat) (reading : Reading) : Option Bound :=
  if 0 < c.maxStates ∧ c.maxStates ≤ states then some .states
  else if 0 < c.maxTimeSecs ∧ c.maxTimeSecs * 1000000000 ≤ reading.nanoseconds then some .time
  -- a look at the memory in use is expensive, so there is one for every 1024 transitions
  else if 0 < c.memoryLimitMb ∧ states % 1024 = 0 ∧ reading.megabytes.any (c.memoryLimitMb < ·) then
    some .memory
  else none

def Reading.verdict (reading : Reading) : Bound → Verdict
  | .time => .timeLimit
  | .memory => .memoryLimit (reading.reported.getD 0)
  | _ => .stateLimit

namespace Explorer

def register (e : Explorer) (g : Generator) (s : State) (m : Memory) : Memory :=
  if g.total = 0 then m.countPath
  else if 0 < e.config.maxDepth ∧ e.config.maxDepth ≤ m.path.depth then m.truncate .depth
  else if e.config.stateMatching then
    let key := s.key m.path.eventPosition
    if m.visited.contains key then m.countRevisit else (m.see key).push g s
  else m.push g s

def settle (e : Explorer) (s : State) (ending : Ending) (search : Search) : Search :=
  match search, ending with
  | ⟨m, violations⟩, .choice g => ⟨e.register g s m, violations⟩
  | ⟨m, violations⟩, .finished .completed => ⟨m.countPath.note (.completed s), violations⟩
  | ⟨m, violations⟩, .finished .stepLimit => ⟨m.truncate .transitionSteps, violations⟩
  | ⟨m, violations⟩, .finished (.violated failure) =>
    let violation : Violation := ⟨failure, m.path.trace s⟩
    ⟨m.note (.violated violation), violation :: violations⟩

/-- Goes back to the last decision with a choice left; without one there is no state to go on from. -/
def backtrack (m : Memory) : Memory × Except CheckError (Option State) :=
  match m.path.nextBranch? with
  | none => ({ m with path := Path.empty }, .ok none)
  | some ⟨path, again⟩ =>
    let m := { m with path }
    match path.last? with
    | none => (m, .ok none)
    | some top =>
      match applyChoice m top.snapshot with
      | (m, .error error) => (m, .error error)
      | (m, .ok s) =>
        if again then
          let stats := { m.stats with backtracks := m.stats.backtracks + 1 }
          ({ m with stats }.note (.backtracked s path.depth), .ok (some s))
        else (m, .ok (some s))

inductive Turn where
  | goOn (search : Search) (state : State)
  | stop (memory : Memory) (result : Except CheckError Report)

def conclude (search : Search) (verdict : Verdict) : Turn :=
  let report : Report := ⟨verdict, search.violations.reverse, search.memory.stats⟩
  .stop (search.memory.note .finished) (.ok report)

def turn (e : Explorer) (s : State) (ending : Ending) (search : Search) : Turn :=
  let search := e.settle s ending search
  let violated := match ending with
    | .finished (.violated _) => true
    | _ => false
  let states := search.memory.stats.states
  if violated && e.config.stopOnFirstViolation then conclude search .violations
  else
    match e.config.exceeded? states (e.meters states) with
    | some bound =>
      conclude { search with memory := search.memory.note (.bound bound) }
        ((e.meters states).verdict bound)
    | none =>
      match backtrack search.memory with
      | (memory, .error error) => .stop memory (.error error)
      | (memory, .ok (some s)) => .goOn { search with memory } s
      | (memory, .ok none) =>
        conclude { search with memory } (if search.violations.isEmpty then .ok else .violations)

/-- Explores from a state. Without enough fuel there is no result; `steps` is the fuel of each
transition. -/
def explore (e : Explorer) (steps : Nat) :
    (fuel : Nat) → Search → State → Option (Memory × Except CheckError Report)
  | 0, _, _ => none
  | fuel + 1, search, s =>
    match e.advance steps search.memory s with
    | none => none
    | some ⟨memory, _, .error error⟩ => some (memory, .error error)
    | some ⟨memory, s, .ok ending⟩ =>
      match e.turn s ending { search with memory } with
      | .goOn search s => explore e steps fuel search s
      | .stop memory result => some (memory, result)

def exploreReading {m : Type → Type} [Monad m] (e : Explorer) (read : Nat → m Reading) (steps : Nat) :
    (fuel : Nat) → Search → State → m (Option (Memory × Except CheckError Report))
  | 0, _, _ => pure none
  | fuel + 1, search, s =>
    match e.advance steps search.memory s with
    | none => pure none
    | some ⟨memory, _, .error error⟩ => pure (some (memory, .error error))
    | some ⟨memory, s, .ok ending⟩ => do
      let reading ← read memory.stats.states
      match (e.metered fun _ => reading).turn s ending { search with memory } with
      | .goOn search s => exploreReading e read steps fuel search s
      | .stop memory result => pure (some (memory, result))

def check (e : Explorer) (fuel : Nat) : Option (Memory × Except CheckError Report) :=
  e.explore fuel fuel ⟨Memory.empty.note (.started e.program.name), []⟩ (State.initial e.program)

def checkReading {m : Type → Type} [Monad m] (e : Explorer) (read : Nat → m Reading) (fuel : Nat) :
    m (Option (Memory × Except CheckError Report)) :=
  e.exploreReading read fuel fuel ⟨Memory.empty.note (.started e.program.name), []⟩
    (State.initial e.program)

end Explorer

end BytecodeChecker
