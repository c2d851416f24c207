import BytecodeChecker.Violation

/-! Paths: the decisions that led from the initial state to the present one. -/
namespace BytecodeChecker

structure Entry where
  generator : Generator
  snapshot : State
  place : Nat

def Entry.traceStep (e : Entry) : TraceStep :=
  { generator := e.generator.id
    kind := e.generator.kind
    index := e.generator.cursor.getD 0
    choice := (e.generator.chosen?.map Choice.text).getD ""
    thread := e.generator.chosenThread?.getD e.snapshot.current
    state := e.snapshot }

def Path.placeAfter : Option EventNode → Nat
  | some node => node.id + 1
  | none => 0

def Entry.next (e : Entry) : Nat :=
  if e.generator.kind = .event then Path.placeAfter e.generator.chosenNode? else e.place

def Path.reached : List Entry → Nat
  | [] => 0
  | e :: _ => e.next

def Path.Placed : List Entry → Prop
  | [] => True
  | e :: rest => e.place = reached rest ∧ Placed rest

structure Path where
  entries : List Entry
  depth : Nat
  depth_eq : depth = entries.length
  placed : Path.Placed entries

namespace Path

def empty : Path := ⟨[], 0, rfl, trivial⟩

def push (p : Path) (g : Generator) (s : State) : Path :=
  ⟨⟨g, s, reached p.entries⟩ :: p.entries, p.depth + 1, by simp [p.depth_eq], rfl, p.placed⟩

def last? (p : Path) : Option Entry := p.entries.head?

def generators (p : Path) : List Generator := p.entries.map (·.generator)

def lastOf? (p : Path) (kind : ChoiceKind) : Option Generator :=
  (p.entries.find? (·.generator.kind == kind)).map (·.generator)

def lastNode? (p : Path) : Option EventNode := (p.lastOf? .event).bind Generator.chosenNode?

def eventPosition (p : Path) : Nat := reached p.entries

theorem reachedLast {entries : List Entry} (h : Placed entries) :
    reached entries = placeAfter
      (((entries.find? (·.generator.kind == .event)).map (·.generator)).bind
        Generator.chosenNode?) := by
  induction entries with
  | nil => rfl
  | cons e rest ih =>
    by_cases here : e.generator.kind = .event
    · simp [reached, Entry.next, here]
    · have step : reached (e :: rest) = reached rest := by
        simp [reached, Entry.next, here, h.1]
      simp [step, here, ih h.2]

theorem eventPositionLast (p : Path) : p.eventPosition = placeAfter p.lastNode? := reachedLast p.placed

def trace (p : Path) (final : State) : Trace := ⟨p.entries.reverse.map Entry.traceStep, final⟩

/-- A way to go on: the path whose last decision has moved to its next choice, and whether another
choice of that decision had been followed before. -/
structure Branch where
  path : Path
  again : Bool

def branchFrom? : (entries : List Entry) → (depth : Nat) → depth = entries.length →
    Placed entries → Option Branch
  | [], _, _, _ => none
  | top :: below, depth, h, placed =>
    match top.generator.advance? with
    | some g =>
      some ⟨⟨{ top with generator := g } :: below, depth, h, placed⟩, top.generator.cursor.isSome⟩
    | none => branchFrom? below (depth - 1) (by simp [h]) placed.2

def nextBranch? (p : Path) : Option Branch := branchFrom? p.entries p.depth p.depth_eq p.placed

end Path

end BytecodeChecker
