import BytecodeChecker.Event.Tree
import BytecodeChecker.Heap

/-! Decision points. A generator lists the choices at one of them and has a cursor on the choice that
is being followed; the list is fixed and only the cursor moves. -/
namespace BytecodeChecker

inductive ChoiceKind where
  | scheduling | event | data
  deriving DecidableEq, Repr

def ChoiceKind.text : ChoiceKind → String
  | scheduling => "scheduling"
  | event => "event"
  | data => "data"

inductive Choice where
  | thread (t : ThreadId)
  | event (node : EventNode)
  | value (v : Value)

def Choice.text : Choice → String
  | thread t => t.text
  | event node => node.text
  | value v => v.text

inductive Choices where
  | threads (ids : List ThreadId)
  | events (node : EventNode)
  | values (vs : List Value)
  | range (lo hi : Int64)

namespace Choices

def kind : Choices → ChoiceKind
  | threads _ => .scheduling
  | events _ => .event
  | values _ | range .. => .data

def rangeSize (lo hi : Int64) : Nat := (hi.toInt - lo.toInt + 1).toNat

def total : Choices → Nat
  | threads ids => ids.length
  | events node => node.children.length
  | values vs => vs.length
  | range lo hi => rangeSize lo hi

def get? : Choices → Nat → Option Choice
  | threads ids, i => ids[i]?.map .thread
  | events node, i => node.children[i]?.map .event
  | values vs, i => vs[i]?.map .value
  | range lo hi, i =>
    if i < rangeSize lo hi then some (.value (.int (Int64.ofInt (lo.toInt + i)))) else none

end Choices

structure Generator where
  id : String
  choices : Choices
  cursor : Option Nat

namespace Generator

def ofThreads (id : String) (ids : List ThreadId) : Generator := ⟨id, .threads ids, none⟩

def ofEvents (id : String) (node : EventNode) : Generator := ⟨id, .events node, none⟩

def ofValues (id : String) (vs : List Value) : Generator := ⟨id, .values vs, none⟩

/-- A generator of a range, if its size fits in 64 bits. -/
def ofRange? (id : String) (lo hi : Int64) : Option Generator :=
  if Choices.rangeSize lo hi < UInt64.size then some ⟨id, .range lo hi, none⟩ else none

def kind (g : Generator) : ChoiceKind := g.choices.kind

def total (g : Generator) : Nat := g.choices.total

def chosen? (g : Generator) : Option Choice := g.cursor.bind g.choices.get?

def chosenThread? (g : Generator) : Option ThreadId :=
  g.chosen?.bind fun | .thread t => some t | _ => none

def chosenNode? (g : Generator) : Option EventNode :=
  g.chosen?.bind fun | .event n => some n | _ => none

def chosenValue? (g : Generator) : Option Value :=
  g.chosen?.bind fun | .value v => some v | _ => none

def nextIndex (g : Generator) : Nat :=
  match g.cursor with
  | none => 0
  | some i => i + 1

def hasMore (g : Generator) : Bool := g.nextIndex < g.total

def advance? (g : Generator) : Option Generator :=
  if g.hasMore then some { g with cursor := some g.nextIndex } else none

def select? (g : Generator) (i : Nat) : Option Generator :=
  if i < g.total then some { g with cursor := some i } else none

def successor? (g : Generator) (id : String) : Option Generator :=
  g.chosenNode?.bind fun node => if node.isLeaf then none else some (ofEvents id node)

end Generator

end BytecodeChecker
