import BytecodeChecker.Event
import BytecodeChecker.Instruction
import BytecodeChecker.Lineage
import BytecodeChecker.NameMap

/-! A model: the guest program as its author writes it, with the script of its environment and the
methods that events are bound to. Nothing in a model is checked yet. -/
namespace BytecodeChecker

/-- A row of an exception table: an exception of the class that is thrown at an index of
`start ≤ pc < stop` is handled at `target`. -/
structure Handler (Label : Type) where
  start : Label
  stop : Label
  target : Label
  className : String
  deriving DecidableEq, Repr

namespace Handler

def anyClass : String := "*"

def covers (h : Handler Nat) (pc : Nat) : Bool := h.start ≤ pc && pc < h.stop

def catches {Label : Type} (h : Handler Label) (className : String) : Bool :=
  h.className == anyClass || Lineage.isSubclass className h.className

end Handler

namespace Model

abbrev Code := Instruction UInt64 String String

structure Method where
  signature : String
  native : Bool
  maxLocals : UInt16
  code : List Code
  handlers : List (Handler UInt64)
  deriving DecidableEq, Repr

end Model

structure Model where
  name : String
  entry : String
  threads : List String
  methods : List Model.Method
  events : Option Script
  actions : NameMap String
  deriving DecidableEq, Repr

end BytecodeChecker
