import BytecodeChecker.Model
import BytecodeChecker.Signature

/-! Programs: validated methods with resolved operands. Methods are numbered, those of the model
first and in its order. -/
namespace BytecodeChecker

structure MethodId where
  index : Nat
  deriving DecidableEq, Repr, Hashable, Inhabited

/-- A field operand: the name under which its value is stored, and its value before it is written. -/
structure FieldRef where
  name : String
  default : Value
  deriving DecidableEq, Repr

abbrev Op := Instruction Nat FieldRef MethodId

namespace Op

def text (op : Op) : String :=
  Instruction.text toString FieldRef.name (fun m => "#" ++ toString m.index) op

end Op

structure Method where
  symbol : String
  signature : Signature
  native : Bool
  maxLocals : UInt16
  code : Array Op
  handlers : List (Handler Nat)
  deriving DecidableEq, Repr

namespace Method

def findHandler? (m : Method) (pc : Nat) (className : String) : Option Nat :=
  (m.handlers.find? fun h => h.covers pc && h.catches className).map (·.target)

def isThreadEntry (m : Method) : Bool := !m.native && m.signature.argCount == 0

end Method

structure Program where
  name : String
  methods : Array Method
  entry : MethodId
  threads : List MethodId
  deriving DecidableEq, Repr

namespace Program

@[inline] def method? (p : Program) (m : MethodId) : Option Method := p.methods[m.index]?

@[inline] def op? (p : Program) (m : MethodId) (pc : Nat) : Option Op :=
  (p.method? m).bind fun method => method.code[pc]?

def lookup? (p : Program) (symbol : String) : Option MethodId :=
  (p.methods.findIdx? (·.symbol == symbol)).map MethodId.mk

def symbol (p : Program) (m : MethodId) : String := ((p.method? m).map (·.symbol)).getD ""

def padLeft (width : Nat) (s : String) : String :=
  String.ofList (List.replicate (width - s.length) ' ') ++ s

def listingLine (p : Program) (pc : Nat) (op : Op) : String :=
  let shown := match op with
    | .invokeStatic callee => op.mnemonic ++ " " ++ p.symbol callee
    | _ => op.text
  "  " ++ padLeft 4 (toString pc) ++ ": " ++ shown ++ "\n"

def handlerLine (h : Handler Nat) : String :=
  "  catch " ++ h.className ++ " [" ++ toString h.start ++ ", " ++ toString h.stop ++ ") -> "
    ++ toString h.target ++ "\n"

def listing (p : Program) (m : Method) : String :=
  if m.native then "native " ++ m.symbol ++ "\n"
  else
    m.symbol ++ " (locals: " ++ toString m.maxLocals.toNat ++ ")\n"
      ++ String.join (m.code.toList.zipIdx.map fun (op, pc) => p.listingLine pc op)
      ++ String.join (m.handlers.map handlerLine)

end Program

end BytecodeChecker
