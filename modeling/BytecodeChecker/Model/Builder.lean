import BytecodeChecker.Model

/-! Putting models together in steps, with shorthands for code that comes up often. -/
namespace BytecodeChecker

namespace Model

def start (name entry : String) : Model := ⟨name, entry, [], [], none, NameMap.empty⟩

def withMethod (m : Model) (signature : String) (maxLocals : UInt16) (code : List Code) : Model :=
  { m with methods := m.methods ++ [⟨signature, false, maxLocals, code, []⟩] }

def withThread (m : Model) (signature : String) (code : List Code) : Model :=
  { m.withMethod signature 0 code with threads := m.threads ++ [signature] }

namespace Code

def addTo (field : String) (delta : Int64) : List Code :=
  [.getStatic field, .pushLong delta, .arith .add, .putStatic field]

end Code

end Model

end BytecodeChecker
