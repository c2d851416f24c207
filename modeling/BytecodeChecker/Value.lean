/-! Guest values. A value is the null reference, a signed 64-bit integer with wrapping arithmetic,
a string, or a reference to a heap object. Booleans are the integers 0 and 1. -/
namespace BytecodeChecker

structure ObjectId where
  index : Nat
  deriving DecidableEq, Repr, Hashable, Inhabited

def ObjectId.text (o : ObjectId) : String := "@" ++ toString o.index

inductive Value where
  | null
  | int (n : Int64)
  | str (text : String)
  | ref (object : ObjectId)
  deriving DecidableEq, Repr, Hashable, Inhabited

namespace Value

def ofBool (b : Bool) : Value := .int (if b then 1 else 0)

def text : Value → String
  | null => "null"
  | int n => toString n.toInt
  | str s => "\"" ++ s ++ "\""
  | ref o => o.text

def typeName : Value → String
  | null => "null"
  | int _ => "long"
  | str _ => "String"
  | ref _ => "reference"

/-- Everything but an integer may stand where a reference is expected. -/
def isReference : Value → Bool
  | int _ => false
  | _ => true

def int? : Value → Option Int64
  | int n => some n
  | _ => none

def str? : Value → Option String
  | str s => some s
  | _ => none

def ref? : Value → Option ObjectId
  | ref o => some o
  | _ => none

def listText (values : List Value) : String := ", ".intercalate (values.map text)

end Value

/-- The order test of two long operands, `first` popped before `second`: zero when they are equal,
one when the second is the greater, and minus one otherwise. -/
def compareLong (first second : Int64) : Int64 :=
  if first = second then 0 else if first < second then 1 else -1

end BytecodeChecker
