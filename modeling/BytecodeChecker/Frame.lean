import BytecodeChecker.Heap
import BytecodeChecker.Locals
import BytecodeChecker.Program

/-! Frames: one activation of a method each. An instruction first works on the operands of its
frame; what is left to be done beyond the frame is its effect. -/
namespace BytecodeChecker

inductive Fault where
  | stackUnderflow (method : MethodId) (pc : Nat)
  | typeMismatch (expected actual : String)
  | invalidLocal (slot : Nat)
  | invalidPc (method : MethodId) (pc : Nat)
  | noFrame (thread : ThreadId)
  | unknownThread (thread : ThreadId)
  | danglingRef (object : ObjectId)
  | nativeDirectCall (symbol : String)
  | internal (text : String)
  deriving DecidableEq, Repr

def Fault.message : Fault → String
  | stackUnderflow m pc =>
    "operand stack underflow in #" ++ toString m.index ++ " at pc " ++ toString pc
  | typeMismatch expected actual => "type mismatch: expected " ++ expected ++ ", got " ++ actual
  | invalidLocal slot => "local slot " ++ toString slot ++ " out of range"
  | invalidPc m pc =>
    "pc " ++ toString pc ++ " out of range in method MethodId(" ++ toString m.index ++ ")"
  | noFrame t => "thread " ++ toString t.index ++ " has no frames"
  | unknownThread t => "unknown thread " ++ toString t.index
  | danglingRef o => "dangling object reference " ++ toString o.index
  | nativeDirectCall symbol => "direct call target " ++ symbol ++ " is native"
  | internal text => "internal error: " ++ text

structure Frame where
  method : MethodId
  pc : Nat
  locals : Locals
  operands : List Value
  deriving DecidableEq, Repr, Hashable

inductive Effect where
  | next
  | jump (target : Nat)
  | raise (className : String) (message : Option String)
  | rethrow (object : ObjectId)
  | finish (value : Option Value)
  | call (callee : MethodId) (args : List Value)
  | create (className : String)
  | readStatic (field : FieldRef)
  | writeStatic (field : FieldRef) (value : Value)
  | readField (object : ObjectId) (field : FieldRef)
  | writeField (object : ObjectId) (field : FieldRef) (value : Value)
  | enter (object : ObjectId)
  | exit (object : ObjectId)
  deriving DecidableEq, Repr

def Arith.apply? (op : Arith) (left right : Int64) : Option Int64 :=
  match op with
  | add => some (left + right)
  | sub => some (left - right)
  | mul => some (left * right)
  | div => if right = 0 then none else some (left / right)
  | rem => if right = 0 then none else some (left % right)

def Arith.zeroMessage : Arith → String
  | rem => "long remainder by zero"
  | _ => "long division by zero"

namespace Frame

def start (id : MethodId) (method : Method) (args : List Value) : Frame :=
  { method := id
    pc := 0
    locals := Locals.ofArgs method.maxLocals.toNat args
    operands := [] }

@[inline] def push (f : Frame) (v : Value) : Frame := { f with operands := v :: f.operands }

@[inline] def pushAll (f : Frame) (vs : Option Value) : Frame :=
  match vs with
  | none => f
  | some v => f.push v

@[inline] def advance (f : Frame) : Frame := { f with pc := f.pc + 1 }

@[inline] def drop (f : Frame) : Frame := { f with operands := f.operands.tail }

/-- Work on one frame that may fail; a failure keeps what was done to the frame before it. -/
abbrev Work := EStateM Fault Frame

namespace Work

@[inline] def push (v : Value) : Work Unit := fun f => .ok () (f.push v)

@[inline] def peek : Work Value := fun f =>
  match f.operands with
  | [] => .error (.stackUnderflow f.method f.pc) f
  | v :: _ => .ok v f

@[inline] def pop : Work Value := fun f =>
  match f.operands with
  | [] => .error (.stackUnderflow f.method f.pc) f
  | v :: rest => .ok v { f with operands := rest }

@[inline] def popLong : Work Int64 := do
  match ← pop with
  | .int n => return n
  | v => throw (.typeMismatch "long" v.typeName)

@[inline] def popReference : Work Value := do
  let v ← pop
  if v.isReference then return v else throw (.typeMismatch "reference" v.typeName)

@[inline] def popObject : Work (Option ObjectId) := do
  match ← popReference with
  | .null => return none
  | .ref o => return some o
  | v => throw (.typeMismatch "object" v.typeName)

def popMany : Nat → List Value → Work (List Value)
  | 0, popped => return popped
  | n + 1, popped => do popMany n ((← pop) :: popped)

@[inline] def loadLocal (slot : Nat) : Work Value := fun f =>
  match f.locals.get? slot with
  | none => .error (.invalidLocal slot) f
  | some v => .ok v f

@[inline] def storeLocal (slot : Nat) (v : Value) : Work Unit := fun f =>
  if slot < f.locals.size then .ok () { f with locals := f.locals.set slot v }
  else .error (.invalidLocal slot) f

@[inline] def popKind : Kind → Work Value
  | .long => return .int (← popLong)
  | .reference => popReference

@[inline] def onObject (name : String) (effect : ObjectId → Effect) : Work Effect := do
  match ← popObject with
  | some o => return effect o
  | none => return .raise Lineage.nullPointerException (some (name ++ " on null"))

@[inline] def perform (argCount : MethodId → Nat) : Op → Work Effect
  | .nop => return .next
  | .pushNull => do push .null; return .next
  | .pushString s => do push (.str s); return .next
  | .pushLong n => do push (.int n); return .next
  | .load _ slot => do push (← loadLocal slot.toNat); return .next
  | .store kind slot => do storeLocal slot.toNat (← popKind kind); return .next
  | .pop => do let _ ← pop; return .next
  | .dup => do push (← peek); return .next
  | .swap => do
    let first ← pop
    let second ← pop
    push first
    push second
    return .next
  | .arith op => do
    let right ← popLong
    let left ← popLong
    match op.apply? left right with
    | some n => push (.int n); return .next
    | none => return .raise Lineage.arithmeticException (some op.zeroMessage)
  | .negate => do push (.int (-(← popLong))); return .next
  | .compare => do
    let first ← popLong
    let second ← popLong
    push (.int (compareLong first second))
    return .next
  | .branch cond target => do return if cond.holds (← popLong) then .jump target else .next
  | .branchNull onNull target => do
    return if ((← popReference) == .null) == onNull then .jump target else .next
  | .goto target => return .jump target
  | .ret none => return .finish none
  | .ret (some kind) => return .finish (some (← popKind kind))
  | .getStatic f => return .readStatic f
  | .putStatic f => return .writeStatic f (← pop)
  | .getField f => onObject "getfield" (.readField · f)
  | .putField f => do
    let v ← pop
    onObject "putfield" (.writeField · f v)
  | .invokeStatic callee => return .call callee (← popMany (argCount callee) [])
  | .new className => return .create className
  | .throw => onObject "athrow" .rethrow
  | .monitorEnter => do
    match ← peek with
    | .ref o => return .enter o
    | .null =>
      let _ ← pop
      return .raise Lineage.nullPointerException (some "monitorenter on null")
    | v => throw (.typeMismatch "object" v.typeName)
  | .monitorExit => onObject "monitorexit" .exit

end Work

end Frame

inductive Phase where
  | entry
  | awaitingChoice
  | awaitingDirectCall (tag : String)
  | directCallReturned (tag : String) (value : Option Value)
  deriving DecidableEq, Repr, Hashable

structure NativeCall where
  method : MethodId
  args : List Value
  phase : Phase
  deriving DecidableEq, Repr, Hashable

/-- An activation on the stack of a thread. Code that runs on behalf of a native call carries the tag
under which it was called. -/
inductive Activation where
  | bytecode (frame : Frame) (tag : Option String)
  | native (call : NativeCall)
  deriving DecidableEq, Repr, Hashable

def Activation.method : Activation → MethodId
  | bytecode f _ => f.method
  | native call => call.method

end BytecodeChecker
