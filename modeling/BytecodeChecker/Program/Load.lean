import BytecodeChecker.Program

/-! Loading a model: its names are resolved and everything that running it relies on is checked.
Methods that are called but not declared become native methods, in the order of their first call. -/
namespace BytecodeChecker

inductive LoadError where
  | badSignature (signature : String)
  | badField (field : String)
  | duplicateMethod (signature : String)
  | missingEntry (signature : String)
  | badThreadMethod (signature : String)
  | badBranchTarget (method : String) (target length : Nat)
  | badLocal (method : String) (slot maxLocals : Nat)
  | tooFewLocals (method : String) (maxLocals args : Nat)
  | badHandler (method : String) (start stop target : Nat)
  | emptyMethod (method : String)
  | fallsOffEnd (method : String)
  | nativeWithCode (method : String)
  deriving DecidableEq, Repr

def LoadError.message : LoadError → String
  | badSignature s => "invalid method signature '" ++ s ++ "'"
  | badField f => "invalid field reference '" ++ f ++ "'"
  | duplicateMethod s => "method '" ++ s ++ "' declared more than once"
  | missingEntry s => "entry method '" ++ s ++ "' not found"
  | badThreadMethod s =>
    "thread method '" ++ s ++ "' must be an interpreted method without arguments"
  | badBranchTarget m target length =>
    "method '" ++ m ++ "': branch target " ++ toString target ++ " outside code of length "
      ++ toString length
  | badLocal m slot maxLocals =>
    "method '" ++ m ++ "': local slot " ++ toString slot ++ " exceeds max_locals "
      ++ toString maxLocals
  | tooFewLocals m maxLocals args =>
    "method '" ++ m ++ "': max_locals " ++ toString maxLocals ++ " too small for " ++ toString args
      ++ " arguments"
  | badHandler m start stop target =>
    "method '" ++ m ++ "': exception handler " ++ toString start ++ ".." ++ toString stop ++ " -> "
      ++ toString target ++ " is out of range"
  | emptyMethod m => "method '" ++ m ++ "' has no code"
  | fallsOffEnd m => "method '" ++ m ++ "': execution can fall off the end of the code"
  | nativeWithCode m => "native method '" ++ m ++ "' must not have code"

namespace Load

structure Symbol where
  text : String
  signature : Signature
  deriving DecidableEq, Repr

def knows (known : List Symbol) (text : String) : Bool := known.any (·.text == text)

def declare (known : List Symbol) : List Model.Method → Except LoadError (List Symbol)
  | [] => .ok known
  | decl :: rest =>
    match Signature.ofString? decl.signature with
    | none => .error (.badSignature decl.signature)
    | some signature =>
      if knows known decl.signature then .error (.duplicateMethod decl.signature)
      else declare (known ++ [⟨decl.signature, signature⟩]) rest

def callees (methods : List Model.Method) : List String :=
  methods.flatMap fun m => m.code.filterMap Instruction.callee?

def addStubs (known : List Symbol) : List String → Except LoadError (List Symbol)
  | [] => .ok known
  | callee :: rest =>
    if knows known callee then addStubs known rest
    else
      match Signature.ofString? callee with
      | none => .error (.badSignature callee)
      | some signature => addStubs (known ++ [⟨callee, signature⟩]) rest

/-- Reads `Class.name`, or `Class.name:TYPE` for a field whose default is that of the type. -/
def fieldRef (spec : String) : Except LoadError FieldRef :=
  let cs := spec.toList
  let name := cs.takeWhile (· != ':')
  match Signature.splitLastDot? name with
  | none => .error (.badField spec)
  | some (className, field) =>
    if className.isEmpty || field.isEmpty then .error (.badField spec)
    else
      match cs.dropWhile (· != ':') with
      | [] => .ok ⟨String.ofList name, .int 0⟩
      | _ :: type =>
        match TypeDescriptor.ofChars? type with
        | none => .error (.badField spec)
        | some t => .ok ⟨String.ofList name, t.defaultValue⟩

def branchTarget (method : String) (length : Nat) (target : UInt64) : Except LoadError Nat :=
  if target.toNat < length then .ok target.toNat
  else .error (.badBranchTarget method target.toNat length)

def callee (symbols : List Symbol) (text : String) : Except LoadError MethodId :=
  match symbols.findIdx? (·.text == text) with
  | some i => .ok ⟨i⟩
  | none => .error (.badSignature text)

def checkSlot (method : String) (maxLocals : UInt16) (op : Op) : Except LoadError Unit :=
  match op.slot? with
  | some slot =>
    if slot < maxLocals then .ok ()
    else .error (.badLocal method slot.toNat maxLocals.toNat)
  | none => .ok ()

def handler (method : String) (length : Nat) (h : Handler UInt64) : Except LoadError (Handler Nat) :=
  if h.start < h.stop ∧ h.stop.toNat ≤ length ∧ h.target.toNat < length then
    .ok ⟨h.start.toNat, h.stop.toNat, h.target.toNat, h.className⟩
  else .error (.badHandler method h.start.toNat h.stop.toNat h.target.toNat)

def nativeMethod (symbol : Symbol) : Method :=
  ⟨symbol.text, symbol.signature, true, UInt16.ofNat symbol.signature.argCount, #[], []⟩

def method (symbols : List Symbol) (symbol : Symbol) (decl : Model.Method) :
    Except LoadError Method := do
  let name := symbol.text
  if decl.native then
    if decl.code.isEmpty && decl.handlers.isEmpty then return nativeMethod symbol
    else throw (.nativeWithCode name)
  if decl.code.isEmpty then throw (.emptyMethod name)
  if decl.maxLocals.toNat < symbol.signature.argCount then
    throw (.tooFewLocals name decl.maxLocals.toNat symbol.signature.argCount)
  let length := decl.code.length
  let code ← decl.code.mapM
    (Instruction.resolve (branchTarget name length) fieldRef (callee symbols))
  code.forM (checkSlot name decl.maxLocals)
  if code.getLast?.any Instruction.fallsThrough then throw (.fallsOffEnd name)
  let handlers ← decl.handlers.mapM (handler name length)
  return ⟨name, symbol.signature, false, decl.maxLocals, code.toArray, handlers⟩

def root (methods : List Method) (text : String) : Except LoadError MethodId :=
  match methods.findIdx? (·.symbol == text) with
  | none => .error (.missingEntry text)
  | some i =>
    match methods[i]? with
    | some m => if m.isThreadEntry then .ok ⟨i⟩ else .error (.badThreadMethod text)
    | none => .error (.missingEntry text)

end Load

def Program.load (model : Model) : Except LoadError Program := do
  let declared ← Load.declare [] model.methods
  let symbols ← Load.addStubs declared (Load.callees model.methods)
  let methods ← (declared.zip model.methods).mapM fun (symbol, decl) =>
    Load.method symbols symbol decl
  let stubs := (symbols.drop declared.length).map Load.nativeMethod
  let all := methods ++ stubs
  let entry ← Load.root all model.entry
  let threads ← model.threads.mapM (Load.root all)
  return ⟨model.name, all.toArray, entry, threads⟩

end BytecodeChecker
