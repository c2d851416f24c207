import BytecodeChecker.Path

/-! Native peers. A peer stands for the code of a native method. It is called once when the method is
entered, and again when the choice it asked for has been made or the guest code it called has
returned. It may change the machine, and what it changed stays changed when it fails. -/
namespace BytecodeChecker

inductive PeerError where
  | noPeer (symbol : String)
  | badArgument (symbol : String) (index : Nat) (expected : String)
  | missingChoice (kind : ChoiceKind)
  | unknownMethod (symbol : String)
  | badThreadEntry (symbol : String)
  | noEventTree
  | actionArity (event : String) (expected actual : Nat)
  | machine (fault : Fault)
  | failed (text : String)
  deriving DecidableEq, Repr

def PeerError.message : PeerError → String
  | noPeer symbol => "no native peer registered for " ++ symbol
  | badArgument symbol index expected =>
    "argument " ++ toString index ++ " of " ++ symbol ++ ": expected " ++ expected
  | missingChoice kind =>
    "no resolved " ++ kind.text ++ " choice generator on top of the path"
  | unknownMethod symbol => "unknown method '" ++ symbol ++ "'"
  | badThreadEntry symbol =>
    "method '" ++ symbol
      ++ "' must be an interpreted method without arguments to start a thread"
  | noEventTree => "no event tree configured"
  | actionArity event expected actual =>
    "action for event '" ++ event ++ "' expects " ++ toString expected
      ++ " arguments, the event has " ++ toString actual
  | machine fault => fault.message
  | failed text => text

inductive Invocation where
  | entry
  | choiceResolved
  | directCallReturned (tag : String) (value : Option Value)
  deriving DecidableEq, Repr

inductive Reply where
  | ret (value : Option Value)
  | choose (generator : Generator)
  | directCall (tag : String) (callee : MethodId) (args : List Value)
  | throw (className : String) (message : Option String)
  | violation (failure : Failure)

inductive Action where
  | guest (callee : MethodId)
  | host (run : Event → Machine → Machine × Except PeerError Unit)

structure PeerCall where
  program : Program
  tree : Option EventTree
  actions : NameMap Action
  coverage : Coverage
  path : Path
  thread : ThreadId
  method : Method
  args : List Value

namespace PeerCall

def argInt (c : PeerCall) (index : Nat) : Except PeerError Int64 :=
  match c.args[index]? with
  | some (.int n) => .ok n
  | _ => .error (.badArgument c.method.symbol index "long")

def argStr (c : PeerCall) (index : Nat) : Except PeerError String :=
  match c.args[index]? with
  | some (.str s) => .ok s
  | _ => .error (.badArgument c.method.symbol index "string")

def resolved (c : PeerCall) (kind : ChoiceKind) : Except PeerError Generator :=
  match c.path.last?.map (·.generator) with
  | some g => if g.kind = kind ∧ g.cursor.isSome then .ok g else .error (.missingChoice kind)
  | none => .error (.missingChoice kind)

def eventTree (c : PeerCall) : Except PeerError EventTree :=
  match c.tree with
  | some t => .ok t
  | none => .error .noEventTree

end PeerCall

abbrev Peer := PeerCall → Invocation → Machine → Machine × Except PeerError Reply

structure Registry where
  peers : NameMap Peer
  actions : NameMap Action
  tree : Option EventTree

namespace Registry

def empty : Registry := ⟨NameMap.empty, NameMap.empty, none⟩

def withPeer (r : Registry) (symbol : String) (peer : Peer) : Registry :=
  { r with peers := r.peers.insert symbol peer }

def withAction (r : Registry) (event : String) (action : Action) : Registry :=
  { r with actions := r.actions.insert event action }

def contains (r : Registry) (symbol : String) : Bool := (r.peers.get? symbol).isSome

/-- Binds events to guest methods, in order, up to the first that cannot be bound. -/
def bindActions (p : Program) (r : Registry) :
    List (String × String) → Registry × Except PeerError Unit
  | [] => (r, .ok ())
  | (event, symbol) :: rest =>
    match p.lookup? symbol with
    | none => (r, .error (.unknownMethod symbol))
    | some callee =>
      if (p.method? callee).any (·.native) then
        (r, .error (.machine (.nativeDirectCall symbol)))
      else bindActions p (r.withAction event (.guest callee)) rest

end Registry

end BytecodeChecker
