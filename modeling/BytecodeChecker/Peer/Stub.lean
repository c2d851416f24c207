import BytecodeChecker.Peer

/-! Stubs: peers and actions that are described by data, for programs whose native methods have no
peer of their own. -/
namespace BytecodeChecker

inductive Stub where
  | fail (text : String)
  | ret (value : Option Value)
  | throw (className : String) (message : Option String)
  | violation (name message : String)
  | setStatic (field : String) (value : Value)
  | argInt (index : Nat)
  | argStr (index : Nat)
  | resolved (kind : ChoiceKind)
  | path
  | choice (id : String) (values : List Value)
  | range (id : String) (lo hi : Int64)
  | threads (id : String) (ids : List ThreadId)
  | direct (tag symbol : String) (args : List Value)
  | directTwice (symbol : String) (args : List Value)
  | choiceThenDirect (id : String) (values : List Value) (tag symbol : String)
  deriving DecidableEq, Repr

namespace Stub

def entriesField : String := "Host.entries"

def intOrZero (h : Heap) (field : String) : Int64 := ((h.static? field).bind Value.int?).getD 0

def countEntry (m : Machine) : Machine :=
  { m with heap := m.heap.setStatic entriesField (.int (intOrZero m.heap entriesField + 1)) }

def chosenValue? (g : Generator) : Option Value :=
  g.chosen?.map fun
    | .thread t => .int (Int64.ofNat t.index)
    | .event node => .int (Int64.ofNat node.id)
    | .value v => v

def generatorText (g : Generator) : String :=
  let cursor := match g.cursor with
    | some i => toString i
    | none => "-1"
  g.id ++ ":" ++ g.kind.text ++ ":" ++ cursor ++ "/" ++ toString g.total

def pathText (call : PeerCall) : String :=
  let last (kind : ChoiceKind) := ((call.path.lastOf? kind).map (·.id)).getD "-"
  ",".intercalate (call.path.generators.reverse.map generatorText) ++ "|"
    ++ ",".intercalate ([.scheduling, .event, .data].map last)

def callTo (call : PeerCall) (tag symbol : String) (args : List Value) : Except PeerError Reply :=
  match call.program.lookup? symbol with
  | some callee => .ok (.directCall tag callee args)
  | none => .error (.unknownMethod symbol)

def idle : Invocation → Reply
  | .directCallReturned _ value => .ret value
  | _ => .ret none

def answer (call : PeerCall) (invocation : Invocation) : Stub → Except PeerError Reply
  | fail text => .error (.failed text)
  | ret value => .ok (.ret value)
  | throw className message => .ok (.throw className message)
  | violation name message => .ok (.violation (.property name message))
  | setStatic .. => .ok (.ret none)
  | argInt index => return .ret (some (.int (← call.argInt index)))
  | argStr index => return .ret (some (.str (← call.argStr index)))
  | resolved kind => return .ret (chosenValue? (← call.resolved kind))
  | path => .ok (.ret (some (.str (pathText call))))
  | choice id values =>
    match invocation with
    | .entry => .ok (.choose (.ofValues id values))
    | .choiceResolved => return .ret (chosenValue? (← call.resolved .data))
    | other => .ok (idle other)
  | range id lo hi =>
    match invocation with
    | .entry =>
      match Generator.ofRange? id lo hi with
      | some g => .ok (.choose g)
      | none => .error (.failed "range too large")
    | .choiceResolved => return .ret (chosenValue? (← call.resolved .data))
    | other => .ok (idle other)
  | threads id ids =>
    match invocation with
    | .entry => .ok (.choose (.ofThreads id ids))
    | other => .ok (idle other)
  | direct tag symbol args =>
    match invocation with
    | .entry => callTo call tag symbol args
    | other => .ok (idle other)
  | directTwice symbol args =>
    match invocation with
    | .entry => callTo call "first" symbol args
    | .directCallReturned "first" value => callTo call "second" symbol value.toList
    | other => .ok (idle other)
  | choiceThenDirect id values tag symbol =>
    match invocation with
    | .entry => .ok (.choose (.ofValues id values))
    | .choiceResolved => do
      callTo call tag symbol (chosenValue? (← call.resolved .data)).toList
    | other => .ok (idle other)

def change (invocation : Invocation) (m : Machine) : Stub → Machine
  | setStatic field value => { m with heap := m.heap.setStatic field value }
  | choice .. | range .. | choiceThenDirect .. =>
    if invocation = .entry then countEntry m else m
  | _ => m

def peer (s : Stub) : Peer := fun call invocation m =>
  (s.change invocation m, s.answer call invocation)

end Stub

/-- A described action: it adds the arguments of the event to one field, stores the text of the event
in another, and then fails, as far as each is asked for. -/
structure ActionStub where
  add : Option String
  display : Option String
  fail : Option String
  deriving DecidableEq, Repr

namespace ActionStub

def run (a : ActionStub) (e : Event) (m : Machine) : Machine × Except PeerError Unit :=
  let added := match a.add with
    | some field =>
      m.heap.setStatic field (.int (e.args.foldl (· + ·) (Stub.intOrZero m.heap field)))
    | none => m.heap
  let shown := match a.display with
    | some field => added.setStatic field (.str e.text)
    | none => added
  ({ m with heap := shown },
    match a.fail with
    | some text => .error (.failed text)
    | none => .ok ())

def action (a : ActionStub) : Action := .host a.run

end ActionStub

end BytecodeChecker
