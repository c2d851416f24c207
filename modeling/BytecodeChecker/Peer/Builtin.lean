import BytecodeChecker.Peer

/-! The peers that every program can use: data choices, assertions, thread start and the producer of
scripted events. -/
namespace BytecodeChecker.Builtin

def getIntSymbol : String := "gov.nasa.jpf.vm.Verify.getInt(JJ)J"
def getBooleanSymbol : String := "gov.nasa.jpf.vm.Verify.getBoolean()Z"
def assertTrueSymbol : String := "gov.nasa.jpf.vm.Verify.assertTrue(Z)V"
def threadStartSymbol : String := "java.lang.Thread.start(Ljava/lang/String;)V"
def eventProducer : String := "gov.nasa.jpf.EventProducer."
def processNextEventSymbol : String := eventProducer ++ "processNextEvent()Z"
def getEventNameSymbol : String := eventProducer ++ "getEventName()Ljava/lang/String;"
def checkPathSymbol : String := eventProducer ++ "checkPath()Z"
def isCompletelyCoveredSymbol : String := eventProducer ++ "isCompletelyCovered()Z"

def currentEventField : String := eventProducer ++ "currentEvent"

def actionTag : String := "[UIAction]"

def eventGenerator : String := "processNextEvent"

def isEventProducer (symbol : String) : Bool := eventProducer.toList.isPrefixOf symbol.toList

def observing (answer : PeerCall → Invocation → Except PeerError Reply) : Peer :=
  fun call invocation m => (m, answer call invocation)

def resolvedValue (call : PeerCall) : Except PeerError Reply := do
  return .ret (← call.resolved .data).chosenValue?

def rangeText (lo hi : Int64) : String := toString lo.toInt ++ ".." ++ toString hi.toInt

def getInt : Peer := observing fun call invocation => do
  match invocation with
  | .entry =>
    let lo ← call.argInt 0
    let hi ← call.argInt 1
    if hi < lo then
      return .throw Lineage.illegalArgumentException (some ("empty range " ++ rangeText lo hi))
    if lo = hi then return .ret (some (.int lo))
    match Generator.ofRange? "verifyGetInt(JJ)" lo hi with
    | some g => return .choose g
    | none =>
      return .throw Lineage.illegalArgumentException
        (some ("range " ++ rangeText lo hi ++ " is too large to enumerate"))
  | .choiceResolved => resolvedValue call
  | .directCallReturned .. => return .ret none

def getBoolean : Peer := observing fun call invocation => do
  match invocation with
  | .entry =>
    return .choose (.ofValues "verifyGetBoolean" [Value.ofBool false, Value.ofBool true])
  | .choiceResolved => resolvedValue call
  | .directCallReturned .. => return .ret none

def assertTrue : Peer := observing fun call _ => do
  if (← call.argInt 0) = 0 then
    return .throw Lineage.assertionError (some "assertion violated")
  return .ret none

def threadEntry (call : PeerCall) : Except PeerError (MethodId × Method) := do
  let symbol ← call.argStr 0
  match call.program.lookup? symbol with
  | none => throw (.unknownMethod symbol)
  | some id =>
    match call.program.method? id with
    | none => throw (.unknownMethod symbol)
    | some method =>
      if method.isThreadEntry then return (id, method) else throw (.badThreadEntry symbol)

def threadStart : Peer := fun call invocation m =>
  match invocation with
  | .entry =>
    match threadEntry call with
    | .error e => (m, .error e)
    | .ok (id, method) =>
      let m := (m.spawn method.signature.name id method []).1
      (m, .ok (.choose (.ofThreads "start" m.runnable)))
  | _ => (m, .ok (.ret none))

def nextEvents (call : PeerCall) : Except PeerError (Option Generator) :=
  match call.path.lastOf? .event with
  | some previous => .ok (previous.successor? eventGenerator)
  | none => do
    let root := (← call.eventTree).root
    return if root.isLeaf then none else some (.ofEvents eventGenerator root)

def returnBool (b : Bool) : Reply := .ret (some (Value.ofBool b))

def runAction (call : PeerCall) (e : Event) (m : Machine) : Machine × Except PeerError Reply :=
  match call.actions.get? e.name with
  | none => (m, .ok (returnBool true))
  | some (.host run) =>
    let (m, result) := run e m
    (m, result.map fun _ => returnBool true)
  | some (.guest callee) =>
    let expected := call.program.argCount callee
    if expected = e.args.length then (m, .ok (.directCall actionTag callee e.values))
    else (m, .error (.actionArity e.name expected e.args.length))

def process (call : PeerCall) (e : Event) (m : Machine) : Machine × Except PeerError Reply :=
  let m := { m with heap := m.heap.setStatic currentEventField (.str e.name) }
  match e with
  | .none => (m, .ok (returnBool true))
  | .check name predicate =>
    if predicate.holds m.heap.static? then (m, .ok (returnBool true))
    else (m, .ok (.violation (.checkFailed name predicate.text)))
  | .normal .. => runAction call e m

def processNextEvent : Peer := fun call invocation m =>
  match invocation with
  | .entry =>
    (m, (nextEvents call).map fun
      | some g => .choose g
      | none => returnBool false)
  | .choiceResolved =>
    match call.resolved .event with
    | .error e => (m, .error e)
    | .ok g =>
      match g.chosenNode? with
      | none => (m, .error (.missingChoice .event))
      | some node =>
        match node.event? with
        | none => (m, .ok (returnBool false))
        | some e => process call e m
  | .directCallReturned .. => (m, .ok (returnBool true))

def getEventName : Peer := observing fun call _ =>
  let name := match call.path.lastNode?.bind EventNode.event? with
    | some e => .str e.name
    | none => .null
  .ok (.ret (some name))

def checkPath : Peer := observing fun call _ =>
  .ok (returnBool (call.path.lastNode?.any EventNode.isLeaf))

def isCompletelyCovered : Peer := observing fun call _ => do
  return returnBool (call.coverage.isComplete (← call.eventTree))

def registry : Registry :=
  (((((((Registry.empty.withPeer getIntSymbol getInt).withPeer getBooleanSymbol getBoolean).withPeer
    assertTrueSymbol assertTrue).withPeer threadStartSymbol threadStart).withPeer
    processNextEventSymbol processNextEvent).withPeer getEventNameSymbol getEventName).withPeer
    checkPathSymbol checkPath).withPeer isCompletelyCoveredSymbol isCompletelyCovered

end BytecodeChecker.Builtin
