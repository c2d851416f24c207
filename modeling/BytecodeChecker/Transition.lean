import BytecodeChecker.Explorer

/-! Transitions: the program runs from one decision to the next. While it does, nothing is decided;
threads are switched only when the running one cannot go on and exactly one other can. -/
namespace BytecodeChecker

structure Progress where
  state : State
  steps : Nat
  notices : List Notice

namespace Progress

@[inline] def note (p : Progress) (n : Notice) : Progress := { p with notices := n :: p.notices }

@[inline] def act {α : Type} (p : Progress) (operation : Machine → Machine × α) : Progress × α :=
  match p with
  | ⟨⟨machine, current, depth⟩, steps, notices⟩ =>
    let (machine, a) := operation machine
    (⟨⟨machine, current, depth⟩, steps, notices⟩, a)

@[inline] def count (p : Progress) : Progress := { p with steps := p.steps + 1 }

end Progress

inductive Move where
  | goOn (p : Progress)
  | stop (p : Progress) (result : Except CheckError Ending)

namespace Explorer

def reschedule (e : Explorer) (p : Progress) : Move :=
  let s := p.state
  match s.runnable with
  | [] =>
    let blocked := s.threadsWhere fun thread =>
      match thread.status with
      | .blocked _ => true
      | _ => false
    if blocked.isEmpty || !e.config.checkDeadlock then .stop p (.ok (.finished .completed))
    else .stop p (.ok (.finished (.violated (.deadlock blocked))))
  | [only] =>
    .goOn { p with state := { s with toMachine := s.setFirstStep only true, current := only } }
  | several => .stop p (.ok (.choice (.ofThreads "reschedule" several)))

def afterThrow (p : Progress) (thrown : Thrown) : Move :=
  let p := p.note (.exception thrown)
  if thrown.handled then .goOn p
  else
    let failure := .uncaughtException thrown.thread thrown.className thrown.message
    .stop p (.ok (.finished (.violated failure)))

@[inline] def afterOutcome {α : Type} (p : Progress) (operation : Machine → Machine.Outcome α)
    (next : Progress → α → Move) : Move :=
  match p.act operation with
  | (p, .ok a) => next p a
  | (p, .error fault) => .stop p (.error (.machine fault))

def awaitChoice (thread : GuestThread) : GuestThread :=
  match thread.stack with
  | .native call :: below =>
    { thread with stack := .native { call with phase := .awaitingChoice } :: below }
  | _ => thread

def obey (e : Explorer) (t : ThreadId) (p : Progress) : Reply → Move
  | .ret value => afterOutcome p (Machine.nativeReturn t value) fun p _ => .goOn p
  | .choose g =>
    let (p, _) := p.act fun m => (m.modifyThread t awaitChoice, ())
    .stop p (.ok (.choice g))
  | .directCall tag callee args =>
    afterOutcome p (Machine.directCall e.program t tag callee args) fun p _ => .goOn p
  | .throw className message =>
    afterOutcome p (Machine.throw e.program t className message) afterThrow
  | .violation failure => .stop p (.ok (.finished (.violated failure)))

def invocation (e : Explorer) (call : NativeCall) (firstStep : Bool) :
    Except CheckError Invocation :=
  match call.phase with
  | .entry => .ok .entry
  | .awaitingChoice =>
    if firstStep then .ok .choiceResolved
    else
      .error (.internal
        (e.program.symbol call.method ++ " re-entered before its choice was resolved"))
  | .awaitingDirectCall tag => .error (.internal ("direct call " ++ tag ++ " lost its frame"))
  | .directCallReturned tag value => .ok (.directCallReturned tag value)

def callPeer (e : Explorer) (memory : Memory) (t : ThreadId) (method : Method) (args : List Value)
    (i : Invocation) (m : Machine) : Machine × Except PeerError Reply :=
  match e.registry.peers.get? method.symbol with
  | none => (m, .error (.noPeer method.symbol))
  | some peer =>
    let call : PeerCall :=
      { program := e.program
        tree := e.registry.tree
        actions := e.registry.actions
        coverage := memory.coverage
        path := memory.path
        thread := t
        method
        args }
    peer call i m

def dispatch (e : Explorer) (memory : Memory) (t : ThreadId) (call : NativeCall)
    (firstStep : Bool) (p : Progress) : Move :=
  match e.invocation call firstStep with
  | .error error => .stop p (.error error)
  | .ok i =>
    match e.program.method? call.method with
    | none => .stop p (.error (.internal "native call of an unknown method"))
    | some method =>
      let (p, result) := p.act fun m =>
        let (m, result) := e.callPeer memory t method call.args i m
        (m.setFirstStep t false, result)
      match result with
      | .ok reply => e.obey t p reply
      -- a peer that fails does not end the path: its call returns the default value of its type
      | .error error =>
        afterOutcome (p.note (.peerError t method.symbol error))
          (Machine.nativeReturn t method.signature.defaultReturn) fun p _ => .goOn p

def noteInstruction (e : Explorer) (t : ThreadId) (stack : List Activation) (p : Progress) :
    Progress :=
  if e.config.noteInstructions then
    match stack with
    | .bytecode f _ :: _ =>
      match e.program.op? f.method f.pc with
      | some op => p.note (.instruction t f.method f.pc op)
      | none => p
    | _ => p
  else p

/-- One move of a transition: a thread switch, an instruction or a native call. Executed instructions
and native calls are counted against the bound on steps. -/
@[inline] def move (e : Explorer) (memory : Memory) (p : Progress) : Move :=
  let t := p.state.current
  match p.state.thread? t with
  | none => .stop p (.error (.machine (.unknownThread t)))
  | some thread =>
    if thread.status ≠ .runnable then e.reschedule p
    else if 0 < e.config.maxTransitionSteps ∧ e.config.maxTransitionSteps ≤ p.steps then
      .stop p (.ok (.finished .stepLimit))
    else
      afterOutcome p (Machine.step e.program t) fun p step =>
        match step with
        | .executed => .goOn (e.noteInstruction t thread.stack p.count)
        | .schedulingPoint =>
          .stop p (.ok (.choice (.ofThreads "schedule" p.state.runnable)))
        | .native =>
          match thread.stack with
          | .native call :: _ => e.dispatch memory t call thread.firstStep p.count
          | _ => .stop p (.error (.internal (t.text ++ " has no native frame")))
        | .blocked _ => .goOn p
        | .terminated => .goOn p
        | .exception thrown => afterThrow p thrown

def transition (e : Explorer) (memory : Memory) :
    (fuel : Nat) → Progress → Option (Progress × Except CheckError Ending)
  | 0, _ => none
  | fuel + 1, p =>
    match e.move memory p with
    | .goOn p => transition e memory fuel p
    | .stop p result => some (p, result)

def brokenProperty? (e : Explorer) (s : State) : Option Failure :=
  (e.properties.find? fun property => !property.holds s).map fun property =>
    .property "listener" ("property '" ++ property.name ++ "' does not hold")

def judge (e : Explorer) (s : State) (ending : Ending) : Ending :=
  match ending with
  | .finished (.violated _) => ending
  | _ =>
    match e.brokenProperty? s with
    | some failure => .finished (.violated failure)
    | none => ending

structure Advance where
  memory : Memory
  state : State
  result : Except CheckError Ending

def advance (e : Explorer) (fuel : Nat) (memory : Memory) (s : State) : Option Advance :=
  (e.transition memory fuel ⟨s, 0, []⟩).map fun (p, result) =>
    let memory := { memory with notices := p.notices ++ memory.notices }
    match result with
    | .error error => ⟨memory, p.state, .error error⟩
    | .ok ending =>
      let depth := memory.path.depth
      let stats := { memory.stats with
        states := memory.stats.states + 1
        maxDepth := max memory.stats.maxDepth depth }
      ⟨{ memory with stats }.note (.advanced p.state depth), p.state, .ok (e.judge p.state ending)⟩

/-- Follows the choice under the cursor of the last decision on the path: the state in which it was
taken, with the chosen thread as the running one. -/
def applyChoice (memory : Memory) (s : State) : Memory × Except CheckError State :=
  match memory.path.last? with
  | none => (memory, .error (.internal "no choice generator on the path"))
  | some top =>
    match top.generator.chosen? with
    | none =>
      (memory, .error (.internal
        ("generator '" ++ top.generator.id ++ "' has no current choice")))
    | some choice =>
      let current := match choice with
        | .thread t => t
        | _ => s.current
      let memory := match choice with
        | .event node => { memory with coverage := memory.coverage.visit node }
        | _ => memory
      match s.thread? current with
      | none => (memory, .error (.machine (.unknownThread current)))
      | some _ =>
        let machine := s.clearFirstSteps.setFirstStep current true
        (memory, .ok ⟨machine, current, memory.path.depth⟩)

end Explorer

end BytecodeChecker
