import BytecodeChecker.Frame

/-! The machine: the heap and the threads, and the step that runs one instruction of one thread.
A step returns the machine also when it fails, since what it did before failing stays done. -/
namespace BytecodeChecker

inductive Status where
  | runnable
  | blocked (on : ObjectId)
  | terminated
  deriving DecidableEq, Repr, Hashable

/-- A guest thread. The activation on top of its stack is the head of the list. The first-step flag
is set while the thread has been chosen to run and has not executed anything since. -/
structure GuestThread where
  name : String
  status : Status
  stack : List Activation
  firstStep : Bool
  deriving DecidableEq, Repr, Hashable

structure Machine where
  heap : Heap
  threads : Array GuestThread
  deriving DecidableEq, Repr, Hashable

structure Thrown where
  thread : ThreadId
  className : String
  message : Option String
  object : ObjectId
  handled : Bool
  deriving DecidableEq, Repr

inductive Step where
  | executed
  | schedulingPoint
  | native
  | blocked (on : ObjectId)
  | terminated
  | exception (thrown : Thrown)
  deriving DecidableEq, Repr

def Program.argCount (p : Program) (m : MethodId) : Nat :=
  ((p.method? m).map (·.signature.argCount)).getD 0

def Program.activation (p : Program) (callee : MethodId) (args : List Value) : Activation :=
  match p.method? callee with
  | some method =>
    if method.native then .native ⟨callee, args, .entry⟩
    else .bytecode (Frame.start callee method args) none
  | none => .native ⟨callee, args, .entry⟩

def Program.handler? (p : Program) (f : Frame) (className : String) : Option Nat :=
  (p.method? f.method).bind (·.findHandler? f.pc className)

namespace Machine

abbrev Outcome (α : Type) := Machine × Except Fault α

def empty : Machine := ⟨Heap.empty, #[]⟩

@[inline] def thread? (m : Machine) (t : ThreadId) : Option GuestThread := m.threads[t.index]?

@[inline] def setThread (m : Machine) (t : ThreadId) (thread : GuestThread) : Machine :=
  { m with threads := m.threads.setIfInBounds t.index thread }

def modifyThread (m : Machine) (t : ThreadId) (change : GuestThread → GuestThread) : Machine :=
  match m.thread? t with
  | some thread => m.setThread t (change thread)
  | none => m

def spawn (m : Machine) (name : String) (id : MethodId) (method : Method) (args : List Value) :
    Machine × ThreadId :=
  let thread : GuestThread :=
    ⟨name, .runnable, [.bytecode (Frame.start id method args) none], false⟩
  let t : ThreadId := ⟨m.threads.size⟩
  ({ m with threads := m.threads.push thread }, t)

def threadsWhere (m : Machine) (p : GuestThread → Bool) : List ThreadId :=
  (m.threads.toList.zipIdx.filter fun (thread, _) => p thread).map fun (_, i) => ⟨i⟩

def isRunnable (m : Machine) (t : ThreadId) : Bool :=
  (m.thread? t).any (·.status == .runnable)

def runnable (m : Machine) : List ThreadId := m.threadsWhere (·.status == .runnable)

def runnableCount (m : Machine) : Nat := m.threads.countP (·.status == .runnable)

def allTerminated (m : Machine) : Bool := m.threads.all (·.status == .terminated)

def waiterCount (m : Machine) (o : ObjectId) : Nat := m.threads.countP (·.status == .blocked o)

def unblock (m : Machine) (o : ObjectId) : Machine :=
  { m with threads := m.threads.map fun thread =>
      if thread.status = .blocked o then { thread with status := .runnable } else thread }

def setFirstStep (m : Machine) (t : ThreadId) (flag : Bool) : Machine :=
  m.modifyThread t fun thread => { thread with firstStep := flag }

def clearFirstSteps (m : Machine) : Machine :=
  { m with threads := m.threads.map fun thread => { thread with firstStep := false } }

def nextOp? (p : Program) (m : Machine) (t : ThreadId) : Option Op :=
  (m.thread? t).bind fun thread =>
    match thread.stack with
    | .bytecode f _ :: _ => p.op? f.method f.pc
    | _ => none

/-- The stack after an exception: the innermost frame with a matching handler continues there with
the exception as its only operand, and everything above that frame is gone. -/
def unwound? (p : Program) (o : ObjectId) (className : String) :
    List Activation → Option (List Activation)
  | [] => none
  | .native _ :: below => unwound? p o className below
  | .bytecode f tag :: below =>
    match p.handler? f className with
    | some target => some (.bytecode { f with pc := target, operands := [.ref o] } tag :: below)
    | none => unwound? p o className below

def messageOf? (h : Heap) (o : ObjectId) : Option String :=
  (h.field? o "message").bind Value.str?

def unwind (p : Program) (t : ThreadId) (o : ObjectId) (m : Machine) : Outcome Thrown :=
  match m.heap.object? o with
  | none => (m, .error (.danglingRef o))
  | some object =>
    match m.thread? t with
    | none => (m, .error (.unknownThread t))
    | some thread =>
      let thrown (handled : Bool) : Thrown :=
        ⟨t, object.className, messageOf? m.heap o, o, handled⟩
      match unwound? p o object.className thread.stack with
      | some stack => (m.setThread t { thread with stack }, .ok (thrown true))
      | none =>
        (m.setThread t { thread with stack := [], status := .terminated }, .ok (thrown false))

def newException (h : Heap) (className : String) (message : Option String) : Heap × ObjectId :=
  let (h, o) := h.allocate className
  match message with
  | none => (h, o)
  | some text => (h.setField o "message" (.str text), o)

def throw (p : Program) (t : ThreadId) (className : String) (message : Option String)
    (m : Machine) : Outcome Thrown :=
  let (heap, o) := newException m.heap className message
  unwind p t o { m with heap }

def thrownStep (r : Outcome Thrown) : Outcome Step := (r.1, r.2.map .exception)

def deliver (t : ThreadId) (thread : GuestThread) (tag : Option String) (value : Option Value)
    (m : Machine) : Outcome Step :=
  match thread.stack, tag with
  | [], _ => (m.setThread t { thread with status := .terminated }, .ok .terminated)
  | .native call :: below, some tag =>
    let call := { call with phase := .directCallReturned tag value }
    (m.setThread t { thread with stack := .native call :: below }, .ok .executed)
  | .native _ :: _, none =>
    (m.setThread t thread,
      .error (.internal "bytecode frame returned into a native frame it was not called from"))
  | .bytecode f callerTag :: below, _ =>
    let f := (f.pushAll value).advance
    (m.setThread t { thread with stack := .bytecode f callerTag :: below }, .ok .executed)

def carryOut (p : Program) (t : ThreadId) (thread : GuestThread) (frame : Frame)
    (tag : Option String) (below : List Activation) (m : Machine) : Effect → Outcome Step
  | .next => (put m frame.advance, .ok .executed)
  | .jump target => (put m { frame with pc := target }, .ok .executed)
  | .raise className message => thrownStep (throw p t className message (put m frame))
  | .rethrow o => thrownStep (unwind p t o (put m frame))
  | .finish value => deliver t { thread with stack := below } tag value m
  | .call callee args =>
    let stack := p.activation callee args :: .bytecode frame tag :: below
    (m.setThread t { thread with stack }, .ok .executed)
  | .create className =>
    let (heap, o) := m.heap.allocate className
    (put { m with heap } (frame.push (.ref o)).advance, .ok .executed)
  | .readStatic field =>
    (put m (frame.push ((m.heap.static? field.name).getD field.default)).advance, .ok .executed)
  | .writeStatic field v =>
    (put { m with heap := m.heap.setStatic field.name v } frame.advance, .ok .executed)
  | .readField o field =>
    match m.heap.object? o with
    | none => (put m frame, .error (.danglingRef o))
    | some object =>
      (put m (frame.push ((object.fields.get? field.name).getD field.default)).advance,
        .ok .executed)
  | .writeField o field v =>
    match m.heap.object? o with
    | none => (put m frame, .error (.danglingRef o))
    | some _ =>
      (put { m with heap := m.heap.setField o field.name v } frame.advance, .ok .executed)
  | .enter o =>
    match m.heap.entry? o t with
    | none => (put m frame, .error (.danglingRef o))
    | some (.acquired monitor) =>
      (put { m with heap := m.heap.setMonitor o monitor } frame.drop.advance, .ok .executed)
    | some (.contended _) =>
      let stack := .bytecode frame tag :: below
      (m.setThread t { thread with stack, status := .blocked o }, .ok (.blocked o))
  | .exit o =>
    match m.heap.afterExit? o t with
    | none =>
      thrownStep (throw p t Lineage.illegalMonitorStateException none (put m frame))
    | some monitor =>
      let m := put { m with heap := m.heap.setMonitor o monitor } frame.advance
      (if monitor.owner.isNone then m.unblock o else m, .ok .executed)
where
  @[inline] put (m : Machine) (f : Frame) : Machine :=
    m.setThread t { thread with stack := .bytecode f tag :: below }

def step (p : Program) (t : ThreadId) (m : Machine) : Outcome Step :=
  match m.thread? t with
  | none => (m, .error (.unknownThread t))
  | some thread =>
    match thread.stack with
    | [] => (m, .error (.noFrame t))
    | .native _ :: _ => (m, .ok .native)
    | .bytecode frame tag :: below =>
      match p.op? frame.method frame.pc with
      | none => (m, .error (.invalidPc frame.method frame.pc))
      | some op =>
        -- a thread that has just been chosen for the instruction is not asked about again
        if op.isSchedulingRelevant && !thread.firstStep && 1 < m.runnableCount then
          (m, .ok .schedulingPoint)
        else
          let thread := { thread with firstStep := false }
          match Frame.Work.perform p.argCount op frame with
          | .ok effect frame => carryOut p t thread frame tag below m effect
          | .error fault frame =>
            (m.setThread t { thread with stack := .bytecode frame tag :: below }, .error fault)

def onTop {α : Type} (t : ThreadId) (work : Frame.Work α) (m : Machine) : Outcome α :=
  match m.thread? t with
  | none => (m, .error (.unknownThread t))
  | some thread =>
    match thread.stack with
    | .bytecode frame tag :: below =>
      match work frame with
      | .ok a frame => (m.setThread t { thread with stack := .bytecode frame tag :: below }, .ok a)
      | .error fault frame =>
        (m.setThread t { thread with stack := .bytecode frame tag :: below }, .error fault)
    | _ => (m, .error (.noFrame t))

def nativeReturn (t : ThreadId) (value : Option Value) (m : Machine) : Outcome Step :=
  match m.thread? t with
  | none => (m, .error (.unknownThread t))
  | some thread =>
    match thread.stack with
    | [] => (m, .error (.noFrame t))
    | .native _ :: below => deliver t { thread with stack := below } none value m
    | .bytecode .. :: _ => (m, .error (.internal "native_return without a native frame"))

def directCall (p : Program) (t : ThreadId) (tag : String) (callee : MethodId) (args : List Value)
    (m : Machine) : Outcome Unit :=
  match p.method? callee with
  | none => (m, .error (.internal "direct call of an unknown method"))
  | some method =>
    if method.native then (m, .error (.nativeDirectCall method.symbol))
    else
      match m.thread? t with
      | none => (m, .error (.unknownThread t))
      | some thread =>
        match thread.stack with
        | .native call :: below =>
          let call := { call with phase := .awaitingDirectCall tag }
          let stack :=
            .bytecode (Frame.start callee method args) (some tag) :: .native call :: below
          (m.setThread t { thread with stack }, .ok ())
        | _ => (m, .error (.internal "direct call without a native frame"))

end Machine

end BytecodeChecker
