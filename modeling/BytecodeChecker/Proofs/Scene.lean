import BytecodeChecker.Proofs.Run
import BytecodeChecker.Proofs.Schedules

/-! Interleavings of threads and scripted events, told step by step and without decisions or paths: a
thread runs an instruction, or its native call lets an event happen. When another thread may take over
is left to a rule. -/
namespace BytecodeChecker

structure Scene where
  machine : Machine
  thread : ThreadId
  last : Option EventNode
  covered : Coverage
  uncaught : List Thrown

namespace Scene

def initial (p : Program) : Scene :=
  ⟨(State.initial p).toMachine, (State.initial p).current, none, Coverage.empty, []⟩

def upcoming (tree : EventTree) (s : Scene) : List EventNode := (s.last.getD tree.root).children

variable (e : Explorer) (tree : EventTree)

def occur (t : ThreadId) (method : Method) (args : List Value) (n : EventNode) (event : Event)
    (s : Scene) : Scene × Except PeerError Reply :=
  let call : PeerCall := ⟨e.program, some tree, e.registry.actions, s.covered, Path.empty, t, method, args⟩
  let (machine, reply) := Builtin.process call event s.machine
  ({ s with machine, last := some n, covered := s.covered.visit n }, reply)

/- What a native method of the producer of events does. If it lets an event happen, it is the one with
the index. -/
def produce (t : ThreadId) (method : Method) (call : NativeCall) (i : Nat) (s : Scene) :
    Option (Scene × Except PeerError Reply) :=
  match call.phase with
  | .entry =>
    if method.symbol = Builtin.processNextEventSymbol then
      if (s.upcoming tree).isEmpty then some (s, .ok (Builtin.returnBool false))
      else
        ((s.upcoming tree)[i]?).bind fun n => n.event?.map fun event =>
          s.occur e tree t method call.args n event
    else if method.symbol = Builtin.getEventNameSymbol then
      some (s, .ok (.ret (some (match s.last.bind EventNode.event? with
        | some event => .str event.name
        | none => .null))))
    else if method.symbol = Builtin.checkPathSymbol then
      some (s, .ok (Builtin.returnBool (s.last.any EventNode.isLeaf)))
    else if method.symbol = Builtin.isCompletelyCoveredSymbol then
      some (s, .ok (Builtin.returnBool (s.covered.isComplete tree)))
    else none
  | .directCallReturned .. =>
    if method.symbol = Builtin.processNextEventSymbol then some (s, .ok (Builtin.returnBool true)) else none
  | _ => none

def done? {α : Type} (r : Machine.Outcome α) : Option Machine := r.2.toOption.map fun _ => r.1

def answer? (p : Program) (t : ThreadId) (method : Method) (m : Machine) :
    Except PeerError Reply → Option Machine
  | .ok (.ret value) => done? (m.nativeReturn t value)
  | .ok (.directCall tag callee args) => done? (m.directCall p t tag callee args)
  | .ok _ => none
  | .error _ => done? (m.nativeReturn t method.signature.defaultReturn)

/- A thread runs an instruction, or its native call does a piece of its work. The other threads go on
after an exception that nothing handles; a check that fails is the end of the interleaving. -/
def step? (t : ThreadId) (i : Nat) (s : Scene) : Option Scene :=
  (s.machine.thread? t).bind fun thread =>
    if thread.status = .runnable then
      match thread.stack with
      | .native call :: _ =>
        (e.program.method? call.method).bind fun method =>
          (s.produce e tree t method call i).bind fun (s, reply) =>
            (answer? e.program t method s.machine reply).map fun machine => { s with machine, thread := t }
      | _ =>
        let (machine, result) := Machine.freeStep e.program t s.machine
        if Step.wentOn result then some { s with machine, thread := t }
        else (Step.uncaught? result).map fun thrown =>
          { s with machine, thread := t, uncaught := thrown :: s.uncaught }
    else none

def event? (t : ThreadId) (i : Nat) (s : Scene) : Option Event :=
  (s.machine.thread? t).bind fun thread =>
    match thread.status, thread.stack with
    | .runnable, .native ⟨id, _, .entry⟩ :: _ =>
      if e.program.symbol id = Builtin.processNextEventSymbol then
        ((s.upcoming tree)[i]?).bind EventNode.event?
      else none
    | _, _ => none

def Breaks (t : ThreadId) (name : String) (predicate : Predicate) (s : Scene) : Prop :=
  (∃ i, s.event? e tree t i = some (.check name predicate)) ∧
  predicate.holds (s.machine.heap.setStatic Builtin.currentEventField (.str name)).static? = false

def follow? (rule : Machine → ThreadId → Bool) : List (ThreadId × Nat) → Scene → Option Scene
  | [], s => some s
  | (t, i) :: rest, s =>
    if t = s.thread ∨ rule s.machine s.thread = true then (s.step? e tree t i).bind (follow? rule rest)
    else none

end Scene

inductive Interleaves (e : Explorer) (tree : EventTree) (rule : Machine → ThreadId → Bool) : Scene → Prop where
  | start : Interleaves e tree rule (Scene.initial e.program)
  | step {s s' : Scene} {t : ThreadId} {i : Nat} (before : Interleaves e tree rule s)
      (turn : t = s.thread ∨ rule s.machine s.thread = true) (went : s.step? e tree t i = some s') :
      Interleaves e tree rule s'

theorem followInterleaves {e : Explorer} {tree : EventTree} {rule : Machine → ThreadId → Bool}
    {schedule : List (ThreadId × Nat)} {s s' : Scene} (before : Interleaves e tree rule s)
    (h : s.follow? e tree rule schedule = some s') : Interleaves e tree rule s' := by
  induction schedule generalizing s with
  | nil =>
    cases Option.some.inj h
    exact before
  | cons first rest ih =>
    obtain ⟨t, i⟩ := first
    unfold Scene.follow? at h
    split at h
    · rename_i turn
      obtain ⟨next, went, h⟩ := Option.bind_eq_some_iff.mp h
      exact ih (.step before turn went) h
    · cases h

/- The running thread cannot go on, or its next instruction is one that other threads can observe. -/
def Machine.preemptible (p : Program) (m : Machine) (c : ThreadId) : Bool :=
  !m.isRunnable c || (m.nextOp? p c).any Instruction.isSchedulingRelevant

namespace Machine

variable {p : Program} {m : Machine} {t : ThreadId} {thread : GuestThread}

theorem flagTwice (first second : Bool) :
    (m.setFirstStep t first).setFirstStep t second = m.setFirstStep t second := by
  unfold setFirstStep modifyThread
  cases found : m.thread? t with
  | none => simp [found]
  | some thread =>
    have again := threadSet (threadInside found) { thread with firstStep := first } t
    rw [if_pos rfl] at again
    simp only [again]
    simp [setThread]

def Rested (m : Machine) : Prop := ∀ thread ∈ m.threads, thread.firstStep = false

namespace Rested

variable (rested : m.Rested)
include rested

theorem flag (found : m.thread? t = some thread) : thread.firstStep = false :=
  rested thread (Array.mem_of_getElem? found)

theorem unflagged (t : ThreadId) : m.setFirstStep t false = m := by
  unfold setFirstStep modifyThread
  cases found : m.thread? t with
  | none => rfl
  | some thread =>
    have same : { thread with firstStep := false } = thread := by rw [← rested.flag found]
    simp only [same]
    exact setSame found

theorem cleared : m.clearFirstSteps = m := by
  have same : m.threads.map (fun thread => { thread with firstStep := false }) = m.threads.map id := by
    refine Array.map_congr_left fun thread member => ?_
    rw [← rested thread member]
    rfl
  unfold clearFirstSteps
  rw [same, Array.map_id]

theorem set (still : thread.firstStep = false) : (m.setThread t thread).Rested := by
  intro other member
  rcases Array.mem_or_eq_of_mem_setIfInBounds member with old | rfl
  · exact rested other old
  · exact still

theorem unblock (o : ObjectId) : (m.unblock o).Rested := by
  intro thread member
  obtain ⟨old, inside, rfl⟩ := Array.mem_map.mp member
  split <;> exact rested old inside

theorem installed {u : Upshot} (works : thread.upshot? p t m.heap = some u) : (u.install t m).Rested := by
  have own : ({ m with heap := u.heap }.setThread t u.thread).Rested :=
    Rested.set (m := { m with heap := u.heap }) rested (GuestThread.upshotRested works)
  unfold Upshot.install
  dsimp only
  split
  · exact own
  · exact own.unblock _

theorem delivered (still : thread.firstStep = false) (tag : Option String) (value : Option Value) :
    (deliver t thread tag value m).1.Rested := by
  unfold deliver
  split <;> exact rested.set still

theorem returned (value : Option Value) : (m.nativeReturn t value).1.Rested := by
  unfold nativeReturn
  split
  · exact rested
  · rename_i thread found
    have still := rested.flag found
    split
    · exact rested
    · refine rested.delivered ?_ none value
      exact still
    · exact rested

theorem called (tag : String) (callee : MethodId) (args : List Value) :
    (m.directCall p t tag callee args).1.Rested := by
  unfold directCall
  split
  · exact rested
  · split
    · exact rested
    · split
      · exact rested
      · rename_i thread found
        have still := rested.flag found
        split
        · exact rested.set still
        · exact rested

end Rested

end Machine

namespace Scene

variable {e : Explorer} {tree : EventTree} {s s' : Scene} {t : ThreadId} {i : Nat}

theorem doneSome {α : Type} {r : Machine.Outcome α} {m : Machine} (h : done? r = some m) :
    ∃ a, r = (m, .ok a) := by
  obtain ⟨after, result⟩ := r
  cases result with
  | error fault => cases h
  | ok a =>
    cases Option.some.inj h
    exact ⟨a, rfl⟩

theorem answerRested {p : Program} {method : Method} {m k : Machine} {reply : Except PeerError Reply}
    (rested : m.Rested) (h : answer? p t method m reply = some k) : k.Rested := by
  have kept : ∀ {α : Type} {r : Machine.Outcome α}, r.1.Rested → done? r = some k → k.Rested := by
    intro α r after done
    obtain ⟨_, rfl⟩ := doneSome done
    exact after
  match reply with
  | .ok (.ret value) => exact kept (rested.returned value) h
  | .ok (.directCall tag callee args) => exact kept (rested.called tag callee args) h
  | .error _ => exact kept (rested.returned _) h

inductive Stepped (e : Explorer) (tree : EventTree) (t : ThreadId) (i : Nat) (s : Scene) : Scene → Prop where
  | ran {thread : GuestThread} {u : Upshot} (found : s.machine.thread? t = some thread)
      (running : thread.status = .runnable) (works : thread.upshot? e.program t s.machine.heap = some u)
      (went : Step.wentOn u.result = true) :
      Stepped e tree t i s { s with machine := u.install t s.machine, thread := t }
  | died {thread : GuestThread} {u : Upshot} {thrown : Thrown} (found : s.machine.thread? t = some thread)
      (works : thread.upshot? e.program t s.machine.heap = some u)
      (uncaught : Step.uncaught? u.result = some thrown) :
      Stepped e tree t i s
        { s with machine := u.install t s.machine, thread := t, uncaught := thrown :: s.uncaught }
  | answered {thread : GuestThread} {call : NativeCall} {below : List Activation} {method : Method}
      {s' : Scene} {reply : Except PeerError Reply} {k : Machine}
      (found : s.machine.thread? t = some thread) (running : thread.status = .runnable)
      (stack : thread.stack = .native call :: below) (called : e.program.method? call.method = some method)
      (produced : s.produce e tree t method call i = some (s', reply))
      (answered : answer? e.program t method s'.machine reply = some k) :
      Stepped e tree t i s { s' with machine := k, thread := t }

theorem stepped (h : s.step? e tree t i = some s') : Stepped e tree t i s s' := by
  obtain ⟨thread, found, h⟩ := Option.bind_eq_some_iff.mp h
  split at h
  · rename_i running
    split at h
    · rename_i call below stack
      obtain ⟨method, called, h⟩ := Option.bind_eq_some_iff.mp h
      obtain ⟨⟨after, reply⟩, produced, h⟩ := Option.bind_eq_some_iff.mp h
      obtain ⟨k, answered, rfl⟩ := Option.map_eq_some_iff.mp h
      exact .answered found running stack called produced answered
    · dsimp only at h
      split at h
      · rename_i went
        cases Option.some.inj h
        rcases Machine.freeStepCases (p := e.program) found with ⟨u, works, ran⟩ | ⟨_, failed, _⟩
        · rw [ran] at went ⊢
          exact .ran found running works went
        · exact absurd (failed.symm.trans went) Bool.false_ne_true
      · obtain ⟨thrown, uncaught, rfl⟩ := Option.map_eq_some_iff.mp h
        rcases Machine.freeStepCases (p := e.program) found with ⟨u, works, ran⟩ | ⟨_, _, failed⟩
        · rw [ran] at uncaught ⊢
          exact .died found works uncaught
        · cases failed.symm.trans uncaught
  · cases h

inductive Produced (e : Explorer) (tree : EventTree) (t : ThreadId) (method : Method) (call : NativeCall)
    (i : Nat) (s : Scene) : Scene → Except PeerError Reply → Prop where
  | occurred {n : EventNode} {event : Event} (entered : call.phase = .entry)
      (symbol : method.symbol = Builtin.processNextEventSymbol) (chosen : (s.upcoming tree)[i]? = some n)
      (happens : n.event? = some event) :
      Produced e tree t method call i s (s.occur e tree t method call.args n event).1
        (s.occur e tree t method call.args n event).2
  | exhausted (entered : call.phase = .entry) (symbol : method.symbol = Builtin.processNextEventSymbol)
      (none : s.upcoming tree = []) :
      Produced e tree t method call i s s (.ok (Builtin.returnBool false))
  | returned {tag : String} {value : Option Value} (back : call.phase = .directCallReturned tag value)
      (symbol : method.symbol = Builtin.processNextEventSymbol) :
      Produced e tree t method call i s s (.ok (Builtin.returnBool true))
  | named (entered : call.phase = .entry) (symbol : method.symbol = Builtin.getEventNameSymbol) :
      Produced e tree t method call i s s (.ok (.ret (some (match s.last.bind EventNode.event? with
        | some event => .str event.name
        | none => .null))))
  | followed (entered : call.phase = .entry) (symbol : method.symbol = Builtin.checkPathSymbol) :
      Produced e tree t method call i s s (.ok (Builtin.returnBool (s.last.any EventNode.isLeaf)))
  | asked {reply : Except PeerError Reply} (symbol : method.symbol = Builtin.isCompletelyCoveredSymbol) :
      Produced e tree t method call i s s reply

theorem produced {method : Method} {call : NativeCall} {reply : Except PeerError Reply}
    (h : s.produce e tree t method call i = some (s', reply)) :
    Produced e tree t method call i s s' reply := by
  unfold produce at h
  split at h
  · rename_i entered
    split at h
    · rename_i symbol
      split at h
      · rename_i none
        cases Option.some.inj h
        exact .exhausted entered symbol (List.isEmpty_iff.mp none)
      · obtain ⟨n, chosen, h⟩ := Option.bind_eq_some_iff.mp h
        obtain ⟨event, happens, h⟩ := Option.map_eq_some_iff.mp h
        obtain ⟨rfl, rfl⟩ := Prod.ext_iff.mp h
        exact .occurred entered symbol chosen happens
    · split at h
      · rename_i symbol
        cases Option.some.inj h
        exact .named entered symbol
      · split at h
        · rename_i symbol
          cases Option.some.inj h
          exact .followed entered symbol
        · split at h
          · rename_i symbol
            cases Option.some.inj h
            exact .asked symbol
          · cases h
  · rename_i back
    split at h
    · rename_i symbol
      cases Option.some.inj h
      exact .returned back symbol
    · cases h
  · cases h

theorem stepClean (h : s.step? e tree t i = some s') (clean : s'.uncaught = []) : s.uncaught = [] := by
  cases stepped h with
  | ran found running works went => exact clean
  | died found works uncaught => cases clean
  | answered found running stack called made answered => cases produced made <;> exact clean

theorem processParts {call : PeerCall} (guests : Builtin.Guests call.actions) (event : Event) (m : Machine) :
    Builtin.process call event m =
      ({ m with heap := m.heap.setStatic Builtin.currentEventField (.str event.name) },
        (Builtin.process call event ⟨m.heap, #[]⟩).2) := by
  cases event with
  | none => rfl
  | check name predicate =>
    simp only [Builtin.process]
    split <;> rfl
  | normal name args =>
    simp only [Builtin.process, Builtin.runAction]
    split
    · rfl
    · rename_i run found
      obtain ⟨callee, same⟩ := guests _ _ found
      cases same
    · split <;> rfl

theorem occurMachine (guests : Builtin.Guests e.registry.actions) (method : Method) (args : List Value)
    (n : EventNode) (event : Event) : (s.occur e tree t method args n event).1.machine =
      { s.machine with heap := s.machine.heap.setStatic Builtin.currentEventField (.str event.name) } :=
  congrArg Prod.fst (@processParts ⟨e.program, some tree, e.registry.actions, s.covered, Path.empty, t,
    method, args⟩ guests event s.machine)

theorem stepRested (guests : Builtin.Guests e.registry.actions) (rested : s.machine.Rested)
    (h : s.step? e tree t i = some s') : s'.machine.Rested := by
  cases stepped h with
  | ran found running works went => exact rested.installed works
  | died found works uncaught => exact rested.installed works
  | @answered thread call below method s' reply k found running stack called made answered =>
    refine answerRested ?_ answered
    cases produced made with
    | occurred entered symbol chosen happens =>
      rw [occurMachine guests]
      exact rested
    | _ => exact rested

end Scene

theorem Interleaves.rested {e : Explorer} {tree : EventTree} {rule : Machine → ThreadId → Bool} {s : Scene}
    (guests : Builtin.Guests e.registry.actions) (run : Interleaves e tree rule s) : s.machine.Rested := by
  induction run with
  | start =>
    refine Explorer.initialHolds Machine.Rested nofun ?_ e.program
    intro m name id method rested thread member
    rcases Array.mem_push.mp member with old | rfl
    · exact rested thread old
    · rfl
  | step before turn went ih => exact Scene.stepRested guests ih went

end BytecodeChecker
