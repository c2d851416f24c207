import BytecodeChecker.Model.Builder
import BytecodeChecker.Proofs.Faults
import BytecodeChecker.Proofs.Matching
import BytecodeChecker.Proofs.Scene

/-! Where a thread can be preempted in a search. A search sees every check that fails in an interleaving
in which threads are preempted only before the instructions that other threads can observe. A native
call is not one of them, so that checks may fail in other interleavings and not be seen. -/
namespace BytecodeChecker

namespace Machine

variable {p : Program} {m : Machine} {t : ThreadId} {thread : GuestThread}

theorem stepAsks {op : Op} (found : m.thread? t = some thread) (rested : thread.firstStep = false)
    (next : m.nextOp? p t = some op) (relevant : op.isSchedulingRelevant = true)
    (others : 1 < m.runnableCount) : step p t m = (m, .ok .schedulingPoint) := by
  unfold nextOp? at next
  simp only [found, Option.bind_some] at next
  split at next
  · rename_i frame tag below stack
    rw [stepFetched found stack next]
    simp [relevant, rested, others]
  · cases next

theorem stepUpshot {u : Upshot} (found : m.thread? t = some thread)
    (works : thread.upshot? p t m.heap = some u)
    (ready : ∀ op, m.nextOp? p t = some op → op.isSchedulingRelevant = true →
      thread.firstStep = true ∨ m.runnableCount ≤ 1) : step p t m = u.outcome t m := by
  obtain ⟨frame, tag, below, op, _, _, stack, fetched, _⟩ := GuestThread.upshotIff.mp works
  have next : m.nextOp? p t = some op := by simp [nextOp?, found, stack, fetched]
  rw [stepAttempts found stack fetched (ready op next)]
  rcases attemptInstalls found stack fetched with ⟨u', works', installed⟩ | ⟨none, _⟩
  · cases Option.some.inj (works.symm.trans works')
    exact installed
  · cases none.symm.trans works

theorem flagWith (h : Heap) (t : ThreadId) (flag : Bool) :
    { m with heap := h }.setFirstStep t flag = { m.setFirstStep t flag with heap := h } := by
  have same : { m with heap := h }.thread? t = m.thread? t := rfl
  unfold setFirstStep modifyThread
  rw [same]
  split <;> rfl

theorem awaitRested (still : thread.firstStep = false) : (Explorer.awaitChoice thread).firstStep = false := by
  unfold Explorer.awaitChoice
  split <;> exact still

theorem deliverSet (other : GuestThread) (tag : Option String) (value : Option Value) :
    deliver t thread tag value (m.setThread t other) = deliver t thread tag value m := by
  unfold deliver
  split <;> simp [setThread]

end Machine

namespace Scene

open Explorer (awaitChoice)

variable {p : Program} {m : Machine} {t : ThreadId} {thread : GuestThread}

theorem answerAwaiting {call : NativeCall} {below : List Activation} (found : m.thread? t = some thread)
    (stack : thread.stack = .native call :: below) (method : Method) (reply : Except PeerError Reply) :
    answer? p t method (m.setThread t (awaitChoice thread)) reply = answer? p t method m reply := by
  have waits : awaitChoice thread =
      { thread with stack := .native { call with phase := .awaitingChoice } :: below } := by
    simp only [awaitChoice, stack]
  have found' : (m.setThread t (awaitChoice thread)).thread? t = some (awaitChoice thread) :=
    (Machine.threadSet (Machine.threadInside found) _ t).trans (if_pos rfl)
  have returns : ∀ value, Machine.nativeReturn t value (m.setThread t (awaitChoice thread)) =
      Machine.nativeReturn t value m := by
    intro value
    unfold Machine.nativeReturn
    rw [found', found]
    simp only [waits, stack]
    exact Machine.deliverSet _ none value
  have calls : ∀ tag callee args,
      done? (Machine.directCall p t tag callee args (m.setThread t (awaitChoice thread))) =
        done? (Machine.directCall p t tag callee args m) := by
    intro tag callee args
    unfold Machine.directCall
    cases p.method? callee with
    | none => rfl
    | some method =>
      dsimp only
      split
      · rfl
      · rw [found', found]
        simp only [waits, stack]
        simp [Machine.setThread, done?, Except.toOption]
  cases reply with
  | error error => exact congrArg done? (returns _)
  | ok reply =>
    cases reply with
    | ret value => exact congrArg done? (returns value)
    | directCall tag callee args => exact calls tag callee args
    | _ => rfl

structure InCall (e : Explorer) (s : Scene) (t : ThreadId) (thread : GuestThread) (call : NativeCall)
    (below : List Activation) (method : Method) : Prop where
  found : s.machine.thread? t = some thread
  running : thread.status = .runnable
  stack : thread.stack = .native call :: below
  called : e.program.method? call.method = some method

theorem eventAbout {e : Explorer} {tree : EventTree} {s : Scene} {i : Nat} {event : Event}
    (h : s.event? e tree t i = some event) : ∃ thread call below method n, s.InCall e t thread call below method ∧
      call.phase = .entry ∧ method.symbol = Builtin.processNextEventSymbol ∧
      (s.upcoming tree)[i]? = some n ∧ n.event? = some event := by
  obtain ⟨thread, found, h⟩ := Option.bind_eq_some_iff.mp h
  split at h
  · rename_i id args below running stack
    split at h
    · rename_i symbol
      obtain ⟨n, chosen, happens⟩ := Option.bind_eq_some_iff.mp h
      unfold Program.symbol at symbol
      cases called : e.program.method? id with
      | none =>
        rw [called] at symbol
        exact absurd symbol (by decide +kernel)
      | some method =>
        rw [called] at symbol
        exact ⟨thread, _, below, method, n, ⟨found, running, stack, called⟩, rfl, symbol, chosen, happens⟩
    · cases h
  · cases h

theorem nextUpcoming {call : PeerCall} {tree : EventTree} {s : Scene} (scripted : call.tree = some tree)
    (event : call.path.lastEvent? = s.last.map some) : Builtin.nextEvents call =
      .ok (if (s.upcoming tree).isEmpty then none
        else some (.ofEvents Builtin.eventGenerator (s.last.getD tree.root))) := by
  unfold Path.lastEvent? at event
  unfold Builtin.nextEvents upcoming
  cases last : s.last with
  | none =>
    rw [last] at event
    rw [Option.map_eq_none_iff.mp event]
    simp only [PeerCall.eventTree, scripted]
    rfl
  | some n =>
    rw [last] at event
    obtain ⟨g, found, chosen⟩ := Option.map_eq_some_iff.mp event
    rw [found]
    simp only [Generator.successor?, chosen]
    rfl

end Scene

namespace Explorer

variable {e : Explorer} {path : Path} {p q : Progress} {memory : Memory} {thread : GuestThread}

theorem Moves.snoc {n : Nat} {r : Progress} (moves : e.Moves memory n p q)
    (moved : e.move memory q = .goOn r) : e.Moves memory (n + 1) p r := by
  induction moves with
  | none p => exact .next moved (.none r)
  | next first rest ih => exact .next first (ih moved)

namespace Passes

variable (passes : e.Passes path p)
include passes

theorem onward (goesOn : ∀ memory, memory.path = path → e.move memory p = .goOn q) : e.Passes path q := by
  obtain ⟨fuel, s, memory, n, starts, same, moves⟩ := passes
  exact ⟨fuel, s, memory, n + 1, starts, same, moves.snoc (goesOn memory same)⟩

variable (plain : e.properties = [])
include plain

theorem ends {raw : Ending} (stops : ∀ memory, memory.path = path → e.move memory p = .stop q (.ok raw)) :
    ∃ fuel, e.Reaches fuel path q.state raw := by
  obtain ⟨fuel, s, memory, n, starts, same, moves⟩ := passes
  have ran := movesTransition moves (stops memory same) (Nat.lt_succ_self n)
  obtain ⟨after, _, advance⟩ := advanceRan (transitionMore ran (Nat.le_max_right fuel (n + 1)))
  rw [judgeNothing plain] at advance
  exact ⟨_, s, startsMore starts (Nat.le_max_left fuel (n + 1)), memory, after, same, advance⟩

theorem chosen {g g' : Generator} {i : Nat} {s : State}
    (stops : ∀ memory, memory.path = path → e.move memory p = .stop q (.ok (.choice g)))
    (chosen : g.select? i = some g') (goesOn : applied (path.push g' q.state) q.state = .ok s) :
    e.Passes (path.push g' q.state) ⟨s, 0, []⟩ := by
  obtain ⟨fuel, start, starts, ended⟩ := passes.ends plain stops
  exact ⟨fuel, s, { Memory.empty with path := path.push g' q.state }, 0,
    .next starts ended chosen goesOn, rfl, .none _⟩

end Passes

def StepsOut (e : Explorer) : Prop := ∃ fuel path s, e.Reaches fuel path s (.finished .stepLimit)

section Move

variable (found : p.state.thread? p.state.current = some thread)
include found

theorem moveStopped (stopped : thread.status ≠ .runnable) (memory : Memory) :
    e.move memory p = e.reschedule p := by
  unfold move
  simp only [found]
  exact if_pos stopped

variable (running : thread.status = .runnable)
include running

theorem Passes.stepsOut (passes : e.Passes path p) (plain : e.properties = []) (out : e.OutOfSteps p) :
    e.StepsOut := by
  have stops : ∀ memory, memory.path = path → e.move memory p = .stop p (.ok (.finished .stepLimit)) := by
    intro memory _
    unfold move
    simp only [found, running, ne_eq, not_true_eq_false, if_false]
    exact if_pos out
  obtain ⟨fuel, reached⟩ := passes.ends plain stops
  exact ⟨fuel, path, p.state, reached⟩

variable (inside : ¬ e.OutOfSteps p)
include inside

theorem movePoint (point : Machine.step e.program p.state.current p.state.toMachine =
      (p.state.toMachine, .ok .schedulingPoint)) (memory : Memory) :
    e.move memory p = .stop p (.ok (.choice (.ofThreads "schedule" p.state.runnable))) := by
  obtain ⟨⟨machine, current, depth⟩, steps, notices⟩ := p
  unfold OutOfSteps at inside
  unfold move
  simp only [found, running, ne_eq, not_true_eq_false, if_false, inside, afterOutcome, Progress.act] at point ⊢
  rw [point]

theorem moveNative {call : NativeCall} {below : List Activation}
    (stack : thread.stack = .native call :: below) (memory : Memory) :
    e.move memory p = e.dispatch memory p.state.current call thread.firstStep p.count := by
  have native : Machine.step e.program p.state.current p.state.toMachine = (p.state.toMachine, .ok .native) := by
    unfold Machine.step
    simp only [found, stack]
  obtain ⟨⟨machine, current, depth⟩, steps, notices⟩ := p
  unfold OutOfSteps at inside
  unfold move
  simp only [found, running, ne_eq, not_true_eq_false, if_false, inside, afterOutcome, Progress.act, stack] at native ⊢
  rw [native]

theorem moveGoes {m : Machine} {step : Step}
    (ran : Machine.step e.program p.state.current p.state.toMachine = (m, .ok step))
    (goes : step.goesOn = true) :
    ∃ q, q.state = { p.state with toMachine := m } ∧ ∀ memory, e.move memory p = .goOn q := by
  obtain ⟨⟨machine, current, depth⟩, steps, notices⟩ := p
  unfold OutOfSteps at inside
  unfold move
  simp only [found, running, ne_eq, not_true_eq_false, if_false, inside, afterOutcome, Progress.act] at ran ⊢
  rw [ran]
  cases step with
  | executed => exact ⟨_, noteState _ _, fun _ => rfl⟩
  | schedulingPoint => cases goes
  | native => cases goes
  | blocked o => exact ⟨_, rfl, fun _ => rfl⟩
  | terminated => exact ⟨_, rfl, fun _ => rfl⟩
  | exception thrown =>
    have handled : thrown.handled = true := goes
    refine ⟨_, ?_, fun _ => if_pos handled⟩
    rfl

end Move

/- A search stands where an interleaving does. The thread that runs next may have been chosen for it. -/
structure Shows (e : Explorer) (s : Scene) (t : ThreadId) (flag : Bool) (path : Path) (p : Progress) : Prop where
  passes : e.Passes path p
  machine : p.state.toMachine = s.machine.setFirstStep t flag
  current : p.state.current = t
  event : path.lastEvent? = s.last.map some

variable {s : Scene} {c t : ThreadId} {flag : Bool}

theorem Shows.runner (shows : e.Shows s t flag path p) (found : s.machine.thread? t = some thread) :
    p.state.thread? p.state.current = some { thread with firstStep := flag } := by
  rw [shows.current]
  show p.state.toMachine.thread? t = _
  rw [shows.machine]
  exact Machine.flaggedThread found flag

theorem Shows.same (shows : e.Shows s t false path p) (rested : s.machine.Rested) :
    p.state.toMachine = s.machine :=
  shows.machine.trans (rested.unflagged t)

theorem Shows.lastNode (shows : e.Shows s t flag path p) : path.lastNode? = s.last := by
  have event := shows.event
  unfold Path.lastEvent? at event
  unfold Path.lastNode?
  cases last : s.last with
  | none =>
    rw [last] at event
    rw [Option.map_eq_none_iff.mp event]
    rfl
  | some n =>
    rw [last] at event
    obtain ⟨g, found, chosen⟩ := Option.map_eq_some_iff.mp event
    rw [found]
    exact chosen

theorem Shows.chooses (plain : e.properties = []) (rested : s.machine.Rested) (shows : e.Shows s c false path p)
    {id : String} (stops : ∀ memory, e.move memory p = .stop p (.ok (.choice (.ofThreads id p.state.runnable))))
    (runs : s.machine.isRunnable t = true) : ∃ path' p', e.Shows s t true path' p' := by
  have same := shows.same rested
  have listed : t ∈ p.state.runnable := by
    rw [same]
    exact Machine.memRunnable.mpr runs
  obtain ⟨i, inside, here⟩ := List.mem_iff_getElem.mp listed
  obtain ⟨thread, found, _⟩ := Machine.runnableThread runs
  have chosen : (Generator.ofThreads id p.state.runnable).select? i =
      some { Generator.ofThreads id p.state.runnable with cursor := some i } := if_pos inside
  have picks : Generator.chosen? { Generator.ofThreads id p.state.runnable with cursor := some i } =
      some (.thread t) := by
    simp [Generator.chosen?, Generator.ofThreads, Choices.get?, inside, here]
  have goesOn : applied (path.push { Generator.ofThreads id p.state.runnable with cursor := some i } p.state)
      p.state = .ok ⟨p.state.clearFirstSteps.setFirstStep t true, t, path.depth + 1⟩ := by
    unfold applied applyChoice
    simp only [Path.lastPush, picks]
    rw [same, found]
    rfl
  refine ⟨_, _, shows.passes.chosen plain (fun memory _ => stops memory) chosen goesOn, ?_, rfl, ?_⟩
  · show p.state.toMachine.clearFirstSteps.setFirstStep t true = _
    rw [same, rested.cleared]
  · unfold Path.lastEvent?
    rw [lastOfPush, if_neg (fun event => by cases event)]
    exact shows.event

def Unasked (e : Explorer) (s : Scene) (t : ThreadId) (flag : Bool) : Prop :=
  flag = true ∨ ∀ op, s.machine.nextOp? e.program t = some op → op.isSchedulingRelevant = true →
    s.machine.runnableCount ≤ 1

theorem Shows.arrives (loaded : e.Loaded) (plain : e.properties = []) (rested : s.machine.Rested)
    (shows : e.Shows s s.thread false path p)
    (turn : t = s.thread ∨ s.machine.preemptible e.program s.thread = true)
    (runs : s.machine.isRunnable t = true) :
    e.StepsOut ∨ ∃ path' p' flag, e.Shows s t flag path' p' ∧ e.Unasked s t flag := by
  have same := shows.same rested
  obtain ⟨thread, found, _⟩ := (passesRuns loaded shows.passes).2.ready
  have here : s.machine.thread? s.thread = some thread := by
    rw [← same, ← shows.current]
    exact found
  by_cases running : thread.status = .runnable
  · by_cases point : ∃ op, s.machine.nextOp? e.program s.thread = some op ∧
        op.isSchedulingRelevant = true ∧ 1 < s.machine.runnableCount
    · obtain ⟨op, next, relevant, others⟩ := point
      by_cases out : e.OutOfSteps p
      · exact .inl (shows.passes.stepsOut found running plain out)
      · have stops : Machine.step e.program p.state.current p.state.toMachine =
            (p.state.toMachine, .ok .schedulingPoint) := by
          rw [same, shows.current]
          exact Machine.stepAsks here (rested.flag here) next relevant others
        obtain ⟨path', p', shown⟩ := shows.chooses plain rested (movePoint found running out stops) runs
        exact .inr ⟨path', p', true, shown, .inl rfl⟩
    · have alone : ∀ op, s.machine.nextOp? e.program s.thread = some op → op.isSchedulingRelevant = true →
          s.machine.runnableCount ≤ 1 :=
        fun op next relevant => Nat.le_of_not_lt fun others => point ⟨op, next, relevant, others⟩
      have stays : t = s.thread := by
        rcases turn with own | preempted
        · exact own
        · have current : s.machine.isRunnable s.thread = true := by simp [Machine.isRunnable, here, running]
          simp only [Machine.preemptible, current, Bool.not_true, Bool.false_or] at preempted
          obtain ⟨op, next, relevant⟩ := (Option.any_eq_true _ _).mp preempted
          exact Machine.runnableAlone (alone op next relevant) runs current
      subst stays
      exact .inr ⟨path, p, false, shows, .inr alone⟩
  · have moved := moveStopped (e := e) found running
    have listed : t ∈ p.state.runnable := by
      rw [same]
      exact Machine.memRunnable.mpr runs
    have comes := reschedules e p
    generalize e.reschedule p = mv at comes moved
    cases comes with
    | completed none free =>
      rw [none] at listed
      cases listed
    | deadlocked none blocked =>
      rw [none] at listed
      cases listed
    | handsOver alone =>
      rw [alone] at listed
      cases List.mem_singleton.mp listed
      refine .inr ⟨path, _, true, ⟨shows.passes.onward fun memory _ => moved memory, ?_, rfl, shows.event⟩, .inl rfl⟩
      show p.state.toMachine.setFirstStep t true = _
      rw [same]
    | chooses some =>
      obtain ⟨path', p', shown⟩ := shows.chooses plain rested moved runs
      exact .inr ⟨path', p', true, shown, .inl rfl⟩

theorem Shows.ran (plain : e.properties = []) (rested : s.machine.Rested) (shows : e.Shows s t flag path p)
    (unasked : e.Unasked s t flag) (found : s.machine.thread? t = some thread)
    (running : thread.status = .runnable) {u : Upshot}
    (works : thread.upshot? e.program t s.machine.heap = some u) (went : Step.wentOn u.result = true) :
    e.StepsOut ∨ ∃ q, e.Shows { s with machine := u.install t s.machine, thread := t } t false path q := by
  have here := shows.runner found
  by_cases out : e.OutOfSteps p
  · exact .inl (shows.passes.stepsOut here running plain out)
  · have installs : Machine.step e.program t p.state.toMachine = u.outcome t s.machine := by
      rw [shows.machine, ← Machine.outcomeFlagged found u flag]
      refine Machine.stepUpshot (Machine.flaggedThread found flag) ?_ fun op next relevant => ?_
      · rw [Machine.flagHeap]
        exact works
      · rcases unasked with rfl | alone
        · exact .inl rfl
        · cases flag with
          | true => exact .inl rfl
          | false =>
            rw [rested.unflagged] at next ⊢
            exact .inr (alone op next relevant)
    obtain ⟨step, result, goes⟩ : ∃ step, u.result = .ok step ∧ step.goesOn = true := by
      cases result : u.result with
      | error fault => simp [result, Step.wentOn] at went
      | ok step => exact ⟨step, rfl, by simpa [result, Step.wentOn] using went⟩
    unfold Upshot.outcome at installs
    rw [result, ← shows.current] at installs
    obtain ⟨q, state, moved⟩ := moveGoes here running out installs goes
    refine .inr ⟨q, shows.passes.onward fun memory _ => moved memory, ?_, ?_, shows.event⟩
    · rw [state]
      show u.install p.state.current s.machine = _
      rw [shows.current]
      exact ((rested.installed works).unflagged t).symm
    · rw [state]
      exact shows.current

theorem afterDone {α : Type} {operation : Machine → Machine.Outcome α} {k : Machine}
    (done : Scene.done? (operation p.state.toMachine) = some k) : ∃ q,
    q.state = { p.state with toMachine := k } ∧ afterOutcome p operation (fun p _ => .goOn p) = .goOn q := by
  obtain ⟨⟨machine, current, depth⟩, steps, notices⟩ := p
  obtain ⟨a, same⟩ := Scene.doneSome done
  refine ⟨⟨⟨k, current, depth⟩, steps, notices⟩, rfl, ?_⟩
  dsimp only at same
  simp only [afterOutcome, Progress.act, same]

theorem heedAnswers {method : Method} {reply : Except PeerError Reply} {k : Machine}
    (answered : Scene.answer? e.program t method p.state.toMachine reply = some k) :
    ∃ q, q.state = { p.state with toMachine := k } ∧ e.heed t method p reply = .goOn q := by
  match reply with
  | .ok (.ret value) => exact afterDone answered
  | .ok (.directCall tag callee args) => exact afterDone answered
  | .error error => exact afterDone (p := p.note (.peerError t method.symbol error)) answered

theorem enteredInvoked {call : NativeCall} (entered : call.phase = .entry) : e.invocation call flag = .ok .entry := by
  simp only [invocation, entered]

section Native

variable (plain : e.properties = []) (rested : s.machine.Rested) (shows : e.Shows s t flag path p)
  {call : NativeCall} {below : List Activation} {method : Method} (calls : s.InCall e t thread call below method)
  {i : Invocation} (invoked : e.invocation call flag = .ok i)
include rested shows calls invoked

theorem Shows.calledLooking (inside : ¬ e.OutOfSteps p) {reply : Except PeerError Reply}
    (looks : e.callPeer memory t method call.args i p.state.toMachine = (p.state.toMachine, reply)) :
    e.move memory p = e.heed t method { p.count with state := { p.state with toMachine := s.machine } } reply := by
  have unflagged : p.state.toMachine.setFirstStep t false = s.machine := by
    rw [shows.machine, Machine.flagTwice, rested.unflagged]
  rw [moveNative (shows.runner calls.found) calls.running inside calls.stack, shows.current, ← unflagged]
  exact dispatchHeeds invoked calls.called looks

include plain

theorem Shows.answered (standard : e.Standard) {peer : Peer} (known : Builtin.Known method.symbol peer)
    {reply : Except PeerError Reply} {k : Machine}
    (looks : ∀ memory : Memory, memory.path = path →
      peer (e.peerCall memory t method call.args) i p.state.toMachine = (p.state.toMachine, reply))
    (answered : Scene.answer? e.program t method s.machine reply = some k) :
    e.StepsOut ∨ ∃ path' q, e.Shows { s with machine := k, thread := t } t false path' q := by
  by_cases out : e.OutOfSteps p
  · exact .inl (shows.passes.stepsOut (shows.runner calls.found) calls.running plain out)
  · obtain ⟨q, state, heeds⟩ := heedAnswers (e := e)
      (p := { p.count with state := { p.state with toMachine := s.machine } }) answered
    refine .inr ⟨path, q, shows.passes.onward fun memory same => ?_, ?_, ?_, shows.event⟩
    · have called := callKnown standard.peers known rfl memory t call.args i p.state.toMachine
      have answers := called.trans (looks memory same)
      rw [shows.calledLooking rested calls invoked out answers]
      exact heeds
    · rw [state]
      exact ((Scene.answerRested rested answered).unflagged t).symm
    · rw [state]
      exact shows.current

end Native

theorem appliedEvent {g : Generator} {s : State} {n : EventNode} (picks : g.chosen? = some (.event n))
    (rested : s.toMachine.Rested) (found : s.thread? s.current = some thread) :
    applied (path.push g s) s = .ok ⟨s.setFirstStep s.current true, s.current, path.depth + 1⟩ := by
  unfold applied applyChoice
  simp only [Path.lastPush, picks, found]
  rw [rested.cleared]
  rfl

theorem moveResolved (tree : EventTree) (depth : Nat) {waiting : Machine} {call : NativeCall}
    {below : List Activation} {method : Method} {g : Generator} {n : EventNode} {event : Event} (standard : e.Standard)
    (rested : waiting.Rested) (found : waiting.thread? t = some thread) (running : thread.status = .runnable)
    (stack : thread.stack = .native call :: below) (waits : call.phase = .awaitingChoice)
    (called : e.program.method? call.method = some method)
    (symbol : method.symbol = Builtin.processNextEventSymbol) (heap : s.machine.heap = waiting.heap)
    (last : memory.path.last?.map (·.generator) = some g) (kind : g.kind = .event)
    (cursor : g.cursor.isSome = true) (picks : g.chosenNode? = some n) (happens : n.event? = some event) :
    e.move memory ⟨⟨waiting.setFirstStep t true, t, depth⟩, 0, []⟩ =
      e.heed t method ⟨⟨{ waiting with
        heap := s.machine.heap.setStatic Builtin.currentEventField (.str event.name) }, t, depth⟩, 1, []⟩
        (s.occur e tree t method call.args n event).2 := by
  have invoked : e.invocation call true = .ok .choiceResolved := by simp [invocation, waits]
  have answer : e.callPeer memory t method call.args .choiceResolved (waiting.setFirstStep t true) =
      ({ waiting.setFirstStep t true with
          heap := s.machine.heap.setStatic Builtin.currentEventField (.str event.name) },
        (s.occur e tree t method call.args n event).2) := by
    rw [callKnown standard.peers .processNextEvent symbol]
    simp only [Builtin.processNextEvent, PeerCall.resolved, last, kind, cursor, and_self, if_true, picks, happens]
    rw [@Scene.processParts (e.peerCall memory t method call.args) standard.guests, Machine.flagHeap, ← heap]
    refine Prod.ext rfl ?_
    refine Eq.trans ?_ (congrArg Prod.snd (@Scene.processParts ⟨e.program, some tree, e.registry.actions, s.covered,
      Path.empty, t, method, call.args⟩ standard.guests event s.machine)).symm
    cases event <;> rfl
  have happened : Machine.Rested { waiting with
      heap := s.machine.heap.setStatic Builtin.currentEventField (.str event.name) } := rested
  have inside : ¬ e.OutOfSteps ⟨⟨waiting.setFirstStep t true, t, depth⟩, 0, []⟩ := by
    rintro ⟨positive, none⟩
    exact absurd positive (Nat.not_lt.mpr none)
  rw [moveNative (p := ⟨⟨waiting.setFirstStep t true, t, depth⟩, 0, []⟩) (Machine.flaggedThread found true) running
    inside stack]
  refine (dispatchHeeds invoked called answer).trans ?_
  rw [← Machine.flagWith, Machine.flagTwice, happened.unflagged]
  rfl

section Event

variable {tree : EventTree} (scripted : e.registry.tree = some tree) (standard : e.Standard)
  (plain : e.properties = []) (rested : s.machine.Rested) (shows : e.Shows s t flag path p)
  {call : NativeCall} {below : List Activation} {method : Method} (calls : s.InCall e t thread call below method)
  (entered : call.phase = .entry) (symbol : method.symbol = Builtin.processNextEventSymbol)
include scripted standard rested shows calls entered symbol

theorem Shows.asks (inside : ¬ e.OutOfSteps p) (more : s.upcoming tree ≠ []) (same : memory.path = path) :
    e.move memory p =
      .stop { p.count with state := { p.state with toMachine := s.machine.setThread t (awaitChoice thread) } }
        (.ok (.choice (.ofEvents Builtin.eventGenerator (s.last.getD tree.root)))) := by
  have looks : e.callPeer memory t method call.args .entry p.state.toMachine =
      (p.state.toMachine, .ok (.choose (.ofEvents Builtin.eventGenerator (s.last.getD tree.root)))) := by
    rw [callKnown standard.peers .processNextEvent symbol]
    simp only [Builtin.processNextEvent]
    rw [Scene.nextUpcoming scripted (same ▸ shows.event), if_neg (by simpa using more)]
    rfl
  rw [shows.calledLooking rested calls (enteredInvoked entered) inside looks]
  simp only [heed, obey, Progress.act, Machine.modifyThread, calls.found]

include plain

theorem Shows.happens {i : Nat} {n : EventNode} {event : Event} (chosen : (s.upcoming tree)[i]? = some n)
    (happens : n.event? = some event) : e.StepsOut ∨ ∃ path' p' q', e.Passes path' p' ∧
      path'.lastEvent? = some (some n) ∧ q'.state.current = t ∧
      q'.state.toMachine = { s.machine.setThread t (awaitChoice thread) with
        heap := s.machine.heap.setStatic Builtin.currentEventField (.str event.name) } ∧
      ∀ memory, memory.path = path' →
        e.move memory p' = e.heed t method q' (s.occur e tree t method call.args n event).2 := by
  by_cases out : e.OutOfSteps p
  · exact .inl (shows.passes.stepsOut (shows.runner calls.found) calls.running plain out)
  · obtain ⟨bound, here⟩ := List.getElem?_eq_some_iff.mp chosen
    have more : s.upcoming tree ≠ [] := List.ne_nil_of_length_pos (by omega)
    let g : Generator := ⟨Builtin.eventGenerator, .events (s.last.getD tree.root), some i⟩
    let waiting := s.machine.setThread t (awaitChoice thread)
    have still : waiting.Rested := rested.set (Machine.awaitRested (rested.flag calls.found))
    have picks : g.chosen? = some (.event n) := by
      show ((s.upcoming tree)[i]?).map Choice.event = _
      rw [chosen]
      rfl
    have node : g.chosenNode? = some n := by simp [Generator.chosenNode?, picks]
    have select : (Generator.ofEvents Builtin.eventGenerator (s.last.getD tree.root)).select? i = some g :=
      if_pos bound
    have waits : waiting.thread? t = some (awaitChoice thread) :=
      (Machine.threadSet (Machine.threadInside calls.found) _ t).trans (if_pos rfl)
    let after : State := { p.state with toMachine := waiting }
    have goesOn : applied (path.push g after) after = .ok ⟨waiting.setFirstStep t true, t, path.depth + 1⟩ := by
      rw [appliedEvent picks still (by rw [shows.current]; exact waits), shows.current]
    have passes := shows.passes.chosen plain
      (fun memory same => shows.asks scripted standard rested calls entered symbol out more same)
      select goesOn
    let happened : Machine :=
      { waiting with heap := s.machine.heap.setStatic Builtin.currentEventField (.str event.name) }
    refine .inr ⟨_, _, ⟨⟨happened, t, path.depth + 1⟩, 1, []⟩, passes, ?_, rfl, rfl, fun memory same => ?_⟩
    rotate_left
    · have stack' : (awaitChoice thread).stack = .native { call with phase := .awaitingChoice } :: below := by
        simp only [awaitChoice, calls.stack]
      have running' : (awaitChoice thread).status = .runnable := by
        simpa only [awaitChoice, calls.stack] using calls.running
      have last : memory.path.last?.map (·.generator) = some g := by
        rw [same]
        rfl
      have moved := moveResolved (s := s) tree (path.depth + 1) standard still waits running' stack' rfl
        calls.called symbol rfl last rfl rfl node happens
      exact moved
    · unfold Path.lastEvent?
      rw [lastOfPush, if_pos (show g.kind = .event from rfl)]
      exact congrArg some node

theorem Shows.occurred {i : Nat} {n : EventNode} {event : Event} {k : Machine}
    (chosen : (s.upcoming tree)[i]? = some n) (happens : n.event? = some event)
    (answered : Scene.answer? e.program t method (s.occur e tree t method call.args n event).1.machine
      (s.occur e tree t method call.args n event).2 = some k) :
    e.StepsOut ∨ ∃ path' q, e.Shows
      { (s.occur e tree t method call.args n event).1 with machine := k, thread := t } t false path' q := by
  rcases shows.happens scripted standard plain rested calls entered symbol chosen happens with
    out | ⟨path', p', q', passes, last, current, machine, moves⟩
  · exact .inl out
  · rw [Scene.occurMachine standard.guests] at answered
    have after : Machine.Rested { s.machine with
        heap := s.machine.heap.setStatic Builtin.currentEventField (.str event.name) } := rested
    have goes : Scene.answer? e.program t method q'.state.toMachine
        (s.occur e tree t method call.args n event).2 = some k := by
      rw [machine, ← answered]
      exact Scene.answerAwaiting (m := { s.machine with
        heap := s.machine.heap.setStatic Builtin.currentEventField (.str event.name) }) calls.found calls.stack method _
    obtain ⟨q, state, heeds⟩ := heedAnswers goes
    refine .inr ⟨path', q, passes.onward fun memory same => (moves memory same).trans heeds, ?_, ?_, last⟩
    · rw [state]
      exact ((Scene.answerRested after answered).unflagged t).symm
    · rw [state]
      exact current

end Event

theorem Passes.within (blind : e.Blind) (passes : e.Passes path p) : p.state.Within e.Unseen := by
  obtain ⟨fuel, s, memory, n, starts, _, moves⟩ := passes
  exact movesWithin blind.standard blind.calls moves (blind.startsWithin starts)

section Run

variable {tree : EventTree} (scripted : e.registry.tree = some tree) (blind : e.Blind) (loaded : e.Loaded)
  (plain : e.properties = [])
include scripted blind loaded plain

theorem Shows.steps {s' : Scene} {i : Nat} (rested : s.machine.Rested) (shows : e.Shows s s.thread false path p)
    (turn : t = s.thread ∨ s.machine.preemptible e.program s.thread = true)
    (went : s.step? e tree t i = some s') (clean : s'.uncaught = []) :
    e.StepsOut ∨ ∃ path' q, e.Shows s' s'.thread false path' q := by
  cases Scene.stepped went with
  | died found works uncaught => cases clean
  | ran found running works goes =>
    have runs : s.machine.isRunnable t = true := by simp [Machine.isRunnable, found, running]
    rcases shows.arrives loaded plain rested turn runs with out | ⟨path', p', flag, shown, unasked⟩
    · exact .inl out
    · exact (shown.ran plain rested unasked found running works goes).imp_right (Exists.intro path')
  | @answered thread call below method s'' reply k found running stack called made answered =>
    have runs : s.machine.isRunnable t = true := by simp [Machine.isRunnable, found, running]
    have calls : s.InCall e t thread call below method := ⟨found, running, stack, called⟩
    rcases shows.arrives loaded plain rested turn runs with out | ⟨path', p', flag, shown, _⟩
    · exact .inl out
    · cases Scene.produced made with
      | occurred entered symbol chosen happens =>
        exact shown.occurred scripted blind.standard plain rested calls entered symbol chosen happens answered
      | exhausted entered symbol none =>
        have known : Builtin.Known method.symbol Builtin.processNextEvent := symbol ▸ .processNextEvent
        refine shown.answered plain rested calls (enteredInvoked entered) blind.standard known (fun memory same => ?_)
          answered
        simp only [Builtin.processNextEvent]
        rw [Scene.nextUpcoming scripted (same ▸ shown.event), none]
        rfl
      | @returned tag value back symbol =>
        have known : Builtin.Known method.symbol Builtin.processNextEvent := symbol ▸ .processNextEvent
        have invoked : e.invocation call flag = .ok (.directCallReturned tag value) := by
          simp only [invocation, back]
        exact shown.answered plain rested calls invoked blind.standard known (fun _ _ => rfl)
          answered
      | named entered symbol =>
        have known : Builtin.Known method.symbol Builtin.getEventName := symbol ▸ .getEventName
        refine shown.answered plain rested calls (enteredInvoked entered) blind.standard known (fun memory same => ?_)
          answered
        simp only [Builtin.getEventName, Builtin.observing]
        rewrite [same, shown.lastNode]
        rfl
      | followed entered symbol =>
        have known : Builtin.Known method.symbol Builtin.checkPath := symbol ▸ .checkPath
        refine shown.answered plain rested calls (enteredInvoked entered) blind.standard known (fun memory same => ?_)
          answered
        simp only [Builtin.checkPath, Builtin.observing]
        rw [same, shown.lastNode]
      | asked symbol =>
        have top : Activation.native call ∈ thread.stack := stack ▸ List.mem_cons_self
        have unseen := Machine.withinThread (shown.passes.within blind) (shown.runner found) _ top
        refine absurd ?_ unseen
        simp [Program.symbol, called, symbol]

theorem interleavingShown (run : Interleaves e tree (Machine.preemptible e.program) s) (clean : s.uncaught = []) :
    e.StepsOut ∨ ∃ path p, e.Shows s s.thread false path p := by
  induction run with
  | start =>
    have begins : Interleaves e tree (Machine.preemptible e.program) (Scene.initial e.program) := .start
    have rested := begins.rested blind.standard.guests
    refine .inr ⟨Path.empty, ⟨State.initial e.program, 0, []⟩, ?_, (rested.unflagged _).symm, rfl, rfl⟩
    exact ⟨0, _, Memory.empty, 0, .initial, rfl, .none _⟩
  | step before turn went ih =>
    rcases ih (Scene.stepClean went clean) with out | ⟨path, p, shows⟩
    · exact .inl out
    · exact shows.steps scripted blind loaded plain (before.rested blind.standard.guests) turn went clean

theorem breakReached {name : String} {predicate : Predicate}
    (run : Interleaves e tree (Machine.preemptible e.program) s) (clean : s.uncaught = [])
    (turn : t = s.thread ∨ s.machine.preemptible e.program s.thread = true)
    (breaks : s.Breaks e tree t name predicate) :
    e.StepsOut ∨ ∃ fuel path s', e.Reaches fuel path s' (.finished (.violated (.checkFailed name predicate.text))) := by
  obtain ⟨⟨i, about⟩, fails⟩ := breaks
  obtain ⟨thread, call, below, method, n, calls, entered, symbol, chosen, happens⟩ := Scene.eventAbout about
  have runs : s.machine.isRunnable t = true := by simp [Machine.isRunnable, calls.found, calls.running]
  have rested := run.rested blind.standard.guests
  rcases interleavingShown scripted blind loaded plain run clean with out | ⟨path, p, shows⟩
  · exact .inl out
  · rcases shows.arrives loaded plain rested turn runs with out | ⟨path', p', flag, shown, _⟩
    · exact .inl out
    · rcases shown.happens scripted blind.standard plain rested calls entered symbol chosen happens with
        out | ⟨path'', p'', q, passes, _, _, _, moves⟩
      · exact .inl out
      · have reply : (s.occur e tree t method call.args n (.check name predicate)).2 =
            .ok (.violation (.checkFailed name predicate.text)) := by
          simp [Scene.occur, Builtin.process, Event.name, fails]
        have stops : ∀ memory, memory.path = path'' →
            e.move memory p'' = .stop q (.ok (.finished (.violated (.checkFailed name predicate.text)))) := by
          intro memory same
          rw [moves memory same, reply]
          rfl
        obtain ⟨fuel, reached⟩ := passes.ends plain stops
        exact .inr ⟨fuel, path'', q.state, reached⟩

end Run

theorem Exhausted.endsSeen {fuel more : Nat} {visits : List Visit} {m : Memory} {report : Report} {s : State}
    {finish : Finish} (blind : e.Blind) (plain : e.properties = []) (exhausted : e.Exhausted fuel visits m report)
    (complete : report.stats.truncated = 0) (reached : e.Reaches more path s (.finished finish)) :
    ∃ v ∈ visits, v.ending = .finished finish := by
  cases setting : e.config.stateMatching with
  | true =>
    have same : e.matching true = e := by
      unfold matching
      rw [← setting]
    rw [← same] at exhausted
    obtain ⟨w, member, _, ending, _⟩ := blind.visitCovered plain exhausted complete reached
    exact ⟨w, member, ending⟩
  | false =>
    obtain ⟨start, starts, ends⟩ := reached
    obtain ⟨v, member, same⟩ := exhausted.visitsShallow blind setting starts fun w member g ending _ deep =>
      exhausted.uncut complete member (by simp [cut, ending, deep])
    exact ⟨v, member, (blind.reachesUnique (exhausted.explored.reached v member) ⟨start, starts, ends⟩ same).2.2⟩

theorem Exhausted.stepsLeft {fuel : Nat} {visits : List Visit} {m : Memory} {report : Report} (blind : e.Blind)
    (plain : e.properties = []) (exhausted : e.Exhausted fuel visits m report)
    (complete : report.stats.truncated = 0) : ¬ e.StepsOut := by
  rintro ⟨more, path, s, reached⟩
  obtain ⟨v, member, ending⟩ := exhausted.endsSeen blind plain complete reached
  exact exhausted.uncut complete member (by simp [cut, ending])

theorem preemptedCheckReported {model : Model} {config : Config} {tree : EventTree} {fuel : Nat} {m : Memory}
    {report : Report} {name : String} {predicate : Predicate} (accepted : ofModel model config = .ok e)
    (scripted : e.registry.tree = some tree)
    (unasked : Builtin.isCompletelyCoveredSymbol ∉ Load.callees model.methods)
    (all : config.stopOnFirstViolation = false) (checked : e.check fuel = some (m, .ok report))
    (unbounded : report.verdict ≠ .stateLimit) (complete : report.stats.truncated = 0)
    (run : Interleaves e tree (Machine.preemptible e.program) s) (clean : s.uncaught = [])
    (turn : t = s.thread ∨ s.machine.preemptible e.program s.thread = true)
    (breaks : s.Breaks e tree t name predicate) :
    ∃ v ∈ report.violations, v.failure = .checkFailed name predicate.text := by
  have source := modelSource accepted
  have blind : e.Blind := modelBlind accepted unasked e.properties
  have loaded : e.Loaded := modelLoaded accepted e.properties
  rw [← source.config] at all
  rcases blind.checkEnds checked with ⟨visits, exhausted⟩ | short
  · rcases breakReached scripted blind loaded source.properties run clean turn breaks with out | ⟨more, path, s', reached⟩
    · exact absurd out (exhausted.stepsLeft blind source.properties complete)
    · obtain ⟨v, member, ending⟩ := exhausted.endsSeen blind source.properties complete reached
      have listed := (exhausted.violationsListed _ _).mpr ⟨v, member, ending, rfl⟩
      obtain ⟨violation, found, same⟩ := List.mem_map.mp listed
      exact ⟨violation, found, congrArg Prod.fst same⟩
  · cases short with
    | violated first verdict => exact absurd (all.symm.trans first) Bool.false_ne_true
    | bounded exceeds verdict =>
      rw [source.unmetered.exceeded] at exceeds
      split at exceeds
      · cases Option.some.inj exceeds
        exact absurd verdict unbounded
      · cases exceeds

def breakAfter? (e : Explorer) (rule : Machine → ThreadId → Bool) (schedule : List (ThreadId × Nat)) (t : ThreadId)
    (name : String) (predicate : Predicate) : Option Scene :=
  e.registry.tree.bind fun tree => ((Scene.initial e.program).follow? e tree rule schedule).filter fun s =>
    (t == s.thread || rule s.machine s.thread) && s.event? e tree t 0 == some (.check name predicate) &&
      !predicate.holds (s.machine.heap.setStatic Builtin.currentEventField (.str name)).static?

theorem breakAfterSome {rule : Machine → ThreadId → Bool} {schedule : List (ThreadId × Nat)} {name : String}
    {predicate : Predicate} (h : e.breakAfter? rule schedule t name predicate = some s) : ∃ tree,
    e.registry.tree = some tree ∧ Interleaves e tree rule s ∧ (t = s.thread ∨ rule s.machine s.thread = true) ∧
      s.Breaks e tree t name predicate := by
  obtain ⟨tree, scripted, h⟩ := Option.bind_eq_some_iff.mp h
  obtain ⟨followed, h⟩ := Option.filter_eq_some_iff.mp h
  simp only [Bool.and_eq_true, Bool.or_eq_true, beq_iff_eq, Bool.not_eq_true'] at h
  obtain ⟨⟨turn, about⟩, fails⟩ := h
  exact ⟨tree, scripted, followInterleaves .start followed, turn, ⟨0, about⟩, fails⟩

def unset : Predicate := .compare "Late.x" .eq 0

def checking (main other : List Model.Code) : Model :=
  { ((Model.start "checking" "Late.main()V").withMethod "Late.main()V" 0 main).withThread "Late.other()V" other with
    events := some (.event (.check "unset" unset)) }

def checksAfterRead : Model :=
  checking [.getStatic "Late.y", .pop, .invokeStatic Builtin.processNextEventSymbol, .pop, .ret none]
    [.pushLong 1, .putStatic "Late.x", .ret none]

theorem checkAfterReadReported : ∃ e tree m report s, ofModel checksAfterRead exhaustive = .ok e ∧
    e.registry.tree = some tree ∧ e.check 20 = some (m, .ok report) ∧ report.verdict ≠ .stateLimit ∧
    report.stats.truncated = 0 ∧ Interleaves e tree (Machine.preemptible e.program) s ∧ s.uncaught = [] ∧
    s.Breaks e tree ⟨0⟩ "unset" unset ∧ ∃ v ∈ report.violations, v.failure = .checkFailed "unset" unset.text := by
  obtain ⟨e, m, report, accepted, checked, passed⟩ := checkRun checksAfterRead exhaustive (fun e => e) 20
    (fun e _ r => r.verdict != .stateLimit && r.stats.truncated == 0 && (e.breakAfter? (Machine.preemptible e.program)
      [(⟨1⟩, 0), (⟨1⟩, 0), (⟨1⟩, 0), (⟨0⟩, 0), (⟨0⟩, 0), (⟨0⟩, 0)] ⟨0⟩ "unset" unset).any (·.uncaught.isEmpty))
    (by decide +kernel)
  simp only [Bool.and_eq_true, bne_iff_ne, beq_iff_eq, Option.any_eq_true, List.isEmpty_iff] at passed
  obtain ⟨⟨unbounded, complete⟩, s, into, clean⟩ := passed
  obtain ⟨tree, scripted, run, turn, breaks⟩ := breakAfterSome into
  exact ⟨e, tree, m, report, s, accepted, scripted, checked, unbounded, complete, run, clean, breaks,
    preemptedCheckReported accepted scripted (by decide) rfl checked unbounded complete run clean turn breaks⟩

/- A check fails in an interleaving, and a search that was not cut short does not report it. -/
def Misses (model : Model) (rule : Program → Machine → ThreadId → Bool) : Prop :=
  ∃ e tree m report s t name predicate, ofModel model exhaustive = .ok e ∧ e.registry.tree = some tree ∧
    e.check 20 = some (m, .ok report) ∧ report.verdict ≠ .stateLimit ∧ report.stats.truncated = 0 ∧
    Interleaves e tree (rule e.program) s ∧ (t = s.thread ∨ rule e.program s.machine s.thread = true) ∧
    s.Breaks e tree t name predicate ∧
    ∀ v ∈ report.violations, v.failure ≠ .checkFailed name predicate.text

def checksAtOnce : Model :=
  checking [.invokeStatic Builtin.processNextEventSymbol, .pop, .ret none]
    [.pushLong 1, .putStatic "Late.x", .ret none]

def checksBesideThrow : Model :=
  checking [.getStatic "Late.y", .pop, .invokeStatic Builtin.processNextEventSymbol, .pop, .ret none]
    [.pushLong 1, .putStatic "Late.x", .pushNull, .throw]

/- The check is skipped once every path of the script has been followed, and the first to follow it is
one on which it holds. -/
def checksUncovered : Model :=
  checking [.getStatic "Late.y", .pop, .invokeStatic Builtin.isCompletelyCoveredSymbol, .branch .ne 6,
    .invokeStatic Builtin.processNextEventSymbol, .pop, .ret none]
    [.pushLong 1, .putStatic "Late.x", .ret none]

def overlooks (rule : Program → Machine → ThreadId → Bool) (schedule : List (ThreadId × Nat)) (e : Explorer)
    (_ : Memory) (r : Report) : Bool :=
  r.verdict != .stateLimit && r.stats.truncated == 0 &&
    r.violations.all (fun v => v.failure != .checkFailed "unset" unset.text) &&
    (e.breakAfter? (rule e.program) schedule ⟨0⟩ "unset" unset).isSome

theorem overlookedMisses (model : Model) (rule : Program → Machine → ThreadId → Bool)
    (schedule : List (ThreadId × Nat)) (h : ((ofModel model exhaustive).toOption.bind fun e =>
      (e.check 20).bind fun run => run.2.toOption.map (overlooks rule schedule e run.1)) = some true) :
    Misses model rule := by
  obtain ⟨e, m, report, accepted, checked, passed⟩ := checkRun model exhaustive (fun e => e) 20 _ h
  unfold overlooks at passed
  simp only [Bool.and_eq_true, bne_iff_ne, beq_iff_eq, List.all_eq_true, Option.isSome_iff_exists] at passed
  obtain ⟨⟨⟨unbounded, complete⟩, unreported⟩, s, into⟩ := passed
  obtain ⟨tree, scripted, run, turn, breaks⟩ := breakAfterSome into
  exact ⟨e, tree, m, report, s, ⟨0⟩, "unset", unset, accepted, scripted, checked, unbounded, complete, run, turn,
    breaks, unreported⟩

/- The first of these checks is missed if threads may be preempted anywhere. The second is missed even if they
are preempted in interpreted code only and not before a call, and also if the other thread has died when the check
fails. The third is missed wherever the search looks. -/
theorem checksMissed : Misses checksAtOnce (fun _ _ _ => true) ∧
    Misses checksBesideThrow (fun p m c => (m.nextOp? p c).any fun
      | .invokeStatic _ => false
      | _ => true) ∧
    Misses checksBesideThrow Machine.preemptible ∧
    Misses checksUncovered Machine.preemptible :=
  ⟨overlookedMisses _ _ [(⟨1⟩, 0), (⟨1⟩, 0), (⟨0⟩, 0)] (by decide +kernel),
    overlookedMisses _ _ [(⟨1⟩, 0), (⟨1⟩, 0), (⟨0⟩, 0), (⟨0⟩, 0), (⟨0⟩, 0)] (by decide +kernel),
    overlookedMisses _ _ (List.replicate 4 (⟨1⟩, 0) ++ List.replicate 3 (⟨0⟩, 0)) (by decide +kernel),
    overlookedMisses _ _ ([(⟨1⟩, 0), (⟨1⟩, 0), (⟨1⟩, 0)] ++ List.replicate 6 (⟨0⟩, 0)) (by decide +kernel)⟩

end Explorer

end BytecodeChecker
