import BytecodeChecker.Proofs.Descent
import BytecodeChecker.Proofs.Preemption

/-! The program that lets events happen until none is left. A transition of it takes the event that was
chosen, and ends at the decision about what follows; where nothing follows, the program ends. -/
namespace BytecodeChecker.Explorer

def eventLoop (script : Script) : Model :=
  { (Model.start "events" "Main.main()V").withMethod "Main.main()V" 0
      [.invokeStatic Builtin.processNextEventSymbol, .branch .eq 3, .goto 0, .ret none] with events := some script }

def produceMethod : Method :=
  ⟨Builtin.processNextEventSymbol, ⟨"gov.nasa.jpf.EventProducer", "processNextEvent", [], some (.primitive .boolean)⟩,
    true, 0, #[], []⟩

def loopProgram : Program where
  name := "events"
  methods := #[⟨"Main.main()V", ⟨"Main", "main", [], none⟩, false, 0,
    #[.invokeStatic ⟨1⟩, .branch .eq 3, .goto 0, .ret none], []⟩, produceMethod]
  entry := ⟨0⟩
  threads := []

theorem loopLoads (script : Script) : Program.load (eventLoop script) = .ok loopProgram := by
  have same : Program.load (eventLoop script) = Program.load (eventLoop (.sequence [])) := rfl
  have loaded : (Program.load (eventLoop (.sequence []))).toOption = some loopProgram := by decide +kernel
  rw [same]
  exact okSome loaded

def looping (tree : EventTree) : Explorer :=
  ⟨loopProgram, { Builtin.registry with tree := some tree }, .default, [], fun _ => .idle⟩

theorem loopAccepted {script : Script} {tree : EventTree} (built : EventTree.ofScript script = .ok tree) :
    ofModel (eventLoop script) .default = .ok (looping tree) := by
  refine Load.bindOk.mpr ⟨loopProgram, ?_, Load.bindOk.mpr ⟨{ Builtin.registry with tree := some tree }, ?_, rfl⟩⟩
  · rw [loopLoads]
    rfl
  · unfold Registry.withModel
    refine Load.bindOk.mpr ⟨some tree, ?_, rfl⟩
    show ((EventTree.ofScript script).mapError CheckError.script).map some = _
    rw [built]
    rfl

def loopAt (pc : Nat) (operands : List Value) : Activation :=
  .bytecode ⟨⟨0⟩, pc, Locals.ofArgs 0 [], operands⟩ none

def producing (phase : Phase) : Activation := .native ⟨⟨1⟩, [], phase⟩

def loopState (heap : Heap) (depth : Nat) (stack : List Activation) (firstStep : Bool) : State :=
  { heap, threads := #[⟨"main", .runnable, stack, firstStep⟩], current := ⟨0⟩, depth }

theorem loopStart : State.initial loopProgram = loopState Heap.empty 0 [loopAt 0 []] false := rfl

variable {tree : EventTree} {memory : Memory} {heap : Heap} {depth steps : Nat} {flag : Bool}

theorem loopCleared {stack : List Activation} : (loopState heap depth stack false).clearFirstSteps =
    (loopState heap depth stack false).toMachine := by
  simp [loopState, Machine.clearFirstSteps]

def arrival (node : EventNode) : Ending :=
  if node.isLeaf then .finished .completed else .choice (.ofEvents Builtin.eventGenerator node)

section Move

section Silent

variable {e : Explorer} {p : Progress} {thread : GuestThread} {m : Machine}
  (found : p.state.thread? p.state.current = some thread) (running : thread.status = .runnable)
  (inside : ¬ e.OutOfSteps p)
include found running inside

theorem moveExecutes (silent : e.config.noteInstructions = false)
    (ran : Machine.step e.program p.state.current p.state.toMachine = (m, .ok .executed)) :
    e.move memory p = .goOn { p.count with state := { p.state with toMachine := m } } := by
  obtain ⟨⟨machine, current, depth⟩, steps, notices⟩ := p
  unfold OutOfSteps at inside
  unfold move
  simp only [found, running, ne_eq, not_true_eq_false, if_false, inside, afterOutcome, Progress.act] at ran ⊢
  rw [ran]
  simp only [noteInstruction, silent, Bool.false_eq_true, if_false]
  rfl

theorem moveTerminates (ran : Machine.step e.program p.state.current p.state.toMachine = (m, .ok .terminated)) :
    e.move memory p = .goOn { p with state := { p.state with toMachine := m } } := by
  obtain ⟨⟨machine, current, depth⟩, steps, notices⟩ := p
  unfold OutOfSteps at inside
  unfold move
  simp only [found, running, ne_eq, not_true_eq_false, if_false, inside, afterOutcome, Progress.act] at ran ⊢
  rw [ran]

end Silent

theorem loopInside {s : State} (few : steps < 1000000) : ¬ (looping tree).OutOfSteps ⟨s, steps, []⟩ :=
  fun out => Nat.not_lt.mpr out.2 few

theorem loopExecutes (few : steps < 1000000) {stack stack' : List Activation} {flag' : Bool}
    (ran : Machine.step loopProgram ⟨0⟩ (loopState heap depth stack flag).toMachine =
      ((loopState heap depth stack' flag').toMachine, .ok .executed)) :
    (looping tree).move memory ⟨loopState heap depth stack flag, steps, []⟩ =
      .goOn ⟨loopState heap depth stack' flag', steps + 1, []⟩ :=
  moveExecutes (p := ⟨loopState heap depth stack flag, steps, []⟩) rfl rfl (loopInside few) rfl ran

theorem loopCalls (few : steps < 1000000) {phase : Phase} {i : Invocation} {m : Machine}
    {reply : Except PeerError Reply}
    (invoked : (looping tree).invocation ⟨⟨1⟩, [], phase⟩ flag = .ok i)
    (answer : Builtin.processNextEvent ⟨loopProgram, some tree, NameMap.empty, memory.coverage, memory.path, ⟨0⟩,
      produceMethod, []⟩ i (loopState heap depth [producing phase, loopAt 0 []] flag).toMachine = (m, reply)) :
    (looping tree).move memory ⟨loopState heap depth [producing phase, loopAt 0 []] flag, steps, []⟩ =
      (looping tree).heed ⟨0⟩ produceMethod ⟨⟨m.setFirstStep ⟨0⟩ false, ⟨0⟩, depth⟩, steps + 1, []⟩ reply := by
  rw [moveNative (p := ⟨loopState heap depth [producing phase, loopAt 0 []] flag, steps, []⟩) rfl rfl
    (loopInside few) rfl]
  have peers : (looping tree).registry.peers = Builtin.registry.peers := rfl
  have own : produceMethod.symbol = Builtin.processNextEventSymbol := rfl
  exact dispatchHeeds invoked rfl ((callKnown peers .processNextEvent own memory ⟨0⟩ [] i _).trans answer)

theorem loopInvokes (few : steps < 1000000) :
    (looping tree).move memory ⟨loopState heap depth [loopAt 0 []] flag, steps, []⟩ =
      .goOn ⟨loopState heap depth [producing .entry, loopAt 0 []] false, steps + 1, []⟩ :=
  loopExecutes few rfl

theorem loopOnward (few : steps + 3 < 1000000) {n : Nat} {p : Progress} (rest : (looping tree).Moves memory n
    ⟨loopState heap depth [producing .entry, loopAt 0 []] false, steps + 3, []⟩ p) :
    (looping tree).Moves memory (n + 3) ⟨loopState heap depth [loopAt 1 [.int 1]] flag, steps, []⟩ p :=
  .next (loopExecutes (by omega) rfl) (.next (loopExecutes (by omega) rfl)
    (.next (loopInvokes (by omega)) rest))

def loopOver (heap : Heap) (depth : Nat) : State :=
  { heap, threads := #[⟨"main", .terminated, [], false⟩], current := ⟨0⟩, depth }

theorem loopReturns (few : steps < 1000000) :
    (looping tree).move memory ⟨loopState heap depth [loopAt 3 []] flag, steps, []⟩ =
      .goOn ⟨loopOver heap depth, steps, []⟩ :=
  moveTerminates (p := ⟨loopState heap depth [loopAt 3 []] flag, steps, []⟩) rfl rfl (loopInside few) rfl

theorem loopCompletes : (looping tree).move memory ⟨loopOver heap depth, steps, []⟩ =
    .stop ⟨loopOver heap depth, steps, []⟩ (.ok (.finished .completed)) := rfl

theorem loopEntered (descends : tree.Descends memory.path.eventGenerators) (m : Machine) :
    Builtin.processNextEvent ⟨loopProgram, some tree, NameMap.empty, memory.coverage, memory.path, ⟨0⟩,
      produceMethod, []⟩ .entry m =
      (m, .ok (if (tree.reached memory.path.eventGenerators).isLeaf then Builtin.returnBool false
        else .choose (.ofEvents Builtin.eventGenerator (tree.reached memory.path.eventGenerators)))) := by
  unfold Builtin.processNextEvent
  dsimp only
  rw [Builtin.nextReached descends rfl]
  cases (tree.reached memory.path.eventGenerators).isLeaf <;> rfl

theorem loopArrives (descends : tree.Descends memory.path.eventGenerators) (heap : Heap) (depth steps : Nat)
    (few : steps + 3 < 1000000) :
    ∃ n p q, n ≤ 3 ∧ (looping tree).Moves memory n
      ⟨loopState heap depth [producing .entry, loopAt 0 []] false, steps, []⟩ p ∧
      (looping tree).move memory p = .stop q (.ok (arrival (tree.reached memory.path.eventGenerators))) ∧
      q.notices = [] ∧ ((tree.reached memory.path.eventGenerators).isLeaf = false →
        q.state = loopState heap depth [producing .awaitingChoice, loopAt 0 []] false) := by
  have called := loopCalls (show steps < 1000000 by omega) rfl
    (loopEntered descends (loopState heap depth [producing .entry, loopAt 0 []] false).toMachine)
  unfold arrival
  cases leaf : (tree.reached memory.path.eventGenerators).isLeaf with
  | true =>
    rw [leaf] at called
    refine ⟨3, _, _, Nat.le_refl _, .next called (.next (loopExecutes (by omega) rfl)
      (.next (loopReturns (by omega)) (.none _))), loopCompletes, rfl, fun inner => by cases inner⟩
  | false =>
    rw [leaf] at called
    exact ⟨0, _, _, Nat.zero_le _, .none _, called, rfl, fun _ => rfl⟩

theorem loopHappens {path : Path} {g : Generator} {s : State} {node : EventNode} {event : Event}
    (last : memory.path = path.push g s) (kind : g.kind = .event) (chosen : g.chosenNode? = some node)
    (happens : node.event? = some event) (free : event.isCheck = false) (few : steps < 1000000) :
    (looping tree).move memory ⟨loopState heap depth [producing .awaitingChoice, loopAt 0 []] true, steps, []⟩ =
      .goOn ⟨loopState (heap.setStatic Builtin.currentEventField (.str event.name)) depth [loopAt 1 [.int 1]] false,
        steps + 1, []⟩ := by
  have cursor : g.cursor.isSome = true := by
    cases found : g.cursor with
    | none => simp [Generator.chosenNode?, Generator.chosen?, found] at chosen
    | some i => rfl
  have resolved : Builtin.processNextEvent ⟨loopProgram, some tree, NameMap.empty, memory.coverage, memory.path, ⟨0⟩,
      produceMethod, []⟩ .choiceResolved
      (loopState heap depth [producing .awaitingChoice, loopAt 0 []] true).toMachine =
      ((loopState (heap.setStatic Builtin.currentEventField (.str event.name)) depth
        [producing .awaitingChoice, loopAt 0 []] true).toMachine, .ok (Builtin.returnBool true)) := by
    unfold Builtin.processNextEvent PeerCall.resolved
    simp only [last, Path.lastPush, Option.map_some, kind, cursor, and_self, if_true, chosen, happens]
    cases event with
    | normal name args => rfl
    | check name predicate => cases free
    | none => rfl
  exact loopCalls few rfl resolved

end Move

def Waiting (s : State) : Prop :=
  ∃ heap depth, s = loopState heap depth [producing .awaitingChoice, loopAt 0 []] false

inductive Poised (path : Path) : State → Prop where
  | start (empty : path = Path.empty) : Poised path (loopState Heap.empty 0 [loopAt 0 []] false)
  | chosen {before : Path} {g : Generator} {s : State} {node : EventNode} {event : Event} (heap : Heap) (depth : Nat)
      (last : path = before.push g s) (kind : g.kind = .event) (chosen : g.chosenNode? = some node)
      (happens : node.event? = some event) (free : event.isCheck = false) :
      Poised path (loopState heap depth [producing .awaitingChoice, loopAt 0 []] true)

theorem loopTransition {fuel : Nat} (enough : 8 ≤ fuel) {s : State} (poised : Poised memory.path s)
    (descends : tree.Descends memory.path.eventGenerators) :
    ∃ q, (looping tree).transition memory fuel ⟨s, 0, []⟩ =
        some (q, .ok (arrival (tree.reached memory.path.eventGenerators))) ∧ q.notices = [] ∧
      ((tree.reached memory.path.eventGenerators).isLeaf = false → Waiting q.state) := by
  cases poised with
  | start =>
    obtain ⟨n, p, q, few, moves, stopped, quiet, waits⟩ := loopArrives descends Heap.empty 0 1 (by decide)
    refine ⟨q, movesTransition (.next (loopInvokes (by decide)) moves) stopped (by omega), quiet, fun inner => ?_⟩
    exact ⟨_, _, waits inner⟩
  | @chosen _ _ _ _ event heap depth last kind chosen happens free =>
    obtain ⟨n, p, q, few, moves, stopped, quiet, waits⟩ := loopArrives descends
      (heap.setStatic Builtin.currentEventField (.str event.name)) depth 4 (by decide)
    have all := Moves.next (loopHappens last kind chosen happens free (Nat.zero_lt_succ _))
      (loopOnward (by decide) moves)
    exact ⟨q, movesTransition all stopped (by omega), quiet, fun inner => ⟨_, _, waits inner⟩⟩

end BytecodeChecker.Explorer
