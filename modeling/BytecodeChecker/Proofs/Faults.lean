import BytecodeChecker.Model.Builder
import BytecodeChecker.Proofs.Course
import BytecodeChecker.Proofs.Decisions
import BytecodeChecker.Proofs.WellFormed

/-! A run fails only because of the operands of an instruction. What loading and binding have checked
makes the initial state well-formed; instructions, peers and choices keep the states so; and in a
well-formed state nothing else can fail. -/
namespace BytecodeChecker

def Reply.Fits (p : Program) : Reply → Prop
  | .ret value => ∀ v ∈ value, v.ref? = none
  | .directCall _ callee args => p.Interprets callee ∧ ∀ v ∈ args, v.ref? = none
  | _ => True

theorem Reply.returnFits (p : Program) {v : Value} (plain : v.ref? = none) :
    (Reply.ret (some v)).Fits p := by
  rintro w ⟨⟩
  exact plain

def Path.Plain (path : Path) : Prop :=
  ∀ top v, path.last? = some top → top.generator.chosenValue? = some v → v.ref? = none

namespace Builtin

def Bound (p : Program) (actions : NameMap Action) : Prop :=
  ∀ event callee, actions.get? event = some (.guest callee) → p.Interprets callee

theorem bindBound {p : Program} {r r' : Registry} {bindings : List (String × String)}
    {result : Except PeerError Unit} (bound : Bound p r.actions)
    (h : r.bindActions p bindings = (r', result)) : Bound p r'.actions := by
  induction bindings generalizing r with
  | nil =>
    cases h
    exact bound
  | cons binding rest ih =>
    obtain ⟨event, symbol⟩ := binding
    simp only [Registry.bindActions] at h
    split at h
    · cases h
      exact bound
    · rename_i callee looked
      split at h
      · cases h
        exact bound
      · rename_i interpreted
        refine ih (fun name target found => ?_) h
        simp only [Registry.withAction, NameMap.getInsert] at found
        split at found
        · cases Option.some.inj found
          obtain ⟨i, listed, rfl⟩ := Option.map_eq_some_iff.mp looked
          obtain ⟨inside, _⟩ := Array.findIdx?_eq_some_iff_getElem.mp listed
          refine ⟨p.methods[i], Array.getElem?_eq_getElem inside, ?_⟩
          simpa [Program.method?, inside] using interpreted
        · exact bound name target found

theorem entrySame {symbol : String} {peer : Peer} (known : Known symbol peer)
    (other : symbol ≠ threadStartSymbol) (call : PeerCall) (m : Machine) :
    (peer call .entry m).1 = m := by
  cases known with
  | threadStart => exact absurd rfl other
  | _ => rfl

section Peers

variable {call : PeerCall} {symbol : String} {i : Invocation} {m after : Machine}

theorem resolvedPlain (plain : call.path.Plain) {g : Generator} (resolved : call.resolved .data = .ok g) :
    ∀ v ∈ g.chosenValue?, v.ref? = none := by
  intro v chosen
  unfold PeerCall.resolved at resolved
  split at resolved
  · rename_i g' top
    split at resolved
    · cases Except.ok.inj resolved
      obtain ⟨entry, here, rfl⟩ := Option.map_eq_some_iff.mp top
      exact plain entry v here chosen
    · cases resolved
  · cases resolved

theorem Happens.fits (bound : Bound call.program call.actions) {h : Heap} {e : Event} {reply : Reply}
    (happens : Happens call h e (.ok reply)) : reply.Fits call.program := by
  cases happens with
  | breaks fails => trivial
  | @calls name args callee found _ =>
    refine ⟨bound _ callee found, fun v member => ?_⟩
    obtain ⟨n, _, rfl⟩ := List.mem_map.mp member
    rfl
  | _ => exact Reply.returnFits _ rfl

theorem Responds.fits (bound : Bound call.program call.actions) (plain : call.path.Plain) {reply : Reply}
    (responds : Responds call m symbol i after (.ok reply)) : reply.Fits call.program := by
  cases responds with
  | returns values => exact values
  | resolves resolved => exact resolvedPlain plain resolved
  | happens resolved chosen named happens => exact happens.fits bound
  | _ => trivial

theorem threadEntryFound {id : MethodId} {method : Method} (entered : threadEntry call = .ok (id, method)) :
    call.program.method? id = some method ∧ method.native = false := by
  obtain ⟨symbol, _, entered⟩ := Load.bindOk.mp entered
  split at entered
  · cases entered
  · split at entered
    · cases entered
    · rename_i found
      split at entered
      · rename_i fit
        cases entered
        simp only [Method.isThreadEntry, Bool.and_eq_true, Bool.not_eq_true'] at fit
        exact ⟨found, fit.1⟩
      · cases entered

theorem Responds.keeps (checked : call.program.Checked) {result : Except PeerError Reply}
    (responds : Responds call m symbol i after result) (wf : m.WellFormed call.program) :
    after.WellFormed call.program := by
  cases responds with
  | starts entered =>
    obtain ⟨found, interpreted⟩ := threadEntryFound entered
    exact Machine.WellFormed.spawn checked wf _ found interpreted (List.forall_mem_nil _)
  | happens resolved chosen named happens => exact wf.static _ rfl
  | _ => exact wf

end Peers

end Builtin

structure Generator.Offers (s : State) (g : Generator) : Prop where
  threads : ∀ t i, g.choices.get? i = some (.thread t) → t ∈ s.runnable
  values : ∀ v i, g.choices.get? i = some (.value v) → v.ref? = none

theorem Choices.getInside {choices : Choices} {i : Nat} (inside : i < choices.total) :
    ∃ choice, choices.get? i = some choice := by
  cases choices with
  | threads ids => exact ⟨_, by rw [get?, List.getElem?_eq_getElem inside]; rfl⟩
  | events node => exact ⟨_, by rw [get?, List.getElem?_eq_getElem inside]; rfl⟩
  | values vs => exact ⟨_, by rw [get?, List.getElem?_eq_getElem inside]; rfl⟩
  | range lo hi => exact ⟨_, if_pos inside⟩

def State.Runs (p : Program) (s : State) : Prop := s.toMachine.Runs p s.current

structure State.WellFormed (p : Program) (s : State) : Prop where
  machine : s.toMachine.WellFormed p
  current : ∃ thread, s.thread? s.current = some thread

theorem State.Runs.wellFormed {p : Program} {s : State} (runs : s.Runs p) : s.WellFormed p := by
  obtain ⟨thread, found, _⟩ := runs.ready
  exact ⟨Machine.Runs.wellFormed runs, thread, found⟩

theorem State.initialRuns {p : Program} (checked : p.Checked) : (State.initial p).Runs p := by
  have started : ∀ {m : Machine} {id : MethodId} (name : Method → String), p.Interprets id →
      m.WellFormed p → (State.spawn p name m id).WellFormed p ∧
        ∃ thread, State.spawn p name m id = { m with threads := m.threads.push thread } ∧
          thread.Ready := by
    rintro m id name ⟨method, found, interpreted⟩ wf
    unfold State.spawn
    rw [found]
    exact ⟨wf.spawn checked _ found interpreted (List.forall_mem_nil _), _, rfl, nofun⟩
  have others : ∀ (ids : List MethodId) (m : Machine), (∀ id ∈ ids, p.Interprets id) →
      m.Runs p ⟨0⟩ →
      (ids.foldl (State.spawn p (·.signature.name)) m).Runs p ⟨0⟩ := by
    intro ids
    induction ids with
    | nil => exact fun m _ runs => runs
    | cons id rest ih =>
      intro m code runs
      obtain ⟨wf, added, same, _⟩ := started (·.signature.name) (code id (.head rest)) runs.wellFormed
      obtain ⟨thread, found, ready⟩ := runs.ready
      refine ih _ (fun id later => code id (.tail _ later)) ⟨wf, thread, ?_, ready⟩
      obtain ⟨inside, here⟩ := Array.getElem?_eq_some_iff.mp found
      rw [same]
      exact (Array.getElem?_push_lt inside).trans (congrArg some here)
  have empty : Machine.empty.WellFormed p := ⟨⟨nofun, nofun⟩, nofun⟩
  obtain ⟨wf, main, same, ready⟩ := started (fun _ => "main") checked.entry empty
  refine others _ _ checked.threads ⟨wf, main, ?_, ready⟩
  rw [same]
  rfl

def Move.RunsOn (p : Program) : Move → Prop
  | .goOn q => q.state.Runs p
  | .stop q (.ok _) => q.state.WellFormed p
  | .stop _ (.error error) => ∃ fault, error = .machine fault ∧ fault.OfOperands

namespace Explorer

variable {e : Explorer} {p q : Progress}

structure Loaded (e : Explorer) : Prop where
  standard : e.Standard
  checked : e.program.Checked
  bound : Builtin.Bound e.program e.registry.actions

theorem modelLoaded {model : Model} {config : Config} (accepted : ofModel model config = .ok e)
    (properties : List Property) : (e.watching properties).Loaded := by
  have source := modelSource accepted
  have standard := source.standard
  refine ⟨⟨standard.peers, standard.guests, standard.tree⟩, Program.loadChecked source.program, ?_⟩
  obtain ⟨program, _, h⟩ := Load.bindOk.mp accepted
  obtain ⟨r, bound, h⟩ := Load.bindOk.mp h
  cases made h
  obtain ⟨tree, _, binds⟩ := environment bound
  exact Builtin.bindBound (fun event callee found => by cases found) binds

theorem decidesOffers (standard : e.Standard) {path : Path} {s : State} {g : Generator}
    (decides : e.Decides path s g) : g.Offers s := by
  have threads : ∀ id, (Generator.ofThreads id s.runnable).Offers s := by
    refine fun id => ⟨fun t i found => ?_, fun v i found => ?_⟩
    · obtain ⟨_, listed, same⟩ := Option.map_eq_some_iff.mp found
      cases same
      exact List.mem_of_getElem? listed
    · obtain ⟨_, _, same⟩ := Option.map_eq_some_iff.mp found
      cases same
  obtain ⟨thread, _, awaits⟩ := decides
  cases awaits with
  | reschedule _ => exact threads _
  | schedule _ _ => exact threads _
  | started _ _ _ _ => exact threads _
  | asked _ _ _ other registered answer =>
    have known := calledKnown standard registered
    -- what is asked for does not depend on the machine, so it is no list of the threads of one
    have anywhere := Builtin.choosesAlike known other answer rfl Coverage.empty Machine.empty
    have asks := (Builtin.knownResponds known standard.guests anywhere).asks.2
    cases asks with
    | range less ranged =>
      obtain ⟨_, rfl⟩ := Generator.rangeMade ranged
      refine ⟨fun t i found => ?_, fun v i found => ?_⟩
      · simp only [Choices.get?] at found
        split at found <;> cases found
      · simp only [Choices.get?] at found
        split at found <;> cases found
        rfl
    | boolean =>
      refine ⟨fun t i found => ?_, fun v i found => ?_⟩
      · obtain ⟨_, _, same⟩ := Option.map_eq_some_iff.mp found
        cases same
      · obtain ⟨w, listed, same⟩ := Option.map_eq_some_iff.mp found
        cases same
        have member := List.mem_of_getElem? listed
        simp only [List.mem_cons, List.not_mem_nil, or_false] at member
        rcases member with rfl | rfl <;> rfl
    | started some =>
      rw [Builtin.entrySame known other] at some
      exact absurd some (by decide)
    | event next =>
      obtain ⟨node, _, rfl, _⟩ := Builtin.nextEventsMade next
      refine ⟨fun t i found => ?_, fun v i found => ?_⟩
      all_goals
        obtain ⟨_, _, other⟩ := Option.map_eq_some_iff.mp found
        cases other

theorem afterRuns {α : Type} {program : Program} {operation : Machine → Machine.Outcome α}
    {next : Progress → α → Move}
    (runs : Machine.RunsOn program p.state.current (operation p.state.toMachine))
    (onward : ∀ a, (operation p.state.toMachine).2 = .ok a → (p.act operation).1.state.Runs program →
      (next (p.act operation).1 a).RunsOn program) :
    (afterOutcome p operation next).RunsOn program := by
  unfold Machine.RunsOn at runs
  rcases afterCases p operation next with ⟨a, result, same⟩ | ⟨fault, result, same⟩
  · rw [result] at runs
    rw [same]
    exact onward a result runs
  · rw [result] at runs
    rw [same]
    exact ⟨fault, rfl, runs⟩

theorem rescheduleRuns {program : Program} (runs : p.state.Runs program) :
    (e.reschedule p).RunsOn program := by
  have comes := reschedules e p
  generalize e.reschedule p = mv at comes ⊢
  cases comes with
  | @handsOver only alone =>
    have member : only ∈ p.state.runnable := by rw [alone]; exact List.mem_singleton_self only
    obtain ⟨thread, found, _⟩ := Machine.whereMember.mp member
    refine ⟨(Machine.Runs.wellFormed runs).flag only true, _, Machine.flaggedThread found true, ?_⟩
    exact fun _ _ _ _ => rfl
  | _ => exact runs.wellFormed

theorem afterThrowRuns {program : Program} (runs : p.state.Runs program) (thrown : Thrown) :
    (afterThrow p thrown).RunsOn program := by
  unfold afterThrow
  dsimp only
  split
  · exact runs
  · exact runs.wellFormed

section Loaded

variable (loaded : e.Loaded)
include loaded

theorem obeyRuns {thread : GuestThread} {call : NativeCall} {below : List Activation}
    (wf : p.state.toMachine.WellFormed e.program)
    (found : p.state.thread? p.state.current = some thread)
    (stack : thread.stack = .native call :: below) {reply : Reply} (fits : reply.Fits e.program) :
    (e.obey p.state.current p reply).RunsOn e.program := by
  cases reply with
  | ret value =>
    have inside := fun v member => Value.plainInside (fits v member) p.state.heap.size
    exact afterRuns (Machine.returnRuns loaded.checked wf found stack inside) fun _ _ runs => runs
  | choose g =>
    refine ⟨Machine.awaitWellFormed wf found stack, ?_⟩
    exact ⟨_, (Machine.threadModify awaitChoice).trans (by rw [found]; rfl)⟩
  | directCall tag callee args =>
    have inside := fun v member => Value.plainInside (fits.2 v member) p.state.heap.size
    exact afterRuns (Machine.directCallRuns loaded.checked wf found stack tag fits.1 inside)
      fun _ _ runs => runs
  | throw className message =>
    exact afterRuns (Machine.throwRuns loaded.checked wf found stack className message)
      fun thrown _ runs => afterThrowRuns runs thrown
  | violation failure => exact ⟨wf, thread, found⟩

theorem callPeerKeeps (memory : Memory) (t : ThreadId) (method : Method) (args : List Value)
    (i : Invocation) {m : Machine} (wf : m.WellFormed e.program) :
    (e.callPeer memory t method args i m).1.WellFormed e.program :=
  (calledResponds loaded.standard rfl).keeps loaded.checked wf

theorem callPeerFits {memory : Memory} (plain : memory.path.Plain) {t : ThreadId} {method : Method}
    {args : List Value} {i : Invocation} {m : Machine} {reply : Reply}
    (h : (e.callPeer memory t method args i m).2 = .ok reply) : reply.Fits e.program :=
  (calledResponds loaded.standard h).fits loaded.bound plain

omit loaded in
theorem invocationOk {s : State} (runs : s.Runs e.program) {thread : GuestThread} {call : NativeCall}
    {below : List Activation} (found : s.thread? s.current = some thread)
    (stack : thread.stack = .native call :: below) :
    ∃ i, e.invocation call thread.firstStep = .ok i := by
  obtain ⟨other, found', ready⟩ := runs.ready
  cases Option.some.inj (found.symm.trans found')
  have here := (Machine.Runs.wellFormed runs).threads _ thread found
  unfold invocation
  cases phase : call.phase with
  | entry => exact ⟨_, rfl⟩
  | awaitingChoice => exact ⟨_, if_pos (ready call below stack phase)⟩
  | awaitingDirectCall tag => exact absurd phase (here.top call below tag stack)
  | directCallReturned tag value => exact ⟨_, rfl⟩

theorem dispatchRuns {memory : Memory} (plain : memory.path.Plain) {thread : GuestThread}
    {call : NativeCall} {below : List Activation} (runs : p.state.Runs e.program)
    (found : p.state.thread? p.state.current = some thread)
    (stack : thread.stack = .native call :: below) :
    (e.dispatch memory p.state.current call thread.firstStep p).RunsOn e.program := by
  have wf := Machine.Runs.wellFormed runs
  obtain ⟨i, invoked⟩ := invocationOk runs found stack
  obtain ⟨⟨method, called⟩, _⟩ : Activation.WellFormed e.program p.state.heap.size (.native call) :=
    (wf.threads _ thread found).stack.activations _ (by rw [stack]; exact .head below)
  have kept := (callPeerKeeps loaded memory p.state.current method call.args i wf).flag
    p.state.current false
  have touched := callPeerTouches (t := p.state.current) loaded.standard memory method call.args i
    p.state.toMachine
  have there := Machine.flaggedThread (Builtin.touchedThread touched found) false
  unfold dispatch
  rw [invoked]
  dsimp only
  rw [called]
  dsimp only [Progress.act]
  split
  · rename_i reply answer
    exact obeyRuns loaded (p := ⟨⟨_, p.state.current, _⟩, _, _⟩) kept there stack
      (callPeerFits loaded plain answer)
  · rename_i error answer
    refine afterRuns (Machine.returnRuns loaded.checked kept there stack ?_) fun _ _ runs => runs
    intro v default
    obtain ⟨type, _, rfl⟩ := Option.map_eq_some_iff.mp default
    apply Value.plainInside
    cases type <;> rfl

theorem moveRuns {memory : Memory} (plain : memory.path.Plain) (runs : p.state.Runs e.program) :
    (e.move memory p).RunsOn e.program := by
  obtain ⟨thread, found, _⟩ := runs.ready
  unfold move
  dsimp only
  rw [found]
  dsimp only
  split
  · exact rescheduleRuns runs
  · rename_i running
    have running : thread.status = .runnable := Decidable.not_not.mp running
    split
    · exact runs.wellFormed
    · refine afterRuns (Machine.stepRuns loaded.checked runs found running) fun step reported after => ?_
      cases step with
      | executed =>
        change (e.noteInstruction _ _ _).state.Runs e.program
        rw [noteState]
        exact after
      | schedulingPoint => exact after.wellFormed
      | native =>
        obtain ⟨_, call, below, found', stack, unchanged⟩ := Machine.stepNative reported
        cases found.symm.trans found'
        have there : (p.act (Machine.step e.program p.state.current)).1.state.thread? p.state.current =
            some thread := by
          rw [← found]
          exact congrArg (·.thread? p.state.current) unchanged
        rw [stack]
        exact dispatchRuns (p := (p.act (Machine.step e.program p.state.current)).1.count) loaded plain
          after there stack
      | blocked o => exact after
      | terminated => exact after
      | exception thrown => exact afterThrowRuns after thrown

omit loaded in
theorem chosenRuns (path : Path) {s : State} {g g' : Generator} {i : Nat} (wf : s.WellFormed e.program)
    (offers : g.Offers s) (chosen : g.select? i = some g') :
    ∃ s', applied (path.push g' s) s = .ok s' ∧ s'.Runs e.program := by
  obtain ⟨inside, rfl⟩ := Generator.selected chosen
  obtain ⟨choice, got⟩ := Choices.getInside inside
  have follows : ∀ current thread, s.thread? current = some thread →
      State.Runs e.program
        ⟨s.clearFirstSteps.setFirstStep current true, current, path.depth + 1⟩ := by
    intro current thread found
    have cleared : s.clearFirstSteps.thread? current = some { thread with firstStep := false } := by
      simp only [Machine.clearFirstSteps, Machine.thread?, Array.getElem?_map] at found ⊢
      rw [found]
      rfl
    exact ⟨wf.machine.clear.flag current true, _, Machine.flaggedThread cleared true,
      fun _ _ _ _ => rfl⟩
  have last : (path.push { g with cursor := some i } s).last? =
      some ⟨{ g with cursor := some i }, s, Path.reached path.entries⟩ := rfl
  have got : Generator.chosen? { g with cursor := some i } = some choice := got
  unfold applied applyChoice
  rw [last]
  dsimp only
  rw [got]
  cases choice with
  | thread t =>
    obtain ⟨thread, found, _⟩ := Machine.whereMember.mp (offers.threads t i got)
    dsimp only
    rw [found]
    exact ⟨_, rfl, follows t thread found⟩
  | event node =>
    obtain ⟨thread, found⟩ := wf.current
    dsimp only
    rw [found]
    exact ⟨_, rfl, follows _ thread found⟩
  | value v =>
    obtain ⟨thread, found⟩ := wf.current
    dsimp only
    rw [found]
    exact ⟨_, rfl, follows _ thread found⟩

theorem passesRuns {path : Path} (passes : e.Passes path q) : path.Plain ∧ q.state.Runs e.program := by
  refine Passes.holds (fun path p => path.Plain ∧ p.state.Runs e.program)
    ⟨nofun, State.initialRuns loaded.checked⟩ ?_ ?_ passes
  · rintro memory p q ⟨plain, runs⟩ moved
    have went := moveRuns loaded plain runs
    rw [moved] at went
    exact ⟨plain, went⟩
  · rintro memory p q g g' i s ⟨plain, runs⟩ stopped chosen goesOn
    have went := moveRuns loaded plain runs
    have offers := decidesOffers loaded.standard (moveDecides loaded.standard stopped)
    rw [stopped] at went
    obtain ⟨s', goesOn', runs'⟩ := chosenRuns memory.path went offers chosen
    cases goesOn.symm.trans goesOn'
    refine ⟨fun top v last value => ?_, runs'⟩
    cases Option.some.inj last
    obtain ⟨_, rfl⟩ := Generator.selected chosen
    obtain ⟨choice, got, isValue⟩ := Option.bind_eq_some_iff.mp value
    cases choice with
    | value w =>
      cases Option.some.inj isValue
      exact offers.values v i got
    | thread t => cases isValue
    | event node => cases isValue

theorem reachesWellFormed {fuel : Nat} {path : Path} {s : State} {ending : Ending}
    (reached : e.Reaches fuel path s ending) : s.WellFormed e.program := by
  obtain ⟨memory, p, q, raw, rfl, passes, stopped, rfl, _⟩ := reached.lastMove
  obtain ⟨plain, runs⟩ := passesRuns loaded passes
  have went := moveRuns loaded plain runs
  rwa [stopped] at went

theorem occursWellFormed {s : State} (occurs : e.Occurs s) : s.WellFormed e.program := by
  cases occurs with
  | passing passes => exact (passesRuns loaded passes).2.wellFormed
  | ending reached => exact reachesWellFormed loaded reached

theorem forksFollowed {fuel : Nat} {path : Path} {snapshot : State} (forks : e.Forks fuel path snapshot) :
    ∃ s, applied path snapshot = .ok s := by
  obtain ⟨before, ends, chosen⟩ := forks
  have wf := reachesWellFormed loaded ⟨_, before, ends⟩
  have offers := decidesOffers loaded.standard (transitsDecides loaded.standard ends)
  obtain ⟨s, goesOn, _⟩ := chosenRuns _ wf offers chosen
  exact ⟨s, goesOn⟩

theorem failsOfOperands {error : CheckError} (fails : e.Fails error) :
    ∃ fault, error = .machine fault ∧ fault.OfOperands := by
  cases fails with
  | moving passes failed =>
    obtain ⟨plain, runs⟩ := passesRuns loaded passes
    have went := moveRuns loaded plain runs
    rwa [failed] at went
  | choosing forks failed =>
    obtain ⟨s, goesOn⟩ := forksFollowed loaded forks
    cases failed.symm.trans goesOn

end Loaded

theorem onlyOperandsFail {model : Model} {config : Config} (accepted : ofModel model config = .ok e)
    (properties : List Property) :
    (∀ s, (e.watching properties).Occurs s → s.WellFormed e.program ∧
      ∀ kind t, t ∈ s.threadsWhere kind ↔ ∃ thread, s.thread? t = some thread ∧ kind thread = true) ∧
    (∀ fuel m error, (e.watching properties).check fuel = some (m, .error error) →
      ∃ fault, error = .machine fault ∧ fault.OfOperands) ∧
    (∀ fuel choices m error, (e.watching properties).replay fuel choices = some (m, .error error) →
      (∃ fault, error = .machine fault ∧ fault.OfOperands) ∨
      ∃ step cause, error = .replayDiverged step cause) ∧
    (∀ fuel pick maxSteps m error,
      (e.watching properties).simulate fuel pick maxSteps = some (m, .error error) →
      ∃ fault, error = .machine fault ∧ fault.OfOperands) := by
  have loaded := modelLoaded accepted properties
  refine ⟨?_, ?_, ?_, ?_⟩
  · exact fun s occurs => ⟨occursWellFormed loaded occurs, fun kind t => Machine.whereMember⟩
  · exact fun fuel m error failed => failsOfOperands loaded (checkFails loaded.standard failed)
  · intro fuel choices m error failed
    exact (replayFails failed).imp_left (failsOfOperands loaded)
  · exact fun fuel pick maxSteps m error failed => failsOfOperands loaded (simulateFails failed)

def wanting : Model :=
  { (Model.start "wanting" "Wanting.main()V").withMethod "Wanting.main()V" 0
      [.invokeStatic Builtin.processNextEventSymbol, .pop, .ret none] |>.withMethod "Wanting.go()V" 0
      [.pop, .ret none] with
    events := some (.event (.normal "go" []))
    actions := NameMap.empty.insert "go" "Wanting.go()V" }

theorem wantingFails : ∃ e m fault, ofModel wanting Config.default = .ok e ∧
    (e.watching []).check 20 = some (m, .error (.machine fault)) ∧ fault.OfOperands := by
  have ran : ((ofModel wanting Config.default).toOption.bind fun e =>
      ((e.watching []).check 20).map fun run => run.2.toOption.isNone) = some true := by
    decide +kernel
  obtain ⟨e, made, h⟩ := Option.bind_eq_some_iff.mp ran
  obtain ⟨⟨m, result⟩, checked, failed⟩ := Option.map_eq_some_iff.mp h
  cases built : ofModel wanting Config.default with
  | error error => simp [built, Except.toOption] at made
  | ok e' =>
    cases result with
    | ok report => simp [Except.toOption] at failed
    | error error =>
      simp only [built, Except.toOption, Option.some.injEq] at made
      subst made
      obtain ⟨fault, rfl, operands⟩ := (onlyOperandsFail built []).2.1 20 m error checked
      exact ⟨e', m, fault, rfl, checked, operands⟩

end Explorer

end BytecodeChecker
