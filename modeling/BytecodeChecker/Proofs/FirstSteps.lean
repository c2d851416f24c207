import BytecodeChecker.Proofs.Chronicle
import BytecodeChecker.Proofs.Interleaving

/-! First steps. A thread has its flag between being chosen and its first step, and then it is the running
thread. No snapshot on a path has a flag, and after a choice the chosen thread gets to do something before
anything is asked again. -/
namespace BytecodeChecker

namespace Machine

variable {m : Machine} {t : ThreadId} {thread : GuestThread}

theorem restedIff : m.Rested ↔ ∀ t thread, m.thread? t = some thread → thread.firstStep = false := by
  constructor
  · exact fun rested t thread found => rested.flag found
  · intro still thread member
    obtain ⟨i, inside, rfl⟩ := Array.mem_iff_getElem.mp member
    exact still ⟨i⟩ _ (Array.getElem?_eq_getElem inside)

theorem installRested {u : Upshot} (inside : t.index < m.threads.size) (own : u.thread.firstStep = false)
    (others : ∀ j thread, t ≠ j → m.thread? j = some thread → thread.firstStep = false) :
    (u.install t m).Rested := by
  refine restedIff.mpr fun j thread found => ?_
  rw [Upshot.installThread inside] at found
  obtain ⟨before, origin, rfl⟩ := Option.map_eq_some_iff.mp found
  rw [(GuestThread.wakeStack before u.freed).2]
  split at origin
  · cases Option.some.inj origin
    exact own
  · rename_i apart
    exact others j before apart origin

theorem pointRested {p : Program} (h : (step p t m).2 = .ok .schedulingPoint) : ¬ m.Flagged t := by
  rintro ⟨thread, found, flag⟩
  cases stepCase p t m with
  | stuck fault same => rw [same] at h; cases h
  | native found stack same => rw [same] at h; cases h
  | point found' stack fetched relevant rested others same =>
    cases Option.some.inj (found.symm.trans found')
    rw [rested] at flag
    cases flag
  | ran found stack fetched free result =>
    have ran : Ran (step p t m).2 := by rw [result]; exact attemptRan
    rw [h] at ran
    exact ran.elim

theorem whereSorted (m : Machine) (kind : GuestThread → Bool) :
    (m.threadsWhere kind).Pairwise (·.index < ·.index) := by
  have numbered : m.threads.toList.zipIdx.Pairwise (·.2 < ·.2) := by
    refine List.pairwise_map.mp ?_
    rw [List.zipIdx_map_snd]
    exact List.pairwise_lt_range'
  exact List.pairwise_map.mpr (numbered.filter _)

end Machine

namespace Builtin

variable {m m' : Machine} {t : ThreadId} {thread : GuestThread}

theorem touchedFlag (touched : Touched m m') (found : m'.thread? t = some thread)
    (flag : thread.firstStep = true) : m.thread? t = some thread := by
  cases touched with
  | same => exact found
  | static field v => exact found
  | spawned name id method =>
    rw [Explorer.spawnThread] at found
    split at found
    · cases Option.some.inj found
      cases flag
    · exact found

theorem Chooses.threads {call : PeerCall} {symbol : String} {after : Machine} {g : Generator}
    (chooses : Chooses call m symbol after g) {ids : List ThreadId} (threads : g.choices = .threads ids) :
    symbol = threadStartSymbol := by
  cases chooses with
  | int ranged =>
    obtain ⟨_, rfl⟩ := Generator.rangeMade ranged
    cases threads
  | boolean => cases threads
  | start name id method => rfl
  | event next =>
    obtain ⟨node, _, rfl, _⟩ := nextEventsMade next
    cases threads

end Builtin

/- Only the running thread can have the flag, and only while it can run. -/
def State.Poised (s : State) : Prop :=
  ∀ t thread, s.thread? t = some thread → thread.firstStep = true →
    t = s.current ∧ thread.status = .runnable

/- A decision as it should be at its place on a path: nobody has the flag, as many decisions went before,
and if threads are to be chosen, they are those that can run, in order. -/
structure Entry.Orderly (entry : Entry) (position : Nat) : Prop where
  rested : ∀ t, ¬ entry.snapshot.Flagged t
  depth : entry.snapshot.depth = position
  runnable : ∀ ids, entry.generator.choices = .threads ids →
    ∀ t, t ∈ ids ↔ entry.snapshot.isRunnable t = true
  sorted : ∀ ids, entry.generator.choices = .threads ids → ids.Pairwise (·.index < ·.index)
  running : ∀ ids, entry.generator.choices = .threads ids →
    entry.generator.id = "schedule" ∨ entry.generator.id = "start" → entry.snapshot.current ∈ ids

def Ending.generator? : Ending → Option Generator
  | .choice g => some g
  | .finished _ => none

namespace Explorer

variable {e : Explorer} {fuel : Nat} {memory : Memory} {path : Path} {p q : Progress} {s : State}
  {g : Generator}

theorem decidesThreads (standard : e.Standard) (decides : e.Decides path s g) {ids : List ThreadId}
    (threads : g.choices = .threads ids) :
    ids = s.runnable ∧ (g.id = "schedule" ∨ g.id = "start" → s.isRunnable s.current = true) := by
  obtain ⟨thread, found, awaits⟩ := decides
  cases awaits with
  | reschedule stopped =>
    cases threads
    refine ⟨rfl, fun named => ?_⟩
    simp [Generator.ofThreads] at named
  | schedule running stack =>
    cases threads
    exact ⟨rfl, fun _ => by rw [Machine.threadRunnable found, running]; rfl⟩
  | started running stack called symbol =>
    cases threads
    exact ⟨rfl, fun _ => by rw [Machine.threadRunnable found, running]; rfl⟩
  | asked running stack called other registered answer =>
    have responds := Builtin.knownResponds (calledKnown standard registered) standard.guests answer
    exact absurd (responds.chooses.threads threads) other

theorem decidesRunning (decides : e.Decides path s g) (plain : ∀ ids, g.choices ≠ .threads ids) :
    s.isRunnable s.current = true := by
  obtain ⟨thread, found, awaits⟩ := decides
  cases awaits with
  | reschedule stopped => exact absurd rfl (plain _)
  | schedule running stack => exact absurd rfl (plain _)
  | started running stack called symbol => exact absurd rfl (plain _)
  | asked running stack called other registered answer =>
    rw [Machine.threadRunnable found, running]
    rfl

theorem decidesRunnable (standard : e.Standard) (decides : e.Decides path s g) {g' : Generator} {i : Nat}
    (chosen : g.select? i = some g') : s.isRunnable (g'.chosenThread?.getD s.current) = true := by
  obtain ⟨inside, rfl⟩ := Generator.selected chosen
  unfold Generator.chosenThread? Generator.chosen?
  rw [Generator.total] at inside
  cases choices : g.choices with
  | threads ids =>
    rw [choices] at inside
    have within : i < ids.length := inside
    have member : ids[i] ∈ s.runnable := by
      rw [← (decidesThreads standard decides choices).1]
      exact List.getElem_mem within
    simpa [Choices.get?, within] using Machine.memRunnable.mp member
  | events node =>
    have within : i < node.children.length := by rwa [choices] at inside
    simpa [Choices.get?, within] using decidesRunning decides (by simp [choices])
  | values vs =>
    have within : i < vs.length := by rwa [choices] at inside
    simpa [Choices.get?, within] using decidesRunning decides (by simp [choices])
  | range lo hi =>
    have within : i < Choices.rangeSize lo hi := by rwa [choices] at inside
    simpa [Choices.get?, within] using decidesRunning decides (by simp [choices])

theorem deliverRested (thread : GuestThread) (tag : Option String) (value : Option Value) (h : Heap) :
    (Upshot.ofDeliver thread tag value h).thread.firstStep = thread.firstStep := by
  unfold Upshot.ofDeliver
  split <;> rfl

theorem obeysRested {t : ThreadId} {thread : GuestThread} {call : NativeCall} {below : List Activation}
    {method : Method} {h : Heap} {reply : Except PeerError Reply} {u : Upshot} {ending? : Option Ending}
    (obeys : e.Obeys t thread call below method h reply u ending?) (still : thread.firstStep = false) :
    u.thread.firstStep = false := by
  cases obeys with
  | returned result => rw [deliverRested]; exact still
  | defaulted result => rw [deliverRested]; exact still
  | threw result => exact Upshot.unwindRested _ still
  | called found => exact still
  | asked => exact still
  | violated => exact still

section Move

variable {ending? : Option Ending}

theorem moveFlags (standard : e.Standard) (poised : p.state.Poised)
    (h : (e.move memory p).outcome? = some (q, ending?)) :
    q.state.Poised ∧ q.state.depth = p.state.depth ∧ ∀ g, ending? = some (.choice g) → q.state.Rested := by
  have stopped : ∀ {thread : GuestThread}, p.state.thread? p.state.current = some thread →
      thread.status ≠ .runnable → p.state.Rested := by
    intro thread found stopped
    refine Machine.restedIff.mpr fun j other there => ?_
    refine Bool.eq_false_iff.mpr fun flag => ?_
    obtain ⟨rfl, running⟩ := poised j other there flag
    cases Option.some.inj (found.symm.trans there)
    exact stopped running
  have still : ∀ {s : State}, s.Rested → s.Poised := by
    intro s rested j thread found flag
    rw [rested.flag found] at flag
    cases flag
  cases moveDoes standard h with
  | waits found idle idleness same =>
    subst same
    exact ⟨poised, rfl, fun g _ => stopped found idle⟩
  | @handsOver thread only found idle alone state told =>
    rw [state]
    refine ⟨fun j other there flag => ?_, rfl, nofun⟩
    have rested := stopped found idle
    have member : only ∈ p.state.runnable := by rw [alone]; exact List.mem_singleton_self only
    obtain ⟨old, origin, running⟩ := Machine.runnableThread (Machine.memRunnable.mp member)
    have flagged := Machine.flaggedThread origin true
    by_cases here : j = only
    · subst here
      cases Option.some.inj (there.symm.trans flagged)
      exact ⟨rfl, running⟩
    · have before : p.state.thread? j = some other := by
        unfold Machine.setFirstStep Machine.modifyThread at there
        rw [origin] at there
        rwa [Machine.threadSet (Machine.threadInside origin), if_neg fun same => here same.symm] at there
      rw [rested.flag before] at flag
      cases flag
  | cut found running out same =>
    subst same
    exact ⟨poised, rfl, nofun⟩
  | pauses found running point same =>
    subst same
    refine ⟨poised, rfl, fun g _ => Machine.restedIff.mpr fun j other there => ?_⟩
    refine Bool.eq_false_iff.mpr fun flag => ?_
    obtain ⟨rfl, _⟩ := poised j other there flag
    exact Machine.pointRested (congrArg Prod.snd point) ⟨other, there, flag⟩
  | runs found running inside works ran result state told =>
    have rested : q.state.Rested := by
      rw [state]
      refine Machine.installRested (Machine.threadInside found) (GuestThread.upshotRested works) ?_
      intro j other apart there
      refine Bool.eq_false_iff.mpr fun flag => apart ?_
      exact (poised j other there flag).1.symm
    exact ⟨still rested, by rw [state], fun g _ => rested⟩
  | @answers thread call below i method m reply u ending? found running inside stack invoked called answer obeys
      state told =>
    have touched := answeredTouches standard answer
    have rested : q.state.Rested := by
      rw [state]
      refine Machine.installRested (Machine.threadInside (Builtin.touchedThread touched found))
        (obeysRested obeys rfl) ?_
      intro j other apart there
      refine Bool.eq_false_iff.mpr fun flag => apart ?_
      exact (poised j other (Builtin.touchedFlag touched there flag) flag).1.symm
    exact ⟨still rested, by rw [state], fun g _ => rested⟩

end Move

structure Tidy (path : Path) (s : State) : Prop where
  poised : s.Poised
  depth : s.depth = path.depth
  orderly : ∀ (i : Nat) (entry : Entry), path.entries.reverse[i]? = some entry → entry.Orderly i

theorem askedOrderly (standard : e.Standard) (tidy : Tidy memory.path p.state)
    (stopped : e.move memory p = .stop q (.ok (.choice g))) (g' : Generator) (choices : g'.choices = g.choices)
    (named : g'.id = g.id) (place : Nat) : (Entry.mk g' q.state place).Orderly memory.path.depth := by
  have decides := moveDecides standard stopped
  have ends : (e.move memory p).outcome? = some (q, some (.choice g)) := by rw [stopped]; rfl
  obtain ⟨_, depth, rested⟩ := moveFlags standard tidy.poised ends
  refine ⟨fun t ⟨thread, found, flag⟩ => ?_, depth.trans tidy.depth, ?_, ?_, ?_⟩
  · rw [(rested g rfl).flag found] at flag
    cases flag
  · intro ids threads t
    rw [(decidesThreads standard decides (choices.symm.trans threads)).1]
    exact Machine.memRunnable
  · intro ids threads
    rw [(decidesThreads standard decides (choices.symm.trans threads)).1]
    exact Machine.whereSorted _ _
  · intro ids threads asks
    obtain ⟨rfl, running⟩ := decidesThreads standard decides (choices.symm.trans threads)
    exact Machine.memRunnable.mpr (running (by rwa [← named]))

theorem appliedTop {s' : State} (h : applied (path.push g s) s = .ok s') :
    ∃ thread, s.thread? (g.chosenThread?.getD s.current) = some thread ∧
      s' = ⟨s.clearFirstSteps.setFirstStep (g.chosenThread?.getD s.current) true,
        g.chosenThread?.getD s.current, path.depth + 1⟩ := by
  unfold applied applyChoice at h
  simp only [Path.lastPush] at h
  unfold Generator.chosenThread?
  cases chosen : g.chosen? with
  | none => simp [chosen] at h
  | some choice =>
    simp only [chosen] at h
    cases choice <;> (split at h; · cases h) <;> rename_i found <;> exact ⟨_, found, (Except.ok.inj h).symm⟩

theorem appliedPoised (standard : e.Standard) {s' : State} {g' : Generator} {i : Nat}
    (decides : e.Decides path s g) (chosen : g.select? i = some g')
    (goesOn : applied (path.push g' s) s = .ok s') :
    s'.Poised ∧ s'.current = g'.chosenThread?.getD s.current ∧
      ∃ thread, s'.thread? s'.current = some thread ∧ thread.status = .runnable ∧ thread.firstStep = true := by
  obtain ⟨thread, found, rfl⟩ := appliedTop goesOn
  have runnable := decidesRunnable standard decides chosen
  generalize g'.chosenThread?.getD s.current = t at found runnable
  rw [Machine.threadRunnable found, beq_iff_eq] at runnable
  have cleared : s.clearFirstSteps.thread? t = some { thread with firstStep := false } := by
    simp only [Machine.clearFirstSteps, Machine.thread?, Array.getElem?_map]
    exact congrArg _ found
  have flagged := Machine.flaggedThread cleared true
  refine ⟨fun j other there flag => ?_, rfl, _, flagged, runnable, rfl⟩
  by_cases here : j = t
  · subst here
    cases Option.some.inj (there.symm.trans flagged)
    exact ⟨rfl, runnable⟩
  · dsimp only at there
    unfold Machine.setFirstStep Machine.modifyThread at there
    rw [cleared] at there
    dsimp only at there
    rw [Machine.threadSet (Machine.threadInside cleared), if_neg fun same => here same.symm] at there
    simp only [Machine.clearFirstSteps, Machine.thread?, Array.getElem?_map] at there
    obtain ⟨old, _, rfl⟩ := Option.map_eq_some_iff.mp there
    cases flag

theorem passesTidy (standard : e.Standard) (passes : e.Passes path p) : Tidy path p.state := by
  refine Passes.holds (fun path p => Tidy path p.state) ⟨?_, rfl, nofun⟩ ?_ ?_ passes
  · intro t thread found flag
    exact absurd ⟨thread, found, flag⟩ (initialRested e.program t)
  · intro memory p q tidy moved
    have goesOn : (e.move memory p).outcome? = some (q, none) := by rw [moved]; rfl
    obtain ⟨poised, depth, _⟩ := moveFlags standard tidy.poised goesOn
    exact ⟨poised, depth.trans tidy.depth, tidy.orderly⟩
  · intro memory p q g g' i s tidy stopped chosen goesOn
    obtain ⟨poised, _, _⟩ := appliedPoised standard (moveDecides standard stopped) chosen goesOn
    obtain ⟨thread, _, rfl⟩ := appliedTop goesOn
    refine ⟨poised, rfl, fun j entry there => ?_⟩
    obtain ⟨_, rfl⟩ := Generator.selected chosen
    simp only [Path.push, List.reverse_cons] at there
    rw [List.getElem?_append] at there
    split at there
    · exact tidy.orderly j entry there
    · rename_i late
      have length : memory.path.entries.reverse.length = memory.path.depth := by simp [memory.path.depth_eq]
      rw [length] at there late
      rw [List.getElem?_singleton] at there
      split at there
      · rename_i last
        cases Option.some.inj there
        have here : j = memory.path.depth := by omega
        rw [here]
        exact askedOrderly standard tidy stopped { g with cursor := some i } rfl rfl _
      · cases there

inductive Begins (e : Explorer) (fuel : Nat) : Memory → State → Prop where
  | searching {n : Nat} {search : Search} {s : State} (here : e.position? fuel n = some (search, s)) :
      Begins e fuel search.memory s
  | first : Begins e fuel Memory.empty (State.initial e.program)
  | taking {m m' m'' : Memory} {s s' s'' : State} {g g' : Generator} {i : Nat} (before : Begins e fuel m s)
      (ran : e.advance fuel m s = some ⟨m', s', .ok (.choice g)⟩) (chosen : g.select? i = some g')
      (goesOn : applyChoice { m' with path := m'.path.push g' s' } s' = (m'', .ok s'')) :
      Begins e fuel m'' s''

theorem Begins.starts (standard : e.Standard) (begins : e.Begins fuel memory s) :
    e.Starts fuel memory.path s := by
  induction begins with
  | searching here => exact (positionTraced standard here).starts
  | first => exact .initial
  | @taking m m' m'' s s' s'' g g' i before ran chosen goesOn ih =>
    obtain ⟨q, raw, advance⟩ := advanced ran
    have result := applyChoiceResult { m' with path := m'.path.push g' s' } s'
    have keeps := (applyChoiceKeeps { m' with path := m'.path.push g' s' } s').1
    rw [goesOn] at result keeps
    rw [advance.path] at result keeps
    rw [keeps]
    exact .next ih ⟨m, m', rfl, ran⟩ chosen result.symm

inductive Acts (e : Explorer) (t : ThreadId) (a : Point) : Prop where
  | steps {q : Progress} {ending? : Option Ending} {step : Step}
      (moved : (e.moveAt a).outcome? = some (q, ending?))
      (machine : q.state.toMachine = (Machine.step e.program t a.state.toMachine).1)
      (reported : (Machine.step e.program t a.state.toMachine).2 = .ok step) (point : step ≠ .schedulingPoint)
      (native : step ≠ .native)
  | calls {thread : GuestThread} {call : NativeCall} {below : List Activation} {i : Invocation}
      {method : Method} (found : a.state.thread? t = some thread) (stack : thread.stack = .native call :: below)
      (invoked : e.invocation call thread.firstStep = .ok i)
      (called : e.program.method? call.method = some method)
      (moved : e.moveAt a = e.dispatch a.memory t call thread.firstStep a.progress.count)

theorem firstActs (standard : e.Standard) {thread : GuestThread} {m' : Memory} {s' : State} {ending : Ending}
    (found : s.thread? s.current = some thread) (running : thread.status = .runnable)
    (flag : thread.firstStep = true) (ran : e.advance fuel memory s = some ⟨m', s', .ok ending⟩) :
    e.Acts s.current ⟨memory, ⟨s, 0, []⟩⟩ := by
  have moved : ∃ q ending?, (e.move memory ⟨s, 0, []⟩).outcome? = some (q, ending?) := by
    obtain ⟨q, raw, advance⟩ := advanced ran
    obtain ⟨n, r, _, moves, stopped⟩ := transitionMoves advance.ran
    cases moves with
    | none => exact ⟨q, some raw, by rw [stopped]; rfl⟩
    | next moved rest => exact ⟨_, none, by rw [moved]; rfl⟩
  obtain ⟨q, ending?, moved⟩ := moved
  cases moveDoes standard moved with
  | waits found' stopped idle same =>
    cases Option.some.inj (found.symm.trans found')
    exact absurd running stopped
  | handsOver found' stopped alone state told =>
    cases Option.some.inj (found.symm.trans found')
    exact absurd running stopped
  | cut found' running out same => exact absurd out (by simp [OutOfSteps]; omega)
  | pauses found' running point same =>
    exact absurd ⟨thread, found, flag⟩ (Machine.pointRested (congrArg Prod.snd point))
  | @runs thread' u step found' running inside works ran result state told =>
    have reported := (congrArg Prod.snd ran).trans result
    refine .steps moved (by rw [state]; exact (congrArg Prod.fst ran).symm) reported (fun point => ?_) fun native => ?_
    · rw [point] at reported
      exact Machine.pointRested reported ⟨thread, found, flag⟩
    · rw [native] at reported
      obtain ⟨thread'', call, below, found'', stack, _⟩ := Machine.stepNative reported
      cases Option.some.inj (found'.symm.trans found'')
      simp [GuestThread.upshot?, stack] at works
  | @answers thread call below i method m reply u ending? found' running inside stack invoked called answer obeys
      state told =>
    exact .calls found' stack invoked called (moveNative found' running inside stack memory)

theorem choicesMakeProgress {model : Model} {config : Config} (accepted : ofModel model config = .ok e)
    (properties : List Property) (begins : (e.watching properties).Begins fuel memory s) :
    (∀ (i : Nat) (entry : Entry), memory.path.entries.reverse[i]? = some entry → entry.Orderly i) ∧
    (∀ n q, (e.watching properties).Moves memory n ⟨s, 0, []⟩ q →
      (∀ t, q.state.Flagged t → t = q.state.current) ∧
      ∀ r ending, (e.watching properties).move memory q = .stop r (.ok ending) →
        (∀ t, r.state.Flagged t → t = r.state.current) ∧
        ∀ g, ending = .choice g → ∀ place, (Entry.mk g r.state place).Orderly memory.path.depth) ∧
    ∀ top, memory.path.last? = some top → s.current = top.traceStep.thread ∧
      ∀ m' s' ending, (e.watching properties).advance fuel memory s = some ⟨m', s', .ok ending⟩ →
        (e.watching properties).Acts top.traceStep.thread ⟨memory, ⟨s, 0, []⟩⟩ := by
  have source := (modelSource accepted).standard
  have standard : (e.watching properties).Standard := ⟨source.peers, source.guests, source.tree⟩
  have starts := begins.starts standard
  have tidy : ∀ {n q}, (e.watching properties).Moves memory n ⟨s, 0, []⟩ q → Tidy memory.path q.state :=
    fun moves => passesTidy standard ⟨fuel, s, memory, _, starts, rfl, moves⟩
  refine ⟨(tidy (.none _)).orderly, fun n q moves => ⟨?_, fun r ending stopped => ⟨?_, ?_⟩⟩, fun top last => ?_⟩
  · rintro t ⟨thread, found, flag⟩
    exact ((tidy moves).poised t thread found flag).1
  · rintro t ⟨thread, found, flag⟩
    have ends : ((e.watching properties).move memory q).outcome? = some (r, some ending) := by
      rw [stopped]
      rfl
    exact ((moveFlags standard (tidy moves).poised ends).1 t thread found flag).1
  · rintro g rfl place
    exact askedOrderly standard (tidy moves) stopped g rfl rfl place
  · generalize same : memory.path = path at starts last
    cases starts with
    | initial => cases last
    | next before ends chosen goesOn =>
      cases Option.some.inj ((Path.lastPush _ _ _).symm.trans last)
      obtain ⟨_, current, thread, found, running, flag⟩ :=
        appliedPoised standard (transitsDecides standard ends) chosen goesOn
      refine ⟨current, fun m' s' ending ran => ?_⟩
      have acts := firstActs standard found running flag ran
      rwa [current] at acts

theorem readersTakeTurns :
    ∃ e search s top m' s' g, ofModel readers Config.default = .ok e ∧
      (e.watching []).position? 20 1 = some (search, s) ∧ search.memory.path.last? = some top ∧
      top.generator.id = "schedule" ∧
      (e.watching []).advance 20 search.memory s = some ⟨m', s', .ok (.choice g)⟩ ∧
      s.current = top.traceStep.thread ∧ (e.watching []).Acts top.traceStep.thread ⟨search.memory, ⟨s, 0, []⟩⟩ := by
  have run : ((ofModel readers Config.default).toOption.bind fun e =>
      ((e.watching []).position? 20 1).bind fun (search, s) =>
        search.memory.path.last?.bind fun top =>
          ((e.watching []).advance 20 search.memory s).bind fun a =>
            (a.result.toOption.bind Ending.generator?).map fun g =>
              top.generator.id == "schedule" && g.id == "schedule") = some true := by
    decide +kernel
  obtain ⟨e, made, run⟩ := Option.bind_eq_some_iff.mp run
  obtain ⟨⟨search, s⟩, here, run⟩ := Option.bind_eq_some_iff.mp run
  obtain ⟨top, last, run⟩ := Option.bind_eq_some_iff.mp run
  obtain ⟨⟨m', s', result⟩, ran, run⟩ := Option.bind_eq_some_iff.mp run
  obtain ⟨g, ended, named⟩ := Option.map_eq_some_iff.mp run
  obtain ⟨ending, result', asked⟩ := Option.bind_eq_some_iff.mp ended
  have accepted := okSome made
  have choice : result = .ok (.choice g) := by
    rw [okSome (x := result) result']
    cases ending with
    | choice g' => rw [Option.some.inj asked]
    | finished finish => cases asked
  rw [choice] at ran
  simp only [Bool.and_eq_true, beq_iff_eq] at named
  obtain ⟨_, _, first⟩ := choicesMakeProgress accepted [] (.searching here)
  exact ⟨e, search, s, top, m', s', g, accepted, here, last, named.1, ran, (first top last).1,
    (first top last).2 m' s' (.choice g) ran⟩

end Explorer

end BytecodeChecker
