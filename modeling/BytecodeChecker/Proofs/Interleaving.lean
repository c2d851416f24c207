import BytecodeChecker.Proofs.Matching
import BytecodeChecker.Proofs.Schedules

/-! No interleaving is lost by switching threads only before instructions that other threads can
observe: what any runnable thread may do at any time is seen by a search that ends without a violation
and without a cut. -/
namespace BytecodeChecker.Explorer

open Machine (Covered)

variable {e : Explorer} {done : Machine → Prop} {memory : Memory} {p : Progress}

def Covers (e : Explorer) (done : Machine → Prop) (s : State) : Prop :=
  Covered e.program done s.toMachine s.current

def Resumes (e : Explorer) (done : Machine → Prop) (s : State) : Ending → Prop
  | .finished .completed => done s.toMachine
  | .choice g => (∃ id, g = .ofThreads id s.runnable) →
    ∀ t ∈ s.runnable, Covered e.program done (s.clearFirstSteps.setFirstStep t true) t
  | .finished _ => False

theorem idleCovers (deadlocks : e.config.checkDeadlock = true) {ending : Ending}
    (idle : e.reschedule p = .stop p (.ok ending)) (resumes : e.Resumes done p.state ending) :
    e.Covers done p.state := by
  have comes := reschedules e p
  rw [idle] at comes
  cases comes with
  | completed none free =>
    refine .completed none ?_ resumes
    rintro ⟨_, t, thread, o, found, status⟩
    exact free deadlocks t thread o found status
  | deadlocked none blocked => exact resumes.elim
  | chooses some => exact .chosen some (resumes ⟨_, rfl⟩)

theorem Does.covers (deadlocks : e.config.checkDeadlock = true) (within : p.state.Within fun _ => False)
    {q : Progress} {ending? : Option Ending} (does : e.Does memory p q ending?)
    (goes : ending? = none → e.Covers done q.state)
    (stops : ∀ ending, ending? = some ending → e.Resumes done q.state ending) : e.Covers done p.state := by
  cases does with
  | waits found stopped idle same =>
    subst same
    exact idleCovers deadlocks idle (stops _ rfl)
  | handsOver found stopped alone state told =>
    have next := goes rfl
    rw [state] at next
    exact .switched alone next
  | cut found running out same => exact (stops _ rfl).elim
  | pauses found running point same =>
    subst same
    have runs : q.state.isRunnable q.state.current = true := by simp [Machine.isRunnable, found, running]
    exact .chosen (List.ne_nil_of_mem (Machine.memRunnable.mpr runs)) (stops _ rfl ⟨_, rfl⟩)
  | @runs thread u step found running inside works ran result state told =>
    have runs : p.state.isRunnable p.state.current = true := by simp [Machine.isRunnable, found, running]
    have machine : (Machine.step e.program p.state.current p.state.toMachine).1 = q.state.toMachine := by
      rw [ran, state]
      rfl
    have current : q.state.current = p.state.current := by rw [state]
    have reported : (Machine.step e.program p.state.current p.state.toMachine).2 = .ok step := by
      rw [ran]
      exact result
    -- what the step of a search does is what a free step does, once it goes on
    have onward : step.goesOn = true → e.Covers done q.state → e.Covers done p.state := by
      intro goes next
      have went : Step.wentOn (Machine.step e.program p.state.current p.state.toMachine).2 = true := by
        rw [reported]
        exact goes
      have free := Machine.stepFree went
      refine .ran runs (by rw [free]; exact went) (fun op => Machine.stepUnasked went) ?_
      rw [free, machine, ← current]
      exact next
    have unchanged : (Machine.step e.program p.state.current p.state.toMachine).1 = p.state.toMachine →
        e.Covers done q.state → e.Covers done p.state := by
      intro same next
      unfold Covers at next
      rwa [← machine, same, current] at next
    cases step with
    | executed => exact onward rfl (goes rfl)
    | schedulingPoint =>
      obtain ⟨_, _, _, _, _, _, _, same⟩ := Machine.stepPoint reported
      exact unchanged same (goes rfl)
    | native =>
      obtain ⟨_, _, _, _, _, same⟩ := Machine.stepNative reported
      exact unchanged same (goes rfl)
    | blocked o => exact onward rfl (goes rfl)
    | terminated => exact onward rfl (goes rfl)
    | exception thrown =>
      by_cases handled : thrown.handled = true
      · exact onward handled (goes (if_pos handled))
      · exact (stops _ (if_neg handled)).elim
  | @answers _ call _ _ _ _ _ _ _ found running inside stack invoked called answer obeys state told =>
    exact (Machine.withinThread within found (.native call) (by simp [stack])).elim

theorem transitionCovers (standard : e.Standard) (calls : e.program.CallsWithin fun _ => False)
    (deadlocks : e.config.checkDeadlock = true) {fuel : Nat} {q : Progress} {ending : Ending}
    (within : p.state.Within fun _ => False) (h : e.transition memory fuel p = some (q, .ok ending))
    (resumes : e.Resumes done q.state ending) : e.Covers done p.state := by
  induction fuel generalizing p with
  | zero => cases h
  | succ fuel ih =>
    have sound := soundMove standard calls memory within
    unfold transition at h
    cases moved : e.move memory p with
    | goOn next =>
      rw [moved] at h sound
      have does := moveDoes standard (congrArg Move.outcome? moved)
      exact does.covers deadlocks within (fun _ => ih sound.keeps.within h) fun _ same => by cases same
    | stop last ended =>
      rw [moved] at h
      cases Option.some.inj h
      have does := moveDoes standard (congrArg Move.outcome? moved)
      exact does.covers deadlocks within (fun same => by cases same) fun _ same => Option.some.inj same ▸ resumes

theorem appliedThread {path : Path} {g : Generator} {s s' : State} {t : ThreadId}
    (h : applied (path.push g s) s = .ok s') (chosen : g.chosen? = some (.thread t)) :
    s'.toMachine = s.clearFirstSteps.setFirstStep t true ∧ s'.current = t := by
  unfold applied applyChoice at h
  simp only [Path.lastPush, chosen] at h
  split at h
  · cases h
  · cases h
    exact ⟨rfl, rfl⟩

/- From the last visit back: what holds of the later visits holds of the earlier ones. -/
theorem visitsBackwards {visits : List Visit} {holds : Visit → Prop}
    (sorted : visits.Pairwise fun late early => early.choices < late.choices)
    (back : ∀ v ∈ visits, (∀ w ∈ visits, v.choices < w.choices → holds w) → holds v) :
    ∀ v ∈ visits, holds v := by
  induction visits with
  | nil => exact nofun
  | cons late rest ih =>
    obtain ⟨first, sorted⟩ := List.pairwise_cons.mp sorted
    have last : holds late := by
      refine back late (.head rest) fun w member less => ?_
      rcases List.mem_cons.mp member with rfl | early
      · exact absurd less (lt_irrefl _)
      · exact absurd less (lt_asymm (first w early))
    refine List.forall_mem_cons.mpr ⟨last, ih sorted fun v member later => ?_⟩
    refine back v (.tail late member) fun w inside less => ?_
    rcases List.mem_cons.mp inside with rfl | early
    · exact last
    · exact later w early less

section Exhausted

variable {fuel : Nat} {visits : List Visit} {m : Memory} {report : Report} (blind : e.Blind)
  (unmatched : e.config.stateMatching = false) (exhausted : e.Exhausted fuel visits m report)
  (ok : report.verdict = .ok) (complete : report.stats.truncated = 0)
  (listed : ∀ s ∈ m.completedStates, done s.toMachine)
include blind unmatched exhausted ok complete listed

theorem Exhausted.visitResumes {v : Visit} (member : v ∈ visits)
    (later : ∀ w ∈ visits, v.choices < w.choices → ∀ s, e.Starts fuel w.path s → e.Covers done s) :
    e.Resumes done v.state v.ending := by
  rcases exhausted.visitSettled unmatched ok complete member with completed | ⟨g, ending, expanded⟩
  · rw [completed]
    refine listed v.state ?_
    rw [exhausted.tally.completed, List.mem_reverse]
    exact List.mem_filterMap.mpr ⟨v, member, Visit.completedIff.mpr ⟨completed, rfl⟩⟩
  · rw [ending]
    rintro ⟨id, rfl⟩ t runs
    obtain ⟨i, found⟩ := List.mem_iff_getElem?.mp runs
    have inside : i < (Generator.ofThreads id v.state.runnable).total :=
      (List.getElem?_eq_some_iff.mp found).1
    rcases exhausted.explored.children v member expanded _ ending i inside with
      ⟨w, there, choices⟩ | ⟨_, next, _⟩
    · obtain ⟨s, starts, _⟩ := exhausted.explored.reached w there
      have covered := later w there (choices ▸ Choices.ancestorLess) s starts
      have came := exhausted.explored.reached v member
      rw [ending] at came
      obtain ⟨_, path⟩ := blind.childPath starts came choices
      rw [path] at starts
      have chosen : Generator.chosen? { Generator.ofThreads id v.state.runnable with cursor := some i } =
          some (.thread t) := by
        simp [Generator.chosen?, Generator.ofThreads, Choices.get?, found]
      obtain ⟨machine, current⟩ := appliedThread (startsPush starts) chosen
      unfold Covers at covered
      rwa [machine, current] at covered
    · cases next

theorem Exhausted.visitCovers (calls : e.program.CallsWithin fun _ => False) (unwatched : e.properties = [])
    (deadlocks : e.config.checkDeadlock = true) :
    ∀ v ∈ visits, ∀ s, e.Starts fuel v.path s → e.Covers done s := by
  refine visitsBackwards exhausted.explored.sorted fun v member later s starts => ?_
  have resumes := exhausted.visitResumes blind unmatched ok complete listed member later
  obtain ⟨s', starts', memory, memory', _, ran⟩ := exhausted.explored.reached v member
  obtain ⟨_, rfl⟩ := blind.startsUnique starts starts' rfl
  obtain ⟨p, raw, advance⟩ := advanced ran
  have judged := advance.judged
  rw [judgeNothing unwatched] at judged
  rw [← advance.state, ← judged] at resumes
  have within := startsKind blind.standard calls starts
  exact transitionCovers (p := ⟨s, 0, []⟩) blind.standard calls deadlocks within advance.ran resumes

theorem Exhausted.covers (calls : e.program.CallsWithin fun _ => False) (unwatched : e.properties = [])
    (deadlocks : e.config.checkDeadlock = true) : e.Covers done (State.initial e.program) := by
  rcases exhausted.explored.root with ⟨v, member, empty⟩ | next
  · obtain ⟨s, starts, _⟩ := exhausted.explored.reached v member
    have first : e.Starts fuel Path.empty (State.initial e.program) := .initial
    obtain ⟨_, rfl⟩ := blind.startsUnique starts first empty
    exact exhausted.visitCovers blind unmatched ok complete listed calls unwatched deadlocks v member _ starts
  · cases next

end Exhausted

theorem spawnThread (m : Machine) (name : String) (id : MethodId) (method : Method) (t : ThreadId) :
    (m.spawn name id method []).1.thread? t = if t.index = m.threads.size then
      some ⟨name, .runnable, [.bytecode (Frame.start id method []) none], false⟩ else m.thread? t :=
  Array.getElem?_push

theorem initialLive (p : Program) : (State.initial p).Live := by
  refine initialHolds Machine.Live ⟨⟨fun _ => .none, ?_⟩, fun t => .none⟩ ?_ p
  · rintro o o' ⟨_, inside⟩
    cases inside
  · intro m name id method live
    refine ⟨live.heap, fun t => ?_⟩
    rw [spawnThread]
    split
    · exact .some ⟨rfl, .runnable, .cons (.bytecode (Frame.startMatches id method .nil) none) .nil⟩
    · exact live.threads t

theorem initialRested (p : Program) (t : ThreadId) : ¬ (State.initial p).Flagged t := by
  refine initialHolds (fun m => ¬ m.Flagged t) ?_ ?_ p
  · rintro ⟨thread, found, _⟩
    cases found
  · rintro m name id method rested ⟨thread, found, flag⟩
    rw [spawnThread] at found
    split at found
    · cases Option.some.inj found
      cases flag
    · exact rested ⟨thread, found, flag⟩

theorem modelInterpreted {model : Model} {p : Program} (loaded : Program.load model = .ok p)
    (interpreted : ∀ method ∈ p.methods, method.native = false) : p.Interpreted := by
  obtain ⟨source⟩ := Program.loadSource loaded
  refine ⟨fun call => ?_, source.fieldAt⟩
  obtain ⟨method, found, _⟩ := source.callAt call
  exact ⟨method, found, interpreted method (Array.mem_of_getElem? found)⟩

theorem interpretedCalls {p : Program} (interpreted : p.Interpreted) (kind : MethodId → Prop) :
    p.CallsWithin kind := by
  intro id pc callee call args
  obtain ⟨method, found, native⟩ := interpreted.calls call
  have bytecode : p.activation callee args = .bytecode (Frame.start callee method args) none := by
    simp [Program.activation, found, native]
  rw [bytecode]
  trivial

theorem checkCoversInterleavings {model : Model} {config : Config} {fuel : Nat} {m : Memory}
    {report : Report} (accepted : ofModel model config = .ok e)
    (interpreted : ∀ method ∈ e.program.methods, method.native = false)
    (deadlocks : config.checkDeadlock = true) (unmatched : config.stateMatching = false)
    (checked : e.check fuel = some (m, .ok report)) (ok : report.verdict = .ok)
    (complete : report.stats.truncated = 0) {k : Machine}
    (run : Machine.FreeRun e.program (State.initial e.program).toMachine k) :
    (∀ t, k.isRunnable t = true → Step.wentOn (Machine.freeStep e.program t k).2 = true) ∧
    ¬ k.Deadlocked ∧
    (k.allTerminated = true → ∃ s ∈ m.completedStates, s.toMachine.Renamed k) := by
  have source := modelSource accepted
  have whole := modelInterpreted source.program interpreted
  have blind : e.Blind := ⟨source.standard, interpretedCalls whole e.Unseen⟩
  rw [← source.config] at deadlocks unmatched
  obtain ⟨visits, exhausted⟩ := blind.okExhausts checked ok
  have covers : e.Covers (fun k => ∃ s ∈ m.completedStates, s.toMachine = k) (State.initial e.program) :=
    exhausted.covers blind unmatched ok complete (fun s listed => ⟨s, listed, rfl⟩)
      (interpretedCalls whole _) source.properties deadlocks
  obtain ⟨safe, settled⟩ :=
    covers.freeRuns whole (initialLive e.program) (initialRested e.program _) run
  refine ⟨safe, settled.free, fun all => ?_⟩
  obtain ⟨_, ⟨s, listed, rfl⟩, renamed⟩ := settled.ended all
  exact ⟨s, listed, renamed⟩

def makers : Model :=
  ((Model.start "makers" "Pair.main()V").withMethod "Pair.main()V" 0
    [.new "Left", .putStatic "Pair.left", .ret none]).withThread "Pair.other()V"
    [.new "Right", .putStatic "Pair.right", .ret none]

/- The second thread makes its object first, as it never does in the search, so that the objects are
numbered as in no completed state. -/
theorem makersCovered : ∃ e m report k, ofModel makers exhaustive = .ok e ∧
    e.check 20 = some (m, .ok report) ∧ report.verdict = .ok ∧ report.stats.truncated = 0 ∧
    Machine.FreeRun e.program (State.initial e.program).toMachine k ∧ k.allTerminated = true ∧
    (∀ s ∈ m.completedStates, s.heap ≠ k.heap) ∧ ∃ s ∈ m.completedStates, s.toMachine.Renamed k := by
  obtain ⟨e, m, report, accepted, checked, passed⟩ := checkRun makers exhaustive (fun e => e) 20
    (fun e m r => e.program.methods.all (!·.native) && r.verdict == .ok && r.stats.truncated == 0 &&
      (Machine.follow? e.program [⟨1⟩, ⟨0⟩, ⟨0⟩, ⟨1⟩, ⟨0⟩, ⟨1⟩] (State.initial e.program).toMachine).any
        fun k => k.allTerminated && m.completedStates.all (·.heap != k.heap)) (by decide +kernel)
  simp only [Bool.and_eq_true, Array.all_eq_true_iff_forall_mem, Bool.not_eq_true', beq_iff_eq] at passed
  obtain ⟨⟨⟨interpreted, ok⟩, complete⟩, ended⟩ := passed
  obtain ⟨k, followed, ended⟩ := (Option.any_eq_true _ _).mp ended
  simp only [Bool.and_eq_true, List.all_eq_true, bne_iff_ne] at ended
  have run := Machine.followRuns followed .start
  obtain ⟨_, _, renamed⟩ :=
    checkCoversInterleavings accepted interpreted rfl rfl checked ok complete run
  exact ⟨e, m, report, k, accepted, checked, ok, complete, run, ended.1, ended.2, renamed ended.1⟩

end BytecodeChecker.Explorer
