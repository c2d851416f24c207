import BytecodeChecker.Model.Builder
import BytecodeChecker.Proofs.Commuting
import BytecodeChecker.Proofs.Course
import BytecodeChecker.Proofs.Decisions

/-! The bound on the steps of a transition. Counted moves use it up, and between two of them threads can
only stop running; but an exception that is handled is not counted, so that a transition can go on as
long as exceptions are thrown and caught. -/
namespace BytecodeChecker

def Instruction.takes {Label Field Callee : Type} : Instruction Label Field Callee → Bool
  | .pop | .store .. => true
  | _ => false

theorem Frame.Work.performTakes {argCount : MethodId → Nat} {op : Op} {f f' : Frame} {effect : Effect}
    (takes : op.takes = true) (h : perform argCount op f = .ok effect f') : effect = .next := by
  cases op with
  | pop =>
    simp only [perform, bind, EStateM.bind, pure, EStateM.pure] at h
    split at h <;> cases h
    rfl
  | store kind slot =>
    simp only [perform, bind, EStateM.bind, pure, EStateM.pure] at h
    split at h
    · split at h <;> cases h
      rfl
    · cases h
  | _ => cases takes

def Model.HandlersTake (model : Model) : Prop :=
  ∀ decl ∈ model.methods, ∀ h ∈ decl.handlers, ∃ code ∈ decl.code[h.target.toNat]?, code.takes = true

def Program.HandlersTake (p : Program) : Prop :=
  ∀ {id method h}, p.method? id = some method → h ∈ method.handlers →
    ∃ op ∈ method.code[h.target]?, op.takes = true

theorem Load.resolvedTakes {Label Field Callee Label' Field' Callee' ε : Type} {label : Label → Except ε Label'}
    {field : Field → Except ε Field'} {callee : Callee → Except ε Callee'}
    {written : Instruction Label Field Callee} {op : Instruction Label' Field' Callee'}
    (h : written.resolve label field callee = .ok op) (takes : written.takes = true) : op.takes = true := by
  cases written with
  | pop =>
    cases h
    rfl
  | store kind slot =>
    cases h
    rfl
  | _ => cases takes

theorem Program.loadTakes {model : Model} {p : Program} (h : load model = .ok p) (taken : model.HandlersTake) :
    p.HandlersTake := by
  obtain ⟨source⟩ := loadSource h
  intro id method handler found member
  rcases source.methodFrom found with ⟨symbol, rfl⟩ | ⟨symbol, decl, listed, code, lowered⟩
  · cases member
  · obtain ⟨i, here⟩ := List.mem_iff_getElem?.mp member
    obtain ⟨written, there, ok⟩ := Load.mapOkAt lowered.handled here
    unfold Load.handler at ok
    split at ok
    · rename_i inside
      cases ok
      obtain ⟨first, atTarget, takes⟩ := taken decl listed written (List.mem_of_getElem? there)
      have length := Load.mapOkLength lowered.resolved
      have bound : written.target.toNat < code.length := by omega
      obtain ⟨first', atTarget', resolved⟩ :=
        Load.mapOkAt lowered.resolved (List.getElem?_eq_getElem bound)
      cases atTarget.symm.trans atTarget'
      refine ⟨code[written.target.toNat], ?_, Load.resolvedTakes resolved takes⟩
      rw [lowered.code, List.getElem?_toArray]
      exact List.getElem?_eq_getElem bound
    · cases ok

def GuestThread.Catching (p : Program) (thread : GuestThread) : Prop :=
  ∃ frame tag below method h, thread.stack = .bytecode frame tag :: below ∧
    p.method? frame.method = some method ∧ h ∈ method.handlers ∧ frame.pc = h.target

def Upshot.Tells (p : Program) (before : Status) (u : Upshot) : Prop :=
  match u.result with
  | .ok (.blocked _) | .ok .terminated => u.freed = none ∧ u.thread.status ≠ .runnable
  | .ok (.exception thrown) =>
    thrown.handled = true → u.freed = none ∧ u.thread.status = before ∧ u.thread.Catching p
  | _ => True

namespace Upshot

variable {p : Program} {t : ThreadId} {h : Heap}

theorem unwindTells (o : ObjectId) (thread : GuestThread) :
    (ofUnwind p t o thread h).Tells p thread.status := by
  have caught : ∀ {className : String} {stack after : List Activation},
      Machine.unwound? p o className stack = some after →
      GuestThread.Catching p { thread with stack := after } := by
    intro className stack
    induction stack with
    | nil => exact nofun
    | cons top below ih =>
      intro after found
      cases top with
      | native call => exact ih found
      | bytecode f tag =>
        simp only [Machine.unwound?] at found
        split at found
        · rename_i target handled
          cases Option.some.inj found
          obtain ⟨method, here, picked⟩ := Option.bind_eq_some_iff.mp handled
          obtain ⟨h, first, rfl⟩ := Option.map_eq_some_iff.mp picked
          exact ⟨_, tag, below, method, h, rfl, here, List.mem_of_find?_eq_some first, rfl⟩
        · exact ih found
  unfold ofUnwind
  split
  · trivial
  · dsimp only
    split
    · rename_i stack found
      exact fun _ => ⟨rfl, rfl, caught found⟩
    · intro handled
      cases handled

theorem effectTells (thread : GuestThread) (frame : Frame) (tag : Option String) (below : List Activation)
    (effect : Effect) : (ofEffect p t thread frame tag below h effect).Tells p thread.status := by
  cases effect with
  | raise className message => exact unwindTells _ _
  | rethrow o => exact unwindTells o _
  | finish value =>
    simp only [ofEffect, ofDeliver]
    split
    · exact ⟨rfl, fun running => by cases running⟩
    all_goals trivial
  | readField o field =>
    simp only [ofEffect]
    split <;> trivial
  | writeField o field v =>
    simp only [ofEffect]
    split <;> trivial
  | enter o =>
    simp only [ofEffect]
    split
    · trivial
    · trivial
    · exact ⟨rfl, fun running => by cases running⟩
  | exit o =>
    simp only [ofEffect]
    split
    · exact unwindTells _ _
    · trivial
  | _ => trivial

end Upshot

theorem GuestThread.upshotTells {p : Program} {t : ThreadId} {thread : GuestThread} {h : Heap} {u : Upshot}
    (works : thread.upshot? p t h = some u) : u.Tells p thread.status := by
  obtain ⟨_, _, _, _, _, _, _, _, _, rfl⟩ := upshotIff.mp works
  exact Upshot.effectTells _ _ _ _ _

namespace Machine

variable {p : Program} {t : ThreadId} {m : Machine} {thread : GuestThread}

theorem stepInstalls (found : m.thread? t = some thread) (went : Step.wentOn (step p t m).2 = true) :
    ∃ u, thread.upshot? p t m.heap = some u ∧ step p t m = u.outcome t m := by
  have free := stepFree went
  rcases freeStepCases found with ⟨u, works, ran⟩ | ⟨_, failed, _⟩
  · exact ⟨u, works, free.symm.trans ran⟩
  · rw [free, went] at failed
    cases failed

def taking (p : Program) (m : Machine) (t : ThreadId) : Bool := (m.nextOp? p t).any Instruction.takes

theorem catchingTakes (taken : p.HandlersTake) (found : m.thread? t = some thread)
    (catching : thread.Catching p) : m.taking p t = true := by
  obtain ⟨frame, tag, below, method, h, stack, here, member, start⟩ := catching
  obtain ⟨op, fetched, takes⟩ := taken here member
  rw [← start] at fetched
  have next : m.nextOp? p t = some op := by
    simp only [nextOp?, found, Option.bind_some, stack, Program.op?, here]
    exact fetched
  unfold taking
  rw [next]
  exact takes

theorem takingExecutes (found : m.thread? t = some thread) (takes : m.taking p t = true) {u : Upshot}
    (works : thread.upshot? p t m.heap = some u) : u.result = .ok .executed := by
  obtain ⟨_, _, _, _, _, _, stack, fetched, performed, rfl⟩ := GuestThread.upshotIff.mp works
  unfold taking nextOp? at takes
  rw [found] at takes
  simp only [Option.bind_some, stack, fetched, Option.any_some] at takes
  cases Frame.Work.performTakes takes performed
  rfl

theorem runnablePositive (runs : m.isRunnable t = true) : 0 < m.runnableCount := by
  obtain ⟨thread, found, running⟩ := runnableThread runs
  exact Array.countP_pos_iff.mpr ⟨thread, Array.mem_of_getElem? found, by simp [running]⟩

theorem threadRunnable (found : m.thread? t = some thread) :
    m.isRunnable t = (thread.status == .runnable) := by
  unfold isRunnable
  rw [found]
  rfl

theorem setThreadCount (found : m.thread? t = some thread) (running : thread.status = .runnable)
    (after : GuestThread) : (m.setThread t after).runnableCount + 1 =
      m.runnableCount + if after.status = .runnable then 1 else 0 := by
  obtain ⟨inside, here⟩ := Array.getElem?_eq_some_iff.mp found
  have positive : 0 < m.runnableCount := runnablePositive ((threadRunnable found).trans (by simp [running]))
  unfold runnableCount at positive ⊢
  simp only [setThread, Array.setIfInBounds, inside, dite_true]
  rw [Array.countP_set, here]
  simp only [running, beq_self_eq_true, if_true, beq_iff_eq]
  omega

theorem stoppedCount (found : m.thread? t = some thread) (running : thread.status = .runnable) {u : Upshot}
    (freed : u.freed = none) (stopped : u.thread.status ≠ .runnable) :
    (u.install t m).runnableCount + 1 = m.runnableCount ∧ (u.install t m).isRunnable t = false := by
  have here := Upshot.installThread (threadInside found) u t
  rw [if_pos rfl, freed] at here
  refine ⟨?_, (threadRunnable here).trans (by simpa [GuestThread.wake] using stopped)⟩
  have count := setThreadCount (m := { m with heap := u.heap }) found running u.thread
  rw [if_neg stopped] at count
  unfold Upshot.install
  rw [freed]
  exact count

theorem runningCount (found : m.thread? t = some thread) (running : thread.status = .runnable) {u : Upshot}
    (freed : u.freed = none) (still : u.thread.status = .runnable) :
    (u.install t m).runnableCount = m.runnableCount ∧ (u.install t m).thread? t = some u.thread := by
  have here := Upshot.installThread (threadInside found) u t
  rw [if_pos rfl, freed] at here
  refine ⟨?_, here⟩
  have count := setThreadCount (m := { m with heap := u.heap }) found running u.thread
  rw [if_pos still] at count
  unfold Upshot.install
  rw [freed]
  exact Nat.succ.inj count

section Size

theorem setThreadSize (m : Machine) (t : ThreadId) (thread : GuestThread) :
    (m.setThread t thread).threads.size = m.threads.size := by
  simp [setThread]

theorem modifySize (m : Machine) (t : ThreadId) (change : GuestThread → GuestThread) :
    (m.modifyThread t change).threads.size = m.threads.size := by
  unfold modifyThread
  split
  · exact setThreadSize m t _
  · rfl

theorem stepSize (p : Program) (t : ThreadId) (m : Machine) :
    (step p t m).1.threads.size = m.threads.size := by
  cases stepCase p t m with
  | stuck fault same => rw [same]
  | native found stack same => rw [same]
  | point found stack fetched relevant rested others same => rw [same]
  | ran found stack fetched free result =>
    rw [result]
    unfold attempt
    dsimp only
    split
    · rw [Upshot.effectInstalls (threadInside found)]
      exact installSize _ t m
    · exact setThreadSize m t _

theorem nativeReturnSize (t : ThreadId) (value : Option Value) (m : Machine) :
    (nativeReturn t value m).1.threads.size = m.threads.size := by
  unfold nativeReturn
  split
  · rfl
  · split
    · rfl
    · rw [Upshot.deliverInstalls]
      exact installSize _ t m
    · rfl

theorem throwSize (p : Program) (t : ThreadId) (className : String) (message : Option String)
    (m : Machine) : (throw p t className message m).1.threads.size = m.threads.size := by
  unfold throw unwind
  dsimp only
  split
  · rfl
  · split
    · rfl
    · split
      · exact setThreadSize _ t _
      · exact setThreadSize _ t _

theorem directCallSize (p : Program) (t : ThreadId) (tag : String) (callee : MethodId)
    (args : List Value) (m : Machine) :
    (directCall p t tag callee args m).1.threads.size = m.threads.size := by
  unfold directCall
  split
  · rfl
  · split
    · rfl
    · split
      · rfl
      · split
        · exact setThreadSize m t _
        · rfl

end Size

end Machine

namespace Builtin

theorem Responds.threads {call : PeerCall} {symbol : String} {i : Invocation} {m after : Machine}
    {result : Except PeerError Reply} (responds : Responds call m symbol i after result) :
    (∃ g, result = .ok (.choose g)) ∨ after.threads = m.threads := by
  cases responds with
  | starts entered => exact .inl ⟨_, rfl⟩
  | _ => exact .inr rfl

end Builtin

def Notice.isException : Notice → Bool
  | .exception _ => true
  | _ => false

namespace Progress

def throws (p : Progress) : Nat := p.notices.countP Notice.isException

theorem throwsNote (p : Progress) (thrown : Thrown) : (p.note (.exception thrown)).throws = p.throws + 1 :=
  List.countP_cons_of_pos rfl

/- How many moves are left as long as no exception is thrown: with every counted step all threads may run
again, and each of them may stop and hand over. -/
def allowance (bound : Nat) (p : Progress) : Nat :=
  (bound - p.steps) * (2 * p.state.threads.size + 1) + 2 * p.state.runnableCount +
    if p.state.isRunnable p.state.current then 0 else 1

theorem allowanceLe (bound : Nat) (s : State) :
    allowance bound ⟨s, 0, []⟩ ≤ (bound + 1) * (2 * s.threads.size + 1) := by
  have count : s.runnableCount ≤ s.threads.size := Array.countP_le_size
  unfold allowance
  dsimp only
  rw [Nat.sub_zero, Nat.succ_mul bound]
  split <;> omega

theorem countedLess {bound : Nat} {p q : Progress} (steps : q.steps = p.steps + 1)
    (size : q.state.threads.size = p.state.threads.size) (inside : p.steps < bound)
    (runs : p.state.isRunnable p.state.current = true) : q.allowance bound < p.allowance bound := by
  have positive := Machine.runnablePositive runs
  have count : q.state.runnableCount ≤ q.state.threads.size := Array.countP_le_size
  unfold allowance
  rw [steps, ← size, if_pos runs, show bound - p.steps = (bound - (p.steps + 1)) + 1 by omega,
    Nat.succ_mul (bound - (p.steps + 1))]
  split <;> omega

section Upshot

variable {bound : Nat} {p : Progress} {program : Program} {thread : GuestThread} {u : Upshot}
  (found : p.state.thread? p.state.current = some thread) (running : thread.status = .runnable)
  (ran : Machine.step program p.state.current p.state.toMachine = u.outcome p.state.current p.state.toMachine)
  (freed : u.freed = none)
include found running ran freed

theorem stoppedLess (stopped : u.thread.status ≠ .runnable) :
    (p.act (Machine.step program p.state.current)).1.allowance bound < p.allowance bound := by
  obtain ⟨count, still⟩ := Machine.stoppedCount found running freed stopped
  have size := Machine.installSize u p.state.current p.state.toMachine
  have runs : p.state.isRunnable p.state.current = true :=
    (Machine.threadRunnable found).trans (by simp [running])
  simp only [act, allowance, ran, Upshot.outcome, size, still, runs, if_true, ← count]
  simp
  omega

theorem runningSame (still : u.thread.status = .runnable) :
    (p.act (Machine.step program p.state.current)).1.allowance bound = p.allowance bound ∧
      (p.act (Machine.step program p.state.current)).1.state.thread? p.state.current = some u.thread := by
  obtain ⟨count, here⟩ := Machine.runningCount found running freed still
  have size := Machine.installSize u p.state.current p.state.toMachine
  have runs : p.state.isRunnable p.state.current = true :=
    (Machine.threadRunnable found).trans (by simp [running])
  have runs' : (u.install p.state.current p.state.toMachine).isRunnable p.state.current = true :=
    (Machine.threadRunnable here).trans (by simp [still])
  refine ⟨?_, ?_⟩
  · simp only [act, allowance, ran, Upshot.outcome, size, runs, runs', count]
  · simp only [act, ran, Upshot.outcome, here]

end Upshot

inductive Spends (program : Program) (bound : Nat) (p q : Progress) : Prop where
  | lower (less : q.allowance bound < p.allowance bound) (throws : p.throws ≤ q.throws)
  | caught {thread : GuestThread} (same : q.allowance bound = p.allowance bound)
      (throws : q.throws = p.throws + 1) (threw : p.state.taking program p.state.current = false)
      (found : q.state.thread? q.state.current = some thread) (catching : thread.Catching program)

structure Steady (p q : Progress) : Prop where
  steps : q.steps = p.steps
  size : q.state.threads.size = p.state.threads.size
  throws : p.throws ≤ q.throws

end Progress

namespace Explorer

variable {e : Explorer} {memory : Memory} {p q : Progress}

theorem afterGoesOn {α : Type} {operation : Machine → Machine.Outcome α} {next : Progress → α → Move}
    (h : afterOutcome p operation next = .goOn q) :
    ∃ a, (operation p.state.toMachine).2 = .ok a ∧ next (p.act operation).1 a = .goOn q := by
  have ended : (afterOutcome p operation next).outcome? = some (q, none) := by rw [h]; rfl
  obtain ⟨a, result, ended⟩ := afterEnds ended
  exact ⟨a, result, Move.outcomeGoesOn ended⟩

theorem throwGoesOn {thrown : Thrown} (h : afterThrow p thrown = .goOn q) :
    q = p.note (.exception thrown) ∧ thrown.handled = true := by
  unfold afterThrow at h
  dsimp only at h
  split at h
  · rename_i handled
    cases h
    exact ⟨rfl, handled⟩
  · cases h

theorem obeySteady {t : ThreadId} {reply : Reply} (h : e.obey t p reply = .goOn q) : p.Steady q := by
  cases reply with
  | ret value =>
    obtain ⟨_, _, h⟩ := afterGoesOn h
    cases h
    exact ⟨rfl, Machine.nativeReturnSize t value _, Nat.le_refl _⟩
  | choose g => cases h
  | directCall tag callee args =>
    obtain ⟨_, _, h⟩ := afterGoesOn h
    cases h
    exact ⟨rfl, Machine.directCallSize e.program t tag callee args _, Nat.le_refl _⟩
  | throw className message =>
    obtain ⟨thrown, _, h⟩ := afterGoesOn h
    obtain ⟨rfl, _⟩ := throwGoesOn h
    exact ⟨rfl, Machine.throwSize e.program t className message _,
      Nat.le_trans (Nat.le_succ p.throws) (Nat.le_of_eq (Progress.throwsNote _ thrown).symm)⟩
  | violation failure => cases h

theorem dispatchSteady (standard : e.Standard) {t : ThreadId} {call : NativeCall} {flag : Bool}
    (h : e.dispatch memory t call flag p = .goOn q) : p.Steady q := by
  unfold dispatch at h
  split at h
  · cases h
  · rename_i i _
    split at h
    · cases h
    · rename_i method _
      have threads : (∃ g, (e.callPeer memory t method call.args i p.state.toMachine).2 = .ok (.choose g)) ∨
          (e.callPeer memory t method call.args i p.state.toMachine).1.threads = p.state.threads :=
        (calledResponds standard rfl).threads
      dsimp only [Progress.act] at h
      rcases threads with ⟨g, asked⟩ | same
      · rw [asked] at h
        cases h
      · have size : ((e.callPeer memory t method call.args i p.state.toMachine).1.setFirstStep t
            false).threads.size = p.state.threads.size := by
          rw [Machine.setFirstStep, Machine.modifySize, same]
        split at h
        · have steady := obeySteady h
          exact ⟨steady.steps, steady.size.trans size, steady.throws⟩
        · obtain ⟨_, _, h⟩ := afterGoesOn h
          cases h
          exact ⟨rfl, (Machine.nativeReturnSize t _ _).trans size, Nat.le_refl _⟩

theorem noteThrows (t : ThreadId) (stack : List Activation) :
    (e.noteInstruction t stack p).steps = p.steps ∧ (e.noteInstruction t stack p).throws = p.throws := by
  unfold noteInstruction
  repeat' split
  all_goals exact ⟨rfl, rfl⟩

theorem rescheduleSpends {bound : Nat} (stopped : p.state.isRunnable p.state.current = false)
    (h : e.reschedule p = .goOn q) : p.Spends e.program bound q := by
  have comes := reschedules e p
  rw [h] at comes
  cases comes with
  | @handsOver only alone =>
    have member : only ∈ p.state.runnable := by rw [alone]; exact List.mem_singleton_self only
    obtain ⟨thread, found, running⟩ := Machine.whereMember.mp member
    have count : (p.state.setFirstStep only true).runnableCount = p.state.runnableCount := by
      rw [← Machine.runnableLength, ← Machine.runnableLength]
      exact congrArg List.length (Machine.whereModify fun _ => rfl)
    have size : (p.state.setFirstStep only true).threads.size = p.state.threads.size :=
      Machine.modifySize _ only _
    have runs : (p.state.setFirstStep only true).isRunnable only = true :=
      (Machine.threadRunnable (Machine.flaggedThread found true)).trans running
    refine .lower ?_ (Nat.le_refl _)
    simp only [Progress.allowance, count, size, runs, stopped, if_true]
    simp

theorem moveSpends (standard : e.Standard) (positive : 0 < e.config.maxTransitionSteps)
    (h : e.move memory p = .goOn q) : p.Spends e.program e.config.maxTransitionSteps q := by
  unfold move at h
  dsimp only at h
  split at h
  · cases h
  · rename_i thread found
    have status := Machine.threadRunnable found
    split at h
    · rename_i stopped
      exact rescheduleSpends (status.trans (by simpa using stopped)) h
    · rename_i running
      have running : thread.status = .runnable := Decidable.not_not.mp running
      have runs : p.state.isRunnable p.state.current = true := status.trans (by simp [running])
      split at h
      · cases h
      · rename_i free
        have inside : p.steps < e.config.maxTransitionSteps := by omega
        have size := Machine.stepSize e.program p.state.current p.state.toMachine
        obtain ⟨step, reported, h⟩ := afterGoesOn h
        have installs : step.goesOn = true → ∃ u, thread.upshot? e.program p.state.current p.state.heap = some u ∧
            Machine.step e.program p.state.current p.state.toMachine =
              u.outcome p.state.current p.state.toMachine ∧ u.result = .ok step := by
          intro went
          obtain ⟨u, works, same⟩ := Machine.stepInstalls (p := e.program) found
            (by rw [reported]; exact went)
          exact ⟨u, works, same, by rw [same] at reported; exact reported⟩
        cases step with
        | executed =>
          cases h
          obtain ⟨steps, throws⟩ := noteThrows (e := e) (p := (p.act (Machine.step e.program
            p.state.current)).1.count) p.state.current thread.stack
          refine .lower (Progress.countedLess steps ?_ inside runs) (Nat.le_of_eq throws.symm)
          rw [noteState]
          exact size
        | schedulingPoint => cases h
        | native =>
          dsimp only at h
          split at h
          · have steady := dispatchSteady standard h
            exact .lower (Progress.countedLess steady.steps (steady.size.trans size) inside runs) steady.throws
          · cases h
        | blocked o =>
          cases h
          obtain ⟨u, works, ran, result⟩ := installs rfl
          have tells := GuestThread.upshotTells works
          rw [Upshot.Tells, result] at tells
          exact .lower (Progress.stoppedLess found running ran tells.1 tells.2) (Nat.le_refl _)
        | terminated =>
          cases h
          obtain ⟨u, works, ran, result⟩ := installs rfl
          have tells := GuestThread.upshotTells works
          rw [Upshot.Tells, result] at tells
          exact .lower (Progress.stoppedLess found running ran tells.1 tells.2) (Nat.le_refl _)
        | exception thrown =>
          obtain ⟨rfl, handled⟩ := throwGoesOn h
          obtain ⟨u, works, ran, result⟩ := installs handled
          have tells := GuestThread.upshotTells works
          rw [Upshot.Tells, result] at tells
          obtain ⟨freed, status, catching⟩ := tells handled
          obtain ⟨same, here⟩ := Progress.runningSame found running ran
            freed (status.trans running)
          refine .caught same (Progress.throwsNote _ thrown) ?_ here catching
          -- an instruction that takes an operand would have been executed
          refine Bool.eq_false_iff.mpr fun takes => ?_
          cases result.symm.trans (Machine.takingExecutes found takes works)

theorem movesSpend (standard : e.Standard) (positive : 0 < e.config.maxTransitionSteps) {n : Nat}
    (moves : e.Moves memory n p q) :
    n + q.allowance e.config.maxTransitionSteps + p.throws ≤
      p.allowance e.config.maxTransitionSteps + q.throws := by
  induction moves with
  | none p => omega
  | next moved rest ih =>
    cases moveSpends standard positive moved with
    | lower less throws => omega
    | caught same throws _ _ _ => omega

theorem endsIff (standard : e.Standard) (positive : 0 < e.config.maxTransitionSteps) :
    (∃ fuel, (e.transition memory fuel p).isSome = true) ↔
      ∃ most, ∀ n q, e.Moves memory n p q → q.throws ≤ most := by
  constructor
  · rintro ⟨fuel, ended⟩
    obtain ⟨⟨last, result⟩, ran⟩ := Option.isSome_iff_exists.mp ended
    obtain ⟨n, r, -, way, stopped⟩ := transitionMoves ran
    refine ⟨r.throws, ?_⟩
    clear ran ended
    induction way with
    | none p =>
      intro n q moves
      cases moves with
      | none => exact Nat.le_refl _
      | next moved rest => cases moved.symm.trans stopped
    | @next k p p' r moved rest ih =>
      have grows : p.throws ≤ p'.throws := by
        cases moveSpends standard positive moved with
        | lower less throws => exact throws
        | caught same throws _ _ _ => omega
      intro n q moves
      cases moves with
      | none => exact Nat.le_trans grows (ih stopped 0 p' (.none p'))
      | next moved' rest' =>
        cases moved.symm.trans moved'
        exact ih stopped _ q rest'
  · rintro ⟨most, few⟩
    refine ⟨p.allowance e.config.maxTransitionSteps + most + 1, ?_⟩
    refine Option.isSome_iff_ne_none.mpr fun never => ?_
    obtain ⟨q, moves⟩ := transitionNone.mp never
    have spent := movesSpend standard positive moves
    have less := few _ q moves
    omega

theorem movesTaken (standard : e.Standard) (positive : 0 < e.config.maxTransitionSteps)
    (taken : e.program.HandlersTake) {n : Nat} (moves : e.Moves memory n p q) :
    n ≤ 2 * p.allowance e.config.maxTransitionSteps + 1 := by
  have falls : n + 2 * q.allowance e.config.maxTransitionSteps +
      (if q.state.taking e.program q.state.current then 0 else 1) ≤
      2 * p.allowance e.config.maxTransitionSteps +
        if p.state.taking e.program p.state.current then 0 else 1 := by
    induction moves with
    | none p => omega
    | @next k p r q moved rest ih =>
      cases moveSpends standard positive moved with
      | lower less throws =>
        have flag : (if r.state.taking e.program r.state.current then 0 else 1) ≤ 1 := by
          split <;> omega
        omega
      | caught same throws threw found catching =>
        rw [Machine.catchingTakes taken found catching] at ih
        rw [threw]
        simp only [if_true] at ih
        simp only [Bool.false_eq_true, if_false]
        omega
  have flag : (if p.state.taking e.program p.state.current then 0 else 1) ≤ 1 := by
    split <;> omega
  omega

theorem stepBoundEnds {model : Model} {config : Config} (accepted : ofModel model config = .ok e)
    (properties : List Property) (positive : 0 < config.maxTransitionSteps) (memory : Memory) (s : State) :
    ((∃ fuel, ((e.watching properties).transition memory fuel ⟨s, 0, []⟩).isSome = true) ↔
      ∃ most, ∀ n q, (e.watching properties).Moves memory n ⟨s, 0, []⟩ q → q.throws ≤ most) ∧
    (∀ n q, (e.watching properties).Moves memory n ⟨s, 0, []⟩ q →
      n ≤ (config.maxTransitionSteps + 1) * (2 * s.threads.size + 1) + q.throws) ∧
    (model.HandlersTake → ((e.watching properties).transition memory
      (2 * ((config.maxTransitionSteps + 1) * (2 * s.threads.size + 1)) + 2) ⟨s, 0, []⟩).isSome = true) := by
  have source := modelSource accepted
  have standard : (e.watching properties).Standard :=
    ⟨source.standard.peers, source.standard.guests, source.standard.tree⟩
  have same : (e.watching properties).config = config := source.config
  rw [← same] at positive ⊢
  have start := Progress.allowanceLe (e.watching properties).config.maxTransitionSteps s
  refine ⟨endsIff standard positive, fun n q moves => ?_, fun taken => ?_⟩
  · have spent := movesSpend standard positive moves
    have none : Progress.throws ⟨s, 0, []⟩ = 0 := rfl
    omega
  · refine Option.isSome_iff_ne_none.mpr fun never => ?_
    obtain ⟨q, moves⟩ := transitionNone.mp never
    have few := movesTaken standard positive (Program.loadTakes source.program taken) moves
    omega

def retrying : Model :=
  { Model.start "retrying" "Retrying.main()V" with
    methods := [⟨"Retrying.main()V", false, 0, [.pushNull, .throw, .pop, .goto 0],
      [⟨1, 2, 2, Handler.anyClass⟩]⟩] }

theorem retryingEnds : retrying.HandlersTake ∧ ∃ e, ofModel retrying Config.default = .ok e ∧
    ∃ fuel, ((e.watching []).transition Memory.empty fuel ⟨State.initial e.program, 0, []⟩).isSome = true := by
  have takes : retrying.HandlersTake := by
    intro decl member h handled
    cases List.mem_singleton.mp member
    cases List.mem_singleton.mp handled
    exact ⟨.pop, rfl, rfl⟩
  have loads : (ofModel retrying Config.default).toOption.isSome = true := by decide +kernel
  refine ⟨takes, ?_⟩
  cases accepted : ofModel retrying Config.default with
  | error error => simp [accepted, Except.toOption] at loads
  | ok e =>
    have ends := stepBoundEnds accepted [] (by decide) Memory.empty (State.initial e.program)
    exact ⟨e, rfl, _, ends.2.2 takes⟩

theorem recursForEver (blind : e.Blind) {start : Progress} {n : Nat} (moves : e.Moves memory n start p)
    (within : p.state.Within e.Unseen) (moved : e.move memory p = .goOn q) (again : p.Alike q) (fuel : Nat) :
    e.transition memory fuel start = none := by
  induction moves generalizing fuel with
  | none p =>
    suffices ∀ r, p.Alike r → e.transition memory fuel r = none from this p ⟨rfl, rfl, rfl⟩
    induction fuel with
    | zero => exact fun r _ => rfl
    | succ fuel ih =>
      intro r alike
      have step := moveAlike blind.standard (.refl memory.path) alike fun asked =>
        absurd asked (withinUnasked within)
      rw [moved] at step
      unfold transition
      cases other : e.move memory r with
      | stop last result =>
        rw [other] at step
        cases step
      | goOn next =>
        rw [other] at step
        cases step with
        | goOn alike' =>
          exact ih next ⟨again.machine.trans alike'.machine, again.current.trans alike'.current,
            again.steps.trans alike'.steps⟩
  | next first rest ih =>
    cases fuel with
    | zero => rfl
    | succ fuel =>
      rw [transition, first]
      exact ih within moved again fuel

def rethrowing : Model :=
  { Model.start "rethrowing" "Rethrowing.main()V" with
    methods := [⟨"Rethrowing.main()V", false, 0, [.pushNull, .throw], [⟨1, 2, 1, Handler.anyClass⟩]⟩] }

def after? (e : Explorer) (memory : Memory) : Nat → Progress → Option Progress
  | 0, p => some p
  | n + 1, p =>
    match e.move memory p with
    | .goOn q => after? e memory n q
    | .stop .. => none

theorem afterMoves {n : Nat} (h : e.after? memory n p = some q) : e.Moves memory n p q := by
  induction n generalizing p with
  | zero =>
    cases h
    exact .none _
  | succ n ih =>
    unfold after? at h
    split at h
    · rename_i moved
      exact .next moved (ih h)
    · cases h

def loops (e : Explorer) (memory : Memory) : Bool :=
  (e.after? memory 2 ⟨State.initial e.program, 0, []⟩).any fun p =>
    match e.move memory p with
    | .goOn q => p.state = q.state && p.steps = q.steps
    | .stop .. => false

theorem loopsForEver (blind : e.Blind) (looping : e.loops memory = true) (fuel : Nat) :
    e.transition memory fuel ⟨State.initial e.program, 0, []⟩ = none := by
  unfold loops at looping
  cases came : e.after? memory 2 ⟨State.initial e.program, 0, []⟩ with
  | none =>
    rw [came] at looping
    cases looping
  | some p =>
    rw [came, Option.any_some] at looping
    have moves := afterMoves came
    split at looping
    · rename_i q moved
      simp only [Bool.and_eq_true, decide_eq_true_eq] at looping
      refine recursForEver blind moves
        (movesWithin blind.standard blind.calls moves (initialWithin _ _)) moved ?_ fuel
      exact ⟨congrArg State.toMachine looping.1, congrArg State.current looping.1, looping.2⟩
    · cases looping

theorem rethrowingNeverEnds : 0 < Config.default.maxTransitionSteps ∧
    ∃ e, ofModel rethrowing Config.default = .ok e ∧
      (∀ fuel, e.transition Memory.empty fuel ⟨State.initial e.program, 0, []⟩ = none) ∧
      ∀ fuel, e.check fuel = none := by
  have ran : (ofModel rethrowing Config.default).toOption.any (fun e =>
      e.loops Memory.empty && e.loops (Memory.empty.note (.started e.program.name))) = true := by
    decide +kernel
  refine ⟨by decide, ?_⟩
  cases accepted : ofModel rethrowing Config.default with
  | error error => simp [accepted, Except.toOption] at ran
  | ok e =>
    simp only [accepted, Except.toOption, Option.any_some, Bool.and_eq_true] at ran
    have blind : e.Blind := by
      have blind := modelBlind accepted (by decide) e.properties
      exact ⟨blind.standard, blind.calls⟩
    refine ⟨e, rfl, loopsForEver blind ran.1, fun fuel => ?_⟩
    cases fuel with
    | zero => rfl
    | succ fuel =>
      have never := loopsForEver blind ran.2 (fuel + 1)
      simp only [check, explore, advance, never, Option.map_none]

end Explorer

end BytecodeChecker
