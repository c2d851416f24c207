import BytecodeChecker.Proofs.Commuting
import BytecodeChecker.Proofs.Transition

/-! What a move does, said once for all that moves keep. The running thread waits or hands over, runs an
instruction, or has its native call answered. What it does itself is installed in the machine, which the peer
has touched at most before. -/
namespace BytecodeChecker

def Move.outcome? : Move → Option (Progress × Option Ending)
  | goOn p => some (p, none)
  | stop p (.ok ending) => some (p, some ending)
  | stop _ (.error _) => none

theorem Move.outcomeProgress {move : Move} {q : Progress} {ending? : Option Ending}
    (h : move.outcome? = some (q, ending?)) : move.progress = q := by
  cases move with
  | goOn p =>
    cases h
    rfl
  | stop p result =>
    cases result with
    | ok ending =>
      cases h
      rfl
    | error error => cases h

theorem Move.outcomeGoesOn {move : Move} {q : Progress} (h : move.outcome? = some (q, none)) :
    move = .goOn q := by
  cases move with
  | goOn p =>
    cases h
    rfl
  | stop p result => cases result <;> cases h

def Thrown.ending? (thrown : Thrown) : Option Ending :=
  if thrown.handled then none
  else some (.finished (.violated (.uncaughtException thrown.thread thrown.className thrown.message)))

def Step.ending? : Step → Option Ending
  | .exception thrown => thrown.ending?
  | _ => none

theorem Thrown.endingChoice (thrown : Thrown) (g : Generator) : thrown.ending? ≠ some (.choice g) := by
  unfold ending?
  split <;> simp

theorem Step.endingChoice (step : Step) (g : Generator) : step.ending? ≠ some (.choice g) := by
  cases step with
  | exception thrown => exact thrown.endingChoice g
  | _ => simp [ending?]

def Notice.peerError? : Notice → Option PeerError
  | .peerError _ _ error => some error
  | _ => none

namespace Machine

variable {p : Program} {m : Machine} {t : ThreadId} {thread : GuestThread}

theorem stepUpshots {step : Step} (found : m.thread? t = some thread)
    (reported : (Machine.step p t m).2 = .ok step) (point : step ≠ .schedulingPoint) (native : step ≠ .native) :
    ∃ u, thread.upshot? p t m.heap = some u ∧ Machine.step p t m = u.outcome t m ∧ u.result = .ok step := by
  cases stepCase p t m with
  | stuck fault same => rw [same] at reported; cases reported
  | native found stack same => rw [same] at reported; cases reported; exact absurd rfl native
  | point found stack fetched relevant rested others same =>
    rw [same] at reported
    cases reported
    exact absurd rfl point
  | @ran thread' frame tag below op found' stack fetched free result =>
    cases Option.some.inj (found.symm.trans found')
    rw [result] at reported ⊢
    unfold attempt at reported ⊢
    cases performed : Frame.Work.perform p.argCount op frame with
    | error fault after =>
      rw [performed] at reported
      cases reported
    | ok effect after =>
      have installs := Upshot.effectInstalls (p := p) (threadInside found) { thread with firstStep := false } after
        tag below effect
      rw [performed] at reported
      dsimp only at reported ⊢
      rw [installs] at reported ⊢
      exact ⟨_, GuestThread.upshotIff.mpr ⟨_, _, _, _, _, _, stack, fetched, performed, rfl⟩, rfl, reported⟩

theorem installFlagged (found : m.thread? t = some thread) (u : Upshot) (flag : Bool) :
    u.install t (m.setFirstStep t flag) = u.install t m :=
  congrArg Prod.fst (outcomeFlagged found u flag)

end Machine

namespace Builtin

inductive Chooses (call : PeerCall) (m : Machine) : String → Machine → Generator → Prop where
  | int {lo hi : Int64} {g : Generator} (ranged : Generator.ofRange? "verifyGetInt(JJ)" lo hi = some g) :
      Chooses call m getIntSymbol m g
  | boolean : Chooses call m getBooleanSymbol m
      (.ofValues "verifyGetBoolean" [Value.ofBool false, Value.ofBool true])
  | start (name : String) (id : MethodId) (method : Method) :
      Chooses call m threadStartSymbol (m.spawn name id method []).1
        (.ofThreads "start" (m.spawn name id method []).1.runnable)
  | event {g : Generator} (next : nextEvents call = .ok (some g)) : Chooses call m processNextEventSymbol m g

theorem Responds.chooses {call : PeerCall} {symbol : String} {i : Invocation} {m after : Machine} {g : Generator}
    (responds : Responds call m symbol i after (.ok (.choose g))) : Chooses call m symbol after g := by
  cases responds with
  | range less ranged => exact .int ranged
  | boolean => exact .boolean
  | starts entered => exact .start _ _ _
  | event next => exact .event next
  | happens resolved chosen named happens => cases happens

theorem Chooses.started {call : PeerCall} {symbol : String} {m after : Machine} {g : Generator}
    (chooses : Chooses call m symbol after g) (start : symbol = threadStartSymbol) :
    g = .ofThreads "start" after.runnable := by
  cases chooses with
  | start name id method => rfl
  | _ => exact absurd start (by decide)

end Builtin

namespace Explorer

variable {e : Explorer} {memory : Memory} {p q : Progress} {t : ThreadId} {thread : GuestThread}

def OutOfSteps (e : Explorer) (p : Progress) : Prop :=
  0 < e.config.maxTransitionSteps ∧ e.config.maxTransitionSteps ≤ p.steps

instance (p : Progress) : Decidable (e.OutOfSteps p) := inferInstanceAs (Decidable (_ ∧ _))

inductive Obeys (e : Explorer) (t : ThreadId) (thread : GuestThread) (call : NativeCall)
    (below : List Activation) (method : Method) (h : Heap) :
    Except PeerError Reply → Upshot → Option Ending → Prop where
  | returned {value : Option Value} {step : Step}
      (result : (Upshot.ofDeliver { thread with stack := below } none value h).result = .ok step) :
      Obeys e t thread call below method h (.ok (.ret value))
        (Upshot.ofDeliver { thread with stack := below } none value h) none
  | defaulted {error : PeerError} {step : Step}
      (result : (Upshot.ofDeliver { thread with stack := below } none method.signature.defaultReturn
        h).result = .ok step) :
      Obeys e t thread call below method h (.error error)
        (Upshot.ofDeliver { thread with stack := below } none method.signature.defaultReturn h) none
  | called {tag : String} {callee : MethodId} {args : List Value} {code : Method}
      (found : e.program.method? callee = some code) :
      Obeys e t thread call below method h (.ok (.directCall tag callee args))
        ⟨{ thread with
          stack := .bytecode (Frame.start callee code args) (some tag) ::
            .native { call with phase := .awaitingDirectCall tag } :: below }, h, none, .ok .executed⟩ none
  | threw {className : String} {message : Option String} {thrown : Thrown}
      (result : (Upshot.ofThrow e.program t className message thread h).result = .ok (.exception thrown)) :
      Obeys e t thread call below method h (.ok (.throw className message))
        (Upshot.ofThrow e.program t className message thread h) thrown.ending?
  | asked {g : Generator} :
      Obeys e t thread call below method h (.ok (.choose g))
        ⟨{ thread with stack := .native { call with phase := .awaitingChoice } :: below }, h, none,
          .ok .executed⟩ (some (.choice g))
  | violated {failure : Failure} :
      Obeys e t thread call below method h (.ok (.violation failure)) ⟨thread, h, none, .ok .executed⟩
        (some (.finished (.violated failure)))

/- What a move does that does not fail. A peer that failed is told of, and no other. -/
inductive Does (e : Explorer) (memory : Memory) (p q : Progress) : Option Ending → Prop where
  | waits {thread : GuestThread} {ending : Ending}
      (found : p.state.thread? p.state.current = some thread) (stopped : thread.status ≠ .runnable)
      (idle : e.reschedule p = .stop p (.ok ending)) (same : q = p) : Does e memory p q (some ending)
  | handsOver {thread : GuestThread} {only : ThreadId}
      (found : p.state.thread? p.state.current = some thread) (stopped : thread.status ≠ .runnable)
      (alone : p.state.runnable = [only])
      (state : q.state = { p.state with toMachine := p.state.setFirstStep only true, current := only })
      (told : q.notices = p.notices) : Does e memory p q none
  | cut {thread : GuestThread} (found : p.state.thread? p.state.current = some thread)
      (running : thread.status = .runnable) (out : e.OutOfSteps p) (same : q = p) :
      Does e memory p q (some (.finished .stepLimit))
  | pauses {thread : GuestThread} (found : p.state.thread? p.state.current = some thread)
      (running : thread.status = .runnable)
      (point : Machine.step e.program p.state.current p.state.toMachine =
        (p.state.toMachine, .ok .schedulingPoint)) (same : q = p) :
      Does e memory p q (some (.choice (.ofThreads "schedule" p.state.runnable)))
  | runs {thread : GuestThread} {u : Upshot} {step : Step}
      (found : p.state.thread? p.state.current = some thread) (running : thread.status = .runnable)
      (inside : ¬ e.OutOfSteps p)
      (works : thread.upshot? e.program p.state.current p.state.heap = some u)
      (ran : Machine.step e.program p.state.current p.state.toMachine =
        u.outcome p.state.current p.state.toMachine)
      (result : u.result = .ok step)
      (state : q.state = { p.state with toMachine := u.install p.state.current p.state.toMachine })
      (told : ∀ n ∈ q.notices, n ∈ p.notices ∨ n.peerError? = none) :
      Does e memory p q step.ending?
  | answers {thread : GuestThread} {call : NativeCall} {below : List Activation} {i : Invocation}
      {method : Method} {m : Machine} {reply : Except PeerError Reply} {u : Upshot}
      {ending? : Option Ending}
      (found : p.state.thread? p.state.current = some thread) (running : thread.status = .runnable)
      (inside : ¬ e.OutOfSteps p) (stack : thread.stack = .native call :: below)
      (invoked : e.invocation call thread.firstStep = .ok i)
      (called : e.program.method? call.method = some method)
      (answer : e.callPeer memory p.state.current method call.args i p.state.toMachine = (m, reply))
      (obeys : e.Obeys p.state.current { thread with firstStep := false } call below method m.heap reply u
        ending?)
      (state : q.state = { p.state with toMachine := u.install p.state.current m })
      (told : ∀ n ∈ q.notices, n ∈ p.notices ∨ ∀ error ∈ n.peerError?, reply = .error error) :
      Does e memory p q ending?

variable {ending? : Option Ending}

theorem afterEnds {α : Type} {operation : Machine → Machine.Outcome α} {next : Progress → α → Move}
    (h : (afterOutcome p operation next).outcome? = some (q, ending?)) :
    ∃ a, (operation p.state.toMachine).2 = .ok a ∧
      (next (p.act operation).1 a).outcome? = some (q, ending?) := by
  rcases afterCases p operation next with ⟨a, result, same⟩ | ⟨fault, _, same⟩
  · rw [same] at h
    exact ⟨a, result, h⟩
  · rw [same] at h
    cases h

theorem throwEnds {thrown : Thrown} (h : (afterThrow p thrown).outcome? = some (q, ending?)) :
    q = p.note (.exception thrown) ∧ ending? = thrown.ending? := by
  unfold afterThrow at h
  unfold Thrown.ending?
  dsimp only at h
  split at h
  · rename_i handled
    cases h
    exact ⟨rfl, (if_pos handled).symm⟩
  · rename_i unhandled
    cases h
    exact ⟨rfl, (if_neg unhandled).symm⟩

theorem toldException (p : Progress) (thrown : Thrown) :
    ∀ n ∈ (p.note (.exception thrown)).notices, n ∈ p.notices ∨ n.peerError? = none := by
  intro n member
  rcases List.mem_cons.mp member with rfl | old
  · exact .inr rfl
  · exact .inl old

theorem toldInstruction (t : ThreadId) (stack : List Activation) :
    ∀ n ∈ (e.noteInstruction t stack p).notices, n ∈ p.notices ∨ n.peerError? = none := by
  unfold noteInstruction
  intro n member
  split at member
  · split at member
    · split at member
      · rcases List.mem_cons.mp member with rfl | old
        · exact .inr rfl
        · exact .inl old
      · exact .inl member
    · exact .inl member
  · exact .inl member

def heed (e : Explorer) (t : ThreadId) (method : Method) (p : Progress) : Except PeerError Reply → Move
  | .ok reply => e.obey t p reply
  | .error error =>
    afterOutcome (p.note (.peerError t method.symbol error))
      (Machine.nativeReturn t method.signature.defaultReturn) fun p _ => .goOn p

theorem dispatchHeeds {call : NativeCall} {flag : Bool} {method : Method} {i : Invocation} {m : Machine}
    {reply : Except PeerError Reply} (invoked : e.invocation call flag = .ok i)
    (called : e.program.method? call.method = some method)
    (answer : e.callPeer memory t method call.args i p.state.toMachine = (m, reply)) :
    e.dispatch memory t call flag p =
      e.heed t method { p with state := { p.state with toMachine := m.setFirstStep t false } } reply := by
  obtain ⟨⟨machine, current, depth⟩, steps, notices⟩ := p
  unfold dispatch
  dsimp only at answer
  simp only [invoked, called, Progress.act, answer]
  cases reply <;> rfl

section Answer

variable {call : NativeCall} {below : List Activation} (found : p.state.thread? t = some thread)
  (stack : thread.stack = .native call :: below)
include found stack

theorem returnObeys {value : Option Value} {step : Step}
    (result : (Machine.nativeReturn t value p.state.toMachine).2 = .ok step) :
    (Upshot.ofDeliver { thread with stack := below } none value p.state.heap).result = .ok step ∧
      (Machine.nativeReturn t value p.state.toMachine).1 =
        (Upshot.ofDeliver { thread with stack := below } none value p.state.heap).install t
          p.state.toMachine := by
  have same : Machine.nativeReturn t value p.state.toMachine =
      (Upshot.ofDeliver { thread with stack := below } none value p.state.heap).outcome t
        p.state.toMachine := by
    unfold Machine.nativeReturn
    simp only [found, stack]
    exact Upshot.deliverInstalls _ none value
  rw [same] at result ⊢
  exact ⟨result, rfl⟩

theorem obeyDoes {method : Method} {reply : Reply}
    (h : (e.obey t p reply).outcome? = some (q, ending?)) :
    ∃ u, e.Obeys t thread call below method p.state.heap (.ok reply) u ending? ∧
      q.state = { p.state with toMachine := u.install t p.state.toMachine } ∧
      ∀ n ∈ q.notices, n ∈ p.notices ∨ n.peerError? = none := by
  cases reply with
  | ret value =>
    obtain ⟨step, result, h⟩ := afterEnds h
    cases h
    obtain ⟨delivered, machine⟩ := returnObeys found stack result
    exact ⟨_, .returned delivered, by rw [← machine]; rfl, fun n member => .inl member⟩
  | choose g =>
    cases h
    have waits : awaitChoice thread =
        { thread with stack := .native { call with phase := .awaitingChoice } :: below } := by
      simp only [awaitChoice, stack]
    have machine : p.state.toMachine.modifyThread t awaitChoice =
        p.state.toMachine.setThread t (awaitChoice thread) := by
      simp only [Machine.modifyThread, found]
    refine ⟨_, .asked, ?_, fun n member => .inl member⟩
    show State.mk (p.state.toMachine.modifyThread t awaitChoice) _ _ = _
    rw [machine, waits]
    rfl
  | directCall tag callee args =>
    obtain ⟨_, result, h⟩ := afterEnds h
    cases h
    have machine : ∃ code, e.program.method? callee = some code ∧
        (Machine.directCall e.program t tag callee args p.state.toMachine).1 =
          p.state.toMachine.setThread t { thread with
            stack := .bytecode (Frame.start callee code args) (some tag) ::
              .native { call with phase := .awaitingDirectCall tag } :: below } := by
      unfold Machine.directCall at result ⊢
      split at result
      · cases result
      · rename_i code known
        split at result
        · cases result
        · rename_i interpreted
          refine ⟨code, known, ?_⟩
          simp only [interpreted, found, stack]
          rfl
    obtain ⟨code, known, machine⟩ := machine
    refine ⟨_, .called known, ?_, fun n member => .inl member⟩
    show State.mk (Machine.directCall e.program t tag callee args p.state.toMachine).1 _ _ = _
    rw [machine]
    rfl
  | throw className message =>
    obtain ⟨thrown, result, h⟩ := afterEnds h
    obtain ⟨rfl, rfl⟩ := throwEnds h
    have same := Upshot.throwInstalls (p := e.program) (Machine.threadInside found) className message thread
    rw [Machine.setSame found] at same
    have raised : (Upshot.ofThrow e.program t className message thread p.state.heap).result =
        .ok (.exception thrown) := by
      have outcome := congrArg Prod.snd same
      simp only [Machine.thrownStep, result, Upshot.outcome] at outcome
      exact outcome.symm
    refine ⟨_, .threw raised, ?_, toldException _ thrown⟩
    show State.mk (Machine.throw e.program t className message p.state.toMachine).1 _ _ = _
    exact congrArg (fun m => State.mk m _ _) (congrArg Prod.fst same)
  | violation failure =>
    cases h
    refine ⟨_, .violated, ?_, fun n member => .inl member⟩
    show p.state = State.mk (p.state.toMachine.setThread t thread) _ _
    rw [Machine.setSame found]

theorem heedDoes {method : Method} {reply : Except PeerError Reply}
    (h : (e.heed t method p reply).outcome? = some (q, ending?)) :
    ∃ u, e.Obeys t thread call below method p.state.heap reply u ending? ∧
      q.state = { p.state with toMachine := u.install t p.state.toMachine } ∧
      ∀ n ∈ q.notices, n ∈ p.notices ∨ ∀ error ∈ n.peerError?, reply = .error error := by
  cases reply with
  | ok reply =>
    obtain ⟨u, obeys, state, told⟩ := obeyDoes found stack h
    refine ⟨u, obeys, state, fun n member => (told n member).imp_right fun quiet error failed => ?_⟩
    rw [quiet] at failed
    cases failed
  | error error =>
    obtain ⟨step, result, h⟩ := afterEnds h
    cases h
    obtain ⟨delivered, machine⟩ := returnObeys (p := p.note (.peerError t method.symbol error)) found stack result
    refine ⟨_, .defaulted delivered, ?_, fun n member => ?_⟩
    · show State.mk (Machine.nativeReturn t method.signature.defaultReturn p.state.toMachine).1 _ _ = _
      exact congrArg (fun m => State.mk m _ _) machine
    · rcases List.mem_cons.mp member with rfl | old
      · exact .inr fun error' same => by cases same; rfl
      · exact .inl old

end Answer

theorem answeredTouches (standard : e.Standard) {method : Method} {args : List Value} {i : Invocation}
    {m m' : Machine} {reply : Except PeerError Reply} (answer : e.callPeer memory t method args i m = (m', reply)) :
    Builtin.Touched m m' := by
  have touched := callPeerTouches (t := t) standard memory method args i m
  rwa [answer] at touched

theorem dispatchDoes (standard : e.Standard) {call : NativeCall} {below : List Activation}
    (found : p.state.thread? p.state.current = some thread) (running : thread.status = .runnable)
    (inside : ¬ e.OutOfSteps p) (stack : thread.stack = .native call :: below)
    (h : (e.dispatch memory p.state.current call thread.firstStep p.count).outcome? = some (q, ending?)) :
    e.Does memory p q ending? := by
  cases invoked : e.invocation call thread.firstStep with
  | error error =>
    unfold dispatch at h
    rw [invoked] at h
    cases h
  | ok i =>
    cases called : e.program.method? call.method with
    | none =>
      unfold dispatch at h
      simp only [invoked, called] at h
      cases h
    | some method =>
      cases answer : e.callPeer memory p.state.current method call.args i p.state.toMachine with
      | mk m reply =>
        have there := Builtin.touchedThread (answeredTouches standard answer) found
        rw [dispatchHeeds (p := p.count) invoked called answer] at h
        let rests : GuestThread := { thread with firstStep := false }
        have onTop : rests.stack = .native call :: below := stack
        obtain ⟨u, obeys, state, told⟩ := heedDoes (Machine.flaggedThread there false) onTop h
        rw [Machine.installFlagged there] at state
        have heap : (m.setFirstStep p.state.current false).heap = m.heap := Machine.flagHeap _ false
        rw [heap] at obeys
        exact .answers found running inside stack invoked called answer obeys state told

theorem rescheduleDoes (found : p.state.thread? p.state.current = some thread) (stopped : thread.status ≠ .runnable)
    (h : (e.reschedule p).outcome? = some (q, ending?)) : e.Does memory p q ending? := by
  have comes := reschedules e p
  generalize idle : e.reschedule p = mv at comes h
  cases comes with
  | handsOver alone =>
    cases h
    exact .handsOver found stopped alone rfl rfl
  | _ =>
    cases h
    exact .waits found stopped idle rfl

theorem moveDoes (standard : e.Standard) (h : (e.move memory p).outcome? = some (q, ending?)) :
    e.Does memory p q ending? := by
  unfold move at h
  dsimp only at h
  split at h
  · cases h
  · rename_i thread found
    split at h
    · rename_i stopped
      exact rescheduleDoes found stopped h
    · rename_i running
      have running : thread.status = .runnable := Decidable.not_not.mp running
      split at h
      · rename_i out
        cases h
        exact .cut found running out rfl
      · rename_i inside
        obtain ⟨step, reported, h⟩ := afterEnds h
        have upshot := Machine.stepUpshots (p := e.program) found reported
        have machine : ∀ {u : Upshot}, Machine.step e.program p.state.current p.state.toMachine =
            u.outcome p.state.current p.state.toMachine →
            (p.act (Machine.step e.program p.state.current)).1.state =
              { p.state with toMachine := u.install p.state.current p.state.toMachine } := by
          intro u ran
          exact congrArg (fun m => State.mk m _ _) (congrArg Prod.fst ran)
        cases step with
        | executed =>
          obtain ⟨u, works, ran, result⟩ := upshot (by simp) (by simp)
          cases h
          refine .runs found running inside works ran result ?_ (toldInstruction _ _)
          rw [noteState]
          exact machine ran
        | schedulingPoint =>
          obtain ⟨_, _, _, _, _, _, _, unchanged⟩ := Machine.stepPoint reported
          cases h
          have same : (p.act (Machine.step e.program p.state.current)).1 = p := by
            obtain ⟨⟨machine, current, depth⟩, steps, notices⟩ := p
            simp only [Progress.act, unchanged]
          rw [same]
          exact .pauses found running (Prod.ext unchanged reported) rfl
        | native =>
          obtain ⟨_, call, below, found', stack, unchanged⟩ := Machine.stepNative reported
          cases Option.some.inj (found.symm.trans found')
          have same : (p.act (Machine.step e.program p.state.current)).1 = p := by
            obtain ⟨⟨machine, current, depth⟩, steps, notices⟩ := p
            simp only [Progress.act, unchanged]
          dsimp only at h
          rw [stack, same] at h
          exact dispatchDoes standard found running inside stack h
        | blocked o =>
          obtain ⟨u, works, ran, result⟩ := upshot (by simp) (by simp)
          cases h
          exact .runs found running inside works ran result (machine ran) fun n member => .inl member
        | terminated =>
          obtain ⟨u, works, ran, result⟩ := upshot (by simp) (by simp)
          cases h
          exact .runs found running inside works ran result (machine ran) fun n member => .inl member
        | exception thrown =>
          obtain ⟨u, works, ran, result⟩ := upshot (by simp) (by simp)
          obtain ⟨rfl, rfl⟩ := throwEnds h
          exact .runs found running inside works ran result (machine ran) (toldException _ thrown)

end Explorer

end BytecodeChecker
