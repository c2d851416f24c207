import BytecodeChecker.Proofs.Calls

/-! Native calls that fail. The call gives way to the default value of its type, on the operands of its caller,
and the run goes on. What else a peer has done by then stays done: an event is noted before the arguments of
its action are counted. -/
namespace BytecodeChecker

def Rooted (stack : List Activation) : Prop := ∀ call, ¬ [.native call] <:+ stack

namespace Rooted

variable {below old new : List Activation}

theorem nil : Rooted [] := by
  intro call last
  cases List.suffix_nil.mp last

theorem suffix (rooted : Rooted old) (beneath : new <:+ old) : Rooted new :=
  fun call last => rooted call (last.trans beneath)

theorem code (rooted : Rooted below) (f : Frame) (tag : Option String) : Rooted (.bytecode f tag :: below) := by
  intro call last
  rcases List.suffix_cons_iff.mp last with same | inside
  · cases same
  · exact rooted call inside

theorem push {lower : Activation} (rooted : Rooted (lower :: below)) (top : Activation) :
    Rooted (top :: lower :: below) := by
  intro call last
  rcases List.suffix_cons_iff.mp last with same | inside
  · cases same
  · exact rooted call inside

theorem beneath {call : NativeCall} (rooted : Rooted (.native call :: below)) :
    ∃ lower rest, below = lower :: rest := by
  cases below with
  | nil => exact absurd (List.suffix_refl _) (rooted call)
  | cons lower rest => exact ⟨lower, rest, rfl⟩

theorem renative {call : NativeCall} (rooted : Rooted (.native call :: below)) (call' : NativeCall) :
    Rooted (.native call' :: below) := by
  obtain ⟨lower, rest, rfl⟩ := rooted.beneath
  exact (rooted.suffix (List.suffix_cons _ _)).push _

theorem unwound {p : Program} {o : ObjectId} {className : String} (rooted : Rooted old)
    (h : Machine.unwound? p o className old = some new) : Rooted new := by
  induction old with
  | nil => cases h
  | cons top below ih =>
    have lower := rooted.suffix (List.suffix_cons top below)
    cases top with
    | native call => exact ih lower h
    | bytecode f tag =>
      unfold Machine.unwound? at h
      split at h
      · cases Option.some.inj h
        exact lower.code _ _
      · exact ih lower h

theorem delivers {tag : Option String} {value : Option Value} (rooted : Rooted old) (h : Delivers tag value old new) :
    Rooted new := by
  cases h with
  | ended => exact rooted
  | caller f callerTag below => exact (rooted.suffix (List.suffix_cons _ _)).code _ _
  | native call below tagged => exact rooted.renative _

theorem unwinds {p : Program} {t : ThreadId} {thread : GuestThread} {h : Heap} (rooted : Rooted thread.stack)
    (o : ObjectId) : Rooted (Upshot.ofUnwind p t o thread h).thread.stack := by
  unfold Upshot.ofUnwind
  split
  · exact rooted
  · dsimp only
    split
    · rename_i unwound
      exact rooted.unwound unwound
    · exact .nil

theorem upshot {p : Program} {t : ThreadId} {thread : GuestThread} {h : Heap} {u : Upshot} {step : Step}
    (rooted : Rooted thread.stack) (works : thread.upshot? p t h = some u) (result : u.result = .ok step) :
    Rooted u.thread.stack := by
  obtain ⟨frame, tag, below, op, effect, after, stack, fetched, performed, rfl⟩ := GuestThread.upshotIff.mp works
  rw [stack] at rooted
  have lower := rooted.suffix (List.suffix_cons _ _)
  rcases Upshot.effectStack after tag below effect with ⟨f, goesOn⟩ | ⟨callee, args, rfl⟩ | ⟨value, rfl⟩ |
    ⟨o, h', unwinds⟩
  · rw [goesOn]
    exact lower.code f tag
  · exact (lower.code after tag).push _
  · exact lower.delivers (Upshot.delivered result)
  · rw [unwinds]
    exact (lower.code after tag).unwinds o

end Rooted

namespace Explorer

variable {e : Explorer} {a : Point} {past : List Point}

theorem obeysRooted {t : ThreadId} {thread : GuestThread} {call : NativeCall} {below : List Activation}
    {method : Method} {h : Heap} {reply : Except PeerError Reply} {u : Upshot} {ending? : Option Ending}
    (rooted : Rooted thread.stack) (stack : thread.stack = .native call :: below)
    (obeys : e.Obeys t thread call below method h reply u ending?) : Rooted u.thread.stack := by
  have onTop := rooted
  rw [stack] at onTop
  have lower := onTop.suffix (List.suffix_cons _ _)
  cases obeys with
  | returned result => exact lower.delivers (Upshot.delivered result)
  | defaulted result => exact lower.delivers (Upshot.delivered result)
  | called found => exact (onTop.renative _).code _ _
  | threw result => exact rooted.unwinds _
  | asked => exact onTop.renative _
  | violated => exact rooted

theorem moveRooted (standard : e.Standard) {q : Progress} {ending? : Option Ending}
    (h : (e.moveAt a).outcome? = some (q, ending?)) (rooted : ∀ t, Rooted (a.state.stackOf t)) (t : ThreadId) :
    Rooted (q.state.stackOf t) := by
  unfold Point.state at rooted
  cases moveDoes standard h with
  | waits found stopped idle same => rw [same]; exact rooted t
  | handsOver found stopped alone state told =>
    rw [state]
    dsimp only
    rw [Machine.flagStack]
    exact rooted t
  | cut found running out same => rw [same]; exact rooted t
  | pauses found running point same => rw [same]; exact rooted t
  | runs found running inside works ran result state told =>
    rw [state]
    dsimp only
    rw [Machine.installStack (Machine.threadInside found)]
    split
    · have own := rooted a.progress.state.current
      rw [Machine.threadStack found] at own
      exact own.upshot works result
    · exact rooted t
  | @answers thread call below i method m reply u ending? found running inside stack invoked called answer obeys
      state told =>
    have touched := answeredTouches standard answer
    rw [state]
    dsimp only
    rw [Machine.installStack (Machine.threadInside (Builtin.touchedThread touched found))]
    split
    · have own := rooted a.progress.state.current
      rw [Machine.threadStack found] at own
      have onTop : GuestThread.stack { thread with firstStep := false } = .native call :: below := stack
      refine obeysRooted ?_ onTop obeys
      exact own
    · rcases Builtin.touchedStack touched t with same | ⟨_, f, new⟩
      · rw [same]
        exact rooted t
      · rw [new]
        exact Rooted.nil.code f none

theorem Chronicle.rooted (standard : e.Standard) (way : e.Chronicle past a) (t : ThreadId) :
    Rooted (a.state.stackOf t) := by
  induction way generalizing t with
  | begins empty =>
    refine initialHolds (fun m => ∀ t, Rooted (m.stackOf t)) (fun _ => .nil) ?_ e.program t
    intro m name id method before t
    rcases Builtin.touchedStack (.spawned name id method) t with same | ⟨_, f, new⟩
    · rw [same]
      exact before t
    · rw [new]
      exact Rooted.nil.code f none
  | @moves past memory p q before moved ih =>
    have goesOn : (e.moveAt ⟨memory, p⟩).outcome? = some (q, none) := goesOnOutcome moved
    exact moveRooted standard goesOn ih t
  | @chooses past memory memory' p q g g' i s before stopped judged chosen path goesOn ih =>
    have ends : (e.moveAt ⟨memory, p⟩).outcome? = some (q, some (.choice g)) := stopsOutcome stopped
    rw [path] at goesOn
    have same : s.stackOf t = q.state.stackOf t := appliedStack goesOn t
    change Rooted (s.stackOf t)
    rw [same]
    exact moveRooted standard ends ih t

end Explorer

namespace Builtin

/- What a peer that failed leaves of a heap. Only the arguments of an action are looked at after something was
done. -/
def remains (error : PeerError) (h : Heap) : Heap :=
  match error with
  | .actionArity event _ _ => h.setStatic currentEventField (.str event)
  | _ => h

def Aside {α : Type} (answer : Except PeerError α) : Prop :=
  ∀ event expected actual, answer ≠ .error (.actionArity event expected actual)

theorem Aside.remains {α : Type} {answer : Except PeerError α} {error : PeerError} (aside : Aside answer)
    (failed : answer = .error error) (h : Heap) : remains error h = h := by
  cases error with
  | actionArity event expected actual => exact absurd failed (aside event expected actual)
  | _ => rfl

theorem Happens.failed {call : PeerCall} {event : Event} {h : Heap} {error : PeerError}
    (happens : Happens call (noted event h) event (.error error)) : noted event h = remains error h := by
  cases happens with
  | mismatches bound differs => rfl

theorem Responds.failed {call : PeerCall} {symbol : String} {i : Invocation} {m after : Machine} {error : PeerError}
    (responds : Responds call m symbol i after (.error error)) :
    after = { m with heap := remains error m.heap } := by
  cases responds with
  | refuses wrong =>
    cases error with
    | actionArity event expected actual => exact wrong.elim
    | _ => rfl
  | misses data missing => rfl
  | missesEvent missing => rfl
  | happens resolved chosen named happens => rw [happens.failed]

end Builtin

def Dispatch.error? (d : Dispatch) : Option PeerError :=
  match d.reply with
  | .ok _ => none
  | .error error => some error

theorem Dispatch.errorSome {error : PeerError} (d : Dispatch) (h : d.error? = some error) : d.reply = .error error := by
  unfold error? at h
  split at h
  · cases h
  · rename_i failed
    cases Option.some.inj h
    exact failed

namespace Explorer

variable {e : Explorer} {a : Point} {past : List Point} {d : Dispatch} {error : PeerError}

theorem Dispatched.caller (loaded : e.Loaded) (way : e.Chronicle past a) {thread : GuestThread}
    {below : List Activation} (dispatched : e.Dispatched a d thread below) :
    ∃ frame tag rest, below = .bytecode frame tag :: rest := by
  have rooted := way.rooted loaded.standard a.state.current
  rw [Machine.threadStack dispatched.found, dispatched.stack] at rooted
  obtain ⟨lower, rest, rfl⟩ := rooted.beneath
  cases lower with
  | bytecode frame tag => exact ⟨frame, tag, rest, rfl⟩
  | native call =>
    have stacked := ((way.wellFormed loaded).machine.threads _ thread dispatched.found).stack
    rw [dispatched.stack] at stacked
    obtain ⟨_, _, same, _⟩ := (List.isChain_cons_cons.mp stacked.standing).1
    cases same

def defaulted (m : Machine) (t : ThreadId) (thread : GuestThread) (frame : Frame) (tag : Option String)
    (rest : List Activation) (value : Option Value) (error : PeerError) : Machine :=
  { m with heap := Builtin.remains error m.heap }.setThread t { thread with
    stack := .bytecode { frame with operands := value.toList ++ frame.operands, pc := frame.pc + 1 } tag :: rest
    firstStep := false }

theorem returnDefaults {m : Machine} {t : ThreadId} {thread : GuestThread} {call : NativeCall} {frame : Frame}
    {tag : Option String} {rest : List Activation} (found : m.thread? t = some thread)
    (stack : thread.stack = .native call :: .bytecode frame tag :: rest) (value : Option Value) :
    Machine.nativeReturn t value ({ m with heap := Builtin.remains error m.heap }.setFirstStep t false) =
      (defaulted m t thread frame tag rest value error, .ok .executed) := by
  have kept : { m with heap := Builtin.remains error m.heap }.thread? t = some thread := found
  unfold Machine.nativeReturn
  simp only [Machine.flaggedThread kept, stack]
  rw [Upshot.deliverInstalls, Machine.outcomeFlagged kept, Machine.flagHeap]
  cases value <;> rfl

theorem Dispatched.defaults (standard : e.Standard) {thread : GuestThread} {frame : Frame} {tag : Option String}
    {rest : List Activation} (dispatched : e.Dispatched a d thread (.bytecode frame tag :: rest))
    (failed : d.reply = .error error) :
    e.moveAt a = .goOn ⟨⟨defaulted a.state.toMachine d.thread thread frame tag rest
      d.method.signature.defaultReturn error, a.state.current, a.state.depth⟩, a.progress.steps + 1,
      .peerError d.thread d.method.symbol error :: a.progress.notices⟩ := by
  obtain ⟨memory, ⟨⟨m, current, depth⟩, steps, notices⟩⟩ := a
  obtain ⟨t, height, call, method, i, reply⟩ := d
  obtain ⟨found, running, inside, stack, invoked, called, rfl, same, answer⟩ := dispatched
  simp only [Point.state] at *
  cases peer : e.callPeer memory t method call.args i m with
  | mk m' result =>
    have result : result = .error error := by
      rw [peer] at answer
      exact answer.trans failed
    subst result
    have left := (calledResponds standard (congrArg Prod.snd peer)).failed
    rw [peer] at left
    cases left
    unfold moveAt
    dsimp only
    rw [moveNative found running inside stack memory, dispatchHeeds invoked called peer]
    simp only [heed, afterOutcome, Progress.act, Progress.count, Progress.note, returnDefaults found stack]

theorem dispatchDefaults (loaded : e.Loaded) (way : e.Chronicle past a) (dispatched : e.dispatchAt? a = some d)
    (failed : d.reply = .error error) : ∃ thread frame tag rest, a.state.thread? d.thread = some thread ∧
      thread.stack = .native d.call :: .bytecode frame tag :: rest ∧
      e.moveAt a = .goOn ⟨⟨defaulted a.state.toMachine d.thread thread frame tag rest
        d.method.signature.defaultReturn error, a.state.current, a.state.depth⟩, a.progress.steps + 1,
        .peerError d.thread d.method.symbol error :: a.progress.notices⟩ := by
  obtain ⟨thread, below, dispatched⟩ := dispatchAtIff.mp dispatched
  obtain ⟨frame, tag, rest, rfl⟩ := dispatched.caller loaded way
  refine ⟨thread, frame, tag, rest, ?_, dispatched.stack, dispatched.defaults loaded.standard failed⟩
  rw [dispatched.own]
  exact dispatched.found

/- A native call that fails gives way to the default value of its type, on the operands of the frame that made it.
The frame goes on behind the call, and all else stays, except for the event whose action does not take its
arguments. -/
theorem failedCallDefaults {model : Model} {config : Config} (accepted : ofModel model config = .ok e)
    (properties : List Property) (way : (e.watching properties).Chronicle past a)
    (dispatched : (e.watching properties).dispatchAt? a = some d) (failed : d.reply = .error error) :
    ∃ thread frame tag rest q, a.state.thread? d.thread = some thread ∧
      thread.stack = .native d.call :: .bytecode frame tag :: rest ∧
      (e.watching properties).moveAt a = .goOn q ∧
      q.notices = .peerError d.thread d.method.symbol error :: a.progress.notices ∧
      q.state = { a.state with
        heap := Builtin.remains error a.state.heap
        threads := a.state.threads.setIfInBounds d.thread.index { thread with
          stack := .bytecode { frame with
            operands := d.method.signature.defaultReturn.toList ++ frame.operands, pc := frame.pc + 1 } tag :: rest
          firstStep := false } } ∧
      ((∀ event expected actual, error ≠ .actionArity event expected actual) → q.state.heap = a.state.heap) := by
  obtain ⟨thread, frame, tag, rest, found, stack, moved⟩ :=
    dispatchDefaults (modelLoaded accepted properties) way dispatched failed
  refine ⟨thread, frame, tag, rest, _, found, stack, moved, rfl, rfl, fun other => ?_⟩
  have aside : Builtin.Aside (.error error : Except PeerError Unit) := by
    intro event expected actual same
    exact other event expected actual (Except.error.inj same)
  exact aside.remains rfl _

theorem dispatchRun (model : Model) (config : Config) (moves : Nat) (test : Point → Dispatch → Bool)
    (h : ((ofModel model config).toOption.bind fun e =>
      ((e.watching []).onward moves ⟨Memory.empty, ⟨State.initial e.program, 0, []⟩⟩).bind fun w =>
        ((e.watching []).dispatchAt? w.2).map fun d => test w.2 d) = some true) :
    ∃ e past a d, ofModel model config = .ok e ∧ (e.watching []).Chronicle past a ∧
      (e.watching []).dispatchAt? a = some d ∧ test a d = true := by
  obtain ⟨e, made, h⟩ := Option.bind_eq_some_iff.mp h
  obtain ⟨w, went, h⟩ := Option.bind_eq_some_iff.mp h
  obtain ⟨d, dispatched, passed⟩ := Option.map_eq_some_iff.mp h
  exact ⟨e, _, w.2, d, okSome made, onwardChronicle (.begins rfl) went, dispatched, passed⟩

def asking : Model :=
  (Model.start "asking" "Asking.main()V").withMethod "Asking.main()V" 0
    [.pushLong 7, .invokeStatic "Asking.count()J", .arith .add, .pop, .ret none]

def askingAt (pc : Nat) (operands : List Value) : Activation :=
  .bytecode ⟨⟨0⟩, pc, Locals.ofArgs 0 [], operands⟩ none

theorem askingDefaults : ∃ (e : Explorer) (past : List Point) (a : Point) (d : Dispatch) (thread : GuestThread)
    (q : Progress), ofModel asking Config.default = .ok e ∧ (e.watching []).Chronicle past a ∧
    (e.watching []).dispatchAt? a = some d ∧ d.reply = .error (.noPeer "Asking.count()J") ∧
    a.state.thread? ⟨0⟩ = some thread ∧ thread.stack = [.native d.call, askingAt 1 [.int 7]] ∧
    (e.watching []).moveAt a = .goOn q ∧ q.state = { a.state with
      threads := a.state.threads.setIfInBounds 0
        { thread with stack := [askingAt 2 [.int 0, .int 7]], firstStep := false } } := by
  obtain ⟨e, past, a, d, accepted, way, dispatched, passed⟩ := dispatchRun asking Config.default 2
    (fun a d => d.error? == some (.noPeer "Asking.count()J") && d.thread == ⟨0⟩ &&
      d.method.signature.defaultReturn == some (.int 0) &&
      a.state.stackOf ⟨0⟩ == [.native d.call, askingAt 1 [.int 7]]) (by decide +kernel)
  simp only [Bool.and_eq_true, beq_iff_eq] at passed
  obtain ⟨⟨⟨failed, own⟩, default⟩, here⟩ := passed
  have failed := d.errorSome failed
  obtain ⟨thread, frame, tag, rest, q, found, stack, moved, told, state, heap⟩ :=
    failedCallDefaults accepted [] way dispatched failed
  rw [own] at found
  rw [Machine.threadStack found] at here
  rw [stack] at here
  cases here
  refine ⟨e, past, a, d, thread, q, accepted, way, dispatched, failed, found, stack, moved, ?_⟩
  rw [state, own, default]
  rfl

def mismatched : Model :=
  { (Model.start "mismatched" "Mismatched.main()V").withMethod "Mismatched.main()V" 0
      [.invokeStatic Builtin.processNextEventSymbol, .pop, .ret none]
      |>.withMethod "Mismatched.set(J)V" 1 [.ret none] with
    events := some (.event (.normal "set" []))
    actions := NameMap.empty.insert "set" "Mismatched.set(J)V" }

theorem mismatchedNoted : ∃ (e : Explorer) (past : List Point) (a : Point) (d : Dispatch) (q : Progress),
    ofModel mismatched Config.default = .ok e ∧ (e.watching []).Chronicle past a ∧
    (e.watching []).dispatchAt? a = some d ∧ d.reply = .error (.actionArity "set" 1 0) ∧
    (e.watching []).moveAt a = .goOn q ∧ a.state.heap.static? Builtin.currentEventField = none ∧
    q.state.heap.static? Builtin.currentEventField = some (.str "set") := by
  obtain ⟨e, past, a, d, accepted, way, dispatched, passed⟩ := dispatchRun mismatched Config.default 2
    (fun a d => d.error? == some (.actionArity "set" 1 0) &&
      (a.state.heap.static? Builtin.currentEventField).isNone) (by decide +kernel)
  simp only [Bool.and_eq_true, beq_iff_eq, Option.isNone_iff_eq_none] at passed
  have failed := d.errorSome passed.1
  obtain ⟨thread, frame, tag, rest, found, stack, moved⟩ :=
    dispatchDefaults (modelLoaded accepted []) way dispatched failed
  refine ⟨e, past, a, d, _, accepted, way, dispatched, failed, moved, passed.2, ?_⟩
  exact (NameMap.getInsert _ _ _ _).trans (if_pos rfl)

end Explorer

end BytecodeChecker
