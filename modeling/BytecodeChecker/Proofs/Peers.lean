import BytecodeChecker.Proofs.Loading
import BytecodeChecker.Proofs.Natives
import BytecodeChecker.Proofs.Ranges

/-! What the built-in peers look at, what they change and what they answer. No peer looks further back on
the path than to the last decision and to the last event; only one of them looks at the coverage. What they
answer is listed once, and all else that is said of them follows from the list. -/
namespace BytecodeChecker

structure Path.Alike (p q : Path) : Prop where
  last : p.last?.map (·.generator) = q.last?.map (·.generator)
  event : (p.lastOf? .event).map Generator.chosenNode? =
    (q.lastOf? .event).map Generator.chosenNode?

theorem Path.Alike.refl (p : Path) : p.Alike p := ⟨rfl, rfl⟩

theorem Path.Alike.lastNode {p q : Path} (h : p.Alike q) : p.lastNode? = q.lastNode? := by
  have event := h.event
  unfold Path.lastNode?
  cases hp : p.lastOf? .event with
  | none =>
    cases hq : q.lastOf? .event with
    | none => rfl
    | some g => simp [hp, hq] at event
  | some f =>
    cases hq : q.lastOf? .event with
    | none => simp [hp, hq] at event
    | some g => simpa [hp, hq] using event

structure Generator.Fresh (g : Generator) : Prop where
  cursor : g.cursor = none
  total : 0 < g.total

theorem Machine.runnableSpawned (m : Machine) (name : String) (id : MethodId) (method : Method)
    (args : List Value) : 0 < (m.spawn name id method args).1.runnable.length := by
  simp [runnable, threadsWhere, spawn, List.zipIdx_append]

def PeerError.OfCall : PeerError → Prop
  | .noPeer _ | .badArgument .. | .unknownMethod _ | .badThreadEntry _ | .noEventTree => True
  | _ => False

namespace Builtin

inductive Touched (m : Machine) : Machine → Prop where
  | same : Touched m m
  | static (field : String) (v : Value) : Touched m { m with heap := m.heap.setStatic field v }
  | spawned (name : String) (id : MethodId) (method : Method) :
      Touched m (m.spawn name id method []).1

theorem touchedThread {m m' : Machine} (touched : Touched m m') {t : ThreadId}
    {thread : GuestThread} (found : m.thread? t = some thread) : m'.thread? t = some thread := by
  cases touched with
  | same => exact found
  | static field v => exact found
  | spawned name id method =>
    obtain ⟨inside, same⟩ := Array.getElem?_eq_some_iff.mp found
    simp [Machine.spawn, Machine.thread?, Array.getElem?_push, Nat.ne_of_lt inside, inside, same]

theorem touchedWithin {kind : MethodId → Prop} {m m' : Machine} (touched : Touched m m')
    (h : m.Within kind) : m'.Within kind := by
  cases touched with
  | same => exact h
  | static field v => exact Machine.withinHeap h _
  | spawned name id method => exact Machine.withinSpawn h name id method []

inductive Known : String → Peer → Prop where
  | getInt : Known getIntSymbol getInt
  | getBoolean : Known getBooleanSymbol getBoolean
  | assertTrue : Known assertTrueSymbol assertTrue
  | threadStart : Known threadStartSymbol threadStart
  | processNextEvent : Known processNextEventSymbol processNextEvent
  | getEventName : Known getEventNameSymbol getEventName
  | checkPath : Known checkPathSymbol checkPath
  | isCompletelyCovered : Known isCompletelyCoveredSymbol isCompletelyCovered

theorem registered {symbol : String} {peer : Peer}
    (h : registry.peers.get? symbol = some peer) : Known symbol peer := by
  simp only [registry, Registry.withPeer, NameMap.getInsert] at h
  split at h
  · rename_i same; cases h; subst same; exact .isCompletelyCovered
  split at h
  · rename_i same; cases h; subst same; exact .checkPath
  split at h
  · rename_i same; cases h; subst same; exact .getEventName
  split at h
  · rename_i same; cases h; subst same; exact .processNextEvent
  split at h
  · rename_i same; cases h; subst same; exact .threadStart
  split at h
  · rename_i same; cases h; subst same; exact .assertTrue
  split at h
  · rename_i same; cases h; subst same; exact .getBoolean
  split at h
  · rename_i same; cases h; subst same; exact .getInt
  · simp [Registry.empty] at h

theorem symbolsDistinct : [getIntSymbol, getBooleanSymbol, assertTrueSymbol, threadStartSymbol,
    processNextEventSymbol, getEventNameSymbol, checkPathSymbol, isCompletelyCoveredSymbol].Nodup := by
  decide +kernel

theorem knownRegistered {symbol : String} {peer : Peer} (known : Known symbol peer) :
    registry.peers.get? symbol = some peer := by
  have apart := symbolsDistinct
  simp only [List.nodup_cons, List.mem_cons, not_or] at apart
  simp only [registry, Registry.withPeer, NameMap.getInsert]
  cases known <;> grind

theorem registryActions : registry.actions = NameMap.empty := rfl

theorem registryTree : registry.tree = none := rfl

def Guests (actions : NameMap Action) : Prop :=
  ∀ event action, actions.get? event = some action → ∃ callee, action = .guest callee

theorem rangeFresh {id : String} {lo hi : Int64} {g : Generator} (less : lo < hi)
    (h : Generator.ofRange? id lo hi = some g) : g.Fresh := by
  obtain ⟨_, rfl⟩ := Generator.rangeMade h
  refine ⟨rfl, ?_⟩
  have order := Int64.lt_iff_toInt_lt.mp less
  simp only [Generator.total, Choices.total, Choices.rangeSize]
  omega

theorem eventsFresh {id : String} {node : EventNode} (inner : node.isLeaf = false) :
    (Generator.ofEvents id node).Fresh := by
  refine ⟨rfl, ?_⟩
  simp only [EventNode.isLeaf, List.isEmpty_eq_false_iff_exists_mem] at inner
  obtain ⟨child, member⟩ := inner
  exact List.length_pos_of_mem member

theorem nextEventsMade {call : PeerCall} {g : Generator} (h : nextEvents call = .ok (some g)) :
    ∃ node, node.isLeaf = false ∧ g = .ofEvents eventGenerator node ∧
      ((∃ previous, call.path.lastOf? .event = some previous ∧ previous.chosenNode? = some node) ∨
        ∃ tree, call.tree = some tree ∧ node = tree.root) := by
  unfold nextEvents at h
  split at h
  · rename_i previous last
    obtain ⟨node, chosen, made⟩ := Option.bind_eq_some_iff.mp (Except.ok.inj h)
    split at made
    · cases made
    · rename_i inner
      cases Option.some.inj made
      exact ⟨node, by simpa using inner, rfl, .inl ⟨previous, last, chosen⟩⟩
  · obtain ⟨tree, found, made⟩ := Load.bindOk.mp h
    have made := Except.ok.inj made
    split at made
    · cases made
    · rename_i inner
      cases Option.some.inj made
      refine ⟨tree.root, by simpa using inner, rfl, .inr ⟨tree, ?_, rfl⟩⟩
      unfold PeerCall.eventTree at found
      split at found
      · rename_i same
        cases Except.ok.inj found
        exact same
      · cases found

inductive Asks (call : PeerCall) (after : Machine) : Generator → Prop where
  | range {lo hi : Int64} {g : Generator} (less : lo < hi)
      (ranged : Generator.ofRange? "verifyGetInt(JJ)" lo hi = some g) : Asks call after g
  | boolean : Asks call after (.ofValues "verifyGetBoolean" [Value.ofBool false, Value.ofBool true])
  | started (some : 0 < after.runnable.length) : Asks call after (.ofThreads "start" after.runnable)
  | event {g : Generator} (next : nextEvents call = .ok (some g)) : Asks call after g

theorem Asks.fresh {call : PeerCall} {after : Machine} {g : Generator} (asks : Asks call after g) :
    g.Fresh := by
  cases asks with
  | range less ranged => exact rangeFresh less ranged
  | boolean => exact ⟨rfl, by decide⟩
  | started some => exact ⟨rfl, some⟩
  | event next =>
    obtain ⟨node, inner, rfl, _⟩ := nextEventsMade next
    exact eventsFresh inner

section Responses

variable {call : PeerCall} {symbol : String} {i : Invocation} {m after : Machine}
  {result : Except PeerError Reply} {error : PeerError}

inductive Happens (call : PeerCall) (h : Heap) : Event → Except PeerError Reply → Prop where
  | nothing : Happens call h .none (.ok (returnBool true))
  | passes {name : String} {predicate : Predicate} (holds : predicate.holds h.static? = true) :
      Happens call h (.check name predicate) (.ok (returnBool true))
  | breaks {name : String} {predicate : Predicate} (fails : predicate.holds h.static? = false) :
      Happens call h (.check name predicate) (.ok (.violation (.checkFailed name predicate.text)))
  | unbound {name : String} {args : List Int64} (absent : call.actions.get? name = none) :
      Happens call h (.normal name args) (.ok (returnBool true))
  | calls {name : String} {args : List Int64} {callee : MethodId}
      (bound : call.actions.get? name = some (.guest callee))
      (fits : call.program.argCount callee = args.length) :
      Happens call h (.normal name args) (.ok (.directCall actionTag callee (args.map .int)))
  | mismatches {name : String} {args : List Int64} {callee : MethodId}
      (bound : call.actions.get? name = some (.guest callee))
      (differs : call.program.argCount callee ≠ args.length) :
      Happens call h (.normal name args)
        (.error (.actionArity name (call.program.argCount callee) args.length))

def noted (e : Event) (h : Heap) : Heap := h.setStatic currentEventField (.str e.name)

theorem processHappens (guests : Guests call.actions) (e : Event) (m : Machine) :
    (process call e m).1 = { m with heap := noted e m.heap } ∧
      Happens call (noted e m.heap) e (process call e m).2 := by
  unfold process
  cases e with
  | none => exact ⟨rfl, .nothing⟩
  | check name predicate =>
    dsimp only
    split
    · rename_i holds
      exact ⟨rfl, .passes holds⟩
    · rename_i fails
      exact ⟨rfl, .breaks (Bool.eq_false_iff.mpr fails)⟩
  | normal name args =>
    dsimp only
    unfold runAction
    cases bound : call.actions.get? (Event.normal name args).name with
    | none => exact ⟨rfl, .unbound bound⟩
    | some action =>
      obtain ⟨callee, rfl⟩ := guests _ _ bound
      dsimp only
      split
      · rename_i fits
        exact ⟨rfl, .calls bound fits⟩
      · rename_i differs
        exact ⟨rfl, .mismatches bound differs⟩

/- What a peer that is called does to the machine, and what it answers. A call that is wrong is refused before
anything is done for it. -/
inductive Responds (call : PeerCall) (m : Machine) :
    String → Invocation → Machine → Except PeerError Reply → Prop where
  | refuses {symbol : String} {i : Invocation} {error : PeerError} (wrong : error.OfCall) :
      Responds call m symbol i m (.error error)
  | returns {symbol : String} {i : Invocation} {value : Option Value} (plain : ∀ v ∈ value, v.ref? = none) :
      Responds call m symbol i m (.ok (.ret value))
  | throws {symbol className : String} {i : Invocation} {message : Option String} :
      Responds call m symbol i m (.ok (.throw className message))
  | range {lo hi : Int64} {g : Generator} (less : lo < hi)
      (ranged : Generator.ofRange? "verifyGetInt(JJ)" lo hi = some g) :
      Responds call m getIntSymbol .entry m (.ok (.choose g))
  | boolean : Responds call m getBooleanSymbol .entry m
      (.ok (.choose (.ofValues "verifyGetBoolean" [Value.ofBool false, Value.ofBool true])))
  | resolves {symbol : String} {g : Generator} (resolved : call.resolved .data = .ok g) :
      Responds call m symbol .choiceResolved m (.ok (.ret g.chosenValue?))
  | misses {symbol : String} (data : symbol = getIntSymbol ∨ symbol = getBooleanSymbol)
      (missing : ∀ g, call.resolved .data ≠ .ok g) :
      Responds call m symbol .choiceResolved m (.error (.missingChoice .data))
  | starts {id : MethodId} {method : Method} (entered : threadEntry call = .ok (id, method)) :
      Responds call m threadStartSymbol .entry (m.spawn method.signature.name id method []).1
        (.ok (.choose (.ofThreads "start" (m.spawn method.signature.name id method []).1.runnable)))
  | event {g : Generator} (next : nextEvents call = .ok (some g)) :
      Responds call m processNextEventSymbol .entry m (.ok (.choose g))
  | missesEvent (missing : ∀ g, call.resolved .event = .ok g → g.chosenNode? = none) :
      Responds call m processNextEventSymbol .choiceResolved m (.error (.missingChoice .event))
  | happens {g : Generator} {node : EventNode} {e : Event} {result : Except PeerError Reply}
      (resolved : call.resolved .event = .ok g) (chosen : g.chosenNode? = some node) (named : node.event? = some e)
      (happens : Happens call (noted e m.heap) e result) :
      Responds call m processNextEventSymbol .choiceResolved { m with heap := noted e m.heap } result

theorem Responds.bind {α : Type} {x : Except PeerError α} {next : α → Except PeerError Reply}
    (wrong : ∀ error, x = .error error → error.OfCall)
    (responds : ∀ a, x = .ok a → Responds call m symbol i m (next a)) :
    Responds call m symbol i m (x >>= next) := by
  cases x with
  | error error => exact .refuses (wrong error rfl)
  | ok a => exact responds a rfl

theorem Responds.bool (b : Bool) : Responds call m symbol i m (.ok (returnBool b)) := by
  refine .returns fun v member => ?_
  cases member
  rfl

theorem argIntWrong (index : Nat) : ∀ error, call.argInt index = .error error → error.OfCall := by
  intro error h
  unfold PeerCall.argInt at h
  split at h <;> cases h
  trivial

theorem eventTreeWrong : ∀ error, call.eventTree = .error error → error.OfCall := by
  intro error h
  unfold PeerCall.eventTree at h
  split at h <;> cases h
  trivial

theorem threadEntryWrong (h : threadEntry call = .error error) : error.OfCall := by
  rcases Load.bindFails h with argument | ⟨symbol, _, h⟩
  · unfold PeerCall.argStr at argument
    split at argument <;> cases argument
    trivial
  · split at h
    · cases h
      trivial
    · split at h
      · cases h
        trivial
      · split at h <;> cases h
        trivial

theorem nextEventsWrong (h : nextEvents call = .error error) : error.OfCall := by
  unfold nextEvents at h
  split at h
  · cases h
  · rcases Load.bindFails h with missing | ⟨_, _, h⟩
    · exact eventTreeWrong _ missing
    · cases h

theorem resolvedMissing {kind : ChoiceKind} (h : call.resolved kind = .error error) :
    error = .missingChoice kind := by
  unfold PeerCall.resolved at h
  split at h
  · split at h <;> cases h
    rfl
  · cases h
    rfl

theorem resolvedResponds (data : symbol = getIntSymbol ∨ symbol = getBooleanSymbol) :
    Responds call m symbol .choiceResolved m (resolvedValue call) := by
  unfold resolvedValue
  cases resolved : call.resolved .data with
  | ok g => exact .resolves resolved
  | error error =>
    cases resolvedMissing resolved
    exact .misses data fun g found => by cases resolved.symm.trans found

theorem getIntResponds (i : Invocation) (m : Machine) :
    Responds call m getIntSymbol i (getInt call i m).1 (getInt call i m).2 := by
  cases i with
  | entry =>
    refine .bind (argIntWrong 0) fun lo _ => .bind (argIntWrong 1) fun hi _ => ?_
    split
    · exact .throws
    · rename_i order
      split
      · refine .returns fun v member => ?_
        cases member
        rfl
      · rename_i different
        split
        · rename_i ranged
          exact .range (Int64.lt_of_le_of_ne (Int64.not_lt.mp order) different) ranged
        · exact .throws
  | choiceResolved => exact resolvedResponds (.inl rfl)
  | directCallReturned tag value => exact .returns fun v member => by cases member

theorem threadStartResponds (i : Invocation) (m : Machine) :
    Responds call m threadStartSymbol i (threadStart call i m).1 (threadStart call i m).2 := by
  cases i with
  | entry =>
    unfold threadStart
    cases entered : threadEntry call with
    | error error => exact .refuses (threadEntryWrong entered)
    | ok code => exact .starts entered
  | _ => exact .returns fun v member => by cases member

theorem processNextEventResponds (guests : Guests call.actions) (i : Invocation) (m : Machine) :
    Responds call m processNextEventSymbol i (processNextEvent call i m).1 (processNextEvent call i m).2 := by
  unfold processNextEvent
  cases i with
  | entry =>
    cases next : nextEvents call with
    | error error => exact .refuses (nextEventsWrong next)
    | ok chosen =>
      cases chosen with
      | none => exact .bool false
      | some g => exact .event next
  | choiceResolved =>
    cases resolved : call.resolved .event with
    | error error =>
      cases resolvedMissing resolved
      exact .missesEvent fun g found => by cases resolved.symm.trans found
    | ok g =>
      dsimp only
      cases chosen : g.chosenNode? with
      | none =>
        refine .missesEvent fun g' found => ?_
        cases resolved.symm.trans found
        exact chosen
      | some node =>
        dsimp only
        cases named : node.event? with
        | none => exact .bool false
        | some e =>
          obtain ⟨machine, happens⟩ := processHappens guests e m
          dsimp only
          rw [machine]
          exact .happens resolved chosen named happens
  | directCallReturned tag value => exact .bool true

theorem knownResponds {peer : Peer} (known : Known symbol peer) (guests : Guests call.actions)
    (h : (peer call i m).2 = result) : Responds call m symbol i (peer call i m).1 result := by
  subst h
  cases known with
  | getInt => exact getIntResponds i m
  | getBoolean =>
    cases i with
    | entry => exact .boolean
    | choiceResolved => exact resolvedResponds (.inr rfl)
    | directCallReturned tag value => exact .returns fun v member => by cases member
  | assertTrue =>
    refine .bind (argIntWrong 0) fun n _ => ?_
    split
    · exact .throws
    · exact .returns fun v member => by cases member
  | threadStart => exact threadStartResponds i m
  | processNextEvent => exact processNextEventResponds guests i m
  | getEventName =>
    refine .returns fun v member => ?_
    cases member
    split <;> rfl
  | checkPath => exact .bool _
  | isCompletelyCovered => exact .bind eventTreeWrong fun tree _ => .bool _

theorem Responds.touches (responds : Responds call m symbol i after result) : Touched m after := by
  cases responds with
  | starts entered => exact .spawned _ _ _
  | happens resolved chosen named happens => exact .static _ _
  | _ => exact .same

theorem Responds.asks {g : Generator} (responds : Responds call m symbol i after (.ok (.choose g))) :
    i = .entry ∧ Asks call after g := by
  cases responds with
  | range less ranged => exact ⟨rfl, .range less ranged⟩
  | boolean => exact ⟨rfl, .boolean⟩
  | starts entered => exact ⟨rfl, .started (Machine.runnableSpawned m _ _ _ [])⟩
  | event next => exact ⟨rfl, .event next⟩
  | happens resolved chosen named happens => cases happens

end Responses

theorem nextEventsAlike {call : PeerCall} {path : Path} (coverage : Coverage)
    (event : (call.path.lastOf? .event).map Generator.chosenNode? =
      (path.lastOf? .event).map Generator.chosenNode?) :
    nextEvents { call with path, coverage } = nextEvents call := by
  unfold nextEvents
  cases here : call.path.lastOf? .event with
  | none =>
    cases there : path.lastOf? .event with
    | none => rfl
    | some g => simp [here, there] at event
  | some f =>
    cases there : path.lastOf? .event with
    | none => simp [here, there] at event
    | some g =>
      have node : f.chosenNode? = g.chosenNode? := by simpa [here, there] using event
      simp only [Generator.successor?, node]

section Alike

variable {call : PeerCall} {path : Path} (alike : call.path.Alike path) (coverage : Coverage)
include alike

theorem resolvedAlike (kind : ChoiceKind) :
    { call with path, coverage }.resolved kind = call.resolved kind := by
  simp only [PeerCall.resolved, alike.last]

/- Paths with the same last decision and the same last event are the same to a peer. All that a peer can
see of the coverage is whether it is complete, and only one peer looks. -/
theorem knownAlike {symbol : String} {peer : Peer} (known : Known symbol peer)
    (answers : symbol = isCompletelyCoveredSymbol → ∀ tree, call.tree = some tree →
      call.coverage.isComplete tree = coverage.isComplete tree) (i : Invocation) (m : Machine) :
    peer { call with path, coverage } i m = peer call i m := by
  cases known with
  | getInt =>
    cases i with
    | choiceResolved =>
      simp only [getInt, observing, resolvedValue, resolvedAlike alike]
    | _ => rfl
  | getBoolean =>
    cases i with
    | choiceResolved =>
      simp only [getBoolean, observing, resolvedValue, resolvedAlike alike]
    | _ => rfl
  | processNextEvent =>
    cases i with
    | entry => simp only [processNextEvent, nextEventsAlike coverage alike.event]
    | choiceResolved =>
      simp only [processNextEvent, resolvedAlike alike]
      rfl
    | directCallReturned tag value => rfl
  | getEventName => simp only [getEventName, observing, alike.lastNode]
  | checkPath => simp only [checkPath, observing, alike.lastNode]
  | isCompletelyCovered =>
    simp only [isCompletelyCovered, observing, PeerCall.eventTree]
    cases found : call.tree with
    | none => rfl
    | some tree =>
      have same := answers rfl tree found
      simp only [bind, Except.bind, same]
  | assertTrue => rfl
  | threadStart => rfl

end Alike

end Builtin

end BytecodeChecker
