import BytecodeChecker.Proofs.Deeds
import BytecodeChecker.Proofs.Numbering
import BytecodeChecker.Proofs.Run

/-! Decisions are determined by where they come up: by the machine, the running thread and the place
in the event tree. What led there matters only in so far as it is the last event. -/
namespace BytecodeChecker

def Path.lastEvent? (p : Path) : Option (Option EventNode) :=
  (p.lastOf? .event).map Generator.chosenNode?

namespace Machine

variable {m : Machine} {t : ThreadId}

theorem threadModify (change : GuestThread → GuestThread) :
    (m.modifyThread t change).thread? t = (m.thread? t).map change := by
  unfold modifyThread
  cases found : m.thread? t with
  | none => simp [found]
  | some thread =>
    obtain ⟨inside, _⟩ := Array.getElem?_eq_some_iff.mp found
    simp [setThread, thread?, inside]

theorem whereKinds (m : Machine) (kind : GuestThread → Bool) : m.threadsWhere kind =
    ((m.threads.toList.map kind).zipIdx.filter (·.1)).map fun (_, i) => ⟨i⟩ := by
  simp [threadsWhere, List.zipIdx_map, List.filter_map, Function.comp_def]

theorem whereModify {kind : GuestThread → Bool} {change : GuestThread → GuestThread}
    (kept : ∀ thread, kind (change thread) = kind thread) :
    (m.modifyThread t change).threadsWhere kind = m.threadsWhere kind := by
  have kinds : (m.modifyThread t change).threads.toList.map kind = m.threads.toList.map kind := by
    unfold modifyThread
    cases found : m.thread? t with
    | none => rfl
    | some thread =>
      obtain ⟨inside, same⟩ := Array.getElem?_eq_some_iff.mp found
      refine List.ext_getElem (by simp [setThread]) fun n _ _ => ?_
      simp only [setThread, Array.toList_setIfInBounds, List.getElem_map, List.getElem_set]
      split
      · rename_i here
        subst here
        simp [kept, ← same]
      · rfl
  rw [whereKinds, whereKinds, kinds]

end Machine

namespace Builtin

theorem choosesAlike {symbol : String} {peer : Peer} (known : Known symbol peer)
    (other : symbol ≠ threadStartSymbol) {call : PeerCall} {m : Machine} {g : Generator}
    (h : (peer call .entry m).2 = .ok (.choose g)) {path : Path}
    (event : call.path.lastEvent? = path.lastEvent?) (coverage : Coverage) (m' : Machine) :
    (peer { call with path, coverage } .entry m').2 = .ok (.choose g) := by
  cases known with
  | getInt => exact h
  | getBoolean => exact h
  | assertTrue => exact h
  | threadStart => exact absurd rfl other
  | processNextEvent =>
    have same := nextEventsAlike coverage event
    simp only [processNextEvent] at h ⊢
    rw [same]
    exact h
  | getEventName => cases h
  | checkPath => cases h
  | isCompletelyCovered =>
    obtain ⟨tree, _, last⟩ := Load.bindOk.mp h
    cases last

theorem asksEvents {call : PeerCall} {after : Machine} {g : Generator} (asks : Asks call after g)
    (kind : g.kind = .event) : nextEvents call = .ok (some g) := by
  cases asks with
  | range less ranged =>
    obtain ⟨_, rfl⟩ := Generator.rangeMade ranged
    cases kind
  | boolean => cases kind
  | started some => cases kind
  | event next => exact next

end Builtin

namespace Explorer

variable {e : Explorer}

inductive Awaits (e : Explorer) (path : Path) (s : State) (thread : GuestThread) : Generator → Prop where
  | reschedule (stopped : thread.status ≠ .runnable) :
      Awaits e path s thread (.ofThreads "reschedule" s.runnable)
  | schedule {frame : Frame} {tag : Option String} {below : List Activation}
      (running : thread.status = .runnable) (stack : thread.stack = .bytecode frame tag :: below) :
      Awaits e path s thread (.ofThreads "schedule" s.runnable)
  | started {call : NativeCall} {below : List Activation} {method : Method}
      (running : thread.status = .runnable) (stack : thread.stack = .native call :: below)
      (called : e.program.method? call.method = some method)
      (symbol : method.symbol = Builtin.threadStartSymbol) :
      Awaits e path s thread (.ofThreads "start" s.runnable)
  | asked {call : NativeCall} {below : List Activation} {method : Method} {peer : Peer}
      {coverage : Coverage} {m : Machine} {g : Generator}
      (running : thread.status = .runnable) (stack : thread.stack = .native call :: below)
      (called : e.program.method? call.method = some method)
      (other : method.symbol ≠ Builtin.threadStartSymbol)
      (registered : e.registry.peers.get? method.symbol = some peer)
      (answer : (peer ⟨e.program, e.registry.tree, e.registry.actions, coverage, path, s.current,
        method, call.args⟩ .entry m).2 = .ok (.choose g)) :
      Awaits e path s thread g

theorem awaitsUnique (standard : e.Standard) {p q : Path} (event : p.lastEvent? = q.lastEvent?)
    {s t : State} (machine : s.toMachine = t.toMachine) (current : s.current = t.current)
    {thread : GuestThread} {g f : Generator} (left : e.Awaits p s thread g)
    (right : e.Awaits q t thread f) : g = f := by
  cases left with
  | reschedule stopped =>
    cases right with
    | reschedule _ => rw [machine]
    | schedule running _ => exact absurd running stopped
    | started running _ _ _ => exact absurd running stopped
    | asked running _ _ _ _ _ => exact absurd running stopped
  | schedule running stack =>
    cases right with
    | reschedule stopped => exact absurd running stopped
    | schedule _ _ => rw [machine]
    | started _ stack' _ _ => cases stack.symm.trans stack'
    | asked _ stack' _ _ _ _ => cases stack.symm.trans stack'
  | started running stack called symbol =>
    cases right with
    | reschedule stopped => exact absurd running stopped
    | schedule _ stack' => cases stack.symm.trans stack'
    | started _ _ _ _ => rw [machine]
    | asked _ stack' called' other _ _ =>
      cases stack.symm.trans stack'
      cases called.symm.trans called'
      exact absurd symbol other
  | asked running stack called other registered answer =>
    cases right with
    | reschedule stopped => exact absurd running stopped
    | schedule _ stack' => cases stack.symm.trans stack'
    | started _ stack' called' symbol =>
      cases stack.symm.trans stack'
      cases called.symm.trans called'
      exact absurd symbol other
    | asked _ stack' called' _ registered' answer' =>
      cases stack.symm.trans stack'
      cases called.symm.trans called'
      cases registered.symm.trans registered'
      have known := calledKnown standard registered
      rw [current] at answer
      cases (Builtin.choosesAlike known other answer event _ _).symm.trans answer'
      rfl

def Decides (e : Explorer) (path : Path) (s : State) (g : Generator) : Prop :=
  ∃ thread, s.thread? s.current = some thread ∧ e.Awaits path s thread g

theorem decidesUnique (standard : e.Standard) {p q : Path} (event : p.lastEvent? = q.lastEvent?)
    {s t : State} (machine : s.toMachine = t.toMachine) (current : s.current = t.current)
    {g f : Generator} (left : e.Decides p s g) (right : e.Decides q t f) : g = f := by
  obtain ⟨thread, found, awaits⟩ := left
  obtain ⟨thread', found', awaits'⟩ := right
  rw [machine, current] at found
  cases found.symm.trans found'
  exact awaitsUnique standard event machine current awaits awaits'

section Move

variable (standard : e.Standard) {memory : Memory} {p q : Progress} {g : Generator}
include standard

theorem askedDecides {t : ThreadId} {thread : GuestThread} {call : NativeCall} {below : List Activation}
    {method : Method} {i : Invocation} {m after : Machine} {s : State} (found : m.thread? t = some thread)
    (running : thread.status = .runnable) (called : e.program.method? call.method = some method)
    (answer : e.callPeer memory t method call.args i m = (after, .ok (.choose g))) (current : s.current = t)
    (machine : s.toMachine = after.setThread t { thread with
      firstStep := false
      stack := .native { call with phase := .awaitingChoice } :: below }) : e.Decides memory.path s g := by
  subst current
  have there := Builtin.touchedThread (answeredTouches standard answer) found
  have waits : s.toMachine = after.modifyThread s.current fun thread => { thread with
      firstStep := false
      stack := .native { call with phase := .awaitingChoice } :: below } := by
    rw [machine, Machine.modifyThread, there]
  have here : s.thread? s.current = some { thread with
      firstStep := false
      stack := .native { call with phase := .awaitingChoice } :: below } := by
    rw [waits, Machine.threadModify, there]
    rfl
  refine ⟨_, here, ?_⟩
  have result := congrArg Prod.snd answer
  obtain ⟨rfl, _⟩ := callPeerChooses standard result
  by_cases start : method.symbol = Builtin.threadStartSymbol
  · have chosen := (calledResponds standard result).chooses.started start
    have runnable : s.runnable = after.runnable := by
      unfold Machine.runnable
      rw [waits]
      exact Machine.whereModify fun _ => rfl
    rw [answer, ← runnable] at chosen
    rw [chosen]
    exact .started running rfl called start
  · unfold callPeer at result
    cases registered : e.registry.peers.get? method.symbol with
    | none =>
      rw [registered] at result
      cases result
    | some peer =>
      rw [registered] at result
      exact .asked running rfl called start registered result

theorem moveDecides (h : e.move memory p = .stop q (.ok (.choice g))) :
    e.Decides memory.path q.state g := by
  have ended : (e.move memory p).outcome? = some (q, some (.choice g)) := by rw [h]; rfl
  generalize last : some (Ending.choice g) = ending? at ended
  cases moveDoes standard ended with
  | @waits thread _ found stopped idle same =>
    cases last
    subst same
    have comes := reschedules e q
    rw [idle] at comes
    cases comes with
    | chooses some => exact ⟨thread, found, .reschedule stopped⟩
  | handsOver found stopped alone state told => cases last
  | cut found running out same => cases last
  | @pauses thread found running point same =>
    cases last
    subst same
    obtain ⟨_, frame, tag, below, found', stack, _, _⟩ := Machine.stepPoint (congrArg Prod.snd point)
    cases found.symm.trans found'
    exact ⟨thread, found, .schedule running stack⟩
  | @runs thread u step found running inside works ran result state told =>
    exact absurd last.symm (Step.endingChoice step g)
  | @answers thread call below i method m reply u ending? found running inside stack invoked called answer obeys
      state told =>
    cases obeys with
    | asked =>
      cases last
      rw [state]
      exact askedDecides standard found running called answer rfl rfl
    | @threw className message thrown result => exact absurd last.symm (thrown.endingChoice g)
    | _ => cases last

theorem transitionDecides {fuel : Nat}
    (h : e.transition memory fuel p = some (q, .ok (.choice g))) :
    e.Decides memory.path q.state g := by
  induction fuel generalizing p with
  | zero => cases h
  | succ fuel ih =>
    unfold transition at h
    cases moved : e.move memory p with
    | goOn next =>
      rw [moved] at h
      exact ih h
    | stop last ended =>
      rw [moved] at h
      cases Option.some.inj h
      exact moveDecides standard moved

end Move

theorem transitsDecides (standard : e.Standard) {fuel : Nat} {path : Path} {s s' : State}
    {g : Generator} (ends : e.Transits fuel path s s' (.choice g)) : e.Decides path s' g := by
  obtain ⟨memory, memory', same, ran⟩ := ends
  obtain ⟨p, raw, advance⟩ := advanced ran
  have ended := advance.ran
  rw [judgedChoice advance.judged] at ended
  rw [← same, ← advance.state]
  exact transitionDecides standard ended

def Scripted (e : Explorer) (path : Path) : Prop :=
  ∀ g, path.lastOf? .event = some g → ∃ tree node, e.registry.tree = some tree ∧
    node ∈ tree.root.subtree ∧ g.chosenNode? = some node

theorem decidesEvents (standard : e.Standard) {path : Path} (scripted : e.Scripted path) {s : State}
    {g : Generator} (decides : e.Decides path s g) (kind : g.kind = .event) :
    ∃ tree node, e.registry.tree = some tree ∧ node ∈ tree.root.subtree ∧
      g.choices = .events node := by
  obtain ⟨thread, _, awaits⟩ := decides
  cases awaits with
  | reschedule _ => cases kind
  | schedule _ _ => cases kind
  | started _ _ _ _ => cases kind
  | asked _ _ _ _ registered answer =>
    have asks := (Builtin.knownResponds (calledKnown standard registered) standard.guests answer).asks.2
    have next := Builtin.asksEvents asks kind
    obtain ⟨node, _, rfl, ⟨previous, last, chosen⟩ | ⟨tree, found, rfl⟩⟩ := Builtin.nextEventsMade next
    · obtain ⟨tree, node', found, inside, chosen'⟩ := scripted previous last
      cases chosen.symm.trans chosen'
      exact ⟨tree, node, found, inside, rfl⟩
    · exact ⟨tree, tree.root, found, tree.root.subtreeSelf, rfl⟩

theorem lastOfPush (path : Path) (g : Generator) (s : State) (kind : ChoiceKind) :
    (path.push g s).lastOf? kind = if g.kind = kind then some g else path.lastOf? kind := by
  unfold Path.lastOf? Path.push
  by_cases here : g.kind = kind <;> simp [here]

theorem Blind.startsScripted (blind : e.Blind) {fuel : Nat} {path : Path} {s : State}
    (starts : e.Starts fuel path s) : e.Scripted path := by
  induction starts with
  | initial => exact fun g h => by cases h
  | @next path s t s'' g g' i before ends chosen goesOn ih =>
    intro f last
    rw [lastOfPush] at last
    split at last
    · rename_i kind
      cases Option.some.inj last
      obtain ⟨inside, rfl⟩ := Generator.selected chosen
      have decides := transitsDecides blind.standard ends
      obtain ⟨tree, node, found, member, choices⟩ := decidesEvents blind.standard ih decides kind
      have bound : i < node.children.length := by
        have total := inside
        rwa [Generator.total, choices] at total
      refine ⟨tree, node.children[i], found, ?_, ?_⟩
      · exact tree.root.subtreeChild member (List.getElem_mem bound)
      · simp [Generator.chosenNode?, Generator.chosen?, choices, Choices.get?, bound]
    · exact ih f last

theorem positionTells (standard : e.Standard) {p q : Path} (left : e.Scripted p)
    (right : e.Scripted q) (same : p.eventPosition = q.eventPosition) :
    p.lastEvent? = q.lastEvent? := by
  rw [p.eventPositionLast, q.eventPositionLast] at same
  unfold Path.lastNode? at same
  unfold Path.lastEvent?
  cases hp : p.lastOf? .event with
  | none =>
    cases hq : q.lastOf? .event with
    | none => rfl
    | some g =>
      obtain ⟨_, node, _, _, chosen⟩ := right g hq
      simp [hp, hq, chosen, Path.placeAfter] at same
  | some f =>
    obtain ⟨tree, node, found, member, chosen⟩ := left f hp
    cases hq : q.lastOf? .event with
    | none => simp [hp, hq, chosen, Path.placeAfter] at same
    | some g =>
      obtain ⟨tree', node', found', member', chosen'⟩ := right g hq
      cases found.symm.trans found'
      obtain ⟨sequences, rfl⟩ := standard.tree tree found
      have ids : node.id = node'.id := by simpa [hp, hq, chosen, chosen', Path.placeAfter] using same
      have nodes : node = node' := EventTree.nodeUnique member member' ids
      simp [chosen, chosen', nodes]

end Explorer

end BytecodeChecker
