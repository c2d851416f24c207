import BytecodeChecker.Proofs.FirstSteps

/-! The calls of peers along a run. The peer of a native call is called when the call is entered, then when
its choice is made, then when the code that it called has returned, each time once at most. What lies
behind a call can be read off its phase. -/
namespace BytecodeChecker

inductive Occasion where
  | entry
  | choiceResolved
  | directCallReturned
  deriving DecidableEq, Repr

def Invocation.occasion : Invocation → Occasion
  | .entry => .entry
  | .choiceResolved => .choiceResolved
  | .directCallReturned .. => .directCallReturned

def Phase.behind : Phase → List Occasion
  | .entry => []
  | .awaitingChoice => [.entry]
  | .awaitingDirectCall _ | .directCallReturned .. => [.entry, .choiceResolved]

def Activation.behind : Activation → List Occasion
  | .bytecode .. => []
  | .native call => call.phase.behind

def Machine.stackOf (m : Machine) (t : ThreadId) : List Activation := ((m.thread? t).map (·.stack)).getD []

def Machine.ledger (m : Machine) (t : ThreadId) : List (List Occasion) :=
  ((m.thread? t).map fun thread => thread.stack.map Activation.behind).getD []

namespace Occasion

def mark : Option Occasion → List (List Occasion) → List (List Occasion)
  | some k, top :: rest => (top ++ [k]) :: rest
  | _, ledger => ledger

def Onward (old new : List (List Occasion)) : Prop := new <:+ old ∨ new = [] :: old

variable {old new : List (List Occasion)} {height : Nat} {behind : List Occasion}

theorem markLength (k? : Option Occasion) (ledger : List (List Occasion)) :
    (mark k? ledger).length = ledger.length := by
  cases k? <;> cases ledger <;> rfl

theorem topAt {top : List Occasion} (there : (top :: old).reverse[height]? = some behind) :
    (height + 1 ≤ old.length ∧ old.reverse[height]? = some behind) ∨ height = old.length ∧ behind = top := by
  rw [List.reverse_cons, List.getElem?_append, List.length_reverse] at there
  split at there
  · rename_i inside
    exact .inl ⟨inside, there⟩
  · rename_i outside
    obtain ⟨inside, same⟩ := List.getElem?_eq_some_iff.mp there
    have last : height = old.length := by
      rw [List.length_singleton] at inside
      omega
    exact .inr ⟨last, by simpa using same.symm⟩

theorem markAt {k? : Option Occasion} (there : (mark k? old).reverse[height]? = some behind) :
    ∃ before, old.reverse[height]? = some before ∧
      behind = before ++ if height + 1 = old.length then k?.toList else [] := by
  cases k? with
  | none => exact ⟨behind, there, by simp⟩
  | some k =>
    cases old with
    | nil => cases there
    | cons top rest =>
      rw [List.length_cons]
      rcases topAt there with ⟨inside, below⟩ | ⟨last, marked⟩
      · have length : height < rest.reverse.length := by rw [List.length_reverse]; omega
        refine ⟨behind, ?_, ?_⟩
        · rw [List.reverse_cons, List.getElem?_append_left length]
          exact below
        · rw [if_neg (by omega), List.append_nil]
      · refine ⟨top, ?_, ?_⟩
        · rw [List.reverse_cons, last, ← List.length_reverse]
          exact List.getElem?_concat_length
        · rw [if_pos (by omega)]
          exact marked

theorem Onward.at (onward : Onward old new) (there : new.reverse[height]? = some behind) :
    old.reverse[height]? = some behind ∨ behind = [] ∧ height = old.length := by
  rcases onward with dropped | rfl
  · obtain ⟨more, same⟩ := List.reverse_prefix.mpr dropped
    rw [← same, List.getElem?_append_left (List.getElem?_eq_some_iff.mp there).1]
    exact .inl there
  · exact (topAt there).imp And.right fun top => ⟨top.2, top.1⟩

end Occasion

open Occasion (mark Onward)

theorem unwoundBehind {p : Program} {o : ObjectId} {className : String} {stack after : List Activation}
    (h : Machine.unwound? p o className stack = some after) :
    after.map Activation.behind <:+ stack.map Activation.behind := by
  induction stack with
  | nil => cases h
  | cons top below ih =>
    cases top with
    | native call => exact (ih h).trans (List.suffix_cons _ _)
    | bytecode f tag =>
      unfold Machine.unwound? at h
      split at h
      · cases Option.some.inj h
        exact List.suffix_refl _
      · exact (ih h).trans (List.suffix_cons _ _)

namespace Upshot

variable {p : Program} {t : ThreadId} {thread : GuestThread} {h : Heap}

theorem unwindBehind (o : ObjectId) :
    (ofUnwind p t o thread h).thread.stack.map Activation.behind <:+ thread.stack.map Activation.behind := by
  unfold ofUnwind
  split
  · exact List.suffix_refl _
  · dsimp only
    split
    · rename_i unwound
      exact unwoundBehind unwound
    · exact List.nil_suffix

theorem unwindNative {call : NativeCall} {below : List Activation} (stack : thread.stack = .native call :: below)
    {o : ObjectId} {step : Step} (result : (ofUnwind p t o thread h).result = .ok step) :
    (ofUnwind p t o thread h).thread.stack.map Activation.behind <:+ below.map Activation.behind := by
  unfold ofUnwind at result ⊢
  split
  · rename_i missing
    rw [missing] at result
    cases result
  · dsimp only
    split
    · rename_i unwound
      rw [stack] at unwound
      have dropped : Machine.unwound? p o _ below = some _ := unwound
      exact unwoundBehind dropped
    · exact List.nil_suffix

theorem deliverBehind (thread : GuestThread) {tag : Option String} (value : Option Value)
    (awaited : ∀ call below, thread.stack = .native call :: below → tag.isSome →
      call.phase.behind = [.entry, .choiceResolved]) :
    (ofDeliver thread tag value h).thread.stack.map Activation.behind <:+
      thread.stack.map Activation.behind := by
  unfold ofDeliver
  split
  · exact List.suffix_refl _
  · rename_i call below tag stack
    have same : Activation.behind (.native { call with phase := .directCallReturned tag value }) =
        Activation.behind (.native call) := (awaited call below stack rfl).symm
    rw [stack, List.map_cons, List.map_cons, same]
  · exact List.suffix_refl _
  · rename_i stack
    rw [stack]
    exact List.suffix_refl _

theorem effectStack (frame : Frame) (tag : Option String) (below : List Activation) (effect : Effect) :
    (∃ f, (ofEffect p t thread frame tag below h effect).thread.stack = .bytecode f tag :: below) ∨
    (∃ callee args, effect = .call callee args) ∨ (∃ value, effect = .finish value) ∨
    ∃ o h', ofEffect p t thread frame tag below h effect =
      ofUnwind p t o { thread with stack := .bytecode frame tag :: below } h' := by
  cases effect with
  | call callee args => exact .inr (.inl ⟨callee, args, rfl⟩)
  | finish value => exact .inr (.inr (.inl ⟨value, rfl⟩))
  | raise className message => exact .inr (.inr (.inr ⟨_, _, rfl⟩))
  | rethrow o => exact .inr (.inr (.inr ⟨o, h, rfl⟩))
  | exit o =>
    cases left : h.afterExit? o t with
    | none => exact .inr (.inr (.inr ⟨_, _, by simp only [ofEffect, left]; rfl⟩))
    | some monitor => exact .inl ⟨frame.advance, by simp only [ofEffect, left]; rfl⟩
  | enter o =>
    refine .inl ?_
    dsimp only [ofEffect]
    split <;> exact ⟨_, rfl⟩
  | readField o field =>
    refine .inl ?_
    dsimp only [ofEffect]
    split <;> exact ⟨_, rfl⟩
  | writeField o field v =>
    refine .inl ?_
    dsimp only [ofEffect]
    split <;> exact ⟨_, rfl⟩
  | _ => exact .inl ⟨_, rfl⟩

end Upshot

theorem Program.Stacked.awaits {p : Program} {size : Nat} {top : Activation} {call : NativeCall}
    {below : List Activation} (stacked : p.Stacked size (top :: .native call :: below)) :
    call.phase.behind = [.entry, .choiceResolved] := by
  obtain ⟨_, _, _, awaiting⟩ := (List.isChain_cons_cons.mp stacked.standing).1
  rw [awaiting]
  rfl

theorem Program.Stacked.belowAwaits {p : Program} {size : Nat} {top : Activation} {below : List Activation}
    (stacked : p.Stacked size (top :: below)) : [.entry] ∉ below.map Activation.behind := by
  induction below generalizing top with
  | nil => exact List.not_mem_nil
  | cons next rest ih =>
    rw [List.map_cons, List.mem_cons, not_or]
    refine ⟨fun awaits => ?_, ih stacked.tail⟩
    cases next with
    | bytecode f tag => cases awaits
    | native call =>
      have behind : [.entry] = call.phase.behind := awaits
      rw [stacked.awaits] at behind
      cases behind

theorem GuestThread.upshotOnward {p : Program} {t : ThreadId} {thread : GuestThread} {h : Heap} {u : Upshot}
    {size : Nat} (wf : thread.WellFormed p size) (works : thread.upshot? p t h = some u) :
    Onward (thread.stack.map Activation.behind) (u.thread.stack.map Activation.behind) := by
  obtain ⟨frame, tag, below, op, effect, after, stack, fetched, performed, rfl⟩ := upshotIff.mp works
  rw [stack]
  rcases Upshot.effectStack after tag below effect with ⟨f, goesOn⟩ | ⟨callee, args, rfl⟩ | ⟨value, rfl⟩ |
    ⟨o, h', unwinds⟩
  · rw [goesOn]
    exact .inl (List.suffix_refl _)
  · refine .inr ?_
    show Activation.behind (p.activation callee args) :: _ = _
    unfold Program.activation
    split
    · split <;> rfl
    · rfl
  · refine .inl (List.IsSuffix.trans ?_ (List.suffix_cons _ _))
    refine Upshot.deliverBehind { thread with firstStep := false, stack := below } value ?_
    intro call below' here _
    have stacked := wf.stack
    rw [stack, show below = _ from here] at stacked
    exact stacked.awaits
  · rw [unwinds]
    exact .inl (Upshot.unwindBehind o)

namespace Machine

variable {m : Machine} {t : ThreadId} {thread : GuestThread}

theorem ledgerStack (m : Machine) (t : ThreadId) : m.ledger t = (m.stackOf t).map Activation.behind := by
  unfold ledger stackOf
  cases m.thread? t <;> rfl

theorem threadStack (found : m.thread? t = some thread) : m.stackOf t = thread.stack := by
  unfold stackOf
  rw [found]
  rfl

theorem threadLedger (found : m.thread? t = some thread) : m.ledger t = thread.stack.map Activation.behind := by
  rw [ledgerStack, threadStack found]

theorem installStack (inside : t.index < m.threads.size) (u : Upshot) (j : ThreadId) :
    (u.install t m).stackOf j = if t = j then u.thread.stack else m.stackOf j := by
  unfold stackOf
  rw [Upshot.installThread inside]
  split
  · simp [(GuestThread.wakeStack u.thread u.freed).1]
  · cases m.thread? j with
    | none => rfl
    | some other => simp [(GuestThread.wakeStack other u.freed).1]

theorem installLedger (inside : t.index < m.threads.size) (u : Upshot) (j : ThreadId) :
    (u.install t m).ledger j = if t = j then u.thread.stack.map Activation.behind else m.ledger j := by
  rw [ledgerStack, installStack inside, ledgerStack]
  split <;> rfl

theorem flagStack (m : Machine) (t : ThreadId) (flag : Bool) (j : ThreadId) :
    (m.setFirstStep t flag).stackOf j = m.stackOf j := by
  unfold setFirstStep modifyThread
  cases found : m.thread? t with
  | none => rfl
  | some thread =>
    dsimp only
    unfold stackOf
    rw [threadSet (threadInside found)]
    split
    · rename_i here
      rw [← here, found]
      rfl
    · rfl

theorem flagLedger (m : Machine) (t : ThreadId) (flag : Bool) (j : ThreadId) :
    (m.setFirstStep t flag).ledger j = m.ledger j := by
  rw [ledgerStack, flagStack, ledgerStack]

theorem clearStack (m : Machine) (j : ThreadId) : m.clearFirstSteps.stackOf j = m.stackOf j := by
  unfold stackOf clearFirstSteps thread?
  rw [Array.getElem?_map, Option.map_map]
  rfl

end Machine

theorem Builtin.touchedStack {m m' : Machine} (touched : Touched m m') (j : ThreadId) :
    m'.stackOf j = m.stackOf j ∨ m.stackOf j = [] ∧ ∃ f, m'.stackOf j = [.bytecode f none] := by
  cases touched with
  | same => exact .inl rfl
  | static field v => exact .inl rfl
  | spawned name id method =>
    unfold Machine.stackOf
    rw [Explorer.spawnThread]
    split
    · rename_i new
      have missing : m.thread? j = none := Array.getElem?_eq_none (by omega)
      rw [missing]
      exact .inr ⟨rfl, _, rfl⟩
    · exact .inl rfl

theorem Builtin.touchedLedger {m m' : Machine} (touched : Touched m m') (j : ThreadId) :
    Onward (m.ledger j) (m'.ledger j) := by
  rw [Machine.ledgerStack, Machine.ledgerStack]
  rcases touchedStack touched j with same | ⟨none, f, new⟩
  · rw [same]
    exact .inl (List.suffix_refl _)
  · rw [none, new]
    exact .inr rfl

def Event.guest? (p : Program) (actions : NameMap Action) : Event → Option MethodId
  | .normal name args =>
    match actions.get? name with
    | some (.guest callee) => if p.argCount callee = args.length then some callee else .none
    | _ => .none
  | _ => .none

def Generator.guest? (p : Program) (actions : NameMap Action) (g : Generator) : Option MethodId :=
  (g.chosenNode?.bind EventNode.event?).bind (Event.guest? p actions)

def Choice.kind : Choice → ChoiceKind
  | .thread _ => .scheduling
  | .event _ => .event
  | .value _ => .data

theorem Choices.getKind {choices : Choices} {i : Nat} {choice : Choice} (h : choices.get? i = some choice) :
    choices.kind = choice.kind := by
  cases choices with
  | threads ids =>
    obtain ⟨_, _, rfl⟩ := Option.map_eq_some_iff.mp h
    rfl
  | events node =>
    obtain ⟨_, _, rfl⟩ := Option.map_eq_some_iff.mp h
    rfl
  | values vs =>
    obtain ⟨_, _, rfl⟩ := Option.map_eq_some_iff.mp h
    rfl
  | range lo hi =>
    simp only [get?] at h
    split at h
    · cases Option.some.inj h
      rfl
    · cases h

theorem Generator.chosenKind {g : Generator} {choice : Choice} (h : g.chosen? = some choice) :
    g.kind = choice.kind ∧ g.cursor.isSome := by
  obtain ⟨i, cursor, there⟩ := Option.bind_eq_some_iff.mp h
  exact ⟨Choices.getKind there, by rw [cursor]; rfl⟩

theorem Generator.chosenEvent {g : Generator} {node : EventNode} (h : g.chosenNode? = some node) :
    g.kind = .event ∧ g.cursor.isSome := by
  obtain ⟨choice, chosen, same⟩ := Option.bind_eq_some_iff.mp h
  cases choice with
  | event node => exact chosenKind chosen
  | _ => cases same

theorem Generator.pointedNode {g : Generator} {i : Nat} (kind : g.kind = .event) (inside : i < g.total) :
    ∃ node, Generator.chosenNode? { g with cursor := some i } = some node := by
  unfold Generator.kind at kind
  unfold Generator.total at inside
  cases choices : g.choices with
  | events parent =>
    rw [choices] at inside
    have within : i < parent.children.length := inside
    exact ⟨parent.children[i], by simp [Generator.chosenNode?, Generator.chosen?, Choices.get?, within]⟩
  | _ =>
    rw [choices] at kind
    cases kind

def Reply.callee? : Reply → Option MethodId
  | .directCall _ callee _ => some callee
  | _ => none

namespace Builtin

variable {call : PeerCall} {symbol : String} {peer : Peer} {i : Invocation} {m : Machine}

theorem Happens.callee? {h : Heap} {e : Event} {result : Except PeerError Reply} (happens : Happens call h e result) :
    result.toOption.bind Reply.callee? = e.guest? call.program call.actions := by
  cases happens with
  | nothing => rfl
  | passes holds => rfl
  | breaks fails => rfl
  | unbound absent => simp [Event.guest?, absent, returnBool, Except.toOption, Reply.callee?]
  | calls bound fits => simp [Event.guest?, bound, fits, Except.toOption, Reply.callee?]
  | mismatches bound differs => simp [Event.guest?, bound, differs, Except.toOption]

theorem callsIff {reply : Except PeerError Reply} {callee : MethodId} :
    reply.toOption.bind Reply.callee? = some callee ↔ ∃ tag args, reply = .ok (.directCall tag callee args) := by
  constructor
  · intro h
    obtain ⟨answer, ok, called⟩ := Option.bind_eq_some_iff.mp h
    cases answer with
    | directCall tag callee' args =>
      cases Option.some.inj called
      exact ⟨tag, args, Explorer.okSome ok⟩
    | _ => cases called
  · rintro ⟨tag, args, rfl⟩
    rfl

theorem knownCallsNot (known : Known symbol peer) (guests : Guests call.actions)
    (other : symbol ≠ processNextEventSymbol) {tag : String} {callee : MethodId} {args : List Value} :
    (peer call i m).2 ≠ .ok (.directCall tag callee args) := by
  intro h
  have responds := knownResponds known guests h
  generalize (peer call i m).1 = after at responds
  cases responds with
  | happens resolved chosen named happens => exact other rfl

theorem knownCalls (known : Known symbol peer) (guests : Guests call.actions) (i : Invocation) (m : Machine) :
    (peer call i m).2.toOption.bind Reply.callee? =
      if symbol = processNextEventSymbol ∧ i = .choiceResolved then
        (call.resolved .event).toOption.bind (Generator.guest? call.program call.actions)
      else none := by
  by_cases own : symbol = processNextEventSymbol
  · have peerOwn : peer = processNextEvent := by
      cases known with
      | processNextEvent => rfl
      | _ => exact absurd own (by decide)
    rw [peerOwn]
    unfold processNextEvent
    cases i with
    | entry =>
      cases nextEvents call with
      | error e => simp [Except.map, Except.toOption]
      | ok chosen => cases chosen <;> simp [Except.map, Except.toOption, Reply.callee?, returnBool]
    | choiceResolved =>
      rw [if_pos ⟨own, rfl⟩]
      cases call.resolved .event with
      | error e => rfl
      | ok g =>
        dsimp only
        show _ = g.guest? call.program call.actions
        unfold Generator.guest?
        cases g.chosenNode? with
        | none => rfl
        | some node =>
          dsimp only [Option.bind_some]
          cases node.event? with
          | none => rfl
          | some e => exact (processHappens guests e m).2.callee?
    | directCallReturned tag value => simp [Except.toOption, Reply.callee?, returnBool]
  · rw [if_neg fun both => own both.1]
    refine Option.eq_none_iff_forall_ne_some.mpr fun callee called => ?_
    obtain ⟨tag, args, answer⟩ := callsIff.mp called
    exact knownCallsNot known guests own answer

theorem resolvedGuest (call : PeerCall) (p : Program) (actions : NameMap Action) :
    (call.resolved .event).toOption.bind (Generator.guest? p actions) =
      (call.path.last?.map (·.generator)).bind (Generator.guest? p actions) := by
  unfold PeerCall.resolved
  cases call.path.last?.map (·.generator) with
  | none => rfl
  | some g =>
    dsimp only [Option.bind_some]
    split
    · rfl
    · rename_i unresolved
      refine (Option.eq_none_iff_forall_ne_some.mpr fun callee calls => unresolved ?_).symm
      obtain ⟨event, found, _⟩ := Option.bind_eq_some_iff.mp calls
      obtain ⟨node, chosen, _⟩ := Option.bind_eq_some_iff.mp found
      exact Generator.chosenEvent chosen

end Builtin

structure Dispatch where
  thread : ThreadId
  height : Nat
  call : NativeCall
  method : Method
  invocation : Invocation
  reply : Except PeerError Reply

namespace Explorer

variable {e : Explorer} {a : Point} {d : Dispatch}

def dispatchAt? (e : Explorer) (a : Point) : Option Dispatch :=
  match a.state.thread? a.state.current with
  | none => none
  | some thread =>
    if thread.status ≠ .runnable ∨ e.OutOfSteps a.progress then none
    else
      match thread.stack with
      | .native call :: below =>
        match e.invocation call thread.firstStep, e.program.method? call.method with
        | .ok i, some method =>
          let answer := e.callPeer a.memory a.state.current method call.args i a.state.toMachine
          some ⟨a.state.current, below.length, call, method, i, answer.2⟩
        | _, _ => none
      | _ => none

/- The calls of the peer of the activation that stands at a height on the stack of a thread, from when it came
there. Of the points the last one comes first. -/
def dispatches (e : Explorer) (t : ThreadId) (height : Nat) : List Point → List Dispatch
  | [] => []
  | a :: past =>
    if (a.state.ledger t).length ≤ height then []
    else dispatches e t height past ++
      ((e.dispatchAt? a).filter fun d => d.thread = t ∧ d.height = height).toList

structure Dispatched (e : Explorer) (a : Point) (d : Dispatch) (thread : GuestThread)
    (below : List Activation) : Prop where
  found : a.state.thread? a.state.current = some thread
  running : thread.status = .runnable
  inside : ¬ e.OutOfSteps a.progress
  stack : thread.stack = .native d.call :: below
  invoked : e.invocation d.call thread.firstStep = .ok d.invocation
  called : e.program.method? d.call.method = some d.method
  own : d.thread = a.state.current
  height : d.height = below.length
  answer : (e.callPeer a.memory a.state.current d.method d.call.args d.invocation a.state.toMachine).2 = d.reply

theorem dispatchAtIff : e.dispatchAt? a = some d ↔ ∃ thread below, e.Dispatched a d thread below := by
  constructor
  · intro h
    unfold dispatchAt? at h
    split at h
    · cases h
    · rename_i thread found
      split at h
      · cases h
      · rename_i runs
        obtain ⟨running, inside⟩ := not_or.mp runs
        split at h
        · rename_i call below stack
          split at h
          · rename_i i method invoked called
            cases Option.some.inj h
            exact ⟨thread, below, found, not_not.mp running, inside, stack, invoked, called, rfl, rfl, rfl⟩
          · cases h
        · cases h
  · rintro ⟨thread, below, h⟩
    obtain ⟨t, height, call, method, i, reply⟩ := d
    obtain ⟨found, running, inside, stack, invoked, called, rfl, rfl, answer⟩ := h
    unfold dispatchAt?
    simp only [found, running, inside, ne_eq, not_true_eq_false, or_self, if_false, stack]
    rw [invoked, called]
    dsimp only at answer ⊢
    rw [answer]

theorem invokedBehind {call : NativeCall} {flag : Bool} {i : Invocation} (h : e.invocation call flag = .ok i) :
    call.phase.behind ++ [i.occasion] <+: [.entry, .choiceResolved, .directCallReturned] := by
  unfold invocation at h
  split at h
  · rename_i phase
    cases h
    rw [phase]
    exact ⟨_, rfl⟩
  · rename_i phase
    split at h
    · cases h
      rw [phase]
      exact ⟨_, rfl⟩
    · cases h
  · cases h
  · rename_i phase
    cases h
    rw [phase]
    exact ⟨_, rfl⟩

theorem invokedPhase {call : NativeCall} {flag : Bool} {i : Invocation} (h : e.invocation call flag = .ok i) :
    (i = .entry → call.phase = .entry) ∧
      (i = .choiceResolved → call.phase = .awaitingChoice ∧ flag = true) := by
  unfold invocation at h
  split at h
  · rename_i phase
    cases h
    exact ⟨fun _ => phase, nofun⟩
  · rename_i phase
    split at h
    · rename_i flagged
      cases h
      exact ⟨nofun, fun _ => ⟨phase, flagged⟩⟩
    · cases h
  · cases h
  · cases h
    exact ⟨nofun, nofun⟩

theorem callPeerCalls (standard : e.Standard) (memory : Memory) (t : ThreadId) (method : Method)
    (args : List Value) (i : Invocation) (m : Machine) :
    (e.callPeer memory t method args i m).2.toOption.bind Reply.callee? =
      if method.symbol = Builtin.processNextEventSymbol ∧ i = .choiceResolved then
        (memory.path.last?.map (·.generator)).bind (Generator.guest? e.program e.registry.actions)
      else none := by
  unfold callPeer
  cases found : e.registry.peers.get? method.symbol with
  | none =>
    refine (if_neg fun own => ?_).symm
    rw [own.1, standard.peers, Builtin.knownRegistered .processNextEvent] at found
    cases found
  | some peer =>
    dsimp only
    rw [Builtin.knownCalls (calledKnown standard found) standard.guests, Builtin.resolvedGuest]

theorem obeysStack {t : ThreadId} {thread : GuestThread} {call : NativeCall} {below : List Activation}
    {method : Method} {h : Heap} {reply : Except PeerError Reply} {u : Upshot} {ending? : Option Ending}
    (obeys : e.Obeys t thread call below method h reply u ending?) (stack : thread.stack = .native call :: below)
    (unfinished : ∀ finish, ending? ≠ some (.finished finish)) :
    u.thread.stack.map Activation.behind <:+ below.map Activation.behind ∨
    (∃ tag callee args code, reply = .ok (.directCall tag callee args) ∧ u.thread.stack =
      .bytecode (Frame.start callee code args) (some tag) ::
        .native { call with phase := .awaitingDirectCall tag } :: below) ∨
    ∃ g, reply = .ok (.choose g) ∧ ending? = some (.choice g) ∧ u.freed = none ∧
      u.thread = { thread with stack := .native { call with phase := .awaitingChoice } :: below } := by
  cases obeys with
  | returned result => exact .inl (Upshot.deliverBehind { thread with stack := below } _ nofun)
  | defaulted result => exact .inl (Upshot.deliverBehind { thread with stack := below } _ nofun)
  | called found => exact .inr (.inl ⟨_, _, _, _, rfl, rfl⟩)
  | threw result => exact .inl (Upshot.unwindNative stack result)
  | asked => exact .inr (.inr ⟨_, rfl, rfl, rfl, rfl⟩)
  | violated => exact absurd rfl (unfinished _)

def occasionAt? (e : Explorer) (a : Point) (t : ThreadId) : Option Occasion :=
  ((e.dispatchAt? a).filter fun d => d.thread = t).map (·.invocation.occasion)

theorem occasionOf (dispatched : e.dispatchAt? a = some d) (t : ThreadId) :
    e.occasionAt? a t = if d.thread = t then some d.invocation.occasion else none := by
  unfold occasionAt?
  rw [dispatched, Option.filter_some]
  by_cases own : d.thread = t
  · simp [own]
  · simp [own]

theorem undispatched {thread : GuestThread} (found : a.state.thread? a.state.current = some thread)
    (other : thread.status = .runnable → ¬ e.OutOfSteps a.progress →
      ∀ call below, thread.stack ≠ .native call :: below) : e.dispatchAt? a = none := by
  refine Option.eq_none_iff_forall_ne_some.mpr fun d dispatched => ?_
  obtain ⟨thread', below, h⟩ := dispatchAtIff.mp dispatched
  cases Option.some.inj (found.symm.trans h.found)
  exact other h.running h.inside d.call below h.stack

section Move

variable {q : Progress} {ending? : Option Ending}

theorem moveLedger (loaded : e.Loaded) (wf : a.state.WellFormed e.program)
    (h : (e.moveAt a).outcome? = some (q, ending?)) (unfinished : ∀ finish, ending? ≠ some (.finished finish))
    (t : ThreadId) : Onward (mark (e.occasionAt? a t) (a.state.ledger t)) (q.state.ledger t) := by
  have quiet : e.dispatchAt? a = none → ∀ ledger, mark (e.occasionAt? a t) ledger = ledger := by
    intro none ledger
    unfold occasionAt?
    rw [none]
    rfl
  unfold Point.state at wf ⊢
  cases moveDoes loaded.standard h with
  | waits found stopped idle same =>
    rw [quiet (undispatched found fun running => absurd running stopped), same]
    exact .inl (List.suffix_refl _)
  | handsOver found stopped alone state told =>
    rw [quiet (undispatched found fun running => absurd running stopped), state]
    dsimp only
    rw [Machine.flagLedger]
    exact .inl (List.suffix_refl _)
  | cut found running out same => exact absurd rfl (unfinished _)
  | pauses found running point same =>
    obtain ⟨_, frame, tag, below, found', stack, _⟩ := Machine.stepPoint (congrArg Prod.snd point)
    cases Option.some.inj (found.symm.trans found')
    rw [quiet (undispatched found fun _ _ call below' native => by cases stack.symm.trans native), same]
    exact .inl (List.suffix_refl _)
  | @runs thread u step found running inside works ran result state told =>
    obtain ⟨frame, tag, below, _, _, _, stack, _⟩ := GuestThread.upshotIff.mp works
    rw [quiet (undispatched found fun _ _ call below' native => by cases stack.symm.trans native), state]
    dsimp only
    rw [Machine.installLedger (Machine.threadInside found)]
    split
    · rename_i here
      rw [← here, Machine.threadLedger found]
      exact GuestThread.upshotOnward (wf.machine.threads _ thread found) works
    · exact .inl (List.suffix_refl _)
  | @answers thread call below i method m reply u ending? found running inside stack invoked called answer obeys
      state told =>
    have dispatched : e.dispatchAt? a = some ⟨a.progress.state.current, below.length, call, method, i, reply⟩ :=
      dispatchAtIff.mpr ⟨thread, below, found, running, inside, stack, invoked, called, rfl, rfl,
        congrArg Prod.snd answer⟩
    have touched := answeredTouches loaded.standard answer
    rw [state, occasionOf dispatched]
    dsimp only
    rw [Machine.installLedger (Machine.threadInside (Builtin.touchedThread touched found))]
    split
    · rename_i here
      rw [← here, Machine.threadLedger found, stack]
      show Onward ((call.phase.behind ++ [i.occasion]) :: below.map Activation.behind) _
      rcases obeysStack obeys stack unfinished with dropped | ⟨tag, callee, args, code, rfl, calls⟩ |
        ⟨g, rfl, _, _, waits⟩
      · exact .inl (dropped.trans (List.suffix_cons _ _))
      · have calls? := callPeerCalls loaded.standard a.memory a.progress.state.current method call.args i
          a.progress.state.toMachine
        rw [answer] at calls?
        split at calls?
        · rename_i own
          refine .inr ?_
          rw [calls, ((invokedPhase invoked).2 own.2).1, own.2]
          rfl
        · cases calls?
      · obtain ⟨rfl, _⟩ := callPeerChooses loaded.standard (congrArg Prod.snd answer)
        refine .inl ?_
        rw [waits, (invokedPhase invoked).1 rfl]
        exact List.suffix_refl _
    · exact Builtin.touchedLedger touched t

end Move

section Run

variable {past : List Point} {now : Point} {t : ThreadId} {height : Nat} {behind : List Occasion}

theorem ownOccasion (e : Explorer) (a : Point) (t : ThreadId) (height : Nat) :
    ((e.dispatchAt? a).filter fun d => d.thread = t ∧ d.height = height).toList.map (·.invocation.occasion) =
      if height + 1 = (a.state.ledger t).length then (e.occasionAt? a t).toList else [] := by
  cases dispatched : e.dispatchAt? a with
  | none => simp [occasionAt?, dispatched]
  | some d =>
    rw [occasionOf dispatched]
    obtain ⟨thread, below, h⟩ := dispatchAtIff.mp dispatched
    by_cases own : d.thread = t
    · have length : (a.state.ledger t).length = d.height + 1 := by
        rw [← own, h.own, Machine.threadLedger h.found, h.stack, h.height]
        simp
      by_cases here : d.height = height
      · simp [Option.filter_some, own, here, length]
      · have apart : ¬ height = d.height := fun same => here same.symm
        simp [Option.filter_some, own, here, length, apart]
    · simp [Option.filter_some, own]

theorem dispatchListed (dispatched : e.dispatchAt? a = some d) (past : List Point) :
    d ∈ e.dispatches d.thread d.height (a :: past) := by
  obtain ⟨thread, below, h⟩ := dispatchAtIff.mp dispatched
  have above : ¬ (a.state.ledger d.thread).length ≤ d.height := by
    rw [h.own, Machine.threadLedger h.found, h.stack, h.height]
    simp
  unfold dispatches
  rw [if_neg above, dispatched]
  simp [Option.filter_some]

theorem dispatchesStep {new : List (List Occasion)}
    (before : ∀ height behind, (a.state.ledger t).reverse[height]? = some behind →
      (e.dispatches t height past).map (·.invocation.occasion) = behind)
    (onward : Onward (mark (e.occasionAt? a t) (a.state.ledger t)) new)
    (there : new.reverse[height]? = some behind) :
    (e.dispatches t height (a :: past)).map (·.invocation.occasion) = behind := by
  unfold dispatches
  rcases onward.at there with old | ⟨rfl, new⟩
  · obtain ⟨early, stood, rfl⟩ := Occasion.markAt old
    have inside := (List.getElem?_eq_some_iff.mp stood).1
    rw [List.length_reverse] at inside
    rw [if_neg (by omega), List.map_append, before height early stood, ownOccasion]
  · rw [Occasion.markLength] at new
    rw [if_pos (by omega)]
    rfl

theorem initialLedger (p : Program) (t : ThreadId) : ∀ behind ∈ (State.initial p).ledger t, behind = [] := by
  refine initialHolds (fun m => ∀ behind ∈ m.ledger t, behind = []) nofun ?_ p
  intro m name id method before behind member
  rcases Builtin.touchedLedger (.spawned name id method) t with dropped | added
  · exact before behind (dropped.subset member)
  · rw [added] at member
    rcases List.mem_cons.mp member with rfl | old
    · rfl
    · exact before behind old

theorem appliedStack {path : Path} {g : Generator} {s s' : State} (h : applied (path.push g s) s = .ok s')
    (t : ThreadId) : s'.stackOf t = s.stackOf t := by
  obtain ⟨thread, _, rfl⟩ := appliedTop h
  exact (Machine.flagStack _ _ _ t).trans (Machine.clearStack _ t)

theorem appliedLedger {path : Path} {g : Generator} {s s' : State} (h : applied (path.push g s) s = .ok s')
    (t : ThreadId) : s'.ledger t = s.ledger t := by
  rw [Machine.ledgerStack, Machine.ledgerStack, appliedStack h]

theorem Chronicle.wellFormed (loaded : e.Loaded) (way : e.Chronicle past now) : now.state.WellFormed e.program :=
  (passesRuns loaded way.passes).2.wellFormed

theorem chronicleLedger (loaded : e.Loaded) (way : e.Chronicle past now)
    (there : (now.state.ledger t).reverse[height]? = some behind) :
    (e.dispatches t height past).map (·.invocation.occasion) = behind := by
  induction way generalizing height behind with
  | begins empty =>
    have member := List.mem_reverse.mp (List.mem_of_getElem? there)
    rw [initialLedger e.program t behind member]
    rfl
  | @moves past memory p q before moved ih =>
    have goesOn : (e.moveAt ⟨memory, p⟩).outcome? = some (q, none) := goesOnOutcome moved
    exact dispatchesStep (fun _ _ => ih) (moveLedger loaded (before.wellFormed loaded) goesOn nofun t) there
  | @chooses past memory memory' p q g g' i s before stopped judged chosen path goesOn ih =>
    have ends : (e.moveAt ⟨memory, p⟩).outcome? = some (q, some (.choice g)) := stopsOutcome stopped
    rw [path] at goesOn
    have same : s.ledger t = q.state.ledger t := appliedLedger goesOn t
    have there : (s.ledger t).reverse[height]? = some behind := there
    rw [same] at there
    exact dispatchesStep (fun _ _ => ih) (moveLedger loaded (before.wellFormed loaded) ends nofun t) there

theorem ledgerCourse (m : Machine) (t : ThreadId) :
    ∀ behind ∈ m.ledger t, behind <+: [.entry, .choiceResolved, .directCallReturned] := by
  intro behind member
  unfold Machine.ledger at member
  cases found : m.thread? t with
  | none =>
    rw [found] at member
    cases member
  | some thread =>
    rw [found] at member
    obtain ⟨activation, _, rfl⟩ := List.mem_map.mp member
    cases activation with
    | bytecode f tag => exact List.nil_prefix
    | native call =>
      unfold Activation.behind Phase.behind
      dsimp only
      split <;> exact ⟨_, rfl⟩

theorem dispatchesCourse (loaded : e.Loaded) (way : e.Chronicle past now) (t : ThreadId) (height : Nat) :
    (e.dispatches t height (now :: past)).map (·.invocation.occasion) <+:
      [.entry, .choiceResolved, .directCallReturned] := by
  unfold dispatches
  split
  · exact List.nil_prefix
  · rename_i above
    have inside : height < (now.state.ledger t).reverse.length := by rw [List.length_reverse]; omega
    obtain ⟨behind, there⟩ : ∃ behind, (now.state.ledger t).reverse[height]? = some behind :=
      ⟨_, List.getElem?_eq_getElem inside⟩
    have course := ledgerCourse now.state.toMachine t behind (List.mem_reverse.mp (List.mem_of_getElem? there))
    rw [List.map_append, chronicleLedger loaded way there, ownOccasion]
    split
    · rename_i top
      cases dispatched : e.dispatchAt? now with
      | none => simpa [occasionAt?, dispatched] using course
      | some d =>
        rw [occasionOf dispatched]
        split
        · rename_i own
          -- what lies behind the call on top is said by its phase, and that allows the next occasion
          obtain ⟨thread, below, h⟩ := dispatchAtIff.mp dispatched
          rw [← own, h.own, Machine.threadLedger h.found, h.stack] at there top
          rcases Occasion.topAt there with ⟨inside, _⟩ | ⟨_, rfl⟩
          · rw [List.map_cons, List.length_cons] at top
            omega
          · exact invokedBehind h.invoked
        · simpa using course
    · simpa using course

end Run

end Explorer

end BytecodeChecker
