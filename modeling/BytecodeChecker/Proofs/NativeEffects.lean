import BytecodeChecker.Proofs.Dispatches

/-! What native calls do along a run. A choice is found by the call that asked for it, threads are counted by
the starts on the path, and guest code is called once for each chosen event that has some. -/
namespace BytecodeChecker

namespace Machine

variable {m : Machine} {t j : ThreadId} {thread : GuestThread}

theorem flagOrigin {flag : Bool} (found : (m.setFirstStep t flag).thread? j = some thread) :
    ∃ old, m.thread? j = some old ∧ old.stack = thread.stack ∧ old.status = thread.status := by
  unfold setFirstStep modifyThread at found
  cases there : m.thread? t with
  | none =>
    rw [there] at found
    exact ⟨thread, found, rfl, rfl⟩
  | some old =>
    rw [there] at found
    dsimp only at found
    rw [threadSet (threadInside there)] at found
    split at found
    · rename_i here
      cases Option.some.inj found
      exact ⟨old, here ▸ there, rfl, rfl⟩
    · exact ⟨thread, found, rfl, rfl⟩

theorem clearOrigin (found : m.clearFirstSteps.thread? j = some thread) :
    ∃ old, m.thread? j = some old ∧ old.stack = thread.stack ∧ old.status = thread.status := by
  unfold clearFirstSteps thread? at found
  rw [Array.getElem?_map] at found
  obtain ⟨old, there, rfl⟩ := Option.map_eq_some_iff.mp found
  exact ⟨old, there, rfl, rfl⟩

end Machine

theorem Builtin.touchedOrigin {m m' : Machine} (touched : Touched m m') {j : ThreadId} {thread : GuestThread}
    (found : m'.thread? j = some thread) :
    m.thread? j = some thread ∨ ∃ frame, thread.stack = [.bytecode frame none] := by
  cases touched with
  | same => exact .inl found
  | static field v => exact .inl found
  | spawned name id method =>
    rw [Explorer.spawnThread] at found
    split at found
    · cases Option.some.inj found
      exact .inr ⟨_, rfl⟩
    · exact .inl found

theorem Generator.nodeThread {g : Generator} {node : EventNode} (h : g.chosenNode? = some node) :
    g.chosenThread? = none := by
  obtain ⟨choice, chosen, same⟩ := Option.bind_eq_some_iff.mp h
  unfold Generator.chosenThread?
  rw [chosen]
  cases choice with
  | event node => rfl
  | _ => cases same

theorem PeerCall.resolvedTop {c : PeerCall} {g : Generator} {i : Nat}
    (top : c.path.last?.map (·.generator) = some { g with cursor := some i }) :
    c.resolved g.kind = .ok { g with cursor := some i } := by
  unfold resolved
  rw [top]
  exact if_pos ⟨rfl, rfl⟩

namespace Builtin

variable {symbol : String} {peer : Peer} {call : PeerCall} {i : Invocation} {m : Machine} {g : Generator}

theorem Chooses.kind {after : Machine} (chooses : Chooses call m symbol after g) :
    g.kind = if symbol = threadStartSymbol then .scheduling
      else if symbol = processNextEventSymbol then .event else .data := by
  cases chooses with
  | int ranged =>
    obtain ⟨_, rfl⟩ := Generator.rangeMade ranged
    show ChoiceKind.data = _
    decide
  | boolean => decide
  | start name id method => rfl
  | event next =>
    obtain ⟨node, _, rfl, _⟩ := nextEventsMade next
    show ChoiceKind.event = _
    decide

theorem Responds.lacks {after : Machine} {kind : ChoiceKind}
    (responds : Responds call m symbol i after (.error (.missingChoice kind))) :
    i = .choiceResolved ∧ symbol ≠ threadStartSymbol ∧
      if symbol = processNextEventSymbol then ∀ g, call.resolved .event = .ok g → g.chosenNode? = none
      else ∀ g, call.resolved .data ≠ .ok g := by
  cases responds with
  | refuses wrong => exact wrong.elim
  | misses data missing => rcases data with rfl | rfl <;> exact ⟨rfl, by decide, missing⟩
  | missesEvent missing => exact ⟨rfl, by decide, missing⟩
  | happens resolved chosen named happens => cases happens

end Builtin

namespace Explorer

variable {e : Explorer} {a now : Point} {past : List Point} {q : Progress} {s : State} {t : ThreadId}
  {thread : GuestThread} {call : NativeCall} {below : List Activation} {method : Method}
  {ending? : Option Ending}

structure Expects (e : Explorer) (s : State) (t : ThreadId) (thread : GuestThread) (call : NativeCall)
    (below : List Activation) (method : Method) : Prop where
  found : s.thread? t = some thread
  stack : thread.stack = .native call :: below
  phase : call.phase = .awaitingChoice
  called : e.program.method? call.method = some method
  other : method.symbol ≠ Builtin.threadStartSymbol

theorem Expects.of {s' : State} {old : GuestThread} (expects : e.Expects s' t thread call below method)
    (found : s.thread? t = some old) (stack : old.stack = thread.stack) :
    e.Expects s t old call below method :=
  ⟨found, stack.trans expects.stack, expects.phase, expects.called, expects.other⟩

theorem Expects.behind (expects : e.Expects s t thread call below method) :
    [.entry] ∈ thread.stack.map Activation.behind := by
  have waits : Activation.behind (.native call) = [.entry] := by
    show call.phase.behind = _
    rw [expects.phase]
    rfl
  rw [expects.stack, List.map_cons, waits]
  exact .head _

theorem upshotAwaitsNot {program : Program} {size : Nat} {h : Heap} {u : Upshot}
    (wf : thread.WellFormed program size) (works : thread.upshot? program t h = some u) :
    [.entry] ∉ u.thread.stack.map Activation.behind := by
  intro waits
  obtain ⟨frame, tag, rest, _, _, _, top, _⟩ := GuestThread.upshotIff.mp works
  have stacked := wf.stack
  rw [top] at stacked
  have old : [.entry] ∈ thread.stack.map Activation.behind := by
    rcases GuestThread.upshotOnward wf works with dropped | added
    · exact dropped.subset waits
    · rw [added] at waits
      exact (List.mem_cons.mp waits).resolve_left nofun
  rw [top] at old
  exact stacked.belowAwaits ((List.mem_cons.mp old).resolve_left nofun)

theorem answeredExpects {own : GuestThread} {call' : NativeCall} {below' : List Activation} {method' : Method}
    {h : Heap} {reply : Except PeerError Reply} {u : Upshot} {size : Nat} (wf : own.WellFormed e.program size)
    (stack : own.stack = .native call' :: below')
    (obeys : e.Obeys t { own with firstStep := false } call' below' method' h reply u ending?)
    (unfinished : ∀ finish, ending? ≠ some (.finished finish))
    (expects : e.Expects s t (u.thread.wake u.freed) call below method) :
    ∃ g, reply = .ok (.choose g) ∧ ending? = some (.choice g) ∧ call = { call' with phase := .awaitingChoice } ∧
      below = below' ∧ (u.thread.wake u.freed).status = own.status := by
  have woken := (GuestThread.wakeStack u.thread u.freed).1.symm
  rcases obeysStack obeys stack unfinished with dropped | ⟨_, _, _, _, _, calls⟩ | ⟨g, asked, ended, freed, waits⟩
  · have stacked := wf.stack
    rw [stack] at stacked
    have waits := expects.behind
    rw [← woken] at waits
    exact absurd (dropped.subset waits) stacked.belowAwaits
  · cases (calls.symm.trans woken).trans expects.stack
  · have top := woken.trans expects.stack
    rw [waits] at top
    obtain ⟨same, rest⟩ : { call' with phase := .awaitingChoice } = call ∧ below' = below := by simpa using top
    refine ⟨g, asked, ended, same.symm, rest.symm, ?_⟩
    rw [freed, waits]
    rfl

theorem moveExpects (loaded : e.Loaded) (wf : a.state.WellFormed e.program)
    (alone : ∀ t thread call below method, e.Expects a.state t thread call below method →
      t = a.state.current ∧ thread.status = .runnable)
    (h : (e.moveAt a).outcome? = some (q, ending?)) (unfinished : ∀ finish, ending? ≠ some (.finished finish))
    (expects : e.Expects q.state t thread call below method) :
    t = a.state.current ∧ q.state.current = a.state.current ∧ thread.status = .runnable ∧
      ∃ g, ending? = some (.choice g) ∧ e.dispatchAt? a =
        some ⟨t, below.length, { call with phase := .entry }, method, .entry, .ok (.choose g)⟩ := by
  unfold Point.state at wf alone ⊢
  cases moveDoes loaded.standard h with
  | waits found stopped idle same =>
    rw [same] at expects
    obtain ⟨rfl, running⟩ := alone _ _ _ _ _ expects
    cases Option.some.inj (found.symm.trans expects.found)
    exact absurd running stopped
  | handsOver found stopped only state told =>
    rw [state] at expects
    obtain ⟨old, there, stack, _⟩ := Machine.flagOrigin expects.found
    obtain ⟨rfl, running⟩ := alone _ _ _ _ _ (expects.of there stack)
    cases Option.some.inj (found.symm.trans there)
    exact absurd running stopped
  | cut found running out same => exact absurd rfl (unfinished _)
  | pauses found running point same =>
    obtain ⟨_, frame, tag, _, found', stack, _⟩ := Machine.stepPoint (congrArg Prod.snd point)
    rw [same] at expects
    obtain ⟨rfl, _⟩ := alone _ _ _ _ _ expects
    cases Option.some.inj (found'.symm.trans expects.found)
    cases stack.symm.trans expects.stack
  | @runs own u step found running inside works ran result state told =>
    rw [state] at expects
    have there := expects.found
    dsimp only at there
    rw [Upshot.installThread (Machine.threadInside found)] at there
    obtain ⟨before, origin, rfl⟩ := Option.map_eq_some_iff.mp there
    have stack := (GuestThread.wakeStack before u.freed).1.symm
    split at origin
    · cases Option.some.inj origin
      have waits := expects.behind
      rw [← stack] at waits
      exact absurd waits (upshotAwaitsNot (wf.machine.threads _ own found) works)
    · rename_i apart
      exact absurd (alone _ _ _ _ _ (expects.of origin stack)).1.symm apart
  | @answers own call' below' i method' m reply u ending? found running inside stack invoked called answer obeys
      state told =>
    have touched := answeredTouches loaded.standard answer
    rw [state] at expects
    have there := expects.found
    dsimp only at there
    rw [Upshot.installThread (Machine.threadInside (Builtin.touchedThread touched found))] at there
    obtain ⟨before, origin, rfl⟩ := Option.map_eq_some_iff.mp there
    have woken := (GuestThread.wakeStack before u.freed).1.symm
    split at origin
    · rename_i here
      cases Option.some.inj origin
      subst here
      obtain ⟨g, rfl, ended, rfl, rfl, status⟩ :=
        answeredExpects (wf.machine.threads _ own found) stack obeys unfinished expects
      obtain ⟨rfl, _⟩ := callPeerChooses loaded.standard (congrArg Prod.snd answer)
      have entered : ({ call' with phase := .entry } : NativeCall) = call' := by rw [← (invokedPhase invoked).1 rfl]
      cases Option.some.inj (called.symm.trans expects.called)
      refine ⟨rfl, by rw [state], status.trans running, g, ended, dispatchAtIff.mpr ⟨own, below, ?_⟩⟩
      refine ⟨found, running, inside, ?_, rfl, called, rfl, rfl, congrArg Prod.snd answer⟩
      rw [stack]
      exact congrArg (Activation.native · :: below) entered.symm
    · rename_i apart
      rcases Builtin.touchedOrigin touched origin with old | ⟨frame, fresh⟩
      · exact absurd (alone _ _ _ _ _ (expects.of old woken)).1.symm apart
      · cases (fresh.symm.trans woken).trans expects.stack

theorem appliedOrigin {path : Path} {g : Generator} {s' : State} (h : applied (path.push g s) s = .ok s')
    (found : s'.thread? t = some thread) :
    ∃ old, s.thread? t = some old ∧ old.stack = thread.stack ∧ old.status = thread.status := by
  obtain ⟨_, _, rfl⟩ := appliedTop h
  obtain ⟨cleared, there, stack, status⟩ := Machine.flagOrigin found
  obtain ⟨old, there, stack', status'⟩ := Machine.clearOrigin there
  exact ⟨old, there, stack'.trans stack, status'.trans status⟩

/- The choice on top of the path is one that the call asked for when it was entered, at the point before. -/
def Requested (e : Explorer) (past : List Point) (now : Point) (t : ThreadId) (height : Nat) (call : NativeCall)
    (method : Method) : Prop :=
  ∃ stop earlier g i s, past = stop :: earlier ∧ e.dispatchAt? stop =
      some ⟨t, height, { call with phase := .entry }, method, .entry, .ok (.choose g)⟩ ∧
    i < g.total ∧ now.path = stop.path.push { g with cursor := some i } s

theorem askedCurrent (standard : e.Standard) {memory : Memory} {args : List Value} {m : Machine}
    {g g' : Generator} {i : Nat}
    (answer : (e.callPeer memory t method args .entry m).2 = .ok (.choose g))
    (other : method.symbol ≠ Builtin.threadStartSymbol) (chosen : g.select? i = some g') :
    g'.chosenThread? = none := by
  obtain ⟨_, rfl⟩ := Generator.selected chosen
  refine Option.eq_none_iff_forall_ne_some.mpr fun j picked => other ?_
  obtain ⟨choice, found, same⟩ := Option.bind_eq_some_iff.mp picked
  cases choice with
  | thread t =>
    cases choices : g.choices with
    | threads ids => exact (calledResponds standard answer).chooses.threads choices
    | _ =>
      have kind := (Generator.chosenKind found).1
      unfold Generator.kind at kind
      dsimp only at kind
      rw [choices] at kind
      cases kind
  | _ => cases same

theorem chronicleExpects (loaded : e.Loaded) (way : e.Chronicle past now)
    (expects : e.Expects now.state t thread call below method) :
    (t = now.state.current ∧ thread.status = .runnable) ∧ e.Requested past now t below.length call method := by
  induction way generalizing t thread call below method with
  | begins empty =>
    have waits := expects.behind
    rw [← Machine.threadLedger expects.found] at waits
    exact absurd (initialLedger e.program t _ waits) nofun
  | @moves past memory p q before moved ih =>
    have goesOn : (e.moveAt ⟨memory, p⟩).outcome? = some (q, none) := goesOnOutcome moved
    obtain ⟨_, _, _, g, ends, _⟩ := moveExpects loaded (before.wellFormed loaded)
      (fun _ _ _ _ _ expects => (ih expects).1) goesOn nofun expects
    cases ends
  | @chooses past memory memory' p q g g' i s before stopped judged chosen path goesOn ih =>
    have ends : (e.moveAt ⟨memory, p⟩).outcome? = some (q, some (.choice g)) := stopsOutcome stopped
    rw [path] at goesOn
    obtain ⟨old, there, stack, status⟩ := appliedOrigin goesOn expects.found
    obtain ⟨rfl, current, running, g'', same, asked⟩ := moveExpects loaded (before.wellFormed loaded)
      (fun _ _ _ _ _ expects => (ih expects).1) ends nofun (expects.of there stack)
    cases same
    obtain ⟨_, _, dispatched⟩ := dispatchAtIff.mp asked
    have stays := askedCurrent loaded.standard dispatched.answer expects.other chosen
    obtain ⟨_, _, next⟩ := appliedTop goesOn
    refine ⟨⟨?_, ?_⟩, ?_⟩
    · show _ = s.current
      rw [next, stays, Option.getD_none, current]
    · rw [← status]
      exact running
    · obtain ⟨inside, rfl⟩ := Generator.selected chosen
      exact ⟨⟨memory, p⟩, past, g, i, q.state, rfl, asked, inside, path⟩

section Run

variable {d : Dispatch} (loaded : e.Loaded) (way : e.Chronicle past now) (dispatched : e.dispatchAt? now = some d)
include loaded way dispatched

theorem resolvedRequested (resolved : d.invocation = .choiceResolved)
    (other : d.method.symbol ≠ Builtin.threadStartSymbol) :
    e.Requested past now d.thread d.height d.call d.method := by
  obtain ⟨thread, below, h⟩ := dispatchAtIff.mp dispatched
  obtain ⟨phase, _⟩ := (invokedPhase h.invoked).2 resolved
  rw [h.own, h.height]
  exact (chronicleExpects loaded way ⟨h.found, h.stack, phase, h.called, other⟩).2

theorem dispatchFinds (kind : ChoiceKind) : d.reply ≠ .error (.missingChoice kind) := by
  intro missed
  obtain ⟨thread, below, h⟩ := dispatchAtIff.mp dispatched
  have answer := h.answer.trans missed
  obtain ⟨resolved, other, misses⟩ := (calledResponds loaded.standard answer).lacks
  obtain ⟨stop, earlier, g, i, s, _, asked, inside, path⟩ :=
    resolvedRequested loaded way dispatched resolved other
  obtain ⟨_, _, entered⟩ := dispatchAtIff.mp asked
  have kind := (calledResponds loaded.standard entered.answer).chooses.kind
  rw [if_neg other] at kind
  have top : now.memory.path.last?.map (·.generator) = some { g with cursor := some i } := by
    rw [← Point.path, path, Path.lastPush]
    rfl
  split at misses
  · rename_i producer
    rw [if_pos producer] at kind
    obtain ⟨node, chosen⟩ := Generator.pointedNode kind inside
    have found := misses _ (kind ▸ PeerCall.resolvedTop top)
    rw [chosen] at found
    cases found
  · rename_i data
    rw [if_neg data] at kind
    exact misses _ (kind ▸ PeerCall.resolvedTop top)

end Run

end Explorer

def Generator.started (g : Generator) : Nat := if g.id = "start" then 1 else 0

def Ending.started : Option Ending → Nat
  | some (.choice g) => g.started
  | _ => 0

def PathEnd.started : PathEnd → Nat
  | .pending generator _ => if generator = "start" then 1 else 0
  | .finished _ => 0

theorem Builtin.Chooses.size {call : PeerCall} {m after : Machine} {symbol : String} {g : Generator}
    (chooses : Chooses call m symbol after g) : after.threads.size = m.threads.size + g.started := by
  cases chooses with
  | int ranged =>
    obtain ⟨_, rfl⟩ := Generator.rangeMade ranged
    rfl
  | boolean => rfl
  | start name id method => exact Array.size_push _
  | event next =>
    obtain ⟨node, _, rfl, _⟩ := nextEventsMade next
    rfl

theorem Ending.startedNot {ending? : Option Ending} (other : ∀ g, ending? ≠ some (.choice g)) :
    Ending.started ending? = 0 := by
  unfold Ending.started
  split
  · exact absurd rfl (other _)
  · rfl

namespace Explorer

variable {e : Explorer} {a now : Point} {past : List Point} {q : Progress} {ending? : Option Ending}

theorem answeredSize (standard : e.Standard) {memory : Memory} {t : ThreadId} {method : Method}
    {args : List Value} {i : Invocation} {m m' : Machine} {reply : Except PeerError Reply}
    (answer : e.callPeer memory t method args i m = (m', reply)) {thread : GuestThread} {call : NativeCall}
    {below : List Activation} {u : Upshot}
    (obeys : e.Obeys t thread call below method m'.heap reply u ending?) :
    m'.threads.size = m.threads.size + Ending.started ending? := by
  have sizes : (∃ g, reply = .ok (.choose g) ∧ m'.threads.size = m.threads.size + g.started) ∨
      (∀ g, reply ≠ .ok (.choose g)) ∧ m'.threads.size = m.threads.size := by
    have responds := calledResponds standard (congrArg Prod.snd answer)
    rw [answer] at responds
    by_cases asks : ∃ g, reply = .ok (.choose g)
    · obtain ⟨g, rfl⟩ := asks
      exact .inl ⟨g, rfl, responds.chooses.size⟩
    · exact .inr ⟨fun g asked => asks ⟨g, asked⟩, congrArg Array.size (responds.threads.resolve_left asks)⟩
  rcases sizes with ⟨g, rfl, size⟩ | ⟨other, same⟩
  · cases obeys
    exact size
  · rw [same]
    cases obeys with
    | asked => exact absurd rfl (other _)
    | @threw className message thrown result => rw [Ending.startedNot thrown.endingChoice, Nat.add_zero]
    | _ => rfl

theorem moveSize (standard : e.Standard) (h : (e.moveAt a).outcome? = some (q, ending?)) :
    q.state.threads.size = a.state.threads.size + Ending.started ending? := by
  unfold Point.state
  cases moveDoes standard h with
  | waits found stopped idle same =>
    rw [same]
    have comes := reschedules e a.progress
    rw [idle] at comes
    cases comes <;> rfl
  | handsOver found stopped alone state told =>
    rw [state]
    exact Machine.modifySize _ _ _
  | cut found running out same => rw [same]; rfl
  | pauses found running point same => rw [same]; rfl
  | @runs thread u step found running inside works ran result state told =>
    rw [state]
    dsimp only
    rw [Machine.installSize, Ending.startedNot step.endingChoice, Nat.add_zero]
  | answers found running inside stack invoked called answer obeys state told =>
    rw [state]
    dsimp only
    rw [Machine.installSize]
    exact answeredSize standard answer obeys

theorem initialSize {p : Program} (checked : p.Checked) :
    (State.initial p).threads.size = 1 + p.threads.length := by
  have spawns : ∀ (name : Method → String) (m : Machine) (id : MethodId), p.Interprets id →
      (State.spawn p name m id).threads.size = m.threads.size + 1 := by
    rintro name m id ⟨method, found, _⟩
    unfold State.spawn
    rw [found]
    exact Array.size_push _
  have all : ∀ (ids : List MethodId) (m : Machine), (∀ id ∈ ids, p.Interprets id) →
      (ids.foldl (State.spawn p (·.signature.name)) m).threads.size = m.threads.size + ids.length := by
    intro ids
    induction ids with
    | nil => exact fun m _ => rfl
    | cons id rest ih =>
      intro m roots
      obtain ⟨first, others⟩ := List.forall_mem_cons.mp roots
      rw [List.foldl_cons, ih _ others, spawns _ m id first, List.length_cons]
      omega
  unfold State.initial
  dsimp only
  rw [all p.threads _ checked.threads, spawns _ _ _ checked.entry]
  rfl

def Entry.starts (entry : Entry) : Bool := entry.generator.id == "start"

theorem appliedSize {path : Path} {g : Generator} {s s' : State} (h : applied (path.push g s) s = .ok s') :
    s'.threads.size = s.threads.size := by
  obtain ⟨_, _, rfl⟩ := appliedTop h
  exact (Machine.modifySize _ _ _).trans (Array.size_map ..)

theorem chronicleSize (loaded : e.Loaded) (way : e.Chronicle past now) :
    now.state.threads.size = 1 + e.program.threads.length + now.path.entries.countP Entry.starts := by
  induction way with
  | begins empty =>
    unfold Point.path
    rw [empty]
    exact initialSize loaded.checked
  | @moves past memory p q before moved ih =>
    have goesOn : (e.moveAt ⟨memory, p⟩).outcome? = some (q, none) := goesOnOutcome moved
    exact (moveSize loaded.standard goesOn).trans ih
  | @chooses past memory memory' p q g g' i s before stopped judged chosen path goesOn ih =>
    have ends : (e.moveAt ⟨memory, p⟩).outcome? = some (q, some (.choice g)) := stopsOutcome stopped
    rw [path] at goesOn
    have size := (appliedSize goesOn).trans (moveSize loaded.standard ends)
    rw [ih] at size
    obtain ⟨_, rfl⟩ := Generator.selected chosen
    have counted : memory'.path.entries.countP Entry.starts =
        memory.path.entries.countP Entry.starts + g.started := by
      rw [path]
      simp [Path.push, List.countP_cons, Entry.starts, Generator.started]
    show s.threads.size = 1 + _ + memory'.path.entries.countP Entry.starts
    rw [size, counted, ← Nat.add_assoc]
    rfl

def callsGuest (e : Explorer) (a : Point) : Bool :=
  (e.dispatchAt? a).any fun d => (d.reply.toOption.bind Reply.callee?).isSome

def wantsGuest (e : Explorer) (entry : Entry) : Bool :=
  (entry.generator.guest? e.program e.registry.actions).isSome

theorem calledChosen (loaded : e.Loaded) (way : e.Chronicle past now) (calls : e.callsGuest now = true) :
    ∃ stop earlier g s, past = stop :: earlier ∧ now.path = stop.path.push g s ∧
      (g.guest? e.program e.registry.actions).isSome = true := by
  unfold callsGuest at calls
  cases dispatched : e.dispatchAt? now with
  | none =>
    rw [dispatched] at calls
    cases calls
  | some d =>
    rw [dispatched] at calls
    obtain ⟨callee, called⟩ := Option.isSome_iff_exists.mp calls
    obtain ⟨thread, below, h⟩ := dispatchAtIff.mp dispatched
    rw [← h.answer, callPeerCalls loaded.standard] at called
    split at called
    · rename_i own
      have other : d.method.symbol ≠ Builtin.threadStartSymbol := by
        rw [own.1]
        decide
      obtain ⟨stop, earlier, g, i, s, before, _, _, path⟩ := resolvedRequested loaded way dispatched own.2 other
      refine ⟨stop, earlier, _, s, before, path, ?_⟩
      rw [← Point.path, path, Path.lastPush] at called
      exact Option.isSome_iff_exists.mpr ⟨callee, called⟩
    · cases called

theorem eventAsked (standard : e.Standard) {g : Generator}
    (h : (e.moveAt a).outcome? = some (q, some (.choice g))) (event : g.kind = .event) :
    ∃ thread call below method, e.Expects q.state q.state.current thread call below method ∧
      method.symbol = Builtin.processNextEventSymbol := by
  generalize ended : some (Ending.choice g) = ending? at h
  cases moveDoes standard h with
  | waits found stopped idle same =>
    cases ended
    have comes := reschedules e a.progress
    rw [idle] at comes
    cases comes
    cases event
  | handsOver found stopped alone state told => cases ended
  | cut found running out same => cases ended
  | pauses found running point same =>
    cases ended
    cases event
  | @runs thread u step found running inside works ran result state told =>
    exact absurd ended.symm (step.endingChoice g)
  | @answers thread call below i method m reply u ending? found running inside stack invoked called answer obeys
      state told =>
    cases obeys with
    | asked =>
      cases ended
      have touched := answeredTouches standard answer
      have symbol : method.symbol = Builtin.processNextEventSymbol := by
        have kind := (calledResponds standard (congrArg Prod.snd answer)).chooses.kind
        rw [event] at kind
        split at kind
        · cases kind
        · split at kind
          · assumption
          · cases kind
      refine ⟨{ thread with firstStep := false, stack := .native { call with phase := .awaitingChoice } :: below },
        { call with phase := .awaitingChoice }, below, method, ⟨?_, rfl, rfl, called, ?_⟩, symbol⟩
      · rw [state]
        dsimp only
        rw [Upshot.installThread (Machine.threadInside (Builtin.touchedThread touched found)), if_pos rfl]
        rfl
      · rw [symbol]
        decide
    | @threw className message thrown result => exact absurd ended.symm (thrown.endingChoice g)
    | _ => cases ended

theorem chosenCalls (standard : e.Standard) {memory memory' : Memory} {p q : Progress} {g g' : Generator} {i : Nat}
    {s : State} (stopped : e.move memory p = .stop q (.ok (.choice g))) (chosen : g.select? i = some g')
    (path : memory'.path = memory.path.push g' q.state) (goesOn : applied memory'.path q.state = .ok s)
    (wants : (g'.guest? e.program e.registry.actions).isSome = true) :
    e.callsGuest ⟨memory', ⟨s, 0, []⟩⟩ = true := by
  obtain ⟨callee, calls⟩ := Option.isSome_iff_exists.mp wants
  obtain ⟨event, found, _⟩ := Option.bind_eq_some_iff.mp calls
  obtain ⟨node, picked, _⟩ := Option.bind_eq_some_iff.mp found
  have kind := (Generator.chosenEvent picked).1
  have goes := goesOn
  rw [path] at goes
  obtain ⟨_, current, own, there, running, flag⟩ := appliedPoised standard (moveDecides standard stopped) chosen goes
  obtain ⟨old, origin, stack, _⟩ := appliedOrigin goes there
  rw [current, Generator.nodeThread picked] at origin
  obtain ⟨_, rfl⟩ := Generator.selected chosen
  have ends : (e.moveAt ⟨memory, p⟩).outcome? = some (q, some (.choice g)) := stopsOutcome stopped
  obtain ⟨thread, call, below, method, expects, symbol⟩ := eventAsked standard ends kind
  cases Option.some.inj (expects.found.symm.trans origin)
  have invoked : e.invocation call own.firstStep = .ok .choiceResolved := by
    unfold invocation
    rw [expects.phase, flag]
    rfl
  have inside : ¬ e.OutOfSteps ⟨s, 0, []⟩ := fun out => Nat.not_lt.mpr out.2 out.1
  have dispatched : e.dispatchAt? ⟨memory', ⟨s, 0, []⟩⟩ = some ⟨s.current, below.length, call, method,
      .choiceResolved, (e.callPeer memory' s.current method call.args .choiceResolved s.toMachine).2⟩ :=
    dispatchAtIff.mpr ⟨own, below, there, running, inside, stack.symm.trans expects.stack, invoked, expects.called,
      rfl, rfl, rfl⟩
  unfold callsGuest
  rw [dispatched]
  dsimp only [Option.any_some]
  rw [callPeerCalls standard, if_pos ⟨symbol, rfl⟩, path, Path.lastPush]
  exact wants

theorem chronicleCalls (loaded : e.Loaded) (way : e.Chronicle past now) :
    (now :: past).countP e.callsGuest = now.path.entries.countP e.wantsGuest := by
  induction way with
  | @begins memory empty =>
    have none : ¬ e.callsGuest ⟨memory, ⟨State.initial e.program, 0, []⟩⟩ = true := by
      intro calls
      obtain ⟨_, _, _, _, early, _⟩ := calledChosen loaded (.begins empty) calls
      cases early
    unfold Point.path
    rw [List.countP_cons_of_neg none, empty]
    rfl
  | @moves past memory p q before moved ih =>
    have none : ¬ e.callsGuest ⟨memory, q⟩ = true := by
      intro calls
      obtain ⟨_, _, g, s, same, path, _⟩ := calledChosen loaded (before.moves moved) calls
      cases same
      have depth := congrArg Path.depth path
      exact absurd depth (Nat.ne_of_lt (Nat.lt_succ_self _))
    rw [List.countP_cons_of_neg none]
    exact ih
  | @chooses past memory memory' p q g g' i s before stopped judged chosen path goesOn ih =>
    have way := before.chooses stopped judged chosen path goesOn
    have top : e.callsGuest ⟨memory', ⟨s, 0, []⟩⟩ = (g'.guest? e.program e.registry.actions).isSome := by
      refine Bool.eq_iff_iff.mpr ⟨fun calls => ?_, chosenCalls loaded.standard stopped chosen path goesOn⟩
      obtain ⟨_, _, f, s', same, path', wants⟩ := calledChosen loaded way calls
      cases same
      have last := congrArg Path.last? (path.symm.trans path')
      rw [Path.lastPush, Path.lastPush] at last
      cases last
      exact wants
    have entries : Point.path ⟨memory', ⟨s, 0, []⟩⟩ = memory.path.push g' q.state := path
    have counted : (memory.path.push g' q.state).entries.countP e.wantsGuest = memory.path.entries.countP e.wantsGuest +
        if (g'.guest? e.program e.registry.actions).isSome = true then 1 else 0 := List.countP_cons
    rw [List.countP_cons, ih, top, entries, counted]
    rfl

section Dispatch

variable {d : Dispatch}

theorem dispatchedDoes (standard : e.Standard) (h : (e.moveAt a).outcome? = some (q, ending?))
    (dispatched : e.dispatchAt? a = some d) :
    ∃ thread below m u, e.Dispatched a d thread below ∧ Builtin.Touched a.state.toMachine m ∧
      e.Obeys a.state.current { thread with firstStep := false } d.call below d.method m.heap d.reply u ending? ∧
      q.state = { a.state with toMachine := u.install a.state.current m } := by
  obtain ⟨thread, below, here⟩ := dispatchAtIff.mp dispatched
  cases moveDoes standard h with
  | waits found stopped idle same =>
    cases Option.some.inj (found.symm.trans here.found)
    exact absurd here.running stopped
  | handsOver found stopped alone state told =>
    cases Option.some.inj (found.symm.trans here.found)
    exact absurd here.running stopped
  | cut found running out same => exact absurd out here.inside
  | pauses found running point same =>
    obtain ⟨_, frame, tag, _, found', stack, _⟩ := Machine.stepPoint (congrArg Prod.snd point)
    cases Option.some.inj (found'.symm.trans here.found)
    cases stack.symm.trans here.stack
  | runs found running inside works ran result state told =>
    obtain ⟨frame, tag, _, _, _, _, stack, _⟩ := GuestThread.upshotIff.mp works
    cases Option.some.inj (found.symm.trans here.found)
    cases stack.symm.trans here.stack
  | @answers thread' call below' i method m reply u ending? found running inside stack invoked called answer obeys
      state told =>
    cases Option.some.inj (found.symm.trans here.found)
    cases stack.symm.trans here.stack
    cases Except.ok.inj (invoked.symm.trans here.invoked)
    cases Option.some.inj (called.symm.trans here.called)
    have same : reply = d.reply := (congrArg Prod.snd answer).symm.trans here.answer
    subst same
    exact ⟨thread, below, m, u, here, answeredTouches standard answer, obeys, state⟩

def Pushes (e : Explorer) (a : Point) (d : Dispatch) (tag : String) (callee : MethodId) (args : List Value) : Prop :=
  ∃ q code thread below, e.moveAt a = .goOn q ∧ e.program.method? callee = some code ∧
    q.state.thread? d.thread = some thread ∧ thread.stack =
      .bytecode (Frame.start callee code args) (some tag) ::
        .native { d.call with phase := .awaitingDirectCall tag } :: below

theorem calledPushes (standard : e.Standard) (h : (e.moveAt a).outcome? = some (q, ending?))
    (dispatched : e.dispatchAt? a = some d) {tag : String} {callee : MethodId} {args : List Value}
    (reply : d.reply = .ok (.directCall tag callee args)) : e.Pushes a d tag callee args := by
  obtain ⟨thread, below, m, u, here, touched, obeys, state⟩ := dispatchedDoes standard h dispatched
  rw [reply] at obeys
  cases obeys with
  | called found =>
    refine ⟨q, _, { thread with firstStep := false, stack := _ }, below, Move.outcomeGoesOn h, found, ?_, rfl⟩
    rw [state, here.own]
    dsimp only
    rw [Upshot.installThread (Machine.threadInside (Builtin.touchedThread touched here.found)), if_pos rfl]
    rfl

theorem moveTold (loaded : e.Loaded) (way : e.Chronicle past now)
    (before : ∀ n ∈ now.progress.notices, ∀ kind, n.peerError? ≠ some (.missingChoice kind))
    (h : (e.moveAt now).outcome? = some (q, ending?)) :
    ∀ n ∈ q.notices, ∀ kind, n.peerError? ≠ some (.missingChoice kind) := by
  intro n member kind missed
  cases moveDoes loaded.standard h with
  | waits found stopped idle same =>
    rw [same] at member
    exact before n member kind missed
  | handsOver found stopped alone state told =>
    rw [told] at member
    exact before n member kind missed
  | cut found running out same =>
    rw [same] at member
    exact before n member kind missed
  | pauses found running point same =>
    rw [same] at member
    exact before n member kind missed
  | runs found running inside works ran result state told =>
    rcases told n member with old | other
    · exact before n old kind missed
    · rw [other] at missed
      cases missed
  | @answers thread call below i method m reply u ending? found running inside stack invoked called answer obeys
      state told =>
    rcases told n member with old | failed
    · exact before n old kind missed
    · have dispatched : e.dispatchAt? now = some ⟨now.state.current, below.length, call, method, i, reply⟩ :=
        dispatchAtIff.mpr ⟨thread, below, found, running, inside, stack, invoked, called, rfl, rfl,
          congrArg Prod.snd answer⟩
      exact dispatchFinds loaded way dispatched kind (failed _ missed)

theorem chronicleTold (loaded : e.Loaded) (way : e.Chronicle past now) :
    ∀ n ∈ now.progress.notices, ∀ kind, n.peerError? ≠ some (.missingChoice kind) := by
  induction way with
  | begins empty => exact nofun
  | @moves past memory p q before moved ih =>
    have goesOn : (e.moveAt ⟨memory, p⟩).outcome? = some (q, none) := goesOnOutcome moved
    exact moveTold loaded before ih goesOn
  | chooses before stopped judged chosen path goesOn ih => exact nofun

end Dispatch

theorem Records.made {m : Memory} {s : State} {ending : Ending} (records : e.Records m s ending now past)
    (member : a ∈ now :: past) : ∃ q ending?, (e.moveAt a).outcome? = some (q, ending?) := by
  rcases List.mem_cons.mp member with rfl | early
  · obtain ⟨q, raw, stopped, _⟩ := records.stopped
    exact ⟨q, some raw, by rw [stopped]; rfl⟩
  · exact records.way.made early

theorem recordsTold (loaded : e.Loaded) {m : Memory} {s : State} {ending : Ending}
    (records : e.Records m s ending now past) :
    ∀ n ∈ m.notices, ∀ kind, n.peerError? ≠ some (.missingChoice kind) := by
  intro n member kind
  rcases records.faithful.told n member with ⟨_, _, rfl⟩ | ⟨a, there, told⟩
  · exact nofun
  · obtain ⟨later, earlier, split⟩ := List.append_of_mem there
    have way := records.way.suffix ⟨later, split.symm⟩
    obtain ⟨q, ending?, moved⟩ := records.made there
    rw [Move.outcomeProgress moved] at told
    exact moveTold loaded way (chronicleTold loaded way) moved n told kind

theorem recordsSize (loaded : e.Loaded) (plain : e.properties = []) {m : Memory} {s : State} {ending : Ending}
    (records : e.Records m s ending now past) :
    s.threads.size = 1 + e.program.threads.length +
      (m.path.trace s).steps.countP (·.generator == "start") + (pathEnd ending).started := by
  obtain ⟨q, raw, stopped, rfl, judged⟩ := records.stopped
  rw [judgeNothing plain] at judged
  have ends : (e.moveAt now).outcome? = some (q, some raw) := by rw [stopped]; rfl
  have last : Ending.started (some raw) = (pathEnd ending).started := by
    rw [← judged]
    cases raw <;> rfl
  have counted : (m.path.trace q.state).steps.countP (·.generator == "start") =
      now.path.entries.countP Entry.starts := by
    rw [records.path]
    unfold Path.trace
    rw [List.countP_map, List.countP_reverse]
    rfl
  rw [moveSize loaded.standard ends, chronicleSize loaded records.way, last, counted]

theorem nativeEffectsOnce {model : Model} {config : Config} (accepted : ofModel model config = .ok e) {fuel : Nat}
    {choices : List Nat} {m : Memory} {r : Replayed} (replayed : e.replay fuel choices = some (m, .ok r)) :
    (∃ ending now past, e.Records m r.state ending now past) ∧
    (∀ ending now past, e.Records m r.state ending now past →
      (∀ t height points, points <:+ now :: past →
        (e.dispatches t height points).map (·.invocation.occasion) <+:
          [.entry, .choiceResolved, .directCallReturned]) ∧
      (∀ a earlier d, a :: earlier <:+ now :: past → e.dispatchAt? a = some d →
        d ∈ e.dispatches d.thread d.height (a :: earlier) ∧
        (d.invocation = .choiceResolved → d.method.symbol ∈ [Builtin.getIntSymbol, Builtin.getBooleanSymbol,
          Builtin.processNextEventSymbol] → e.Requested earlier a d.thread d.height d.call d.method) ∧
        (∀ kind, d.reply ≠ .error (.missingChoice kind)) ∧
        ∀ tag callee args, d.reply = .ok (.directCall tag callee args) → e.Pushes a d tag callee args) ∧
      (now :: past).countP e.callsGuest = m.path.entries.countP e.wantsGuest) ∧
    (∀ n ∈ m.notices, ∀ kind, n.peerError? ≠ some (.missingChoice kind)) ∧
    r.state.threads.size =
      1 + model.threads.length + r.trace.steps.countP (·.generator == "start") + r.stop.started := by
  have loaded : e.Loaded := modelLoaded accepted e.properties
  have source := modelSource accepted
  obtain ⟨ending, now, past, records, stop, _, trace⟩ := replayRecords replayed
  refine ⟨⟨ending, now, past, records⟩, fun ending now past records => ⟨?_, ?_, ?_⟩, recordsTold loaded records, ?_⟩
  · intro t height points ends
    cases points with
    | nil => exact List.nil_prefix
    | cons a earlier => exact dispatchesCourse loaded (records.way.suffix ends) t height
  · intro a earlier d ends dispatched
    have way := records.way.suffix ends
    obtain ⟨q, ending?, moved⟩ := records.made (ends.subset (.head _))
    refine ⟨dispatchListed dispatched earlier,
      fun resolved symbol => resolvedRequested loaded way dispatched resolved ?_,
      dispatchFinds loaded way dispatched, fun _ _ _ reply => calledPushes loaded.standard moved dispatched reply⟩
    intro start
    rw [start] at symbol
    exact absurd symbol (by decide)
  · rw [records.path]
    exact chronicleCalls loaded records.way
  · rw [trace, stop, ← Program.loadThreads source.program]
    exact recordsSize loaded source.properties records

def hiring : Model :=
  { (Model.start "hiring" "Firm.main()V").withMethod "Firm.main()V" 0
      [.pushString "Firm.work()V", .invokeStatic Builtin.threadStartSymbol,
        .invokeStatic Builtin.processNextEventSymbol, .pop, .ret none] |>.withMethod "Firm.work()V" 0
      [.ret none] |>.withMethod "Firm.order()V" 0 [.ret none] with
    events := some (.event (.normal "order" []))
    actions := NameMap.empty.insert "order" "Firm.order()V" }

theorem hiringCounts : ∃ e m r ending now past, ofModel hiring Config.default = .ok e ∧
    e.replay 20 [0, 0] = some (m, .ok r) ∧ r.stop = .finished .completed ∧
    r.trace.steps.map (·.generator) = ["start", "processNextEvent"] ∧ r.state.threads.size = 2 ∧
    e.Records m r.state ending now past ∧ (now :: past).countP e.callsGuest = 1 := by
  obtain ⟨e, m, r, accepted, replayed, passed⟩ := replayRun hiring Config.default (fun e => e) 20 [0, 0]
    (fun e m r => r.stop == .finished .completed &&
      (r.trace.steps.map (·.generator) == ["start", "processNextEvent"] &&
        m.path.entries.countP e.wantsGuest == 1)) (by decide +kernel)
  simp only [Bool.and_eq_true, beq_iff_eq] at passed
  obtain ⟨stop, listed, wanted⟩ := passed
  obtain ⟨⟨ending, now, past, records⟩, facts, _, size⟩ := nativeEffectsOnce accepted replayed
  obtain ⟨_, _, called⟩ := facts ending now past records
  have starts : r.trace.steps.countP (·.generator == "start") =
      (r.trace.steps.map (·.generator)).countP (· == "start") := by
    rw [List.countP_map]
    rfl
  rw [starts, listed, stop] at size
  exact ⟨e, m, r, ending, now, past, accepted, replayed, stop, listed, size, records, called.trans wanted⟩

end Explorer

end BytecodeChecker
