import BytecodeChecker.Proofs.Standard
import BytecodeChecker.Proofs.Step

/-! What a transition does and what it depends on. More fuel keeps its result; it neither reads nor
changes the number of decisions in the state; and two runs whose paths look alike to the peers go
through the same machines. -/
namespace BytecodeChecker

inductive Notice.Inner : Notice → Prop where
  | instruction (t : ThreadId) (method : MethodId) (pc : Nat) (op : Op) :
      Inner (.instruction t method pc op)
  | exception (thrown : Thrown) : Inner (.exception thrown)
  | peerError (t : ThreadId) (symbol : String) (error : PeerError) :
      Inner (.peerError t symbol error)

namespace Move

def progress : Move → Progress
  | goOn p => p
  | stop p _ => p

def result? : Move → Option (Except CheckError Ending)
  | goOn _ => none
  | stop _ result => some result

end Move

structure Progress.Keeps (kind : MethodId → Prop) (p q : Progress) : Prop where
  within : q.state.Within kind
  depth : q.state.depth = p.state.depth
  notices : ∃ more, q.notices = more ++ p.notices ∧ ∀ n ∈ more, Notice.Inner n

namespace Progress.Keeps

variable {kind : MethodId → Prop} {p q r : Progress}

theorem trans (first : p.Keeps kind q) (second : q.Keeps kind r) : p.Keeps kind r := by
  obtain ⟨early, same, inner⟩ := first.notices
  obtain ⟨late, same', inner'⟩ := second.notices
  refine ⟨second.within, second.depth.trans first.depth, late ++ early, ?_, ?_⟩
  · rw [same', same, List.append_assoc]
  · intro n member
    rcases List.mem_append.mp member with h | h
    · exact inner' n h
    · exact inner n h

theorem silent (within : q.state.Within kind) (depth : q.state.depth = p.state.depth)
    (notices : q.notices = p.notices) : p.Keeps kind q :=
  ⟨within, depth, [], notices, by simp⟩

theorem refl (within : p.state.Within kind) : p.Keeps kind p := silent within rfl rfl

theorem counted (within : p.state.Within kind) : p.Keeps kind p.count := silent within rfl rfl

theorem noted (within : p.state.Within kind) {n : Notice} (inner : n.Inner) :
    p.Keeps kind (p.note n) :=
  ⟨within, rfl, [n], rfl, by simpa using inner⟩

end Progress.Keeps

structure Move.Sound (kind : MethodId → Prop) (p : Progress) (mv : Move) : Prop where
  keeps : p.Keeps kind mv.progress
  fresh : ∀ g, mv.result? = some (.ok (.choice g)) → g.Fresh

namespace Explorer

variable {kind : MethodId → Prop} {e : Explorer} {p : Progress} {t : ThreadId}

theorem soundGoOn {q : Progress} (keeps : p.Keeps kind q) : (Move.goOn q).Sound kind p :=
  ⟨keeps, fun _ h => by cases h⟩

theorem soundStop {q : Progress} {result : Except CheckError Ending} (keeps : p.Keeps kind q)
    (fresh : ∀ g, result = .ok (.choice g) → g.Fresh) : (Move.stop q result).Sound kind p :=
  ⟨keeps, fun g h => fresh g (Option.some.inj h)⟩

theorem soundTrans {q : Progress} {mv : Move} (keeps : p.Keeps kind q) (h : mv.Sound kind q) :
    mv.Sound kind p :=
  ⟨keeps.trans h.keeps, h.fresh⟩

theorem afterCases {α : Type} (p : Progress) (operation : Machine → Machine.Outcome α)
    (next : Progress → α → Move) :
    (∃ a, (operation p.state.toMachine).2 = .ok a ∧
      afterOutcome p operation next = next (p.act operation).1 a) ∨
    ∃ fault, (operation p.state.toMachine).2 = .error fault ∧
      afterOutcome p operation next = .stop (p.act operation).1 (.error (.machine fault)) := by
  have moved : p.act operation = ((p.act operation).1, (operation p.state.toMachine).2) := rfl
  unfold afterOutcome
  rw [moved]
  cases (operation p.state.toMachine).2 with
  | ok a => exact .inl ⟨a, rfl, rfl⟩
  | error fault => exact .inr ⟨fault, rfl, rfl⟩

theorem soundAfter {α : Type} {operation : Machine → Machine.Outcome α} {next : Progress → α → Move}
    (within : (operation p.state.toMachine).1.Within kind)
    (sound : ∀ a, (operation p.state.toMachine).2 = .ok a → p.Keeps kind (p.act operation).1 →
      (next (p.act operation).1 a).Sound kind (p.act operation).1) :
    (afterOutcome p operation next).Sound kind p := by
  have keeps : p.Keeps kind (p.act operation).1 := .silent within rfl rfl
  rcases afterCases p operation next with ⟨a, result, same⟩ | ⟨fault, _, same⟩
  · rw [same]
    exact soundTrans keeps (sound a result keeps)
  · rw [same]
    exact soundStop keeps fun g h => by cases h

inductive Reschedules (e : Explorer) (p : Progress) : Move → Prop where
  | completed (none : p.state.runnable = [])
      (free : e.config.checkDeadlock = true →
        ∀ t thread o, p.state.thread? t = some thread → thread.status ≠ .blocked o) :
      Reschedules e p (.stop p (.ok (.finished .completed)))
  | deadlocked {waits : GuestThread → Bool} (none : p.state.runnable = [])
      (blocked : ∀ thread, waits thread = true ↔ ∃ o, thread.status = .blocked o) :
      Reschedules e p (.stop p (.ok (.finished (.violated (.deadlock (p.state.threadsWhere waits))))))
  | handsOver {only : ThreadId} (alone : p.state.runnable = [only]) :
      Reschedules e p (.goOn { p with
        state := { p.state with toMachine := p.state.setFirstStep only true, current := only } })
  | chooses (some : p.state.runnable ≠ []) :
      Reschedules e p (.stop p (.ok (.choice (.ofThreads "reschedule" p.state.runnable))))

theorem reschedules (e : Explorer) (p : Progress) : e.Reschedules p (e.reschedule p) := by
  unfold reschedule
  dsimp only
  split
  · rename_i none
    split
    · rename_i unblocked
      refine .completed none fun strict t thread o found status => ?_
      simp only [strict, Bool.not_true, Bool.or_false, List.isEmpty_iff] at unblocked
      have free := List.eq_nil_iff_forall_not_mem.mp unblocked t
      exact free (Machine.whereMember.mpr ⟨thread, found, by rw [status]⟩)
    · refine .deadlocked none fun thread => ?_
      cases thread.status <;> simp
  · rename_i only alone
    exact .handsOver alone
  · rename_i some _
    exact .chooses some

theorem soundReschedule (within : p.state.Within kind) : (e.reschedule p).Sound kind p := by
  have keeps : p.Keeps kind p := .refl within
  have comes := reschedules e p
  generalize e.reschedule p = mv at comes ⊢
  cases comes with
  | completed none free => exact soundStop keeps fun g h => by cases h
  | deadlocked none blocked => exact soundStop keeps fun g h => by cases h
  | handsOver alone => exact soundGoOn (.silent (Machine.withinFlag within true) rfl rfl)
  | chooses some =>
    refine soundStop keeps fun g h => ?_
    cases h
    exact ⟨rfl, List.length_pos_iff.mpr some⟩

theorem soundAfterThrow (within : p.state.Within kind) (thrown : Thrown) :
    (afterThrow p thrown).Sound kind p := by
  have keeps := Progress.Keeps.noted within (.exception thrown)
  unfold afterThrow
  dsimp only
  split
  · exact soundGoOn keeps
  · exact soundStop keeps fun g h => by cases h

theorem withinAwait {m : Machine} (within : m.Within kind) :
    (m.modifyThread t awaitChoice).Within kind := by
  refine Machine.withinModify within fun thread stack => ?_
  unfold awaitChoice
  split
  · rename_i same
    rw [same] at stack
    obtain ⟨top, rest⟩ := List.forall_mem_cons.mp stack
    exact List.forall_mem_cons.mpr ⟨top, rest⟩
  · exact stack

theorem soundObey (within : p.state.Within kind) {reply : Reply}
    (fresh : ∀ g, reply = .choose g → g.Fresh) : (e.obey t p reply).Sound kind p := by
  have keeps : p.Keeps kind p := .refl within
  cases reply with
  | ret value =>
    exact soundAfter (Machine.withinNativeReturn within value) fun _ _ keeps =>
      soundGoOn (.refl keeps.within)
  | choose g =>
    refine soundStop (.silent (withinAwait within) rfl rfl) fun g' h => ?_
    cases h
    exact fresh g rfl
  | directCall tag callee args =>
    exact soundAfter (Machine.withinDirectCall within tag callee args) fun _ _ keeps =>
      soundGoOn (.refl keeps.within)
  | throw className message =>
    exact soundAfter (Machine.withinThrow within className message) fun thrown _ keeps =>
      soundAfterThrow keeps.within thrown
  | violation failure => exact soundStop keeps fun g h => by cases h

theorem noteState (t : ThreadId) (stack : List Activation) :
    (e.noteInstruction t stack p).state = p.state := by
  unfold noteInstruction
  repeat' split
  all_goals rfl

section Standard

variable (standard : e.Standard)
include standard

theorem calledKnown {method : Method} {peer : Peer}
    (found : e.registry.peers.get? method.symbol = some peer) : Builtin.Known method.symbol peer :=
  Builtin.registered (by rw [← standard.peers]; exact found)

theorem calledResponds {memory : Memory} {method : Method} {args : List Value} {i : Invocation} {m : Machine}
    {result : Except PeerError Reply} (h : (e.callPeer memory t method args i m).2 = result) :
    Builtin.Responds (e.peerCall memory t method args) m method.symbol i
      (e.callPeer memory t method args i m).1 result := by
  unfold callPeer at h ⊢
  split at h
  · cases h
    exact .refuses trivial
  · rename_i peer found
    exact Builtin.knownResponds (calledKnown standard found) standard.guests h

theorem callPeerTouches (memory : Memory) (method : Method) (args : List Value) (i : Invocation)
    (m : Machine) : Builtin.Touched m (e.callPeer memory t method args i m).1 :=
  (calledResponds standard rfl).touches

theorem callPeerChooses {memory : Memory} {method : Method} {args : List Value} {i : Invocation}
    {m : Machine} {g : Generator}
    (h : (e.callPeer memory t method args i m).2 = .ok (.choose g)) : i = .entry ∧ g.Fresh := by
  obtain ⟨entered, asks⟩ := (calledResponds standard h).asks
  exact ⟨entered, asks.fresh⟩

theorem soundDispatch (memory : Memory) (call : NativeCall) (firstStep : Bool)
    (within : p.state.Within kind) : (e.dispatch memory t call firstStep p).Sound kind p := by
  have keeps : p.Keeps kind p := .refl within
  unfold dispatch
  split
  · exact soundStop keeps fun g h => by cases h
  · rename_i i _
    split
    · exact soundStop keeps fun g h => by cases h
    · rename_i method _
      have touched := callPeerTouches (t := t) standard memory method call.args i p.state.toMachine
      have after : p.Keeps kind (p.act fun m =>
          ((e.callPeer memory t method call.args i m).1.setFirstStep t false, ())).1 :=
        .silent (Machine.withinFlag (Builtin.touchedWithin touched within) false) rfl rfl
      dsimp only [Progress.act]
      split
      · rename_i reply answered
        refine soundTrans after (soundObey after.within fun g same => ?_)
        subst same
        exact (callPeerChooses standard answered).2
      · rename_i error answered
        refine soundTrans after (soundTrans (.noted after.within (.peerError t method.symbol error)) ?_)
        exact soundAfter (Machine.withinNativeReturn after.within _) fun _ _ keeps =>
          soundGoOn (.refl keeps.within)

omit standard in
theorem keepsNoteInstruction (within : p.state.Within kind) (stack : List Activation) :
    p.Keeps kind (e.noteInstruction t stack p) := by
  have keeps : p.Keeps kind p := .refl within
  unfold noteInstruction
  split
  · split
    · split
      · exact .noted within (.instruction _ _ _ _)
      · exact keeps
    · exact keeps
  · exact keeps

theorem soundMove (calls : e.program.CallsWithin kind) (memory : Memory)
    (within : p.state.Within kind) : (e.move memory p).Sound kind p := by
  have keeps : p.Keeps kind p := .refl within
  unfold move
  dsimp only
  split
  · exact soundStop keeps fun g h => by cases h
  · rename_i thread _
    split
    · exact soundReschedule within
    · split
      · exact soundStop keeps fun g h => by cases h
      · refine soundAfter (Machine.withinStep calls within) fun step reported stepped => ?_
        have same := Progress.Keeps.refl stepped.within
        have counted := Progress.Keeps.counted stepped.within
        cases step with
        | executed =>
          exact soundGoOn (counted.trans (keepsNoteInstruction counted.within thread.stack))
        | schedulingPoint =>
          obtain ⟨_, _, _, _, _, _, others, unchanged⟩ := Machine.stepPoint reported
          refine soundStop same fun g h => ?_
          cases h
          refine ⟨rfl, ?_⟩
          change 0 < (Machine.step e.program p.state.current p.state.toMachine).1.runnable.length
          rw [unchanged, Machine.runnableLength]
          omega
        | native =>
          dsimp only
          split
          · exact soundTrans counted (soundDispatch standard memory _ _ counted.within)
          · exact soundStop same fun g h => by cases h
        | blocked o => exact soundGoOn same
        | terminated => exact soundGoOn same
        | exception thrown => exact soundAfterThrow stepped.within thrown

theorem transitionSound (calls : e.program.CallsWithin kind) {memory : Memory} {fuel : Nat}
    {q : Progress} {result : Except CheckError Ending} (within : p.state.Within kind)
    (h : e.transition memory fuel p = some (q, result)) :
    p.Keeps kind q ∧ ∀ g, result = .ok (.choice g) → g.Fresh := by
  induction fuel generalizing p with
  | zero => cases h
  | succ fuel ih =>
    have sound := soundMove standard calls memory within
    unfold transition at h
    cases moved : e.move memory p with
    | goOn next =>
      rw [moved] at h sound
      obtain ⟨keeps, fresh⟩ := ih sound.keeps.within h
      exact ⟨sound.keeps.trans keeps, fresh⟩
    | stop last ended =>
      rw [moved] at h sound
      cases Option.some.inj h
      exact ⟨sound.keeps, fun g same => sound.fresh g (congrArg some same)⟩

end Standard

theorem transitionMore {memory : Memory} {fuel more : Nat} {r : Progress × Except CheckError Ending}
    (h : e.transition memory fuel p = some r) (enough : fuel ≤ more) :
    e.transition memory more p = some r := by
  induction fuel generalizing p more with
  | zero => cases h
  | succ fuel ih =>
    cases more with
    | zero => omega
    | succ more =>
      unfold transition at h ⊢
      cases moved : e.move memory p with
      | goOn next =>
        rw [moved] at h
        exact ih h (by omega)
      | stop last ended =>
        rw [moved] at h
        exact h

theorem transitionSame {other : Explorer} {memory : Memory}
    (moves : ∀ p, other.move memory p = e.move memory p) (fuel : Nat) (p : Progress) :
    other.transition memory fuel p = e.transition memory fuel p := by
  induction fuel generalizing p with
  | zero => rfl
  | succ fuel ih =>
    unfold transition
    rw [moves]
    split
    · exact ih _
    · rfl

end Explorer

structure Progress.Alike (p q : Progress) : Prop where
  machine : p.state.toMachine = q.state.toMachine
  current : p.state.current = q.state.current
  steps : p.steps = q.steps

inductive Move.Alike : Move → Move → Prop where
  | goOn {p q : Progress} (alike : p.Alike q) : Alike (.goOn p) (.goOn q)
  | stop {p q : Progress} (alike : p.Alike q) (result : Except CheckError Ending) :
      Alike (.stop p result) (.stop q result)

namespace Explorer

variable {e : Explorer} {p q : Progress} {t : ThreadId}

theorem actAlike {α : Type} (alike : p.Alike q) (operation : Machine → Machine × α) :
    ∃ p' q' r, p.act operation = (p', r) ∧ q.act operation = (q', r) ∧ p'.Alike q' := by
  have machine : operation p.state.toMachine = operation q.state.toMachine := by rw [alike.machine]
  have result := congrArg Prod.snd machine.symm
  refine ⟨(p.act operation).1, (q.act operation).1, _, rfl, Prod.ext rfl result, ?_⟩
  exact ⟨congrArg Prod.fst machine, alike.current, alike.steps⟩

theorem afterAlike {α : Type} (alike : p.Alike q) {operation : Machine → Machine.Outcome α}
    {next next' : Progress → α → Move}
    (same : ∀ p' q' a, p'.Alike q' → (next p' a).Alike (next' q' a)) :
    (afterOutcome p operation next).Alike (afterOutcome q operation next') := by
  obtain ⟨p', q', r, left, right, moved⟩ := actAlike alike operation
  unfold afterOutcome
  rw [left, right]
  cases r with
  | ok a => exact same p' q' a moved
  | error fault => exact .stop moved _

theorem throwAlike (alike : p.Alike q) (thrown : Thrown) :
    (afterThrow p thrown).Alike (afterThrow q thrown) := by
  have noted : (p.note (.exception thrown)).Alike (q.note (.exception thrown)) :=
    ⟨alike.machine, alike.current, alike.steps⟩
  unfold afterThrow
  dsimp only
  split
  · exact .goOn noted
  · exact .stop noted _

theorem obeyAlike (alike : p.Alike q) (reply : Reply) :
    (e.obey t p reply).Alike (e.obey t q reply) := by
  cases reply with
  | ret value => exact afterAlike alike fun p' q' _ moved => .goOn moved
  | choose g =>
    obtain ⟨p', q', r, left, right, moved⟩ := actAlike alike fun m => (m.modifyThread t awaitChoice, ())
    simp only [obey, left, right]
    exact .stop moved _
  | directCall tag callee args => exact afterAlike alike fun p' q' _ moved => .goOn moved
  | throw className message => exact afterAlike alike fun p' q' thrown moved => throwAlike moved thrown
  | violation failure => exact .stop alike _

theorem rescheduleAlike (alike : p.Alike q) : (e.reschedule p).Alike (e.reschedule q) := by
  unfold reschedule
  dsimp only
  rw [alike.machine]
  split
  · split
    · exact .stop alike _
    · exact .stop alike _
  · exact .goOn ⟨rfl, rfl, alike.steps⟩
  · exact .stop alike _

def Unseen (e : Explorer) (id : MethodId) : Prop :=
  e.program.symbol id ≠ Builtin.isCompletelyCoveredSymbol

def Inquires (e : Explorer) (p : Progress) : Prop :=
  ∃ thread call below, p.state.thread? p.state.current = some thread ∧
    thread.stack = .native call :: below ∧ ¬ e.Unseen call.method

def Answers (e : Explorer) (c c' : Coverage) : Prop :=
  ∀ tree, e.registry.tree = some tree → c.isComplete tree = c'.isComplete tree

theorem withinUnasked (within : p.state.Within e.Unseen) : ¬ e.Inquires p := by
  rintro ⟨thread, call, below, found, same, seen⟩
  have stack := Machine.withinThread within found
  rw [same] at stack
  exact seen (List.forall_mem_cons.mp stack).1

inductive Moves (e : Explorer) (memory : Memory) : Nat → Progress → Progress → Prop where
  | none (p : Progress) : Moves e memory 0 p p
  | next {n : Nat} {p q r : Progress} (moved : e.move memory p = .goOn q) (rest : Moves e memory n q r) :
      Moves e memory (n + 1) p r

section Standard

variable (standard : e.Standard) {memory memory' : Memory} (paths : memory.path.Alike memory'.path)
include standard paths

theorem callPeerAlike {method : Method}
    (answers : method.symbol = Builtin.isCompletelyCoveredSymbol → e.Answers memory.coverage memory'.coverage)
    (args : List Value) (i : Invocation) (m : Machine) :
    e.callPeer memory t method args i m = e.callPeer memory' t method args i m := by
  unfold callPeer
  cases found : e.registry.peers.get? method.symbol with
  | none => rfl
  | some peer =>
    have same := @Builtin.knownAlike (e.peerCall memory t method args)
    exact (same paths memory'.coverage (calledKnown standard found) answers i m).symm

theorem dispatchAlike (alike : p.Alike q) {call : NativeCall}
    (answers : ¬ e.Unseen call.method → e.Answers memory.coverage memory'.coverage)
    (firstStep : Bool) : (e.dispatch memory t call firstStep p).Alike
      (e.dispatch memory' t call firstStep q) := by
  unfold dispatch
  cases e.invocation call firstStep with
  | error error => exact .stop alike _
  | ok i =>
    cases found : e.program.method? call.method with
    | none => exact .stop alike _
    | some method =>
      have asked : method.symbol = Builtin.isCompletelyCoveredSymbol → e.Answers memory.coverage memory'.coverage :=
        fun same => answers (by simpa [Unseen, Program.symbol, found] using same)
      have called : (fun m => e.callPeer memory t method call.args i m) =
          fun m => e.callPeer memory' t method call.args i m :=
        funext fun m => callPeerAlike standard paths asked call.args i m
      obtain ⟨p', q', r, left, right, moved⟩ := actAlike alike fun m =>
        ((e.callPeer memory' t method call.args i m).1.setFirstStep t false,
          (e.callPeer memory' t method call.args i m).2)
      dsimp only
      simp only [congrFun called, left, right]
      cases r with
      | ok reply => exact obeyAlike moved reply
      | error error =>
        have noted : (p'.note (.peerError t method.symbol error)).Alike
            (q'.note (.peerError t method.symbol error)) :=
          ⟨moved.machine, moved.current, moved.steps⟩
        exact afterAlike noted fun p' q' _ moved => .goOn moved

omit standard paths in
theorem noteAlike (alike : p.Alike q) (stack : List Activation) :
    (e.noteInstruction t stack p).Alike (e.noteInstruction t stack q) := by
  unfold noteInstruction
  split
  · split
    · split
      · exact ⟨alike.machine, alike.current, alike.steps⟩
      · exact alike
    · exact alike
  · exact alike

theorem moveAlike (alike : p.Alike q) (answers : e.Inquires p → e.Answers memory.coverage memory'.coverage) :
    (e.move memory p).Alike (e.move memory' q) := by
  have machine := alike.machine
  unfold move
  dsimp only
  rw [← alike.current, ← machine, ← alike.steps]
  cases found : p.state.thread? p.state.current with
  | none => exact .stop alike _
  | some thread =>
    dsimp only
    split
    · exact rescheduleAlike alike
    · split
      · exact .stop alike _
      · refine afterAlike alike fun p' q' step moved => ?_
        have counted : p'.count.Alike q'.count :=
          ⟨moved.machine, moved.current, congrArg (· + 1) moved.steps⟩
        cases step with
        | executed => exact .goOn (noteAlike counted thread.stack)
        | schedulingPoint =>
          dsimp only
          rw [moved.machine]
          exact .stop moved _
        | native =>
          dsimp only
          split
          · rename_i call below stack
            exact dispatchAlike standard paths counted
              (fun seen => answers ⟨thread, call, below, found, stack, seen⟩) _
          · exact .stop moved _
        | blocked o => exact .goOn moved
        | terminated => exact .goOn moved
        | exception thrown => exact throwAlike moved thrown

theorem transitionAnswered (alike : p.Alike q)
    (answers : ∀ n r, e.Moves memory n p r → e.Inquires r → e.Answers memory.coverage memory'.coverage) {fuel : Nat}
    {p' : Progress} {result : Except CheckError Ending}
    (h : e.transition memory fuel p = some (p', result)) :
    ∃ q', e.transition memory' fuel q = some (q', result) ∧ p'.Alike q' := by
  induction fuel generalizing p q with
  | zero => cases h
  | succ fuel ih =>
    have step := moveAlike standard paths alike (answers 0 p (.none p))
    unfold transition at h ⊢
    cases moved : e.move memory p with
    | goOn next =>
      rw [moved] at h step
      cases other : e.move memory' q with
      | goOn next' =>
        rw [other] at step
        cases step with
        | goOn alike => exact ih alike (fun n r rest => answers (n + 1) r (.next moved rest)) h
      | stop last ended =>
        rw [other] at step
        cases step
    | stop last ended =>
      rw [moved] at h step
      cases Option.some.inj h
      cases other : e.move memory' q with
      | goOn next' =>
        rw [other] at step
        cases step
      | stop last' ended' =>
        rw [other] at step
        cases step with
        | stop alike => exact ⟨last', rfl, alike⟩

omit paths in
theorem movesWithin (calls : e.program.CallsWithin e.Unseen) {n : Nat} (moves : e.Moves memory n p q)
    (within : p.state.Within e.Unseen) : q.state.Within e.Unseen := by
  induction moves with
  | none p => exact within
  | next moved rest ih =>
    have sound := soundMove standard calls memory within
    rw [moved] at sound
    exact ih sound.keeps.within

theorem transitionAlike (calls : e.program.CallsWithin e.Unseen) (alike : p.Alike q)
    (within : p.state.Within e.Unseen) {fuel : Nat} {p' : Progress}
    {result : Except CheckError Ending} (h : e.transition memory fuel p = some (p', result)) :
    ∃ q', e.transition memory' fuel q = some (q', result) ∧ p'.Alike q' :=
  transitionAnswered standard paths alike (fun _ _ moves asked =>
    absurd asked (withinUnasked (movesWithin standard calls moves within))) h

end Standard

end Explorer

end BytecodeChecker
