import BytecodeChecker.Proofs.Dispatches
import BytecodeChecker.Proofs.Locality

/-! Calls and returns along a run. A move reshapes the stack of a thread at its top, so whatever lies beneath
stays as it is for as long as something runs on it. A caller takes the arguments of a call off its operands and
finds the value of the call there, behind the instruction that made it. -/
namespace BytecodeChecker

namespace Frame.Work

variable {argCount : MethodId → Nat} {op : Op} {f f' : Frame}

theorem popManyTakes {n : Nat} {popped args : List Value} (h : popMany n popped f = .ok args f') :
    n ≤ f.operands.length ∧ args = (f.operands.take n).reverse ++ popped ∧
      f' = { f with operands := f.operands.drop n } := by
  induction n generalizing f popped with
  | zero =>
    cases h
    exact ⟨Nat.zero_le _, rfl, rfl⟩
  | succ n ih =>
    simp only [popMany, bind, EStateM.bind, pop] at h
    cases operands : f.operands with
    | nil =>
      rw [operands] at h
      cases h
    | cons v rest =>
      rw [operands] at h
      obtain ⟨enough, taken, left⟩ := ih h
      refine ⟨Nat.succ_le_succ enough, ?_, left⟩
      rw [taken]
      simp

theorem performCalls {callee : MethodId} {args : List Value} (h : perform argCount op f = .ok (.call callee args) f') :
    op = .invokeStatic callee ∧ argCount callee ≤ f.operands.length ∧
      args = (f.operands.take (argCount callee)).reverse ∧
      f' = { f with operands := f.operands.drop (argCount callee) } := by
  cases performFrom h
  simp only [perform, bind, EStateM.bind] at h
  split at h
  · rename_i popped after ran
    cases h
    obtain ⟨enough, taken, left⟩ := popManyTakes ran
    exact ⟨rfl, enough, by rw [taken, List.append_nil], left⟩
  · cases h

theorem popKindHead {kind : Kind} {v : Value} (h : popKind kind f = .ok v f') : ∃ rest, f.operands = v :: rest := by
  cases operands : f.operands with
  | nil => cases kind <;> simp [popKind, popLong, popReference, bind, EStateM.bind, pop, operands] at h
  | cons w rest =>
    refine ⟨rest, ?_⟩
    cases kind with
    | long =>
      simp only [popKind, popLong, bind, EStateM.bind, pop, operands] at h
      cases w <;> cases h
      rfl
    | reference =>
      simp only [popKind, popReference, bind, EStateM.bind, pop, operands] at h
      split at h <;> cases h
      rfl

theorem performFinishes {value : Option Value} (h : perform argCount op f = .ok (.finish value) f') :
    op = .ret none ∧ value = none ∨
      ∃ kind v rest, op = .ret (some kind) ∧ f.operands = v :: rest ∧ value = some v := by
  obtain ⟨kind, rfl⟩ := performFrom h
  cases kind with
  | none =>
    cases h
    exact .inl ⟨rfl, rfl⟩
  | some kind =>
    simp only [perform, bind, EStateM.bind] at h
    split at h
    · rename_i v after popped
      cases h
      obtain ⟨rest, operands⟩ := popKindHead popped
      exact .inr ⟨kind, v, rest, rfl, operands, rfl⟩
    · cases h

end Frame.Work

namespace Retopped

variable {old new kept : List Activation}

theorem born (new : List Activation) : Retopped [] new :=
  ⟨[], List.nil_suffix, List.nil_suffix, .inl (Nat.zero_le _)⟩

theorem keeps (h : Retopped old new) (beneath : kept <:+ old) (before : kept.length < old.length)
    (after : kept.length < new.length) : kept <:+ new := by
  obtain ⟨below, left, right, top⟩ := h
  have room : kept.length ≤ below.length := by omega
  exact (List.suffix_of_suffix_length_le beneath left room).trans right

end Retopped

theorem lowestKept {kept stack : List Activation} (beneath : kept <:+ stack) :
    stack.reverse.take kept.length = kept.reverse := by
  have begins := List.prefix_iff_eq_take.mp (List.reverse_prefix.mpr beneath)
  rw [List.length_reverse] at begins
  exact begins.symm

theorem Machine.WellFormed.stacked {p : Program} {m : Machine} (wf : m.WellFormed p) (t : ThreadId) :
    p.Stacked m.heap.size (m.stackOf t) := by
  cases found : m.thread? t with
  | none =>
    have empty : m.stackOf t = [] := by simp [stackOf, found]
    rw [empty]
    exact ⟨List.forall_mem_nil _, .nil⟩
  | some thread =>
    rw [threadStack found]
    exact (wf.threads t thread found).stack

inductive Program.Enters (p : Program) (callee : MethodId) (args : List Value) : Activation → Prop where
  | code {method : Method} {f : Frame} (found : p.method? callee = some method)
      (interpreted : method.native = false) (here : f.method = callee) (start : f.pc = 0)
      (operands : f.operands = []) (room : args.length ≤ f.locals.size)
      (locals : ∀ slot < f.locals.size, f.locals.get? slot = some (args[slot]?.getD .null)) :
      Enters p callee args (.bytecode f none)
  | native {method : Method} (found : p.method? callee = some method) (native : method.native = true) :
      Enters p callee args (.native ⟨callee, args, .entry⟩)

theorem Program.activationEnters {p : Program} {callee : MethodId} {method : Method}
    (found : p.method? callee = some method) (args : List Value) :
    p.Enters callee args (p.activation callee args) := by
  unfold activation
  rw [found]
  dsimp only
  split
  · rename_i native
    exact .native found native
  · rename_i interpreted
    have size : (Frame.start callee method args).locals.size = max args.length method.maxLocals.toNat :=
      Locals.sizeOfArgs _ _
    refine .code found (Bool.not_eq_true _ ▸ interpreted) rfl rfl rfl ?_ fun slot inside => ?_
    · rw [size]
      exact Nat.le_max_left _ _
    · rw [size] at inside
      exact (Locals.getOfArgs _ _ _).trans (if_pos inside)

inductive Delivers (tag : Option String) (value : Option Value) : List Activation → List Activation → Prop where
  | ended : Delivers tag value [] []
  | caller (f : Frame) (callerTag : Option String) (below : List Activation) :
      Delivers tag value (.bytecode f callerTag :: below)
        (.bytecode { f with operands := value.toList ++ f.operands, pc := f.pc + 1 } callerTag :: below)
  | native (call : NativeCall) (below : List Activation) {name : String} (tagged : tag = some name) :
      Delivers tag value (.native call :: below)
        (.native { call with phase := .directCallReturned name value } :: below)

theorem Delivers.length {tag : Option String} {value : Option Value} {below after : List Activation}
    (h : Delivers tag value below after) : after.length = below.length := by
  cases h <;> rfl

theorem Upshot.delivered {thread : GuestThread} {tag : Option String} {value : Option Value} {h : Heap}
    {step : Step} (result : (ofDeliver thread tag value h).result = .ok step) :
    Delivers tag value thread.stack (ofDeliver thread tag value h).thread.stack := by
  unfold ofDeliver at result ⊢
  split
  · rename_i stack
    rw [stack]
    exact .ended
  · rename_i stack
    rw [stack]
    exact .native _ _ rfl
  · rename_i stack
    rw [stack] at result
    cases result
  · rename_i stack
    rw [stack]
    cases value with
    | none => exact .caller _ _ _
    | some v => exact .caller _ _ _

theorem Upshot.unwindShorter {p : Program} {t : ThreadId} {thread : GuestThread} {h : Heap} (o : ObjectId) :
    (ofUnwind p t o thread h).thread.stack.length ≤ thread.stack.length := by
  have behind : (ofUnwind p t o thread h).thread.stack.map Activation.behind <:+
      thread.stack.map Activation.behind := unwindBehind o
  simpa using behind.length_le

theorem Upshot.unwindRaises {p : Program} {t : ThreadId} {thread : GuestThread} {h : Heap} {o : ObjectId}
    {step : Step} (result : (ofUnwind p t o thread h).result = .ok step) : ∃ thrown, step = .exception thrown := by
  unfold ofUnwind at result
  split at result
  · cases result
  · dsimp only at result
    split at result <;> cases result <;> exact ⟨_, rfl⟩

def Step.raised : Except Fault Step → Bool
  | .ok (.exception _) => true
  | _ => false

def Reply.thrown : Except PeerError Reply → Bool
  | .ok (.throw ..) => true
  | _ => false

namespace Explorer

variable {e : Explorer} {a : Point} {t : ThreadId}

inductive Returns (e : Explorer) (a : Point) (t : ThreadId) : Option Value → Prop where
  | nothing {f : Frame} {tag : Option String} {below : List Activation}
      (stack : a.state.stackOf t = .bytecode f tag :: below)
      (fetched : e.program.op? f.method f.pc = some (.ret none)) : Returns e a t none
  | operand {f : Frame} {tag : Option String} {below : List Activation} {kind : Kind} {v : Value}
      {rest : List Value} (stack : a.state.stackOf t = .bytecode f tag :: below)
      (fetched : e.program.op? f.method f.pc = some (.ret (some kind))) (operands : f.operands = v :: rest) :
      Returns e a t (some v)
  | answered {d : Dispatch} {value : Option Value} (dispatched : e.dispatchAt? a = some d) (own : d.thread = t)
      (reply : d.reply = .ok (.ret value)) : Returns e a t value
  | defaulted {d : Dispatch} {error : PeerError} (dispatched : e.dispatchAt? a = some d) (own : d.thread = t)
      (reply : d.reply = .error error) : Returns e a t d.method.signature.defaultReturn

def throwsAt (e : Explorer) (a : Point) : Bool :=
  Step.raised (Machine.step e.program a.state.current a.state.toMachine).2 ||
    (e.dispatchAt? a).any fun d => Reply.thrown d.reply

inductive Reshapes (e : Explorer) (a : Point) (t : ThreadId) : List Activation → List Activation → Prop where
  | same (stack : List Activation) : Reshapes e a t stack stack
  | starts (first : Activation) : Reshapes e a t [] [first]
  | works (old new : Activation) (below : List Activation) : Reshapes e a t (old :: below) (new :: below)
  | calls {f : Frame} {callee : MethodId} (tag : Option String) (below : List Activation)
      (fetched : e.program.op? f.method f.pc = some (.invokeStatic callee))
      (enough : e.program.argCount callee ≤ f.operands.length) :
      Reshapes e a t (.bytecode f tag :: below)
        (e.program.activation callee (f.operands.take (e.program.argCount callee)).reverse ::
          .bytecode { f with operands := f.operands.drop (e.program.argCount callee) } tag :: below)
  | directs (call : NativeCall) (below : List Activation) (f : Frame) (tag : String) :
      Reshapes e a t (.native call :: below)
        (.bytecode f (some tag) :: .native { call with phase := .awaitingDirectCall tag } :: below)
  | returns {top : Activation} {below after : List Activation} {value : Option Value}
      (returns : e.Returns a t value) (delivers : Delivers top.tag? value below after) :
      Reshapes e a t (top :: below) after
  | throws {old new : List Activation} (throws : e.throwsAt a = true) (retopped : Retopped old new)
      (shorter : new.length ≤ old.length) : Reshapes e a t old new

section Instruction

variable {thread : GuestThread} {u : Upshot} {step : Step}

theorem instructionReshapes (found : a.state.thread? a.state.current = some thread)
    (works : thread.upshot? e.program a.state.current a.state.heap = some u)
    (ran : Machine.step e.program a.state.current a.state.toMachine = u.outcome a.state.current a.state.toMachine)
    (result : u.result = .ok step) : e.Reshapes a a.state.current thread.stack u.thread.stack := by
  have retopped := (GuestThread.upshotStays works).stack
  have throws : (∃ thrown, step = .exception thrown) → u.thread.stack.length ≤ thread.stack.length →
      e.Reshapes a a.state.current thread.stack u.thread.stack := by
    intro raises shorter
    obtain ⟨thrown, rfl⟩ := raises
    have reported : (Machine.step e.program a.state.current a.state.toMachine).2 = .ok (.exception thrown) := by
      rw [ran]
      exact result
    exact .throws (by rw [throwsAt, reported]; rfl) retopped shorter
  obtain ⟨frame, tag, below, op, effect, after, stack, fetched, performed, rfl⟩ := GuestThread.upshotIff.mp works
  rcases Upshot.effectStack after tag below effect with ⟨f, goesOn⟩ | ⟨callee, args, rfl⟩ | ⟨value, rfl⟩ |
    ⟨o, h', unwinds⟩
  · rw [goesOn, stack]
    exact .works _ _ below
  · obtain ⟨rfl, enough, rfl, rfl⟩ := Frame.Work.performCalls performed
    rw [stack]
    exact .calls tag below fetched enough
  · have onTop := (Machine.threadStack found).trans stack
    have delivers := Upshot.delivered result
    rw [stack]
    rcases Frame.Work.performFinishes performed with ⟨rfl, rfl⟩ | ⟨kind, v, rest, rfl, operands, rfl⟩
    · exact .returns (.nothing onTop fetched) delivers
    · exact .returns (.operand onTop fetched operands) delivers
  · rw [unwinds] at result throws ⊢
    -- what is unwound is the stack with the frame as the instruction left it
    refine throws (Upshot.unwindRaises result) (Nat.le_trans (Upshot.unwindShorter o) ?_)
    rw [stack]
    exact Nat.le_refl _

end Instruction

theorem answerReshapes {thread : GuestThread} {call : NativeCall} {below : List Activation} {d : Dispatch}
    {h : Heap} {u : Upshot} {ending? : Option Ending} (dispatched : e.dispatchAt? a = some d)
    (stack : thread.stack = .native call :: below)
    (obeys : e.Obeys d.thread thread call below d.method h d.reply u ending?) :
    e.Reshapes a d.thread thread.stack u.thread.stack := by
  obtain ⟨t, height, _, method, i, reply⟩ := d
  dsimp only at obeys ⊢
  rw [stack]
  cases obeys with
  | returned result => exact .returns (.answered dispatched rfl rfl) (Upshot.delivered result)
  | defaulted result => exact .returns (.defaulted dispatched rfl rfl) (Upshot.delivered result)
  | called found => exact .directs call below _ _
  | @threw className message thrown result =>
    have stays : Upshot.Stays (fun _ => False) thread h (Upshot.ofThrow e.program t className message thread h) :=
      Upshot.throwStays stack stack className message
    have dropped := (Upshot.unwindNative stack result).length_le
    simp only [List.length_map] at dropped
    have throws : e.throwsAt a = true := by
      rw [throwsAt, dispatched]
      exact Bool.or_true _
    rw [← stack]
    exact .throws throws stays.stack (by rw [stack]; exact Nat.le_succ_of_le dropped)
  | asked => exact .works _ _ below
  | violated =>
    dsimp only
    rw [stack]
    exact .same _

theorem moveReshapes (standard : e.Standard) {q : Progress} {ending? : Option Ending}
    (h : (e.moveAt a).outcome? = some (q, ending?)) (t : ThreadId) :
    e.Reshapes a t (a.state.stackOf t) (q.state.stackOf t) := by
  unfold Point.state
  cases moveDoes standard h with
  | waits found stopped idle same =>
    rw [same]
    exact .same _
  | handsOver found stopped alone state told =>
    rw [state]
    dsimp only
    rw [Machine.flagStack]
    exact .same _
  | cut found running out same =>
    rw [same]
    exact .same _
  | pauses found running point same =>
    rw [same]
    exact .same _
  | runs found running inside works ran result state told =>
    rw [state]
    dsimp only
    rw [Machine.installStack (Machine.threadInside found)]
    split
    · rename_i here
      rw [← here, Machine.threadStack found]
      exact instructionReshapes found works ran result
    · exact .same _
  | @answers thread call below i method m reply u ending? found running inside stack invoked called answer obeys
      state told =>
    have dispatched : e.dispatchAt? a = some ⟨a.progress.state.current, below.length, call, method, i, reply⟩ :=
      dispatchAtIff.mpr ⟨thread, below, found, running, inside, stack, invoked, called, rfl, rfl,
        congrArg Prod.snd answer⟩
    have touched := answeredTouches standard answer
    rw [state]
    dsimp only
    rw [Machine.installStack (Machine.threadInside (Builtin.touchedThread touched found))]
    split
    · rename_i here
      rw [← here, Machine.threadStack found]
      have onTop : GuestThread.stack { thread with firstStep := false } = .native call :: below := stack
      have reshapes := answerReshapes dispatched onTop obeys
      exact reshapes
    · rcases Builtin.touchedStack touched t with same | ⟨none, f, new⟩
      · rw [same]
        exact .same _
      · rw [none, new]
        exact .starts _

namespace Reshapes

variable {old new kept below : List Activation}

theorem retopped (h : e.Reshapes a t old new) : Retopped old new := by
  cases h with
  | same => exact .same _
  | starts first => exact .born _
  | works old new below => exact .top old [new] below
  | calls tag below fetched enough => exact .top _ [_, _] below
  | directs call below f tag => exact .top _ [_, _] below
  | @returns top below after value returns delivers =>
    cases delivers with
    | ended => exact .ended _
    | caller f callerTag below => exact .back [top, .bytecode f callerTag] _ below
    | native call below tagged => exact .back [top, .native call] _ below
  | throws throws retopped shorter => exact retopped

theorem called {f : Frame} {tag : Option String} {callee : MethodId}
    (h : e.Reshapes a t (.bytecode f tag :: below) new)
    (fetched : e.program.op? f.method f.pc = some (.invokeStatic callee)) (deeper : below.length + 1 < new.length) :
    e.program.argCount callee ≤ f.operands.length ∧
      new = e.program.activation callee (f.operands.take (e.program.argCount callee)).reverse ::
        .bytecode { f with operands := f.operands.drop (e.program.argCount callee) } tag :: below := by
  cases h with
  | same => exact absurd deeper (Nat.lt_irrefl _)
  | works old new below => exact absurd deeper (Nat.lt_irrefl _)
  | calls tag below fetched' enough =>
    cases fetched.symm.trans fetched'
    exact ⟨enough, rfl⟩
  | returns returns delivers =>
    rw [delivers.length] at deeper
    omega
  | throws throws retopped shorter => exact absurd deeper (Nat.not_lt.mpr shorter)

theorem directed {call : NativeCall} (h : e.Reshapes a t (.native call :: below) new)
    (deeper : below.length + 1 < new.length) :
    ∃ f tag, new = .bytecode f (some tag) :: .native { call with phase := .awaitingDirectCall tag } :: below := by
  cases h with
  | same => exact absurd deeper (Nat.lt_irrefl _)
  | works old new below => exact absurd deeper (Nat.lt_irrefl _)
  | directs call below f tag => exact ⟨f, tag, rfl⟩
  | returns returns delivers =>
    rw [delivers.length] at deeper
    omega
  | throws throws retopped shorter => exact absurd deeper (Nat.not_lt.mpr shorter)

theorem returned (h : e.Reshapes a t old new) (normal : e.throwsAt a = false) (beneath : kept <:+ old)
    (above : kept.length < old.length) (left : new.length ≤ kept.length) :
    ∃ top value, old = top :: kept ∧ e.Returns a t value ∧ Delivers top.tag? value kept new := by
  cases h with
  | same => exact absurd above (Nat.not_lt.mpr left)
  | starts first => cases Nat.not_lt_zero _ above
  | works old new below => exact absurd above (Nat.not_lt.mpr left)
  | calls tag below fetched enough =>
    simp only [List.length_cons] at above left
    omega
  | directs call below f tag =>
    simp only [List.length_cons] at above left
    omega
  | @returns top below after value returns delivers =>
    rw [delivers.length] at left
    have inside : kept <:+ below :=
      List.suffix_of_suffix_length_le beneath (List.suffix_cons top below) (Nat.le_of_lt_succ above)
    cases inside.eq_of_length_le left
    exact ⟨top, value, rfl, returns, delivers⟩
  | throws throws retopped shorter => cases normal.symm.trans throws

end Reshapes

section Run

variable {between earlier past : List Point} {b : Point} {q : Progress} {ending? : Option Ending} {s : State}
  {kept : List Activation}

theorem Chronicled.last (h : e.Chronicled (a :: past) s) : e.Chronicle past a ∧
    ∃ q ending?, (e.moveAt a).outcome? = some (q, ending?) ∧ ∀ t, s.stackOf t = q.state.stackOf t := by
  cases h with
  | passing way =>
    cases way with
    | moves before moved => exact ⟨before, _, _, goesOnOutcome moved, fun _ => rfl⟩
    | chooses before stopped judged chosen path goesOn =>
      rw [path] at goesOn
      exact ⟨before, _, _, stopsOutcome stopped, appliedStack goesOn⟩
  | ending way stopped => exact ⟨way, _, _, by rw [stopped]; rfl, fun _ => rfl⟩

theorem Chronicled.entered {height : Nat} (h : e.Chronicled (between ++ a :: earlier) s)
    (above : ∀ c ∈ between, height < (c.state.stackOf t).length) (now : height < (s.stackOf t).length) :
    ∃ q ending?, (e.moveAt a).outcome? = some (q, ending?) ∧ height < (q.state.stackOf t).length := by
  induction between generalizing s with
  | nil =>
    obtain ⟨_, q, ending?, moved, same⟩ := h.last
    rw [same] at now
    exact ⟨q, ending?, moved, now⟩
  | cons c between ih =>
    obtain ⟨way, _⟩ := h.last
    obtain ⟨here, before⟩ := List.forall_mem_cons.mp above
    exact ih (.passing way) before here

theorem Chronicled.keeps (standard : e.Standard) (h : e.Chronicled (between ++ a :: earlier) s)
    (moved : (e.moveAt a).outcome? = some (q, ending?)) (beneath : kept <:+ q.state.stackOf t)
    (above : ∀ c ∈ between, kept.length < (c.state.stackOf t).length)
    (now : kept.length < (s.stackOf t).length) : kept <:+ s.stackOf t := by
  induction between generalizing s with
  | nil =>
    obtain ⟨_, q', _, moved', same⟩ := h.last
    cases Option.some.inj (moved.symm.trans moved')
    rw [same]
    exact beneath
  | cons c between ih =>
    obtain ⟨way, _, _, moved', same⟩ := h.last
    obtain ⟨here, before⟩ := List.forall_mem_cons.mp above
    have beneath' : kept <:+ c.state.stackOf t := ih (.passing way) before here
    rw [same] at now ⊢
    exact (moveReshapes standard moved' t).retopped.keeps beneath' here now

theorem Chronicled.lowest (standard : e.Standard) {d : Nat} (h : e.Chronicled (between ++ a :: earlier) s)
    (above : ∀ c ∈ a :: between, d < (c.state.stackOf t).length) (now : d < (s.stackOf t).length) :
    (s.stackOf t).reverse.take d = (a.state.stackOf t).reverse.take d := by
  obtain ⟨here, above⟩ := List.forall_mem_cons.mp above
  obtain ⟨q, ending?, moved, first⟩ := h.entered above now
  obtain ⟨kept, beneath, rfl⟩ : ∃ kept, kept <:+ a.state.stackOf t ∧ kept.length = d :=
    ⟨_, List.drop_suffix ((a.state.stackOf t).length - d) _, by rw [List.length_drop]; omega⟩
  have left := (moveReshapes standard moved t).retopped.keeps beneath here first
  rw [lowestKept (h.keeps standard moved left above now), lowestKept beneath]

/- From the move at one point to the move at another a thread has more than a number of activations, and then it
has not. No exception is the reason. -/
structure Spans (e : Explorer) (t : ThreadId) (height : Nat) (a : Point) (between : List Point) (b : Point)
    (s : State) : Prop where
  run : ∃ earlier, e.Chronicled (b :: (between ++ a :: earlier)) s
  above : ∀ c ∈ b :: between, height < (c.state.stackOf t).length
  left : (s.stackOf t).length ≤ height
  normal : e.throwsAt b = false

namespace Spans

theorem entered {height : Nat} (spans : e.Spans t height a between b s) :
    ∃ q ending?, (e.moveAt a).outcome? = some (q, ending?) ∧ height < (q.state.stackOf t).length := by
  obtain ⟨earlier, run⟩ := spans.run
  obtain ⟨here, above⟩ := List.forall_mem_cons.mp spans.above
  exact Chronicled.entered (.passing run.last.1) above here

theorem returned (loaded : e.Loaded) (spans : e.Spans t kept.length a between b s)
    (moved : (e.moveAt a).outcome? = some (q, ending?)) (beneath : kept <:+ q.state.stackOf t) :
    ∃ top value, e.program.Stacked b.state.heap.size (top :: kept) ∧ b.state.stackOf t = top :: kept ∧
      e.Returns b t value ∧ Delivers top.tag? value kept (s.stackOf t) := by
  obtain ⟨earlier, run⟩ := spans.run
  obtain ⟨way, _, _, moved', same⟩ := run.last
  obtain ⟨here, above⟩ := List.forall_mem_cons.mp spans.above
  have left := spans.left
  rw [same] at left ⊢
  have stays := Chronicled.keeps loaded.standard (.passing way) moved beneath above here
  obtain ⟨top, value, stack, returns⟩ :=
    (moveReshapes loaded.standard moved' t).returned spans.normal stays here left
  have stacked := (way.wellFormed loaded).machine.stacked t
  rw [stack] at stacked
  exact ⟨top, value, stacked, stack, returns⟩

variable {below : List Activation}

theorem toCaller (loaded : e.Loaded) {f : Frame} {tag : Option String} {callee : MethodId}
    (spans : e.Spans t (below.length + 1) a between b s) (stack : a.state.stackOf t = .bytecode f tag :: below)
    (fetched : e.program.op? f.method f.pc = some (.invokeStatic callee)) :
    ∃ top value, top.method = callee ∧ e.Returns b t value ∧
      b.state.stackOf t =
        top :: .bytecode { f with operands := f.operands.drop (e.program.argCount callee) } tag :: below ∧
      s.stackOf t = .bytecode { f with
        operands := value.toList ++ f.operands.drop (e.program.argCount callee), pc := f.pc + 1 } tag :: below := by
  obtain ⟨q, ending?, moved, deeper⟩ := spans.entered
  have reshapes := moveReshapes loaded.standard moved t
  rw [stack] at reshapes
  obtain ⟨_, entered⟩ := reshapes.called fetched deeper
  have beneath : .bytecode { f with operands := f.operands.drop (e.program.argCount callee) } tag :: below <:+
      q.state.stackOf t := by
    rw [entered]
    exact List.suffix_cons _ _
  obtain ⟨top, value, stacked, onTop, returns, delivers⟩ := returned loaded spans moved beneath
  -- the caller still stands at its call
  have stands : e.program.op? f.method f.pc = some (.invokeStatic top.method) :=
    (List.isChain_cons_cons.mp stacked.standing).1.1
  cases fetched.symm.trans stands
  generalize s.stackOf t = after at delivers ⊢
  cases delivers with
  | caller => exact ⟨top, value, rfl, returns, onTop, rfl⟩

theorem toNative (loaded : e.Loaded) {call : NativeCall} (spans : e.Spans t (below.length + 1) a between b s)
    (stack : a.state.stackOf t = .native call :: below) :
    ∃ f tag value, e.Returns b t value ∧
      b.state.stackOf t = .bytecode f (some tag) :: .native { call with phase := .awaitingDirectCall tag } :: below ∧
      s.stackOf t = .native { call with phase := .directCallReturned tag value } :: below := by
  obtain ⟨q, ending?, moved, deeper⟩ := spans.entered
  have reshapes := moveReshapes loaded.standard moved t
  rw [stack] at reshapes
  obtain ⟨_, tag, entered⟩ := reshapes.directed deeper
  have beneath : .native { call with phase := .awaitingDirectCall tag } :: below <:+ q.state.stackOf t := by
    rw [entered]
    exact List.suffix_cons _ _
  obtain ⟨top, value, stacked, onTop, returns, delivers⟩ := returned loaded spans moved beneath
  -- what stands on a call that waits has the tag that the call waits for
  obtain ⟨f, _, rfl, awaits⟩ := (List.isChain_cons_cons.mp stacked.standing).1
  cases awaits
  generalize s.stackOf t = after at delivers ⊢
  cases delivers with
  | native call below tagged =>
    cases tagged
    exact ⟨f, tag, value, returns, onTop, rfl⟩

end Spans

end Run

theorem callsReturn {model : Model} {config : Config} {e : Explorer} (accepted : ofModel model config = .ok e)
    (properties : List Property) (t : ThreadId) :
    (∀ between a earlier s d, (e.watching properties).Chronicled (between ++ a :: earlier) s →
      (∀ c ∈ a :: between, d < (c.state.stackOf t).length) → d < (s.stackOf t).length →
      (s.stackOf t).reverse.take d = (a.state.stackOf t).reverse.take d) ∧
    (∀ a past s f tag below callee, (e.watching properties).Chronicled (a :: past) s →
      a.state.stackOf t = .bytecode f tag :: below →
      e.program.op? f.method f.pc = some (.invokeStatic callee) → below.length + 1 < (s.stackOf t).length →
      e.program.argCount callee ≤ f.operands.length ∧
      ∃ top, e.program.Enters callee (f.operands.take (e.program.argCount callee)).reverse top ∧
        s.stackOf t = top ::
          .bytecode { f with operands := f.operands.drop (e.program.argCount callee) } tag :: below) ∧
    (∀ a between b s f tag below callee, (e.watching properties).Spans t (below.length + 1) a between b s →
      a.state.stackOf t = .bytecode f tag :: below →
      e.program.op? f.method f.pc = some (.invokeStatic callee) →
      ∃ top value, top.method = callee ∧ (e.watching properties).Returns b t value ∧
        b.state.stackOf t =
          top :: .bytecode { f with operands := f.operands.drop (e.program.argCount callee) } tag :: below ∧
        s.stackOf t = .bytecode { f with
          operands := value.toList ++ f.operands.drop (e.program.argCount callee), pc := f.pc + 1 } tag :: below) ∧
    ∀ a between b s call below, (e.watching properties).Spans t (below.length + 1) a between b s →
      a.state.stackOf t = .native call :: below →
      ∃ f tag value, (e.watching properties).Returns b t value ∧
        b.state.stackOf t =
          .bytecode f (some tag) :: .native { call with phase := .awaitingDirectCall tag } :: below ∧
        s.stackOf t = .native { call with phase := .directCallReturned tag value } :: below := by
  have loaded := modelLoaded accepted properties
  refine ⟨fun _ _ _ _ _ run above now => run.lowest loaded.standard above now, ?_,
    fun _ _ _ _ _ _ _ _ spans stack fetched => spans.toCaller loaded stack fetched,
    fun _ _ _ _ _ _ spans stack => spans.toNative loaded stack⟩
  intro a past s f tag below callee run stack fetched deeper
  obtain ⟨_, q, _, moved, same⟩ := run.last
  have reshapes := moveReshapes loaded.standard moved t
  rw [stack] at reshapes
  rw [same] at deeper ⊢
  obtain ⟨enough, entered⟩ := reshapes.called fetched deeper
  obtain ⟨method, found⟩ := loaded.checked.calls fetched
  exact ⟨enough, _, Program.activationEnters found _, entered⟩

def next? (e : Explorer) (a : Point) : Option Point :=
  match e.moveAt a with
  | .goOn q => some ⟨a.memory, q⟩
  | .stop q (.ok raw) =>
    match e.judge q.state raw with
    | .choice g =>
      (g.select? 0).bind fun g' =>
        (applied (a.path.push g' q.state) q.state).toOption.map fun s =>
          ⟨{ a.memory with path := a.path.push g' q.state }, ⟨s, 0, []⟩⟩
    | .finished _ => none
  | .stop _ (.error _) => none

theorem nextChronicle {past : List Point} {b : Point} (way : e.Chronicle past a) (h : e.next? a = some b) :
    e.Chronicle (a :: past) b := by
  unfold next? at h
  split at h
  · rename_i moved
    cases Option.some.inj h
    exact way.moves moved
  · rename_i q raw stopped
    split at h
    · rename_i g judged
      obtain ⟨g', chosen, h⟩ := Option.bind_eq_some_iff.mp h
      obtain ⟨s, goesOn, rfl⟩ := Option.map_eq_some_iff.mp h
      cases judgedChoice judged
      exact way.chooses stopped judged chosen rfl (okSome goesOn)
    · cases h
  · cases h

def onward (e : Explorer) : Nat → Point → Option (List Point × Point)
  | 0, a => some ([], a)
  | n + 1, a => (e.onward n a).bind fun w => (e.next? w.2).map fun b => (w.2 :: w.1, b)

theorem onwardChronicle {n : Nat} {past : List Point} {w : List Point × Point} (way : e.Chronicle past a)
    (h : e.onward n a = some w) : e.Chronicle (w.1 ++ past) w.2 := by
  induction n generalizing w with
  | zero =>
    cases Option.some.inj h
    exact way
  | succ n ih =>
    obtain ⟨v, before, h⟩ := Option.bind_eq_some_iff.mp h
    obtain ⟨b, next, rfl⟩ := Option.map_eq_some_iff.mp h
    exact nextChronicle (ih before) next

structure Stretch where
  first : Point
  between : List Point
  last : Point
  after : Point

def stretch (e : Explorer) (before during : Nat) : Option Stretch :=
  (e.onward before ⟨Memory.empty, ⟨State.initial e.program, 0, []⟩⟩).bind fun v =>
    (e.next? v.2).bind fun c => (e.onward during c).bind fun w => (e.next? w.2).map fun d => ⟨v.2, w.1, w.2, d⟩

theorem stretchChronicled {before during : Nat} {x : Stretch} (h : e.stretch before during = some x) :
    ∃ earlier, e.Chronicled (x.last :: (x.between ++ x.first :: earlier)) x.after.state := by
  obtain ⟨v, begun, h⟩ := Option.bind_eq_some_iff.mp h
  obtain ⟨c, entered, h⟩ := Option.bind_eq_some_iff.mp h
  obtain ⟨w, went, h⟩ := Option.bind_eq_some_iff.mp h
  obtain ⟨d, left, rfl⟩ := Option.map_eq_some_iff.mp h
  have way := nextChronicle (onwardChronicle (.begins rfl) begun) entered
  exact ⟨_, .passing (nextChronicle (onwardChronicle way went) left)⟩

theorem spansRun (model : Model) (config : Config) (before during : Nat) (t : ThreadId) (height : Nat)
    (test : Explorer → Stretch → Bool)
    (h : ((ofModel model config).toOption.bind fun e => ((e.watching []).stretch before during).map fun x =>
      (x.last :: x.between).all (fun c => height < (c.state.stackOf t).length) &&
        decide ((x.after.state.stackOf t).length ≤ height) && !(e.watching []).throwsAt x.last && test e x) =
      some true) :
    ∃ e x, ofModel model config = .ok e ∧
      (e.watching []).Spans t height x.first x.between x.last x.after.state ∧ test e x = true := by
  obtain ⟨e, made, h⟩ := Option.bind_eq_some_iff.mp h
  obtain ⟨x, ran, passed⟩ := Option.map_eq_some_iff.mp h
  simp only [Bool.and_eq_true, List.all_eq_true, decide_eq_true_eq, Bool.not_eq_true'] at passed
  obtain ⟨⟨⟨above, left⟩, normal⟩, passed⟩ := passed
  exact ⟨e, x, okSome made, ⟨stretchChronicled ran, above, left, normal⟩, passed⟩

def relay : Model :=
  { (Model.start "relay" "Relay.main()V").withMethod "Relay.main()V" 0
      [.pushLong 1, .pushLong 7, .pushLong 2, .invokeStatic "Relay.less(JJ)J", .arith .add, .pop,
        .invokeStatic Builtin.processNextEventSymbol, .pop, .ret none]
      |>.withMethod "Relay.less(JJ)J" 2 [.load .long 0, .load .long 1, .arith .sub, .ret (some .long)]
      |>.withMethod "Relay.leave()V" 0 [.ret none] with
    events := some (.event (.normal "leave" []))
    actions := NameMap.empty.insert "leave" "Relay.leave()V" }

def relayAt (pc : Nat) (operands : List Value) : Activation :=
  .bytecode ⟨⟨0⟩, pc, Locals.ofArgs 0 [], operands⟩ none

theorem relayReturns : ∃ (e : Explorer) (x y z : Stretch), ofModel relay Config.default = .ok e ∧
    ((e.watching []).Spans ⟨0⟩ 1 x.first x.between x.last x.after.state ∧
      x.first.state.stackOf ⟨0⟩ = [relayAt 3 [.int 2, .int 7, .int 1]] ∧
      ∃ value, (e.watching []).Returns x.last ⟨0⟩ value ∧
        x.after.state.stackOf ⟨0⟩ = [relayAt 4 (value.toList ++ [.int 1])]) ∧
    ((e.watching []).Spans ⟨0⟩ 2 y.first y.between y.last y.after.state ∧
      y.first.state.stackOf ⟨0⟩ = [.native ⟨⟨3⟩, [], .awaitingChoice⟩, relayAt 6 []] ∧
      ∃ tag value, (e.watching []).Returns y.last ⟨0⟩ value ∧
        y.after.state.stackOf ⟨0⟩ = [.native ⟨⟨3⟩, [], .directCallReturned tag value⟩, relayAt 6 []]) ∧
    (e.watching []).Spans ⟨0⟩ 1 z.first z.between z.last z.after.state ∧
      z.first.state.stackOf ⟨0⟩ = [relayAt 6 []] ∧
      ∃ value, (e.watching []).Returns z.last ⟨0⟩ value ∧
        z.after.state.stackOf ⟨0⟩ = [relayAt 7 value.toList] := by
  obtain ⟨e, x, accepted, called, passed⟩ := spansRun relay Config.default 3 3 ⟨0⟩ 1
    (fun e x => x.first.state.stackOf ⟨0⟩ == [relayAt 3 [.int 2, .int 7, .int 1]] &&
      e.program.op? ⟨0⟩ 3 == some (.invokeStatic ⟨1⟩) && e.program.argCount ⟨1⟩ == 2) (by decide +kernel)
  obtain ⟨e', y, accepted', directed, stack'⟩ := spansRun relay Config.default 12 0 ⟨0⟩ 2
    (fun _ y => y.first.state.stackOf ⟨0⟩ == [.native ⟨⟨3⟩, [], .awaitingChoice⟩, relayAt 6 []]) (by decide +kernel)
  obtain ⟨e'', z, accepted'', answered, passed''⟩ := spansRun relay Config.default 10 3 ⟨0⟩ 1
    (fun e z => z.first.state.stackOf ⟨0⟩ == [relayAt 6 []] &&
      e.program.op? ⟨0⟩ 6 == some (.invokeStatic ⟨3⟩) && e.program.argCount ⟨3⟩ == 0) (by decide +kernel)
  cases accepted.symm.trans accepted'
  cases accepted.symm.trans accepted''
  simp only [Bool.and_eq_true, beq_iff_eq] at passed stack' passed''
  obtain ⟨⟨stack, fetched⟩, count⟩ := passed
  obtain ⟨⟨stack'', fetched''⟩, count''⟩ := passed''
  obtain ⟨_, _, toCaller, toNative⟩ := callsReturn accepted [] ⟨0⟩
  obtain ⟨_, value, _, returns, _, after⟩ := toCaller _ _ _ _ _ _ [] _ called stack fetched
  obtain ⟨_, tag, value', returns', _, after'⟩ := toNative _ _ _ _ _ [_] directed stack'
  obtain ⟨_, value'', _, returns'', _, after''⟩ := toCaller _ _ _ _ _ _ [] _ answered stack'' fetched''
  rw [count] at after
  rw [count'', List.drop_zero, List.append_nil] at after''
  exact ⟨e, x, y, z, accepted, ⟨called, stack, value, returns, after⟩,
    ⟨directed, stack', tag, value', returns', after'⟩, answered, stack'', value'', returns'', after''⟩

end Explorer

end BytecodeChecker
