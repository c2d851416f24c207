import BytecodeChecker.Machine

/-! What a step reports. A scheduling point and a pending native call leave the machine as it was;
everything else is reported by an instruction that was carried out. -/
namespace BytecodeChecker

def Effect.From (op : Op) : Effect → Prop
  | .finish _ => ∃ kind, op = .ret kind
  | .call callee _ => op = .invokeStatic callee
  | .readStatic field => op = .getStatic field
  | .writeStatic field _ => op = .putStatic field
  | .readField _ field => op = .getField field
  | .writeField _ field _ => op = .putField field
  | .enter _ => op = .monitorEnter
  | .exit _ => op = .monitorExit
  | _ => True

theorem Frame.Work.performFrom {argCount : MethodId → Nat} {op : Op} {f f' : Frame} {effect : Effect}
    (h : perform argCount op f = .ok effect f') : effect.From op := by
  cases op with
  | arith op =>
    simp only [perform, bind, EStateM.bind, pure] at h
    split at h
    · split at h
      · cases result : op.apply? _ _ <;> rw [result] at h <;> cases h <;> trivial
      · cases h
    · cases h
  | monitorEnter =>
    simp only [perform, bind, EStateM.bind, pure] at h
    split at h
    · split at h
      · cases h
        rfl
      · simp only [EStateM.bind] at h
        split at h <;> cases h
        trivial
      · cases h
    · cases h
  | ret kind =>
    cases kind with
    | none => cases h; exact ⟨none, rfl⟩
    | some kind =>
      simp only [perform, bind, EStateM.bind, pure, EStateM.pure] at h
      split at h <;> cases h
      exact ⟨some kind, rfl⟩
  | branch cond target =>
    simp only [perform, bind, EStateM.bind, pure, EStateM.pure] at h
    split at h
    · split at h <;> cases h <;> trivial
    · cases h
  | branchNull onNull target =>
    simp only [perform, bind, EStateM.bind, pure, EStateM.pure] at h
    split at h
    · split at h <;> cases h <;> trivial
    · cases h
  | _ =>
    simp only [perform, bind, EStateM.bind, pure, EStateM.pure, onObject] at h
    (repeat' split at h) <;> cases h <;> first | rfl | trivial

namespace Machine

variable {p : Program} {t : ThreadId} {m : Machine}

theorem whereMember {kind : GuestThread → Bool} :
    t ∈ m.threadsWhere kind ↔ ∃ thread, m.thread? t = some thread ∧ kind thread = true := by
  obtain ⟨i⟩ := t
  simp [threadsWhere, thread?, List.mem_zipIdx_iff_getElem?]

theorem runnableLength (m : Machine) : m.runnable.length = m.runnableCount := by
  have zipped : ∀ (threads : List GuestThread) (k : Nat),
      ((threads.zipIdx k).filter fun entry => entry.1.status == .runnable).length =
        threads.countP (·.status == .runnable) := by
    intro threads
    induction threads with
    | nil => simp
    | cons thread rest ih =>
      intro k
      by_cases here : thread.status = .runnable <;> simp [List.zipIdx_cons, here, ih]
  simp [runnable, threadsWhere, runnableCount, zipped, ← Array.countP_toList]

def Ran : Except Fault Step → Prop
  | .ok .schedulingPoint | .ok .native => False
  | _ => True

theorem thrownRan (r : Outcome Thrown) : Ran (thrownStep r).2 := by
  unfold thrownStep
  cases r.2 <;> trivial

theorem deliverRan (thread : GuestThread) (tag : Option String) (value : Option Value) :
    Ran (deliver t thread tag value m).2 := by
  unfold deliver
  split <;> trivial

theorem carryOutRan (thread : GuestThread) (frame : Frame) (tag : Option String)
    (below : List Activation) (effect : Effect) :
    Ran (carryOut p t thread frame tag below m effect).2 := by
  cases effect with
  | raise className message => exact thrownRan _
  | rethrow o => exact thrownRan _
  | finish value => exact deliverRan _ tag value
  | readField o field =>
    simp only [carryOut]
    split <;> trivial
  | writeField o field v =>
    simp only [carryOut]
    split <;> trivial
  | enter o =>
    simp only [carryOut]
    split <;> trivial
  | exit o =>
    simp only [carryOut]
    split
    · exact thrownRan _
    · trivial
  | _ => trivial

def attempt (p : Program) (t : ThreadId) (thread : GuestThread) (frame : Frame) (tag : Option String)
    (below : List Activation) (op : Op) (m : Machine) : Outcome Step :=
  let thread := { thread with firstStep := false }
  match Frame.Work.perform p.argCount op frame with
  | .ok effect frame => carryOut p t thread frame tag below m effect
  | .error fault frame =>
    (m.setThread t { thread with stack := .bytecode frame tag :: below }, .error fault)

theorem attemptRan {thread : GuestThread} {frame : Frame} {tag : Option String}
    {below : List Activation} {op : Op} : Ran (attempt p t thread frame tag below op m).2 := by
  unfold attempt
  cases Frame.Work.perform p.argCount op frame with
  | ok effect frame => exact carryOutRan _ _ _ _ effect
  | error fault frame => trivial

theorem stepFetched {thread : GuestThread} {frame : Frame} {tag : Option String}
    {below : List Activation} {op : Op} (found : m.thread? t = some thread)
    (stack : thread.stack = .bytecode frame tag :: below)
    (fetched : p.op? frame.method frame.pc = some op) :
    step p t m = if op.isSchedulingRelevant && !thread.firstStep && 1 < m.runnableCount then
      (m, .ok .schedulingPoint) else attempt p t thread frame tag below op m := by
  simp only [step, found, stack, fetched]
  rfl

theorem stepAttempts {thread : GuestThread} {frame : Frame} {tag : Option String}
    {below : List Activation} {op : Op} (found : m.thread? t = some thread)
    (stack : thread.stack = .bytecode frame tag :: below)
    (fetched : p.op? frame.method frame.pc = some op)
    (free : op.isSchedulingRelevant = true → thread.firstStep = true ∨ m.runnableCount ≤ 1) :
    step p t m = attempt p t thread frame tag below op m := by
  have runs : (op.isSchedulingRelevant && !thread.firstStep && 1 < m.runnableCount) = false := by
    cases relevant : op.isSchedulingRelevant with
    | false => rfl
    | true =>
      rcases free relevant with flag | alone
      · simp [flag]
      · simp [Nat.not_lt.mpr alone]
  rw [stepFetched found stack fetched, runs]
  rfl

inductive StepCase (p : Program) (t : ThreadId) (m : Machine) : Prop where
  | stuck (fault : Fault) (same : step p t m = (m, .error fault))
  | native {thread : GuestThread} {call : NativeCall} {below : List Activation}
      (found : m.thread? t = some thread) (stack : thread.stack = .native call :: below)
      (same : step p t m = (m, .ok .native))
  | point {thread : GuestThread} {frame : Frame} {tag : Option String} {below : List Activation}
      {op : Op} (found : m.thread? t = some thread) (stack : thread.stack = .bytecode frame tag :: below)
      (fetched : p.op? frame.method frame.pc = some op) (relevant : op.isSchedulingRelevant = true)
      (rested : thread.firstStep = false) (others : 1 < m.runnableCount)
      (same : step p t m = (m, .ok .schedulingPoint))
  | ran {thread : GuestThread} {frame : Frame} {tag : Option String} {below : List Activation}
      {op : Op} (found : m.thread? t = some thread) (stack : thread.stack = .bytecode frame tag :: below)
      (fetched : p.op? frame.method frame.pc = some op)
      (free : op.isSchedulingRelevant = true → thread.firstStep = true ∨ m.runnableCount ≤ 1)
      (result : step p t m = attempt p t thread frame tag below op m)

theorem stepCase (p : Program) (t : ThreadId) (m : Machine) : StepCase p t m := by
  cases found : m.thread? t with
  | none => exact .stuck (.unknownThread t) (by simp [step, found])
  | some thread =>
    cases stack : thread.stack with
    | nil => exact .stuck (.noFrame t) (by simp [step, found, stack])
    | cons top below =>
      cases top with
      | native call => exact .native found stack (by simp [step, found, stack])
      | bytecode frame tag =>
        cases fetched : p.op? frame.method frame.pc with
        | none =>
          exact .stuck (.invalidPc frame.method frame.pc) (by simp [step, found, stack, fetched])
        | some op =>
          by_cases free : op.isSchedulingRelevant = true → thread.firstStep = true ∨ m.runnableCount ≤ 1
          · exact .ran found stack fetched free (stepAttempts found stack fetched free)
          · simp only [Classical.not_imp, not_or, Nat.not_le, Bool.not_eq_true] at free
            obtain ⟨relevant, rested, others⟩ := free
            refine .point found stack fetched relevant rested others ?_
            simp [stepFetched found stack fetched, relevant, rested, others]

theorem stepPoint (h : (step p t m).2 = .ok .schedulingPoint) :
    ∃ thread frame tag below, m.thread? t = some thread ∧
      thread.stack = .bytecode frame tag :: below ∧ 1 < m.runnableCount ∧ (step p t m).1 = m := by
  cases stepCase p t m with
  | stuck fault same => rw [same] at h; cases h
  | native found stack same => rw [same] at h; cases h
  | point found stack fetched relevant rested others same =>
    exact ⟨_, _, _, _, found, stack, others, by rw [same]⟩
  | ran found stack fetched free result =>
    have ran : Ran (step p t m).2 := by rw [result]; exact attemptRan
    rw [h] at ran
    exact ran.elim

theorem stepNative (h : (step p t m).2 = .ok .native) :
    ∃ thread call below, m.thread? t = some thread ∧ thread.stack = .native call :: below ∧
      (step p t m).1 = m := by
  cases stepCase p t m with
  | stuck fault same => rw [same] at h; cases h
  | native found stack same => exact ⟨_, _, _, found, stack, by rw [same]⟩
  | point found stack fetched relevant rested others same => rw [same] at h; cases h
  | ran found stack fetched free result =>
    have ran : Ran (step p t m).2 := by rw [result]; exact attemptRan
    rw [h] at ran
    exact ran.elim

end Machine

end BytecodeChecker
