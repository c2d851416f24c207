import BytecodeChecker.Proofs.Renaming
import BytecodeChecker.Proofs.Step

/-! What one instruction changes: its own thread, the heap, and the threads that wait for a monitor
that it frees. All of that is a function of the thread and the heap alone. -/
namespace BytecodeChecker

def Step.goesOn : Step → Bool
  | .executed | .blocked _ | .terminated => true
  | .exception thrown => thrown.handled
  | .schedulingPoint | .native => false

def Step.wentOn : Except Fault Step → Bool
  | .ok step => step.goesOn
  | .error _ => false

def Step.uncaught? : Except Fault Step → Option Thrown
  | .ok (.exception thrown) => if thrown.handled then none else some thrown
  | _ => none

def Machine.freeStep (p : Program) (t : ThreadId) (m : Machine) : Machine.Outcome Step :=
  Machine.step p t (m.setFirstStep t true)

structure Upshot where
  thread : GuestThread
  heap : Heap
  freed : Option ObjectId
  result : Except Fault Step

theorem Machine.threadSet {m : Machine} {t : ThreadId} (inside : t.index < m.threads.size)
    (thread : GuestThread) (j : ThreadId) :
    (m.setThread t thread).thread? j = if t = j then some thread else m.thread? j := by
  obtain ⟨i⟩ := t
  obtain ⟨j⟩ := j
  have bound : i < m.threads.size := inside
  simp [thread?, setThread, Array.getElem?_setIfInBounds, bound]

namespace Upshot

def install (u : Upshot) (t : ThreadId) (m : Machine) : Machine :=
  let m := { m with heap := u.heap }.setThread t u.thread
  match u.freed with
  | none => m
  | some o => m.unblock o

def outcome (u : Upshot) (t : ThreadId) (m : Machine) : Machine.Outcome Step :=
  (u.install t m, u.result)

def ofUnwind (p : Program) (t : ThreadId) (o : ObjectId) (thread : GuestThread) (h : Heap) : Upshot :=
  match h.object? o with
  | none => ⟨thread, h, none, .error (.danglingRef o)⟩
  | some object =>
    let thrown (handled : Bool) : Step :=
      .exception ⟨t, object.className, Machine.messageOf? h o, o, handled⟩
    match Machine.unwound? p o object.className thread.stack with
    | some stack => ⟨{ thread with stack }, h, none, .ok (thrown true)⟩
    | none => ⟨{ thread with stack := [], status := .terminated }, h, none, .ok (thrown false)⟩

def ofThrow (p : Program) (t : ThreadId) (className : String) (message : Option String)
    (thread : GuestThread) (h : Heap) : Upshot :=
  let (h, o) := Machine.newException h className message
  ofUnwind p t o thread h

def ofDeliver (thread : GuestThread) (tag : Option String) (value : Option Value) (h : Heap) : Upshot :=
  match thread.stack, tag with
  | [], _ => ⟨{ thread with status := .terminated }, h, none, .ok .terminated⟩
  | .native call :: below, some tag =>
    let call := { call with phase := .directCallReturned tag value }
    ⟨{ thread with stack := .native call :: below }, h, none, .ok .executed⟩
  | .native _ :: _, none =>
    ⟨thread, h, none,
      .error (.internal "bytecode frame returned into a native frame it was not called from")⟩
  | .bytecode f callerTag :: below, _ =>
    let f := (f.pushAll value).advance
    ⟨{ thread with stack := .bytecode f callerTag :: below }, h, none, .ok .executed⟩

def ofEffect (p : Program) (t : ThreadId) (thread : GuestThread) (frame : Frame) (tag : Option String)
    (below : List Activation) (h : Heap) : Effect → Upshot
  | .next => ⟨put frame.advance, h, none, .ok .executed⟩
  | .jump target => ⟨put { frame with pc := target }, h, none, .ok .executed⟩
  | .raise className message => ofThrow p t className message (put frame) h
  | .rethrow o => ofUnwind p t o (put frame) h
  | .finish value => ofDeliver { thread with stack := below } tag value h
  | .call callee args =>
    let stack := p.activation callee args :: .bytecode frame tag :: below
    ⟨{ thread with stack }, h, none, .ok .executed⟩
  | .create className =>
    let (h, o) := h.allocate className
    ⟨put (frame.push (.ref o)).advance, h, none, .ok .executed⟩
  | .readStatic field =>
    ⟨put (frame.push ((h.static? field.name).getD field.default)).advance, h, none, .ok .executed⟩
  | .writeStatic field v => ⟨put frame.advance, h.setStatic field.name v, none, .ok .executed⟩
  | .readField o field =>
    match h.object? o with
    | none => ⟨put frame, h, none, .error (.danglingRef o)⟩
    | some object =>
      ⟨put (frame.push ((object.fields.get? field.name).getD field.default)).advance, h, none,
        .ok .executed⟩
  | .writeField o field v =>
    match h.object? o with
    | none => ⟨put frame, h, none, .error (.danglingRef o)⟩
    | some _ => ⟨put frame.advance, h.setField o field.name v, none, .ok .executed⟩
  | .enter o =>
    match h.entry? o t with
    | none => ⟨put frame, h, none, .error (.danglingRef o)⟩
    | some (.acquired monitor) =>
      ⟨put frame.drop.advance, h.setMonitor o monitor, none, .ok .executed⟩
    | some (.contended _) => ⟨{ put frame with status := .blocked o }, h, none, .ok (.blocked o)⟩
  | .exit o =>
    match h.afterExit? o t with
    | none => ofThrow p t Lineage.illegalMonitorStateException none (put frame) h
    | some monitor =>
      ⟨put frame.advance, h.setMonitor o monitor, if monitor.owner.isNone then some o else none,
        .ok .executed⟩
where
  put (f : Frame) : GuestThread := { thread with stack := .bytecode f tag :: below }

variable {p : Program} {t : ThreadId} {m : Machine}

theorem unwindInstalls (inside : t.index < m.threads.size) (o : ObjectId) (thread : GuestThread) :
    Machine.thrownStep (Machine.unwind p t o (m.setThread t thread)) =
      (ofUnwind p t o thread m.heap).outcome t m := by
  have found : (m.setThread t thread).thread? t = some thread :=
    (Machine.threadSet inside thread t).trans (if_pos rfl)
  have again : ∀ thread', (m.setThread t thread).setThread t thread' = m.setThread t thread' := by
    intro thread'
    simp [Machine.setThread]
  have heap : (m.setThread t thread).heap = m.heap := rfl
  unfold Machine.unwind ofUnwind
  rw [found, heap]
  cases m.heap.object? o with
  | none => rfl
  | some object =>
    dsimp only
    cases Machine.unwound? p o object.className thread.stack with
    | none =>
      dsimp only
      rw [again]
      rfl
    | some stack =>
      dsimp only
      rw [again]
      rfl

theorem throwInstalls (inside : t.index < m.threads.size) (className : String)
    (message : Option String) (thread : GuestThread) :
    Machine.thrownStep (Machine.throw p t className message (m.setThread t thread)) =
      (ofThrow p t className message thread m.heap).outcome t m :=
  unwindInstalls (m := { m with heap := (Machine.newException m.heap className message).1 }) inside _ thread

theorem deliverInstalls (thread : GuestThread) (tag : Option String) (value : Option Value) :
    Machine.deliver t thread tag value m = (ofDeliver thread tag value m.heap).outcome t m := by
  obtain ⟨name, status, stack, flag⟩ := thread
  cases stack with
  | nil => rfl
  | cons top below =>
    cases top with
    | bytecode f callerTag => rfl
    | native call => cases tag <;> rfl

theorem effectInstalls (inside : t.index < m.threads.size) (thread : GuestThread) (frame : Frame)
    (tag : Option String) (below : List Activation) (effect : Effect) :
    Machine.carryOut p t thread frame tag below m effect =
      (ofEffect p t thread frame tag below m.heap effect).outcome t m := by
  cases effect with
  | raise className message => exact throwInstalls inside className message _
  | rethrow o => exact unwindInstalls inside o _
  | finish value => exact deliverInstalls _ tag value
  | readField o field =>
    simp only [Machine.carryOut, ofEffect]
    cases m.heap.object? o <;> rfl
  | writeField o field v =>
    simp only [Machine.carryOut, ofEffect]
    cases m.heap.object? o <;> rfl
  | enter o =>
    simp only [Machine.carryOut, ofEffect]
    cases m.heap.entry? o t with
    | none => rfl
    | some entry => cases entry <;> rfl
  | exit o =>
    simp only [Machine.carryOut, ofEffect]
    cases m.heap.afterExit? o t with
    | none => exact throwInstalls inside _ none _
    | some monitor =>
      obtain ⟨owner, count⟩ := monitor
      cases owner <;> rfl
  | _ => rfl

theorem unwindRested {h : Heap} {thread : GuestThread} (o : ObjectId) (rested : thread.firstStep = false) :
    (ofUnwind p t o thread h).thread.firstStep = false := by
  unfold ofUnwind
  split
  · exact rested
  · dsimp only
    split <;> exact rested

theorem effectRested {h : Heap} {thread : GuestThread} (rested : thread.firstStep = false) (frame : Frame)
    (tag : Option String) (below : List Activation) (effect : Effect) :
    (ofEffect p t thread frame tag below h effect).thread.firstStep = false := by
  cases effect with
  | raise className message => exact unwindRested _ rested
  | rethrow o => exact unwindRested o rested
  | finish value =>
    simp only [ofEffect, ofDeliver]
    split <;> exact rested
  | readField o field =>
    simp only [ofEffect]
    split <;> exact rested
  | writeField o field v =>
    simp only [ofEffect]
    split <;> exact rested
  | enter o =>
    simp only [ofEffect]
    split <;> exact rested
  | exit o =>
    simp only [ofEffect]
    split
    · exact unwindRested _ rested
    · exact rested
  | _ => exact rested

end Upshot

def GuestThread.upshot? (p : Program) (t : ThreadId) (thread : GuestThread) (h : Heap) : Option Upshot :=
  match thread.stack with
  | .bytecode frame tag :: below =>
    (p.op? frame.method frame.pc).bind fun op =>
      match Frame.Work.perform p.argCount op frame with
      | .ok effect frame =>
        some (Upshot.ofEffect p t { thread with firstStep := false } frame tag below h effect)
      | .error _ _ => none
  | _ => none

theorem GuestThread.upshotIff {p : Program} {t : ThreadId} {thread : GuestThread} {h : Heap} {u : Upshot} :
    thread.upshot? p t h = some u ↔ ∃ frame tag below op effect after,
      thread.stack = .bytecode frame tag :: below ∧ p.op? frame.method frame.pc = some op ∧
      Frame.Work.perform p.argCount op frame = .ok effect after ∧
      u = Upshot.ofEffect p t { thread with firstStep := false } after tag below h effect := by
  constructor
  · intro works
    unfold upshot? at works
    split at works
    · rename_i frame tag below stack
      obtain ⟨op, fetched, worked⟩ := Option.bind_eq_some_iff.mp works
      split at worked
      · rename_i effect after performed
        exact ⟨frame, tag, below, op, effect, after, stack, fetched, performed, (Option.some.inj worked).symm⟩
      · cases worked
    · cases works
  · intro parts
    obtain ⟨frame, tag, below, op, effect, after, stack, fetched, performed, rfl⟩ := parts
    simp [upshot?, stack, fetched, performed]

theorem GuestThread.upshotRested {p : Program} {t : ThreadId} {thread : GuestThread} {h : Heap} {u : Upshot}
    (works : thread.upshot? p t h = some u) : u.thread.firstStep = false := by
  obtain ⟨_, _, _, _, _, _, _, _, _, rfl⟩ := upshotIff.mp works
  exact Upshot.effectRested rfl _ _ _ _

namespace Machine

variable {p : Program} {t : ThreadId} {m : Machine} {thread : GuestThread}

theorem threadInside (found : m.thread? t = some thread) : t.index < m.threads.size :=
  (Array.getElem?_eq_some_iff.mp found).1

theorem setSame (found : m.thread? t = some thread) : m.setThread t thread = m := by
  obtain ⟨inside, same⟩ := Array.getElem?_eq_some_iff.mp found
  simp [setThread, Array.setIfInBounds, inside, ← same]

theorem attemptInstalls {frame : Frame} {tag : Option String} {below : List Activation} {op : Op}
    (found : m.thread? t = some thread) (stack : thread.stack = .bytecode frame tag :: below)
    (fetched : p.op? frame.method frame.pc = some op) :
    (∃ u, thread.upshot? p t m.heap = some u ∧
      attempt p t thread frame tag below op m = u.outcome t m) ∨
    thread.upshot? p t m.heap = none ∧
      Step.wentOn (attempt p t thread frame tag below op m).2 = false ∧
      Step.uncaught? (attempt p t thread frame tag below op m).2 = none := by
  have inside := threadInside found
  obtain ⟨name, status, stack', flag⟩ := thread
  cases stack
  simp only [GuestThread.upshot?, fetched, Option.bind_some, attempt]
  cases Frame.Work.perform p.argCount op frame with
  | ok effect after => exact .inl ⟨_, rfl, Upshot.effectInstalls inside _ _ _ _ effect⟩
  | error fault after => exact .inr ⟨rfl, rfl, rfl⟩

theorem flaggedThread (found : m.thread? t = some thread) (flag : Bool) :
    (m.setFirstStep t flag).thread? t = some { thread with firstStep := flag } := by
  unfold setFirstStep modifyThread
  rw [found]
  exact (threadSet (threadInside found) _ t).trans (if_pos rfl)

theorem flagHeap (t : ThreadId) (flag : Bool) : (m.setFirstStep t flag).heap = m.heap := by
  unfold setFirstStep modifyThread
  split <;> rfl

theorem outcomeFlagged (found : m.thread? t = some thread) (u : Upshot) (flag : Bool) :
    u.outcome t (m.setFirstStep t flag) = u.outcome t m := by
  unfold setFirstStep modifyThread
  rw [found]
  simp [Upshot.outcome, Upshot.install, setThread]

theorem upshotFlagged (flag : Bool) (h : Heap) :
    GuestThread.upshot? p t { thread with firstStep := flag } h = thread.upshot? p t h := rfl

theorem freeStepCases (found : m.thread? t = some thread) :
    (∃ u, thread.upshot? p t m.heap = some u ∧ freeStep p t m = u.outcome t m) ∨
    thread.upshot? p t m.heap = none ∧ Step.wentOn (freeStep p t m).2 = false ∧
      Step.uncaught? (freeStep p t m).2 = none := by
  have flagged := flaggedThread found true
  have heap : (m.setFirstStep t true).heap = m.heap := by
    unfold setFirstStep modifyThread
    rw [found]
    rfl
  cases stack : thread.stack with
  | nil =>
    exact .inr ⟨by simp [GuestThread.upshot?, stack],
      by simp [freeStep, step, flagged, stack, Step.wentOn, Step.uncaught?]⟩
  | cons top below =>
    cases top with
    | native call =>
      exact .inr ⟨by simp [GuestThread.upshot?, stack],
        by simp [freeStep, step, flagged, stack, Step.wentOn, Step.goesOn, Step.uncaught?]⟩
    | bytecode frame tag =>
      cases fetched : p.op? frame.method frame.pc with
      | none =>
        exact .inr ⟨by simp [GuestThread.upshot?, stack, fetched],
          by simp [freeStep, step, flagged, stack, fetched, Step.wentOn, Step.uncaught?]⟩
      | some op =>
        have ran : freeStep p t m =
            attempt p t { thread with firstStep := true } frame tag below op (m.setFirstStep t true) := by
          simp only [freeStep, step, flagged, stack, fetched, Bool.not_true, Bool.and_false, Bool.false_and]
          rfl
        rw [ran]
        rcases attemptInstalls flagged stack fetched with ⟨u, same, installed⟩ | failed
        · rw [heap, upshotFlagged] at same
          exact .inl ⟨u, same, by rw [installed, outcomeFlagged found]⟩
        · rw [heap, upshotFlagged] at failed
          exact .inr failed

theorem freeStepInstalls (found : m.thread? t = some thread) {u : Upshot}
    (works : thread.upshot? p t m.heap = some u) : freeStep p t m = u.outcome t m := by
  rcases freeStepCases found with ⟨u', same, ran⟩ | ⟨none, _⟩
  · cases Option.some.inj (works.symm.trans same)
    exact ran
  · rw [none] at works
    cases works

theorem freeStepFails (found : m.thread? t = some thread) (fails : thread.upshot? p t m.heap = none) :
    Step.wentOn (freeStep p t m).2 = false := by
  rcases freeStepCases found with ⟨u, same, _⟩ | ⟨_, failed, _⟩
  · rw [fails] at same
    cases same
  · exact failed

theorem stepFree (h : Step.wentOn (step p t m).2 = true) : freeStep p t m = step p t m := by
  cases stepCase p t m with
  | stuck fault same => rw [same] at h; cases h
  | native found stack same => rw [same] at h; cases h
  | point found stack fetched relevant rested others same => rw [same] at h; cases h
  | ran found stack fetched free result =>
    rw [result] at h ⊢
    rcases attemptInstalls found stack fetched with ⟨u, works, ran⟩ | ⟨_, failed, _⟩
    · rw [ran, freeStepInstalls found works]
    · rw [failed] at h
      cases h

end Machine

end BytecodeChecker
