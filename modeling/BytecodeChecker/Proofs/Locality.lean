import BytecodeChecker.Proofs.Monitors

/-! How far a step reaches. It works on its own thread and on the heap, where at most one object is new; of
another thread it changes nothing, except that whoever waits for a monitor is woken when it is freed. A step
that has to be made again has changed nothing that the second attempt could see. -/
namespace BytecodeChecker

namespace Heap

structure Grown (written : String → Prop) (h h' : Heap) : Prop where
  object : ∀ {o : ObjectId} {object : HeapObject}, h.object? o = some object →
    ∃ object', h'.object? o = some object' ∧ object'.className = object.className ∧
      ∀ name, ¬ written name → object'.fields.get? name = object.fields.get? name
  size : h'.size = h.size ∨ h'.size = h.size + 1

variable {written : String → Prop} {h h' : Heap}

theorem Grown.same (objects : h'.objects = h.objects) : h.Grown written h' where
  object {o} {object} found := by
    have kept : h'.object? o = h.object? o := by rw [object?, object?, objects]
    exact ⟨object, kept.trans found, rfl, fun _ _ => rfl⟩
  size := .inl (congrArg Array.size objects)

theorem Grown.add (h : Heap) (made : HeapObject) : h.Grown written (h.add (some made)) where
  object found := ⟨_, (addOld (objectInside found)).trans found, rfl, fun _ _ => rfl⟩
  size := .inr addSize

theorem Grown.modify (o : ObjectId) {change : HeapObject → HeapObject}
    (className : ∀ object, (change object).className = object.className)
    (fields : ∀ object name, ¬ written name → (change object).fields.get? name = object.fields.get? name) :
    h.Grown written (h.modifyObject o change) where
  object {other} {object} found := by
    rw [modifyObject?, found]
    split
    · exact ⟨change object, rfl, className object, fields object⟩
    · exact ⟨object, rfl, rfl, fun _ _ => rfl⟩
  size := .inl (modifySize o change)

theorem Grown.monitor (o : ObjectId) (monitor : Monitor) : h.Grown written (h.setMonitor o monitor) :=
  .modify o (fun _ => rfl) fun _ _ _ => rfl

theorem Grown.fresh (grown : h.Grown written h') {o : ObjectId} (new : h.object? o = none)
    (made : h'.object? o ≠ none) : o = ⟨h.size⟩ := by
  have outside : h.size ≤ o.index := Array.getElem?_eq_none_iff.mp new
  have inside : o.index < h'.size := Nat.lt_of_not_le fun past => made (Array.getElem?_eq_none_iff.mpr past)
  have last : o.index = h.size := by
    rcases grown.size with same | more <;> omega
  cases o
  cases last
  rfl

end Heap

/- A stack was rebuilt from what lies below the top of the old one or of the new one. -/
def Retopped (old new : List Activation) : Prop :=
  ∃ below, below <:+ old ∧ below <:+ new ∧ (old.length ≤ below.length + 1 ∨ new.length ≤ below.length + 1)

namespace Retopped

variable {old new : List Activation}

theorem same (stack : List Activation) : Retopped stack stack :=
  ⟨stack, List.suffix_refl _, List.suffix_refl _, .inl (Nat.le_succ _)⟩

theorem ended (stack : List Activation) : Retopped stack [] :=
  ⟨[], List.nil_suffix, List.nil_suffix, .inr (Nat.zero_le _)⟩

theorem top (old : Activation) (above below : List Activation) : Retopped (old :: below) (above ++ below) :=
  ⟨below, List.suffix_cons _ _, List.suffix_append _ _, .inl (Nat.le_refl _)⟩

theorem back (above : List Activation) (new : Activation) (below : List Activation) :
    Retopped (above ++ below) (new :: below) :=
  ⟨below, List.suffix_append _ _, List.suffix_cons _ _, .inr (Nat.le_refl _)⟩

theorem unwound {p : Program} {o : ObjectId} {className : String} {stack after : List Activation}
    (h : Machine.unwound? p o className stack = some after) :
    ∃ above top below, stack = above ++ below ∧ above ≠ [] ∧ after = top :: below := by
  induction stack with
  | nil => cases h
  | cons first rest ih =>
    have past : Machine.unwound? p o className rest = some after →
        ∃ above top below, first :: rest = above ++ below ∧ above ≠ [] ∧ after = top :: below := by
      intro found
      obtain ⟨above, top, below, stack, _, kept⟩ := ih found
      exact ⟨first :: above, top, below, by rw [stack]; rfl, List.cons_ne_nil _ _, kept⟩
    cases first with
    | native call => exact past h
    | bytecode f tag =>
      unfold Machine.unwound? at h
      split at h
      · cases Option.some.inj h
        exact ⟨[.bytecode f tag], _, rest, rfl, List.cons_ne_nil _ _, rfl⟩
      · exact past h

end Retopped

namespace Upshot

/- What every instruction keeps to, whatever it does. Where the thread has to wait for a monitor, only its
status and its flag are new. What an exception says is what its object says. -/
structure Stays (written : String → Prop) (thread : GuestThread) (h : Heap) (u : Upshot) : Prop where
  heap : h.Grown written u.heap
  stack : Retopped thread.stack u.thread.stack
  waits : ∀ o, u.result = .ok (.blocked o) →
    u.thread = { thread with status := .blocked o, firstStep := false } ∧ u.heap = h ∧ u.freed = none
  message : ∀ thrown, u.result = .ok (.exception thrown) →
    thrown.message = Machine.messageOf? u.heap thrown.object

variable {p : Program} {t : ThreadId} {thread : GuestThread} {h : Heap} {written : String → Prop}

section Top

variable {top : Activation} {below : List Activation} (stack : thread.stack = top :: below)
include stack

theorem unwindStays {put : GuestThread} {top' : Activation} (pushed : put.stack = top' :: below)
    {h' : Heap} (grown : h.Grown written h') (o : ObjectId) :
    (ofUnwind p t o put h').Stays written thread h := by
  have put : Retopped thread.stack put.stack := by
    rw [stack, pushed]
    exact .top top [top'] below
  unfold ofUnwind
  split
  · exact ⟨grown, put, nofun, nofun⟩
  · dsimp only
    split
    · rename_i unwound
      obtain ⟨above, last, rest, split, some, after⟩ := Retopped.unwound unwound
      refine ⟨grown, ?_, nofun, fun thrown same => ?_⟩
      · rw [after, stack]
        cases above with
        | nil => exact absurd rfl some
        | cons first above =>
          rw [pushed] at split
          cases split
          exact .back (top :: above) last rest
      · cases same
        rfl
    · refine ⟨grown, .ended _, nofun, fun thrown same => ?_⟩
      cases same
      rfl

theorem throwStays {put : GuestThread} {top' : Activation} (pushed : put.stack = top' :: below)
    (className : String) (message : Option String) :
    (ofThrow p t className message put h).Stays written thread h := by
  have grown : h.Grown written (Machine.newException h className message).1 := by
    rw [newExceptionAdds]
    exact .add h _
  exact unwindStays stack pushed grown _

theorem deliverStays {put : GuestThread} (popped : put.stack = below) (tag : Option String)
    (value : Option Value) : (ofDeliver put tag value h).Stays written thread h := by
  have grown : h.Grown written h := .same rfl
  unfold ofDeliver
  split
  · rename_i empty
    refine ⟨grown, ?_, nofun, nofun⟩
    rw [empty]
    exact .ended _
  · rename_i call rest tag waiting
    refine ⟨grown, ?_, nofun, nofun⟩
    rw [stack, ← popped, waiting]
    exact .back [top, .native call] _ rest
  · refine ⟨grown, ?_, nofun, nofun⟩
    rw [stack, popped]
    exact .top top [] below
  · rename_i f callerTag rest waiting
    refine ⟨grown, ?_, nofun, nofun⟩
    rw [stack, ← popped, waiting]
    exact .back [top, .bytecode f callerTag] _ rest

end Top

end Upshot

def GuestThread.Writes (p : Program) (thread : GuestThread) (name : String) : Prop :=
  ∃ field, thread.nextOp? p = some (.putField field) ∧ field.name = name

theorem GuestThread.upshotStays {p : Program} {t : ThreadId} {thread : GuestThread} {h : Heap} {u : Upshot}
    (works : thread.upshot? p t h = some u) : u.Stays (thread.Writes p) thread h := by
  obtain ⟨frame, tag, below, op, effect, after, stack, fetched, performed, rfl⟩ := upshotIff.mp works
  -- Most effects leave a frame on top in place of the old one.
  have put : ∀ {heap : Heap} (grown : h.Grown (thread.Writes p) heap) (f : Frame) (freed : Option ObjectId)
      (result : Except Fault Step), (∀ step, result = .ok step → step = .executed) →
      Upshot.Stays (thread.Writes p) thread h
        ⟨{ thread with stack := .bytecode f tag :: below, firstStep := false }, heap, freed, result⟩ := by
    intro heap grown f freed result plain
    refine ⟨grown, ?_, fun o blocked => ?_, fun thrown raised => ?_⟩
    · rw [stack]
      exact .top _ [.bytecode f tag] below
    · cases plain _ blocked
    · cases plain _ raised
  have ran : ∀ step, (.ok .executed : Except Fault Step) = .ok step → step = .executed :=
    fun _ same => (Except.ok.inj same).symm
  have failed : ∀ (fault : Fault) (step : Step), .error fault = Except.ok step → step = .executed := nofun
  have same : h.Grown (thread.Writes p) h := .same rfl
  cases effect with
  | next => exact put same _ _ _ ran
  | jump target => exact put same _ _ _ ran
  | raise className message => exact Upshot.throwStays stack (by rfl) className message
  | rethrow o => exact Upshot.unwindStays stack (by rfl) same o
  | finish value => exact Upshot.deliverStays stack (by rfl) tag value
  | call callee args =>
    refine ⟨same, ?_, nofun, nofun⟩
    rw [stack]
    exact .top _ [p.activation callee args, .bytecode after tag] below
  | create className => exact put (.add h ⟨className, NameMap.empty, .free⟩) _ _ _ ran
  | readStatic field => exact put same _ _ _ ran
  | writeStatic field v =>
    have grown : h.Grown (thread.Writes p) (h.setStatic field.name v) := .same rfl
    exact put grown _ _ _ ran
  | readField o field =>
    dsimp only [Upshot.ofEffect]
    split
    · exact put same _ _ _ (failed _)
    · exact put same _ _ _ ran
  | writeField o field v =>
    dsimp only [Upshot.ofEffect]
    split
    · exact put same _ _ _ (failed _)
    · have grown : h.Grown (thread.Writes p) (h.setField o field.name v) := by
        apply Heap.Grown.modify
        · intro object
          rfl
        · intro object name spared
          have other : field.name ≠ name := by
            intro here
            cases Frame.Work.performFrom performed
            exact spared ⟨field, by rw [nextOp?, stack]; exact fetched, here⟩
          rw [NameMap.getInsert, if_neg other]
      exact put grown _ _ _ ran
  | enter o =>
    cases Frame.Work.performPeeks performed
    dsimp only [Upshot.ofEffect]
    split
    · exact put same _ _ _ (failed _)
    · exact put (.monitor o _) _ _ _ ran
    · refine ⟨same, ?_, ?_, nofun⟩
      · rw [stack]
        exact .same _
      · intro o' blocked
        cases blocked
        have kept : (.bytecode frame tag :: below) = thread.stack := stack.symm
        exact ⟨congrArg (fun stack => (⟨thread.name, .blocked o, stack, false⟩ : GuestThread)) kept, rfl, rfl⟩
  | exit o =>
    dsimp only [Upshot.ofEffect]
    split
    · exact Upshot.throwStays stack (by rfl) _ none
    · exact put (.monitor o _) _ _ _ ran

theorem GuestThread.wakeName (thread : GuestThread) (freed : Option ObjectId) :
    (thread.wake freed).name = thread.name := by
  unfold wake
  split
  · rfl
  · split <;> rfl

theorem GuestThread.wakeStatus (thread : GuestThread) (freed : Option ObjectId) :
    (thread.wake freed).status = thread.status ∨
      ∃ o, freed = some o ∧ thread.status = .blocked o ∧ (thread.wake freed).status = .runnable := by
  unfold wake
  split
  · exact .inl rfl
  · rename_i o
    split
    · rename_i waits
      exact .inr ⟨o, rfl, waits, rfl⟩
    · exact .inl rfl

namespace Machine

variable {p : Program} {t : ThreadId} {m after : Machine} {result : Except Fault Step}

def Frees (p : Program) (t : ThreadId) (o : ObjectId) (m after : Machine) : Prop :=
  ∃ thread, m.thread? t = some thread ∧ thread.about p .monitorExit o = true ∧
    (m.heap.monitor o).owner = some t ∧ (after.heap.monitor o).owner = none

theorem freedIff {thread : GuestThread} (found : m.thread? t = some thread) {u : Upshot}
    (works : thread.upshot? p t m.heap = some u) (o : ObjectId) :
    u.freed = some o ↔ Frees p t o m (u.install t m) := by
  unfold Frees
  rw [Upshot.installHeap]
  cases GuestThread.upshotTrades works with
  | spares spares idle =>
    constructor
    · intro freed
      cases spares.freed.symm.trans freed
    · intro frees
      obtain ⟨_, _, _, taken, free⟩ := frees
      rw [spares.monitors, taken] at free
      cases free
  | enters about allowed heap freed status result =>
    constructor
    · intro some
      cases freed.symm.trans some
    · intro frees
      obtain ⟨_, same, leaves, _⟩ := frees
      cases Option.some.inj (found.symm.trans same)
      cases (GuestThread.aboutUnique about leaves).1
  | @leaves left monitor about allowed heap freed status result =>
    obtain ⟨object, there, own, _⟩ := Heap.exitParts allowed
    rw [freed, heap, Heap.monitorSet there]
    constructor
    · intro last
      split at last
      · rename_i free
        cases last
        exact ⟨thread, found, about, own, by rw [if_pos rfl, Option.isNone_iff_eq_none.mp free]⟩
      · cases last
    · intro frees
      obtain ⟨_, same, leaves, _, free⟩ := frees
      cases Option.some.inj (found.symm.trans same)
      cases (GuestThread.aboutUnique about leaves).2
      rw [if_pos rfl] at free
      rw [free]
      rfl
  | waits about contended heap freed status stack result =>
    constructor
    · intro some
      cases freed.symm.trans some
    · intro frees
      obtain ⟨_, same, leaves, _⟩ := frees
      cases Option.some.inj (found.symm.trans same)
      cases (GuestThread.aboutUnique about leaves).1

inductive Reaches (p : Program) (t : ThreadId) (m : Machine) : Outcome Step → Prop where
  | same {result : Except Fault Step} (free : ∀ o, result ≠ .ok (.blocked o)) : Reaches p t m (m, result)
  | failed {thread : GuestThread} (found : m.thread? t = some thread) (broken : GuestThread) (fault : Fault) :
      Reaches p t m (m.setThread t broken, .error fault)
  | installed {thread : GuestThread} (found : m.thread? t = some thread) {u : Upshot}
      (works : thread.upshot? p t m.heap = some u) (ran : Ran u.result) :
      Reaches p t m (u.install t m, u.result)

theorem stepReaches (p : Program) (t : ThreadId) (m : Machine) : Reaches p t m (step p t m) := by
  cases stepCase p t m with
  | stuck fault same =>
    rw [same]
    exact .same (by simp)
  | native found stack same =>
    rw [same]
    exact .same (by simp)
  | point found stack fetched relevant rested others same =>
    rw [same]
    exact .same (by simp)
  | @ran thread frame tag below op found stack fetched free result =>
    have ran : Ran (attempt p t thread frame tag below op m).2 := attemptRan
    rw [result]
    unfold attempt at ran ⊢
    cases performed : Frame.Work.perform p.argCount op frame with
    | error fault after => exact .failed found _ fault
    | ok effect after =>
      rw [performed] at ran
      dsimp only at ran ⊢
      rw [Upshot.effectInstalls (threadInside found)] at ran ⊢
      exact .installed found (GuestThread.upshotIff.mpr ⟨_, _, _, _, _, _, stack, fetched, performed, rfl⟩) ran

structure Passed (p : Program) (t : ThreadId) (m after : Machine) (other other' : GuestThread) : Prop where
  stack : other'.stack = other.stack
  name : other'.name = other.name
  flag : other'.firstStep = other.firstStep
  status : other'.status = other.status ∨ ∃ o, other.status = .blocked o ∧ other'.status = .runnable
  woken : ∀ o, other.status = .blocked o → (other'.status = .runnable ↔ Frees p t o m after)

theorem Passed.same (heap : after.heap = m.heap) (other : GuestThread) : Passed p t m after other other := by
  refine ⟨rfl, rfl, rfl, .inl rfl, fun o waits => ?_⟩
  rw [waits]
  constructor
  · intro woken
    cases woken
  · intro frees
    obtain ⟨_, _, _, taken, free⟩ := frees
    rw [heap, taken] at free
    cases free

theorem installPassed {thread : GuestThread} (found : m.thread? t = some thread) {u : Upshot}
    (works : thread.upshot? p t m.heap = some u) (other : GuestThread) :
    Passed p t m (u.install t m) other (other.wake u.freed) := by
  obtain ⟨stack, flag⟩ := GuestThread.wakeStack other u.freed
  refine ⟨stack, GuestThread.wakeName other u.freed, flag, ?_, fun o waits => ?_⟩
  · rcases GuestThread.wakeStatus other u.freed with same | ⟨o, _, waits, woken⟩
    · exact .inl same
    · exact .inr ⟨o, waits, woken⟩
  · rw [← freedIff found works o]
    constructor
    · intro runs
      rcases GuestThread.wakeStatus other u.freed with same | ⟨o', freed, waits', _⟩
      · rw [same, waits] at runs
        cases runs
      · cases waits.symm.trans waits'
        exact freed
    · intro freed
      rw [freed, GuestThread.wake, if_pos waits]

theorem stepsLocally (h : step p t m = (after, result)) :
    (result = .ok .schedulingPoint ∨ result = .ok .native → after = m) ∧
    (∀ o, result = .ok (.blocked o) → ∃ thread, m.thread? t = some thread ∧
      after = m.setThread t { thread with status := .blocked o, firstStep := false }) ∧
    after.threads.size = m.threads.size ∧
    (∀ j other, j ≠ t → m.thread? j = some other →
      ∃ other', after.thread? j = some other' ∧ Passed p t m after other other') ∧
    (∀ o object, m.heap.object? o = some object →
      ∃ object', after.heap.object? o = some object' ∧ object'.className = object.className) ∧
    ∀ o, m.heap.object? o = none → after.heap.object? o ≠ none → o = ⟨m.heap.size⟩ := by
  have reaches := stepReaches p t m
  rw [h] at reaches
  cases reaches with
  | same free =>
    refine ⟨fun _ => rfl, fun o blocked => absurd blocked (free o), rfl, ?_, ?_, ?_⟩
    · exact fun j other _ found => ⟨other, found, .same rfl other⟩
    · exact fun o object found => ⟨object, found, rfl⟩
    · exact fun o missing found => absurd missing found
  | failed found broken fault =>
    refine ⟨by simp, by simp, by simp [setThread], fun j other away there => ?_, ?_, ?_⟩
    · have heap : (m.setThread t broken).heap = m.heap := rfl
      refine ⟨other, ?_, .same heap other⟩
      rw [threadSet (threadInside found), if_neg (Ne.symm away)]
      exact there
    · exact fun o object found => ⟨object, found, rfl⟩
    · exact fun o missing found => absurd missing found
  | @installed thread found u works ran =>
    have stays := GuestThread.upshotStays works
    refine ⟨?_, ?_, installSize u t m, fun j other away there => ?_, fun o object kept => ?_, fun o new => ?_⟩
    · intro paused
      rcases paused with same | same
      · rw [same] at ran
        exact ran.elim
      · rw [same] at ran
        exact ran.elim
    · intro o blocked
      obtain ⟨waits, heap, freed⟩ := stays.waits o blocked
      refine ⟨thread, found, ?_⟩
      rw [Upshot.install, waits, heap, freed]
    · refine ⟨other.wake u.freed, ?_, installPassed found works other⟩
      rw [Upshot.installThread (threadInside found), if_neg (Ne.symm away), there]
      rfl
    · rw [Upshot.installHeap]
      obtain ⟨object', found', className, _⟩ := stays.heap.object kept
      exact ⟨object', found', className⟩
    · rw [Upshot.installHeap]
      exact stays.heap.fresh new

theorem stepOk {reported : Step} (h : (step p t m).2.toOption = some reported) :
    step p t m = ((step p t m).1, .ok reported) := by
  cases result : (step p t m).2 with
  | error fault =>
    rw [result] at h
    cases h
  | ok other =>
    rw [result] at h
    cases h
    exact Prod.ext rfl result

def doors : Model :=
  (Model.start "doors" "Doors.main()V").withMethod "Doors.main()V" 0 [.monitorExit, .monitorEnter, .ret none]

def atDoor (name : String) (status : Status) (pc : Nat) (door : ObjectId) (flag : Bool) : GuestThread :=
  ⟨name, status, [.bytecode ⟨⟨0⟩, pc, Locals.ofArgs 0 [], [.ref door]⟩ none], flag⟩

def queueing : Machine where
  heap := ⟨#[⟨"Door", NameMap.empty, ⟨some ⟨0⟩, 1⟩⟩, ⟨"Door", NameMap.empty, ⟨some ⟨0⟩, 1⟩⟩], NameMap.empty⟩
  threads := #[atDoor "holder" .runnable 0 ⟨0⟩ true, atDoor "first" (.blocked ⟨0⟩) 1 ⟨0⟩ false,
    atDoor "second" (.blocked ⟨1⟩) 1 ⟨1⟩ false, atDoor "late" .runnable 1 ⟨1⟩ true,
    atDoor "idle" .runnable 1 ⟨1⟩ false]

theorem queueingWoken : ∃ p after, Program.load doors = .ok p ∧
    step p ⟨0⟩ queueing = (after, .ok .executed) ∧
    (∃ woken, after.thread? ⟨1⟩ = some woken ∧ woken.status = .runnable ∧ woken.name = "first") ∧
    (∃ waiting, after.thread? ⟨2⟩ = some waiting ∧ waiting.status = .blocked ⟨1⟩) ∧
    step p ⟨3⟩ queueing =
      (queueing.setThread ⟨3⟩ (atDoor "late" (.blocked ⟨1⟩) 1 ⟨1⟩ false), .ok (.blocked ⟨1⟩)) ∧
    step p ⟨4⟩ queueing = (queueing, .ok .schedulingPoint) := by
  have ran : (Program.load doors).toOption.any (fun p => decide
      ((step p ⟨0⟩ queueing).2.toOption = some .executed ∧
        (atDoor "holder" .runnable 0 ⟨0⟩ true).about p .monitorExit ⟨0⟩ = true ∧
        ((step p ⟨0⟩ queueing).1.heap.monitor ⟨0⟩).owner = none ∧
        ((step p ⟨0⟩ queueing).1.heap.monitor ⟨1⟩).owner ≠ none ∧
        (step p ⟨3⟩ queueing).2.toOption = some (.blocked ⟨1⟩) ∧
        (step p ⟨4⟩ queueing).2.toOption = some .schedulingPoint)) = true := by
    decide +kernel
  cases loaded : Program.load doors with
  | error e =>
    rw [loaded] at ran
    cases ran
  | ok p =>
    rw [loaded] at ran
    obtain ⟨left, about, free, taken, blocked, paused⟩ := of_decide_eq_true ran
    obtain ⟨_, _, _, others, _⟩ := stepsLocally (stepOk left)
    obtain ⟨first, there, passed⟩ := others ⟨1⟩ _ (by decide) rfl
    obtain ⟨second, there', passed'⟩ := others ⟨2⟩ _ (by decide) rfl
    have frees : Frees p ⟨0⟩ ⟨0⟩ queueing (step p ⟨0⟩ queueing).1 := ⟨_, rfl, about, rfl, free⟩
    have kept : second.status = .blocked ⟨1⟩ := by
      rcases passed'.status with same | ⟨_, _, woken⟩
      · exact same
      · obtain ⟨_, _, _, _, free'⟩ := (passed'.woken ⟨1⟩ rfl).mp woken
        exact absurd free' taken
    obtain ⟨_, waits, _⟩ := stepsLocally (stepOk blocked)
    obtain ⟨late, found, after⟩ := waits ⟨1⟩ rfl
    cases found
    obtain ⟨idle, _⟩ := stepsLocally (stepOk paused)
    exact ⟨p, _, rfl, stepOk left, ⟨first, there, (passed.woken ⟨0⟩ rfl).mpr frees, passed.name⟩,
      ⟨second, there', kept⟩, (stepOk blocked).trans (congrArg (·, _) after),
      (stepOk paused).trans (congrArg (·, _) (idle (.inl rfl)))⟩

end Machine

end BytecodeChecker
