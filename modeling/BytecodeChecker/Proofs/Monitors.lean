import BytecodeChecker.Proofs.Chronicle
import BytecodeChecker.Proofs.Interleaving

/-! Monitors. A monitor has an owner while its count is positive, and the count is what the owner has
entered and not left since the monitor was last free. Who waits for a monitor waits for another thread, so
that a path ends with all threads terminated or with the rest of them waiting for each other in vain. -/
namespace BytecodeChecker

def Monitor.Sound (monitor : Monitor) : Prop := monitor.owner.isSome = true ↔ 0 < monitor.count

theorem Monitor.Sound.free {monitor : Monitor} (sound : monitor.Sound) (free : monitor.owner = none) :
    monitor.count = 0 := by
  unfold Sound at sound
  rw [free] at sound
  simpa using sound

theorem Monitor.Sound.taken {monitor : Monitor} {t : ThreadId} (sound : monitor.Sound)
    (owned : monitor.owner = some t) : 0 < monitor.count :=
  sound.mp (owned ▸ rfl)

namespace Heap

variable {h : Heap} {t : ThreadId} {o : ObjectId}

def monitor (h : Heap) (o : ObjectId) : Monitor := ((h.object? o).map (·.monitor)).getD .free

def holds (h : Heap) (t : ThreadId) (o : ObjectId) : Nat :=
  if (h.monitor o).owner = some t then (h.monitor o).count else 0

theorem monitorFound {object : HeapObject} (found : h.object? o = some object) : h.monitor o = object.monitor := by
  rw [monitor, found]
  rfl

theorem monitorOwned (owned : (h.monitor o).owner = some t) :
    ∃ object, h.object? o = some object ∧ object.monitor.owner = some t := by
  cases found : h.object? o with
  | none =>
    rw [monitor, found] at owned
    cases owned
  | some object => exact ⟨object, rfl, monitorFound found ▸ owned⟩

theorem holdsSame {h' : Heap} (same : h'.monitor o = h.monitor o) (t : ThreadId) :
    h'.holds t o = h.holds t o := by
  rw [holds, same, holds]

theorem monitorAdd (object : HeapObject) (free : object.monitor = .free) (o : ObjectId) :
    (h.add (some object)).monitor o = h.monitor o := by
  obtain ⟨i⟩ := o
  unfold monitor object? add
  rw [Array.getElem?_push]
  split
  · rename_i last
    dsimp only at last
    simp [last, free]
  · rfl

theorem monitorModify (o : ObjectId) {change : HeapObject → HeapObject}
    (kept : ∀ object, (change object).monitor = object.monitor) (other : ObjectId) :
    (h.modifyObject o change).monitor other = h.monitor other := by
  unfold monitor
  rw [modifyObject?]
  split
  · cases h.object? other with
    | none => rfl
    | some object => exact kept object
  · rfl

theorem monitorSet {object : HeapObject} (found : h.object? o = some object) (monitor : Monitor)
    (other : ObjectId) :
    (h.setMonitor o monitor).monitor other = if o = other then monitor else h.monitor other := by
  unfold Heap.monitor setMonitor
  rw [modifyObject?]
  split
  · rename_i here
    rw [← here, found]
    rfl
  · rfl

theorem entryParts {entry : Entry} (found : h.entry? o t = some entry) :
    ∃ object, h.object? o = some object ∧
      (((h.monitor o).owner = none ∨ (h.monitor o).owner = some t) ∧
          entry = .acquired ⟨some t, (h.monitor o).count + 1⟩ ∨
        ∃ owner, (h.monitor o).owner = some owner ∧ owner ≠ t ∧ entry = .contended owner) := by
  obtain ⟨object, there, rfl⟩ := Option.map_eq_some_iff.mp found
  refine ⟨object, there, ?_⟩
  rw [monitorFound there]
  obtain ⟨className, fields, owner, count⟩ := object
  cases owner with
  | none => exact .inl ⟨.inl rfl, rfl⟩
  | some owner =>
    by_cases own : owner = t
    · exact .inl ⟨.inr (congrArg some own), if_pos own⟩
    · exact .inr ⟨owner, rfl, own, if_neg own⟩

theorem exitParts {monitor : Monitor} (found : h.afterExit? o t = some monitor) :
    ∃ object, h.object? o = some object ∧ (h.monitor o).owner = some t ∧ monitor =
      if (h.monitor o).count - 1 = 0 then ⟨none, (h.monitor o).count - 1⟩
      else ⟨some t, (h.monitor o).count - 1⟩ := by
  unfold afterExit? at found
  split at found
  · cases found
  · rename_i object there
    rw [monitorFound there]
    split at found
    · rename_i own
      exact ⟨object, there, own, (Option.some.inj found).symm⟩
    · cases found

theorem enteredSound {monitor : Monitor} (allowed : h.entry? o t = some (.acquired monitor)) :
    monitor.Sound ∧ monitor.owner = some t := by
  obtain ⟨_, _, ⟨_, entry⟩ | ⟨_, _, _, entry⟩⟩ := entryParts allowed
  · cases entry
    simp [Monitor.Sound]
  · cases entry

theorem leftSound {monitor : Monitor} (allowed : h.afterExit? o t = some monitor) :
    monitor.Sound ∧ ∀ owner, monitor.owner = some owner → owner = t := by
  obtain ⟨_, _, _, rfl⟩ := exitParts allowed
  unfold Monitor.Sound
  split
  · rename_i last
    simp [last]
  · rename_i more
    simp [Nat.pos_of_ne_zero more, eq_comm]

section Holds

variable (sound : (h.monitor o).Sound)
include sound

theorem holdsEntered {monitor : Monitor} (allowed : h.entry? o t = some (.acquired monitor)) (j : ThreadId)
    (other : ObjectId) :
    (h.setMonitor o monitor).holds j other = h.holds j other + if t = j ∧ o = other then 1 else 0 := by
  obtain ⟨object, found, parts⟩ := entryParts allowed
  by_cases here : o = other
  · subst here
    simp only [holds, monitorSet found, if_true, and_true]
    rcases parts with ⟨free | own, entry⟩ | ⟨_, _, _, entry⟩
    · cases entry
      by_cases same : t = j <;> simp [free, same, sound.free free]
    · cases entry
      by_cases same : t = j <;> simp [own, same]
    · cases entry
  · have same := holdsSame ((monitorSet found monitor other).trans (if_neg here)) j
    simp [same, here]

theorem holdsLeft {monitor : Monitor} (allowed : h.afterExit? o t = some monitor) (j : ThreadId)
    (other : ObjectId) :
    (h.setMonitor o monitor).holds j other + (if t = j ∧ o = other then 1 else 0) = h.holds j other := by
  obtain ⟨object, found, own, left⟩ := exitParts allowed
  have least := sound.taken own
  by_cases here : o = other
  · subst here
    simp only [holds, monitorSet found, left, own, if_true, and_true]
    by_cases last : (h.monitor o).count - 1 = 0
    · by_cases same : t = j
      · simp only [last, same, if_true, reduceCtorEq, if_false]
        omega
      · simp [last, same]
    · by_cases same : t = j
      · simp only [last, same, if_true, if_false]
        omega
      · simp [last, same]
  · have same := holdsSame ((monitorSet found monitor other).trans (if_neg here)) j
    simp only [same, here, and_false, if_false, Nat.add_zero]

end Holds

end Heap

def GuestThread.about (p : Program) (op : Op) (o : ObjectId) (thread : GuestThread) : Bool :=
  match thread.stack with
  | .bytecode f _ :: _ => p.op? f.method f.pc = some op && f.operands.head? = some (.ref o)
  | _ => false

theorem GuestThread.aboutStack {thread thread' : GuestThread} (same : thread'.stack = thread.stack)
    (p : Program) (op : Op) (o : ObjectId) : thread'.about p op o = thread.about p op o := by
  unfold about
  rw [same]

theorem GuestThread.aboutUnique {p : Program} {op op' : Op} {o o' : ObjectId} {thread : GuestThread}
    (left : thread.about p op o = true) (right : thread.about p op' o' = true) : op = op' ∧ o = o' := by
  unfold about at left right
  split at left
  · rename_i stack
    simp only [stack, Bool.and_eq_true, decide_eq_true_eq] at left right
    refine ⟨Option.some.inj (left.1.symm.trans right.1), ?_⟩
    cases Option.some.inj (left.2.symm.trans right.2)
    rfl
  · cases left

namespace Frame.Work

variable {argCount : MethodId → Nat} {op : Op} {f f' : Frame} {effect : Effect}

theorem performEnters (h : perform argCount op f = .ok effect f') (o : ObjectId) :
    effect = .enter o ↔ op = .monitorEnter ∧ f.operands.head? = some (.ref o) := by
  constructor
  · rintro rfl
    cases performFrom h
    refine ⟨rfl, ?_⟩
    cases operands : f.operands with
    | nil => simp [perform, bind, EStateM.bind, peek, operands] at h
    | cons v rest =>
      cases v <;> simp only [perform, bind, EStateM.bind, peek, pop, operands, pure, EStateM.pure] at h <;> cases h
      rfl
  · rintro ⟨rfl, top⟩
    obtain ⟨rest, operands⟩ := List.head?_eq_some_iff.mp top
    simp only [perform, bind, EStateM.bind, peek, operands, pure, EStateM.pure, EStateM.Result.ok.injEq] at h
    exact h.1.symm

theorem performPeeks {o : ObjectId} (h : perform argCount op f = .ok (.enter o) f') : f' = f := by
  obtain ⟨rfl, top⟩ := (performEnters h o).mp rfl
  obtain ⟨rest, operands⟩ := List.head?_eq_some_iff.mp top
  simp only [perform, bind, EStateM.bind, peek, operands, pure, EStateM.pure, EStateM.Result.ok.injEq] at h
  exact h.2.symm

theorem performExits (h : perform argCount op f = .ok effect f') (o : ObjectId) :
    effect = .exit o ↔ op = .monitorExit ∧ f.operands.head? = some (.ref o) := by
  constructor
  · rintro rfl
    cases performFrom h
    refine ⟨rfl, ?_⟩
    cases operands : f.operands with
    | nil => simp [perform, onObject, popObject, popReference, bind, EStateM.bind, pop, operands] at h
    | cons v rest =>
      cases v <;> simp only [perform, onObject, popObject, popReference, bind, EStateM.bind, pop, operands] at h <;>
        cases h
      rfl
  · rintro ⟨rfl, top⟩
    obtain ⟨rest, operands⟩ := List.head?_eq_some_iff.mp top
    have popped : popReference f = .ok (.ref o) { f with operands := rest } := by
      simp [popReference, bind, EStateM.bind, pop, operands, pure, EStateM.pure, Value.isReference]
    simp only [perform, onObject, popObject, bind, EStateM.bind, popped, pure, EStateM.pure,
      EStateM.Result.ok.injEq] at h
    exact h.1.symm

end Frame.Work

namespace Upshot

variable {p : Program} {t : ThreadId} {thread : GuestThread} {h : Heap} {u : Upshot}

structure Spares (h : Heap) (status : Status) (u : Upshot) : Prop where
  monitors : ∀ o, u.heap.monitor o = h.monitor o
  freed : u.freed = none
  status : u.thread.status = status ∨ u.thread.status = .terminated

section Unwinding

variable {status : Status} (same : thread.status = status)
include same

theorem unwindSpares (o : ObjectId) : (ofUnwind p t o thread h).Spares h status := by
  unfold ofUnwind
  split
  · exact ⟨fun _ => rfl, rfl, .inl same⟩
  · dsimp only
    split
    · exact ⟨fun _ => rfl, rfl, .inl same⟩
    · exact ⟨fun _ => rfl, rfl, .inr rfl⟩

theorem throwSpares (className : String) (message : Option String) :
    (ofThrow p t className message thread h).Spares h status := by
  have spares := unwindSpares (p := p) (t := t) (h := (Machine.newException h className message).1) same
    (Machine.newException h className message).2
  refine ⟨fun o => (spares.monitors o).trans ?_, spares.freed, spares.status⟩
  rw [newExceptionAdds]
  exact Heap.monitorAdd _ rfl o

theorem deliverSpares (tag : Option String) (value : Option Value) :
    (ofDeliver thread tag value h).Spares h status := by
  unfold ofDeliver
  split
  · exact ⟨fun _ => rfl, rfl, .inr rfl⟩
  · exact ⟨fun _ => rfl, rfl, .inl same⟩
  · exact ⟨fun _ => rfl, rfl, .inl same⟩
  · exact ⟨fun _ => rfl, rfl, .inl same⟩

end Unwinding

theorem unwindResult (o : ObjectId) : (ofUnwind p t o thread h).result ≠ .ok .executed := by
  unfold ofUnwind
  split
  · nofun
  · dsimp only
    split <;> nofun

inductive Trades (p : Program) (t : ThreadId) (thread : GuestThread) (h : Heap) (u : Upshot) : Prop where
  | spares (spares : u.Spares h thread.status)
      (idle : ∀ o, thread.about p .monitorEnter o = true ∨ thread.about p .monitorExit o = true →
        u.result ≠ .ok .executed)
  | enters {o : ObjectId} {monitor : Monitor} (about : thread.about p .monitorEnter o = true)
      (allowed : h.entry? o t = some (.acquired monitor)) (heap : u.heap = h.setMonitor o monitor)
      (freed : u.freed = none) (status : u.thread.status = thread.status)
      (result : u.result = .ok .executed)
  | leaves {o : ObjectId} {monitor : Monitor} (about : thread.about p .monitorExit o = true)
      (allowed : h.afterExit? o t = some monitor) (heap : u.heap = h.setMonitor o monitor)
      (freed : u.freed = if monitor.owner.isNone then some o else none) (status : u.thread.status = thread.status)
      (result : u.result = .ok .executed)
  | waits {o : ObjectId} {owner : ThreadId} (about : thread.about p .monitorEnter o = true)
      (contended : h.entry? o t = some (.contended owner)) (heap : u.heap = h) (freed : u.freed = none)
      (status : u.thread.status = .blocked o) (stack : u.thread.stack = thread.stack)
      (result : u.result = .ok (.blocked o))

end Upshot

theorem GuestThread.upshotTrades {p : Program} {t : ThreadId} {thread : GuestThread} {h : Heap} {u : Upshot}
    (works : thread.upshot? p t h = some u) : u.Trades p t thread h := by
  obtain ⟨frame, tag, below, op, effect, after, stack, fetched, performed, rfl⟩ := upshotIff.mp works
  have enters := Frame.Work.performEnters performed
  have exits := Frame.Work.performExits performed
  have about : ∀ op' o, thread.about p op' o = true ↔
      op = op' ∧ frame.operands.head? = some (.ref o) := by
    intro op' o
    simp [GuestThread.about, stack, fetched]
  -- An instruction on a monitor has the effect on that monitor, and no other effect.
  have plain : (∀ o, effect ≠ .enter o) → (∀ o, effect ≠ .exit o) → ∀ o,
      ¬ (thread.about p .monitorEnter o = true ∨ thread.about p .monitorExit o = true) := by
    rintro other other' o (enter | exit)
    · exact other o ((enters o).mpr ((about _ _).mp enter))
    · exact other' o ((exits o).mpr ((about _ _).mp exit))
  have quiet : ∀ {v : Upshot}, v.Spares h thread.status → (∀ o, effect ≠ .enter o) →
      (∀ o, effect ≠ .exit o) → v.Trades p t thread h :=
    fun spares other other' => .spares spares fun o works => (plain other other' o works).elim
  cases effect with
  | enter o =>
    have here := (about _ o).mpr ((enters o).mp rfl)
    cases Frame.Work.performPeeks performed
    dsimp only [Upshot.ofEffect]
    split
    · exact .spares ⟨fun _ => rfl, rfl, .inl rfl⟩ fun _ _ => nofun
    · rename_i monitor allowed
      exact .enters here allowed rfl rfl rfl rfl
    · rename_i owner contended
      exact .waits here contended rfl rfl rfl stack.symm rfl
  | exit o =>
    have here := (about _ o).mpr ((exits o).mp rfl)
    dsimp only [Upshot.ofEffect]
    split
    · exact .spares (Upshot.throwSpares (by rfl) _ none) fun _ _ => Upshot.unwindResult _
    · rename_i monitor allowed
      exact .leaves here allowed rfl rfl rfl rfl
  | raise className message => exact quiet (Upshot.throwSpares (by rfl) _ _) nofun nofun
  | rethrow o => exact quiet (Upshot.unwindSpares (by rfl) o) nofun nofun
  | finish value => exact quiet (Upshot.deliverSpares (by rfl) tag value) nofun nofun
  | create className =>
    exact quiet ⟨Heap.monitorAdd ⟨className, NameMap.empty, .free⟩ rfl, rfl, .inl rfl⟩ nofun nofun
  | readField o field =>
    refine quiet ?_ nofun nofun
    dsimp only [Upshot.ofEffect]
    split <;> exact ⟨fun _ => rfl, rfl, .inl rfl⟩
  | writeField o field v =>
    refine quiet ?_ nofun nofun
    dsimp only [Upshot.ofEffect]
    split
    · exact ⟨fun _ => rfl, rfl, .inl rfl⟩
    · exact ⟨Heap.monitorModify o fun _ => rfl, rfl, .inl rfl⟩
  | next => exact quiet ⟨fun _ => rfl, rfl, .inl rfl⟩ nofun nofun
  | jump target => exact quiet ⟨fun _ => rfl, rfl, .inl rfl⟩ nofun nofun
  | call callee args => exact quiet ⟨fun _ => rfl, rfl, .inl rfl⟩ nofun nofun
  | readStatic field => exact quiet ⟨fun _ => rfl, rfl, .inl rfl⟩ nofun nofun
  | writeStatic field v => exact quiet ⟨fun _ => rfl, rfl, .inl rfl⟩ nofun nofun

theorem GuestThread.wakeBlocked {thread : GuestThread} {freed : Option ObjectId} {o : ObjectId}
    (h : (thread.wake freed).status = .blocked o) : thread.status = .blocked o ∧ freed ≠ some o := by
  unfold wake at h
  split at h
  · exact ⟨h, nofun⟩
  · split at h
    · cases h
    · rename_i other
      refine ⟨h, fun same => other ?_⟩
      cases same
      exact h

namespace Machine

variable {p : Program} {m m' : Machine} {t : ThreadId} {thread : GuestThread}

structure Locked (p : Program) (m : Machine) : Prop where
  sound : ∀ o, (m.heap.monitor o).Sound
  held : ∀ o owner, (m.heap.monitor o).owner = some owner → owner.index < m.threads.size
  waiting : ∀ t thread o, m.thread? t = some thread → thread.status = .blocked o →
    thread.about p .monitorEnter o = true ∧ ∃ owner, (m.heap.monitor o).owner = some owner ∧ owner ≠ t

theorem Locked.alike (locked : m.Locked p) (monitors : ∀ o, m'.heap.monitor o = m.heap.monitor o)
    (size : m.threads.size ≤ m'.threads.size)
    (waits : ∀ t thread o, m'.thread? t = some thread → thread.status = .blocked o →
      ∃ old, m.thread? t = some old ∧ old.status = .blocked o ∧ thread.stack = old.stack) :
    m'.Locked p where
  sound o := monitors o ▸ locked.sound o
  held o owner owned := by
    rw [monitors] at owned
    exact Nat.lt_of_lt_of_le (locked.held o owner owned) size
  waiting t thread o found blocked := by
    obtain ⟨old, there, status, stack⟩ := waits t thread o found blocked
    rw [monitors, GuestThread.aboutStack stack]
    exact locked.waiting t old o there status

theorem Locked.flag (locked : m.Locked p) (t : ThreadId) (flag : Bool) : (m.setFirstStep t flag).Locked p := by
  refine locked.alike (fun o => by rw [flagHeap]) ?_ fun j thread o found blocked => ?_
  · unfold setFirstStep
    rw [modifySize]
  · unfold setFirstStep modifyThread at found
    split at found
    · rename_i old there
      rw [threadSet (threadInside there)] at found
      split at found
      · rename_i here
        cases Option.some.inj found
        exact ⟨old, here ▸ there, blocked, rfl⟩
      · exact ⟨thread, found, blocked, rfl⟩
    · exact ⟨thread, found, blocked, rfl⟩

theorem Locked.clear (locked : m.Locked p) : m.clearFirstSteps.Locked p := by
  refine locked.alike (fun o => rfl) (by simp [clearFirstSteps]) fun j thread o found blocked => ?_
  simp only [clearFirstSteps, thread?, Array.getElem?_map] at found
  obtain ⟨old, there, rfl⟩ := Option.map_eq_some_iff.mp found
  exact ⟨old, there, blocked, rfl⟩

theorem Locked.spawn (locked : m.Locked p) (name : String) (id : MethodId) (method : Method) :
    (m.spawn name id method []).1.Locked p := by
  refine locked.alike (fun o => rfl) (by simp [Machine.spawn]) fun j thread o found blocked => ?_
  rw [Explorer.spawnThread] at found
  split at found
  · cases Option.some.inj found
    cases blocked
  · exact ⟨thread, found, blocked, rfl⟩

theorem Locked.touched (locked : m.Locked p) (touched : Builtin.Touched m m') : m'.Locked p := by
  cases touched with
  | same => exact locked
  | static field v => exact locked.alike (fun o => rfl) (Nat.le_refl _) fun j thread o found blocked =>
      ⟨thread, found, blocked, rfl⟩
  | spawned name id method => exact locked.spawn name id method

theorem installWaits (inside : t.index < m.threads.size) (u : Upshot) {j : ThreadId} {after : GuestThread}
    {o : ObjectId} (there : (u.install t m).thread? j = some after) (blocked : after.status = .blocked o) :
    j = t ∧ u.thread.status = .blocked o ∧ after.stack = u.thread.stack ∨
    j ≠ t ∧ u.freed ≠ some o ∧ ∃ old, m.thread? j = some old ∧ old.status = .blocked o ∧
      after.stack = old.stack := by
  rw [Upshot.installThread inside] at there
  obtain ⟨old, origin, rfl⟩ := Option.map_eq_some_iff.mp there
  obtain ⟨status, kept⟩ := GuestThread.wakeBlocked blocked
  have stack := (GuestThread.wakeStack old u.freed).1
  split at origin
  · rename_i same
    cases Option.some.inj origin
    exact .inl ⟨same.symm, status, stack⟩
  · rename_i other
    exact .inr ⟨fun same => other same.symm, kept, old, origin, status, stack⟩

theorem Locked.store (locked : m.Locked p) (inside : t.index < m.threads.size) {u : Upshot} {o : ObjectId}
    {object : HeapObject} {monitor : Monitor} (stored : m.heap.object? o = some object)
    (heap : u.heap = m.heap.setMonitor o monitor) (awake : u.thread.status = .runnable) (sound : monitor.Sound)
    (owned : ∀ owner, monitor.owner = some owner → owner = t)
    (freed : monitor.owner = none → u.freed = some o) : (u.install t m).Locked p := by
  have after : ∀ other, (u.install t m).heap.monitor other =
      if o = other then monitor else m.heap.monitor other := by
    intro other
    rw [Upshot.installHeap, heap, Heap.monitorSet stored]
  refine ⟨fun other => ?_, fun other owner taken => ?_, fun j thread other there blocked => ?_⟩
  · rw [after]
    split
    · exact sound
    · exact locked.sound other
  · rw [after] at taken
    rw [installSize]
    split at taken
    · rwa [owned owner taken]
    · exact locked.held other owner taken
  · rcases installWaits inside u there blocked with ⟨_, begun, _⟩ | ⟨apart, kept, old, origin, waited, stack⟩
    · cases begun.symm.trans awake
    · obtain ⟨about, owner, taken, another⟩ := locked.waiting j old other origin waited
      refine ⟨by rwa [GuestThread.aboutStack stack], ?_⟩
      rw [after]
      split
      · rename_i here
        -- Had the monitor become free, the thread would have been woken.
        cases owner' : monitor.owner with
        | none => exact absurd ((freed owner').trans (congrArg some here)) kept
        | some holder => exact ⟨holder, rfl, fun same => apart (same.symm.trans (owned holder owner'))⟩
      · exact ⟨owner, taken, another⟩

theorem Locked.install (locked : m.Locked p) (found : m.thread? t = some thread)
    (running : thread.status = .runnable) {u : Upshot} (trades : u.Trades p t thread m.heap) :
    (u.install t m).Locked p := by
  have inside := threadInside found
  cases trades with
  | spares spares idle =>
    refine locked.alike (fun o => ?_) (by rw [installSize]) fun j after o there blocked => ?_
    · rw [Upshot.installHeap]
      exact spares.monitors o
    · rcases installWaits inside u there blocked with ⟨_, status, _⟩ | ⟨_, _, old⟩
      · rcases spares.status with same | same
        · cases status.symm.trans (same.trans running)
        · cases status.symm.trans same
      · exact old
  | @enters o monitor about allowed heap freed status result =>
    obtain ⟨object, stored, _⟩ := Heap.entryParts allowed
    obtain ⟨sound, own⟩ := Heap.enteredSound allowed
    refine locked.store inside stored heap (status.trans running) sound (fun owner owned => ?_) fun free => ?_
    · exact Option.some.inj (owned.symm.trans own)
    · cases free.symm.trans own
  | @leaves o monitor about allowed heap freed status result =>
    obtain ⟨object, stored, _⟩ := Heap.exitParts allowed
    obtain ⟨sound, owned⟩ := Heap.leftSound allowed
    refine locked.store inside stored heap (status.trans running) sound owned fun free => ?_
    rw [freed, free]
    rfl
  | @waits o owner about contended heap freed status stack result =>
    obtain ⟨object, _, parts⟩ := Heap.entryParts contended
    refine ⟨fun other => ?_, fun other owner' taken => ?_, fun j after other there blocked => ?_⟩
    · rw [Upshot.installHeap, heap]
      exact locked.sound other
    · rw [Upshot.installHeap, heap] at taken
      rw [installSize]
      exact locked.held other owner' taken
    · rw [Upshot.installHeap, heap]
      rcases installWaits inside u there blocked with ⟨rfl, begun, same⟩ | ⟨_, _, old, origin, waited, same⟩
      · cases begun.symm.trans status
        refine ⟨by rwa [GuestThread.aboutStack (same.trans stack)], ?_⟩
        rcases parts with ⟨_, entry⟩ | ⟨owner', taken, another, _⟩
        · cases entry
        · exact ⟨owner', taken, another⟩
      · rw [GuestThread.aboutStack same]
        exact locked.waiting j old other origin waited

theorem initialLocked (p : Program) : (State.initial p).Locked p := by
  refine Explorer.initialHolds (Machine.Locked p) ⟨?_, ?_, ?_⟩ (fun name id method locked =>
    locked.spawn name id method) p
  · intro o
    simp [Machine.empty, Heap.monitor, Heap.object?, Heap.empty, Monitor.free, Monitor.Sound]
  · intro o owner taken
    simp [Machine.empty, Heap.monitor, Heap.object?, Heap.empty, Monitor.free] at taken
  · intro t thread o found
    simp [Machine.empty, thread?] at found

structure InVain (m : Machine) (blocked : List ThreadId) : Prop where
  listed : blocked = m.threadsWhere (·.status != .terminated)
  waiting : ∀ t ∈ blocked, ∃ thread o object owner other, m.thread? t = some thread ∧
    thread.status = .blocked o ∧ m.heap.object? o = some object ∧ object.monitor.owner = some owner ∧ owner ≠ t ∧
    m.thread? owner = some other ∧ ((∃ o', other.status = .blocked o') ∨ other.status = .terminated)

theorem whereAlike {kind kind' : GuestThread → Bool}
    (same : ∀ t thread, m.thread? t = some thread → kind thread = kind' thread) :
    m.threadsWhere kind = m.threadsWhere kind' := by
  have kinds : m.threads.toList.map kind = m.threads.toList.map kind' := by
    refine List.map_congr_left fun thread member => ?_
    obtain ⟨i, inside, rfl⟩ := List.mem_iff_getElem.mp member
    exact same ⟨i⟩ _ (Array.getElem?_eq_some_iff.mpr ⟨inside, rfl⟩)
  rw [whereKinds, whereKinds, kinds]

end Machine

namespace Builtin

theorem Responds.violates {call : PeerCall} {symbol : String} {i : Invocation} {m after : Machine} {failure : Failure}
    (responds : Responds call m symbol i after (.ok (.violation failure))) :
    ∃ check predicate, failure = .checkFailed check predicate := by
  cases responds with
  | happens resolved chosen named happens =>
    cases happens with
    | breaks fails => exact ⟨_, _, rfl⟩

theorem touchedMonitors {m m' : Machine} (touched : Touched m m') (o : ObjectId) :
    m'.heap.monitor o = m.heap.monitor o := by
  cases touched <;> rfl

end Builtin

def Finish.idle : Finish → Bool
  | .completed | .violated (.deadlock _) => true
  | _ => false

namespace Explorer

variable {e : Explorer} {fuel : Nat} {past : List Point} {a : Point} {q : Progress} {ending? : Option Ending}
  {op : Op} {t : ThreadId} {o : ObjectId} {s : State}

def completes (e : Explorer) (op : Op) (t : ThreadId) (o : ObjectId) (a : Point) : Bool :=
  a.state.current = t && !decide (e.OutOfSteps a.progress) &&
    ((a.state.thread? t).any fun thread => thread.status == .runnable && thread.about e.program op o) &&
    (Machine.step e.program t a.state.toMachine).2.toOption == some .executed

def acquires (e : Explorer) (t : ThreadId) (o : ObjectId) (a : Point) : Bool :=
  e.completes .monitorEnter t o a

def releases (e : Explorer) (t : ThreadId) (o : ObjectId) (a : Point) : Bool :=
  e.completes .monitorExit t o a

theorem completesIff : e.completes op t o a = true ↔
    a.state.current = t ∧ ¬ e.OutOfSteps a.progress ∧
      (∃ thread, a.state.thread? t = some thread ∧ thread.status = .runnable ∧
        thread.about e.program op o = true) ∧
      (Machine.step e.program t a.state.toMachine).2 = .ok .executed := by
  have reported : ∀ result : Except Fault Step, result.toOption = some .executed ↔ result = .ok .executed := by
    intro result
    cases result <;> simp [Except.toOption]
  simp [completes, reported, Option.any_eq_true, and_assoc]

theorem completesRuns {thread : GuestThread} (found : a.state.thread? a.state.current = some thread)
    (done : e.completes op t o a = true) : thread.status = .runnable ∧ thread.about e.program op o = true := by
  obtain ⟨rfl, _, ⟨thread', found', running, about⟩, _⟩ := completesIff.mp done
  cases Option.some.inj (found.symm.trans found')
  exact ⟨running, about⟩

/- The moves since the monitor of an object was last free, the last one first. -/
def sinceFree (o : ObjectId) : List Point → List Point
  | [] => []
  | a :: past => if (a.state.heap.monitor o).owner.isNone then [a] else a :: sinceFree o past

theorem obeysSpares {thread : GuestThread} {call : NativeCall} {below : List Activation} {method : Method}
    {h : Heap} {reply : Except PeerError Reply} {u : Upshot}
    (obeys : e.Obeys t { thread with firstStep := false } call below method h reply u ending?) :
    u.Spares h thread.status := by
  cases obeys with
  | returned result => exact Upshot.deliverSpares (by rfl) none _
  | defaulted result => exact Upshot.deliverSpares (by rfl) none _
  | threw result => exact Upshot.throwSpares (by rfl) _ _
  | called found => exact ⟨fun _ => rfl, rfl, .inl rfl⟩
  | asked => exact ⟨fun _ => rfl, rfl, .inl rfl⟩
  | violated => exact ⟨fun _ => rfl, rfl, .inl rfl⟩

/- What becomes of the monitors, and which instruction on one of them was run to its end. -/
inductive Operates (e : Explorer) (a : Point) (after : Heap) : Prop where
  | idle (none : ∀ op t o, e.completes op t o a = true → op ≠ .monitorEnter ∧ op ≠ .monitorExit)
      (monitors : ∀ o, after.monitor o = a.state.heap.monitor o) : Operates e a after
  | enters {o : ObjectId} {monitor : Monitor}
      (only : ∀ op t o', e.completes op t o' a = true ↔ op = .monitorEnter ∧ t = a.state.current ∧ o' = o)
      (allowed : a.state.heap.entry? o a.state.current = some (.acquired monitor))
      (heap : after = a.state.heap.setMonitor o monitor) : Operates e a after
  | leaves {o : ObjectId} {monitor : Monitor}
      (only : ∀ op t o', e.completes op t o' a = true ↔ op = .monitorExit ∧ t = a.state.current ∧ o' = o)
      (allowed : a.state.heap.afterExit? o a.state.current = some monitor)
      (heap : after = a.state.heap.setMonitor o monitor) : Operates e a after

section Ran

variable {thread : GuestThread} {u : Upshot} (found : a.state.thread? a.state.current = some thread)
  (running : thread.status = .runnable) (inside : ¬ e.OutOfSteps a.progress)
  (ran : Machine.step e.program a.state.current a.state.toMachine = u.outcome a.state.current a.state.toMachine)
include found running inside ran

theorem ranCompletes : e.completes op t o a = true ↔
    t = a.state.current ∧ thread.about e.program op o = true ∧ u.result = .ok .executed := by
  constructor
  · intro done
    have about := (completesRuns found done).2
    obtain ⟨rfl, _, _, reported⟩ := completesIff.mp done
    exact ⟨rfl, about, (congrArg Prod.snd ran).symm.trans reported⟩
  · rintro ⟨rfl, about, reported⟩
    exact completesIff.mpr ⟨rfl, inside, ⟨thread, found, running, about⟩, (congrArg Prod.snd ran).trans reported⟩

theorem ranOnly (about : thread.about e.program op o = true) (reported : u.result = .ok .executed) (op' : Op)
    (t : ThreadId) (o' : ObjectId) :
    e.completes op' t o' a = true ↔ op' = op ∧ t = a.state.current ∧ o' = o := by
  rw [ranCompletes found running inside ran]
  constructor
  · rintro ⟨rfl, about', _⟩
    obtain ⟨rfl, rfl⟩ := GuestThread.aboutUnique about about'
    exact ⟨rfl, rfl, rfl⟩
  · rintro ⟨rfl, rfl, rfl⟩
    exact ⟨rfl, about, reported⟩

theorem ranOperates (trades : u.Trades e.program a.state.current thread a.state.heap) : e.Operates a u.heap := by
  cases trades with
  | spares spares idle =>
    refine .idle (fun op t o finished => ?_) spares.monitors
    obtain ⟨_, about, reported⟩ := (ranCompletes found running inside ran).mp finished
    refine ⟨fun enter => ?_, fun exit => ?_⟩
    · exact idle o (.inl (enter ▸ about)) reported
    · exact idle o (.inr (exit ▸ about)) reported
  | enters about allowed heap freed status reported =>
    exact .enters (ranOnly found running inside ran about reported) allowed heap
  | leaves about allowed heap freed status reported =>
    exact .leaves (ranOnly found running inside ran about reported) allowed heap
  | waits about contended heap freed status stack reported =>
    refine .idle (fun op t o finished => ?_) fun o => by rw [heap]
    cases reported.symm.trans ((ranCompletes found running inside ran).mp finished).2.2

end Ran

section Move

variable (standard : e.Standard) (h : (e.moveAt a).outcome? = some (q, ending?))
include standard h

theorem moveLocked (locked : a.state.Locked e.program) : q.state.Locked e.program := by
  cases moveDoes standard h with
  | waits found stopped idle same => rwa [same]
  | handsOver found stopped alone state told =>
    rw [state]
    exact locked.flag _ true
  | cut found running out same => rwa [same]
  | pauses found running point same => rwa [same]
  | runs found running inside works ran result state told =>
    rw [state]
    exact locked.install found running (GuestThread.upshotTrades works)
  | @answers thread call below i method m reply u ending? found running inside stack invoked called answer obeys
      state told =>
    have touched := answeredTouches standard answer
    rw [state]
    refine (locked.touched touched).install (Builtin.touchedThread touched found) running
      (.spares (obeysSpares obeys) fun o works => ?_)
    simp [GuestThread.about, stack] at works

theorem moveOperates : e.Operates a q.state.heap := by
  cases moveDoes standard h with
  | waits found stopped idle same =>
    refine .idle (fun op t o done => ?_) fun o => by rw [same]; rfl
    exact absurd (completesRuns found done).1 stopped
  | handsOver found stopped alone state told =>
    refine .idle (fun op t o done => ?_) fun o => ?_
    · exact absurd (completesRuns found done).1 stopped
    · rw [state]
      exact congrArg (·.monitor o) (Machine.flagHeap _ true)
  | cut found running out same =>
    refine .idle (fun op t o done => ?_) fun o => by rw [same]; rfl
    exact absurd out (completesIff.mp done).2.1
  | pauses found running point same =>
    refine .idle (fun op t o done => ?_) fun o => by rw [same]; rfl
    obtain ⟨rfl, _, _, reported⟩ := completesIff.mp done
    cases (congrArg Prod.snd point).symm.trans reported
  | @runs thread u step found running inside works ran result state told =>
    have heap : q.state.heap = u.heap := by
      rw [state]
      exact Upshot.installHeap u _ _
    rw [heap]
    exact ranOperates found running inside ran (GuestThread.upshotTrades works)
  | @answers thread call below i method m reply u ending? found running inside stack invoked called answer obeys
      state told =>
    have touched := answeredTouches standard answer
    refine .idle (fun op t o done => ?_) fun o => ?_
    · have about := (completesRuns found done).2
      simp [GuestThread.about, stack] at about
    · rw [state]
      exact (congrArg (·.monitor o) (Upshot.installHeap u _ m)).trans
        (((obeysSpares obeys).monitors o).trans (Builtin.touchedMonitors touched o))

theorem moveHolds (locked : a.state.Locked e.program) (t : ThreadId) (o : ObjectId) :
    (if e.releases t o a then 1 else 0) + q.state.heap.holds t o =
      (if e.acquires t o a then 1 else 0) + a.state.heap.holds t o := by
  unfold releases acquires
  cases moveOperates standard h with
  | idle none monitors =>
    rw [if_neg fun done => (none _ _ _ done).2 rfl, if_neg fun done => (none _ _ _ done).1 rfl,
      Heap.holdsSame (monitors o)]
  | @enters o' monitor only allowed heap =>
    rw [heap, Heap.holdsEntered (locked.sound o') allowed]
    simp [only, eq_comm, Nat.add_comm]
  | @leaves o' monitor only allowed heap =>
    rw [← Heap.holdsLeft (locked.sound o') allowed t o, heap]
    simp [only, eq_comm, Nat.add_comm]

theorem moveOwned (done : e.acquires t o a = true ∨ e.releases t o a = true) {owner : ThreadId}
    (taken : (a.state.heap.monitor o).owner = some owner) : owner = t := by
  unfold releases acquires at done
  cases moveOperates standard h with
  | idle none monitors =>
    rcases done with entered | left
    · exact absurd rfl (none _ _ _ entered).1
    · exact absurd rfl (none _ _ _ left).2
  | enters only allowed heap =>
    have here := done.elim (fun entered => ((only _ _ _).mp entered).2) fun left => ((only _ _ _).mp left).2
    obtain ⟨rfl, rfl⟩ := here
    obtain ⟨_, _, ⟨free | own, _⟩ | ⟨_, _, _, entry⟩⟩ := Heap.entryParts allowed
    · cases free.symm.trans taken
    · exact Option.some.inj (taken.symm.trans own)
    · cases entry
  | leaves only allowed heap =>
    have here := done.elim (fun entered => ((only _ _ _).mp entered).2) fun left => ((only _ _ _).mp left).2
    obtain ⟨rfl, rfl⟩ := here
    obtain ⟨_, _, own, _⟩ := Heap.exitParts allowed
    exact Option.some.inj (taken.symm.trans own)

end Move

structure Guarded (e : Explorer) (past : List Point) (s : State) : Prop where
  locked : s.Locked e.program
  counted : ∀ t o, (sinceFree o past).countP (e.releases t o) + s.heap.holds t o =
    (sinceFree o past).countP (e.acquires t o)
  balanced : ∀ t o, past.countP (e.releases t o) + s.heap.holds t o = past.countP (e.acquires t o)
  exclusive : ∀ b ∈ past, ∀ t o, e.acquires t o b = true ∨ e.releases t o b = true →
    ∀ owner, (b.state.heap.monitor o).owner = some owner → owner = t

theorem Guarded.moves (standard : e.Standard) (guarded : e.Guarded past a.state)
    (h : (e.moveAt a).outcome? = some (q, ending?)) : e.Guarded (a :: past) q.state where
  locked := moveLocked standard h guarded.locked
  counted := by
    intro t o
    have step := moveHolds standard h guarded.locked t o
    have before := guarded.counted t o
    unfold sinceFree
    split
    · rename_i free
      have none : a.state.heap.holds t o = 0 := by
        rw [Heap.holds, Option.isNone_iff_eq_none.mp free, if_neg nofun]
      simp only [List.countP_singleton]
      omega
    · simp only [List.countP_cons]
      omega
  balanced := by
    intro t o
    have step := moveHolds standard h guarded.locked t o
    have before := guarded.balanced t o
    simp only [List.countP_cons]
    omega
  exclusive := by
    intro b member t o done owner taken
    rcases List.mem_cons.mp member with rfl | old
    · exact moveOwned standard h done taken
    · exact guarded.exclusive b old t o done owner taken

def Inside (e : Explorer) (past : List Point) (t : ThreadId) (o : ObjectId) : Prop :=
  past.countP (e.releases t o) < past.countP (e.acquires t o)

theorem Guarded.inside (guarded : e.Guarded past s) : e.Inside past t o ↔ (s.heap.monitor o).owner = some t := by
  have balanced := guarded.balanced t o
  unfold Inside
  unfold Heap.holds at balanced
  split at balanced
  · rename_i own
    have taken := (guarded.locked.sound o).taken own
    exact ⟨fun _ => own, fun _ => by omega⟩
  · rename_i other
    exact ⟨fun more => by omega, fun own => absurd own other⟩

theorem chronicledGuarded (standard : e.Standard) (chronicled : e.Chronicled past s) : e.Guarded past s := by
  refine Chronicled.holds (e.Guarded) ?_ ?_ ?_ chronicled
  · have none : ∀ t o, (State.initial e.program).heap.holds t o = 0 := by
      intro t o
      refine initialHolds (fun m => m.heap.holds t o = 0) ?_ (fun _ _ _ before => before) e.program
      simp [Machine.empty, Heap.holds, Heap.monitor, Heap.object?, Heap.empty, Monitor.free]
    exact ⟨Machine.initialLocked e.program, fun t o => by simp [sinceFree, none], fun t o => by simp [none],
      fun a member => absurd member List.not_mem_nil⟩
  · exact fun past now q ending? _ guarded moved => guarded.moves standard moved
  · intro past path s s' guarded goesOn
    obtain ⟨current, thread, found, rfl⟩ := appliedState goesOn
    have heap : (s.clearFirstSteps.setFirstStep current true).heap = s.heap := Machine.flagHeap current true
    refine ⟨(guarded.locked.clear).flag current true, fun t o => ?_, fun t o => ?_, guarded.exclusive⟩
    · dsimp only
      rw [heap]
      exact guarded.counted t o
    · dsimp only
      rw [heap]
      exact guarded.balanced t o

section Finish

variable {p : Progress}

theorem idleCompleted (idle : e.reschedule p = .stop p (.ok (.finished .completed)))
    (strict : e.config.checkDeadlock = true) : p.state.allTerminated = true := by
  have comes := reschedules e p
  rw [idle] at comes
  cases comes with
  | completed none free =>
    refine Array.all_eq_true.mpr fun i inside => ?_
    have found : p.state.thread? ⟨i⟩ = some p.state.threads[i] := Array.getElem?_eq_some_iff.mpr ⟨inside, rfl⟩
    have awake : (⟨i⟩ : ThreadId) ∉ p.state.runnable := none ▸ List.not_mem_nil
    rw [Machine.runnable, Machine.whereMember] at awake
    cases status : p.state.threads[i].status with
    | runnable => exact absurd ⟨_, found, by simp [status]⟩ awake
    | blocked o => exact absurd status (free strict ⟨i⟩ _ o found)
    | terminated => rfl

theorem idleInVain {blocked : List ThreadId}
    (idle : e.reschedule p = .stop p (.ok (.finished (.violated (.deadlock blocked)))))
    (locked : p.state.Locked e.program) : p.state.InVain blocked := by
  have comes := reschedules e p
  rw [idle] at comes
  cases comes with
  | deadlocked none blocked =>
    have asleep : ∀ t thread, p.state.thread? t = some thread → thread.status ≠ .runnable := by
      intro t thread found running
      have listed : t ∈ p.state.runnable := Machine.whereMember.mpr ⟨thread, found, by simp [running]⟩
      rw [none] at listed
      cases listed
    refine ⟨Machine.whereAlike fun t thread found => Bool.eq_iff_iff.mpr ?_, fun t member => ?_⟩
    · rw [blocked]
      cases status : thread.status with
      | runnable => exact absurd status (asleep t thread found)
      | blocked o => simp
      | terminated => simp
    · obtain ⟨thread, found, waits⟩ := Machine.whereMember.mp member
      obtain ⟨o, status⟩ := (blocked thread).mp waits
      obtain ⟨_, owner, taken, another⟩ := locked.waiting t thread o found status
      obtain ⟨object, there, owned⟩ := Heap.monitorOwned taken
      have inside := locked.held o owner taken
      refine ⟨thread, o, object, owner, p.state.threads[owner.index], found, status, there, owned, another,
        Array.getElem?_eq_getElem inside, ?_⟩
      cases other : p.state.threads[owner.index].status with
      | runnable => exact absurd other (asleep owner _ (Array.getElem?_eq_getElem inside))
      | blocked o' => exact .inl ⟨o', rfl⟩
      | terminated => exact .inr rfl

theorem judgedIdle {raw : Ending} {finish : Finish} (idle : finish.idle = true)
    (h : e.judge s raw = .finished finish) : raw = .finished finish := by
  unfold judge at h
  split at h
  · exact h
  · split at h
    · rename_i failure broken
      obtain ⟨property, _, rfl⟩ := Option.map_eq_some_iff.mp broken
      cases h
      cases idle
    · exact h

theorem reachedIdle (standard : e.Standard) {path : Path} {finish : Finish} (idle : finish.idle = true)
    (reached : e.Reaches fuel path s (.finished finish)) :
    ∃ p, e.Passes path p ∧ p.state = s ∧ e.reschedule p = .stop p (.ok (.finished finish)) := by
  obtain ⟨memory, p, q, raw, rfl, passes, stopped, rfl, judged⟩ := reached.lastMove
  cases judgedIdle idle judged
  have ends : (e.move memory p).outcome? = some (q, some (.finished finish)) := by rw [stopped]; rfl
  generalize told : some (Ending.finished finish) = ending? at ends
  have uncaught : ∀ thrown : Thrown, some (Ending.finished finish) ≠ thrown.ending? := by
    intro thrown same
    unfold Thrown.ending? at same
    split at same
    · cases same
    · cases same
      cases idle
  cases moveDoes standard ends with
  | waits found stopped idle same =>
    cases told
    exact ⟨p, passes, by rw [same], idle⟩
  | handsOver found stopped alone state told' => cases told
  | cut found running out same =>
    cases told
    cases idle
  | pauses found running point same => cases told
  | @runs thread u step found running inside works ran result state told' =>
    cases step with
    | exception thrown => exact absurd told (uncaught thrown)
    | _ => cases told
  | @answers thread call below i method m reply u ending? found running inside stack invoked called answer obeys
      state told' =>
    cases obeys with
    | returned result => cases told
    | defaulted result => cases told
    | called found => cases told
    | threw result => exact absurd told (uncaught _)
    | asked => cases told
    | violated =>
      cases told
      obtain ⟨check, predicate, rfl⟩ := (calledResponds standard (congrArg Prod.snd answer)).violates
      cases idle

end Finish

theorem monitorsExcludeAndWake {model : Model} {config : Config} (accepted : ofModel model config = .ok e)
    (properties : List Property) :
    (∀ s, (e.watching properties).Occurs s ↔ ∃ past, (e.watching properties).Chronicled past s) ∧
    (∀ past s, (e.watching properties).Chronicled past s →
      (∀ o object, s.heap.object? o = some object →
        (object.monitor.owner.isSome = true ↔ 0 < object.monitor.count) ∧
        ∀ t, (sinceFree o past).countP ((e.watching properties).releases t o) +
            (if object.monitor.owner = some t then object.monitor.count else 0) =
          (sinceFree o past).countP ((e.watching properties).acquires t o)) ∧
      (∀ t o, past.countP ((e.watching properties).releases t o) + s.heap.holds t o =
        past.countP ((e.watching properties).acquires t o)) ∧
      (∀ t t' o, (e.watching properties).Inside past t o → (e.watching properties).Inside past t' o → t = t') ∧
      (∀ a ∈ past, ∀ t o, (e.watching properties).acquires t o a = true ∨
        (e.watching properties).releases t o a = true → ∀ object, a.state.heap.object? o = some object →
        ∀ owner, object.monitor.owner = some owner → owner = t) ∧
      ∀ t thread o, s.thread? t = some thread → thread.status = .blocked o →
        thread.about e.program .monitorEnter o = true ∧ ∃ object owner,
          s.heap.object? o = some object ∧ object.monitor.owner = some owner ∧ owner ≠ t) ∧
    (config.checkDeadlock = true → ∀ fuel s, (e.watching properties).Reports fuel .completed s →
      s.allTerminated = true) ∧
    ∀ fuel s blocked, (e.watching properties).Reports fuel (.violated (.deadlock blocked)) s →
      s.InVain blocked := by
  have source := modelSource accepted
  have standard : (e.watching properties).Standard :=
    ⟨source.standard.peers, source.standard.guests, source.standard.tree⟩
  refine ⟨fun s => occursChronicled, fun past s chronicled => ?_, fun strict fuel s reports => ?_,
    fun fuel s blocked reports => ?_⟩
  · have guarded := chronicledGuarded standard chronicled
    refine ⟨fun o object found => ?_, guarded.balanced, fun t t' o entered entered' => ?_, ?_,
      fun t thread o found status => ?_⟩
    · rw [← Heap.monitorFound found]
      exact ⟨guarded.locked.sound o, fun t => guarded.counted t o⟩
    · exact Option.some.inj ((guarded.inside.mp entered).symm.trans (guarded.inside.mp entered'))
    · intro a member t o done object found owner owned
      rw [← Heap.monitorFound found] at owned
      exact guarded.exclusive a member t o done owner owned
    · obtain ⟨about, owner, taken, another⟩ := guarded.locked.waiting t thread o found status
      obtain ⟨object, there, owned⟩ := Heap.monitorOwned taken
      exact ⟨about, object, owner, there, owned, another⟩
  · obtain ⟨path, reached⟩ := reportsReached standard reports
    obtain ⟨p, passes, rfl, idle⟩ := reachedIdle standard rfl reached
    refine idleCompleted idle ?_
    rw [← strict, ← source.config]
    rfl
  · obtain ⟨path, reached⟩ := reportsReached standard reports
    obtain ⟨p, passes, rfl, idle⟩ := reachedIdle standard rfl reached
    obtain ⟨past, chronicled⟩ := occursChronicled.mp (.passing passes)
    exact idleInVain idle (chronicledGuarded standard chronicled).locked

def crossing : Model :=
  ((Model.start "crossing" "Locks.main()V").withMethod "Locks.main()V" 0
    [.new "Left", .putStatic "Locks.left", .new "Right", .putStatic "Locks.right",
      .pushString "Locks.other()V", .invokeStatic Builtin.threadStartSymbol,
      .getStatic "Locks.left", .monitorEnter, .getStatic "Locks.right", .monitorEnter,
      .getStatic "Locks.right", .monitorExit, .getStatic "Locks.left", .monitorExit, .ret none]).withMethod
    "Locks.other()V" 0
    [.getStatic "Locks.right", .monitorEnter, .getStatic "Locks.left", .monitorEnter, .ret none]

theorem crossingDeadlocks :
    ∃ e m r m' r', ofModel crossing Config.default = .ok e ∧
      (e.watching []).replay 40 [0, 0, 0, 0, 1, 1, 0] = some (m, .ok r) ∧
      r.stop = .finished (.violated (.deadlock [⟨0⟩, ⟨1⟩])) ∧ r.state.InVain [⟨0⟩, ⟨1⟩] ∧
      (e.watching []).replay 40 [0, 0, 0, 0, 0, 0, 0, 0, 0] = some (m', .ok r') ∧
      r'.stop = .finished .completed ∧ r'.state.allTerminated = true := by
  obtain ⟨e, m, r, accepted, followed, stop⟩ := replayRun crossing Config.default (·.watching []) 40
    [0, 0, 0, 0, 1, 1, 0] (fun _ _ r => r.stop = .finished (.violated (.deadlock [⟨0⟩, ⟨1⟩])))
    (by decide +kernel)
  obtain ⟨e', m', r', accepted', followed', stop'⟩ := replayRun crossing Config.default (·.watching []) 40
    [0, 0, 0, 0, 0, 0, 0, 0, 0] (fun _ _ r => r.stop = .finished .completed) (by decide +kernel)
  cases Except.ok.inj (accepted.symm.trans accepted')
  have stop := of_decide_eq_true stop
  have stop' := of_decide_eq_true stop'
  obtain ⟨_, _, completed, deadlocked⟩ := monitorsExcludeAndWake accepted []
  exact ⟨e, m, r, m', r', accepted, followed, stop, deadlocked _ _ _ (.replayed followed stop), followed', stop',
    completed rfl _ _ (.replayed followed' stop')⟩

end Explorer

end BytecodeChecker
