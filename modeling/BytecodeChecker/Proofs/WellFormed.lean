import Mathlib.Data.List.Chain
import BytecodeChecker.Proofs.Checked
import BytecodeChecker.Proofs.Commuting
import BytecodeChecker.Proofs.Operands
import BytecodeChecker.Transition

/-! Machines that nothing but an operand can stop. Control is inside the code, the activations of a
thread stand on each other as calls left them, and all references lead to objects. A step keeps this. -/
namespace BytecodeChecker

def Frame.Placed (p : Program) (f : Frame) : Prop :=
  ∃ method, p.method? f.method = some method ∧ f.pc < method.code.size ∧
    method.maxLocals.toNat ≤ f.locals.size

def Phase.Inside (size : Nat) : Phase → Prop
  | .directCallReturned _ value => ∀ v ∈ value, v.Inside size
  | _ => True

def Activation.WellFormed (p : Program) (size : Nat) : Activation → Prop
  | .bytecode f _ => f.Placed p ∧ f.Inside size
  | .native call => (∃ method, p.method? call.method = some method) ∧
      (∀ v ∈ call.args, v.Inside size) ∧ call.phase.Inside size

def Activation.tag? : Activation → Option String
  | .bytecode _ tag => tag
  | .native _ => none

/- How an activation stands on the one below: it was called by the instruction there, or it runs on
behalf of the native call there. -/
def Program.StandsOn (p : Program) (upper : Activation) : Activation → Prop
  | .bytecode f _ => p.op? f.method f.pc = some (.invokeStatic upper.method) ∧ upper.tag? = none
  | .native call => ∃ f tag, upper = .bytecode f (some tag) ∧ call.phase = .awaitingDirectCall tag

structure Program.Stacked (p : Program) (size : Nat) (stack : List Activation) : Prop where
  activations : ∀ a ∈ stack, a.WellFormed p size
  standing : stack.IsChain p.StandsOn

structure GuestThread.WellFormed (p : Program) (size : Nat) (thread : GuestThread) : Prop where
  stack : p.Stacked size thread.stack
  ended : thread.stack = [] ↔ thread.status = .terminated
  top : ∀ call below tag, thread.stack = .native call :: below → call.phase ≠ .awaitingDirectCall tag

structure Heap.WellFormed (h : Heap) : Prop where
  statics : ∀ name v, h.statics.get? name = some v → v.Inside h.size
  fields : ∀ o object name v, h.object? o = some object → object.fields.get? name = some v →
    v.Inside h.size

structure Machine.WellFormed (p : Program) (m : Machine) : Prop where
  heap : m.heap.WellFormed
  threads : ∀ t thread, m.thread? t = some thread → thread.WellFormed p m.heap.size

def GuestThread.Ready (thread : GuestThread) : Prop :=
  ∀ call below, thread.stack = .native call :: below → call.phase = .awaitingChoice →
    thread.firstStep = true

section Mono

variable {p : Program} {size more : Nat} (le : size ≤ more)
include le

theorem Activation.WellFormed.mono {a : Activation} (h : a.WellFormed p size) : a.WellFormed p more := by
  cases a with
  | bytecode f tag => exact ⟨h.1, h.2.mono le⟩
  | native call =>
    obtain ⟨method, args, phase⟩ := h
    refine ⟨method, fun v member => (args v member).mono le, ?_⟩
    cases same : call.phase with
    | directCallReturned tag value =>
      rw [same] at phase
      exact fun v member => (phase v member).mono le
    | _ => trivial

theorem Program.Stacked.mono {stack : List Activation} (h : p.Stacked size stack) : p.Stacked more stack :=
  ⟨fun a member => (h.activations a member).mono le, h.standing⟩

theorem GuestThread.WellFormed.mono {thread : GuestThread} (h : thread.WellFormed p size) :
    thread.WellFormed p more :=
  ⟨h.stack.mono le, h.ended, h.top⟩

end Mono

namespace Heap

variable {h : Heap}

theorem allocateSize (h : Heap) (className : String) : (h.allocate className).1.size = h.size + 1 := by
  simp [allocate, size]

theorem WellFormed.allocate (wf : h.WellFormed) (className : String) :
    (h.allocate className).1.WellFormed := by
  have le : h.size ≤ (h.allocate className).1.size := by simp [allocateSize]
  refine ⟨fun name v found => (wf.statics name v found).mono le, fun o object name v found field => ?_⟩
  simp only [Heap.allocate, object?, Array.getElem?_push] at found
  split at found
  · cases Option.some.inj found
    cases field
  · exact (wf.fields o object name v found field).mono le

theorem WellFormed.modify (wf : h.WellFormed) (o : ObjectId) {change : HeapObject → HeapObject}
    (keeps : ∀ object name v, (∀ v, object.fields.get? name = some v → v.Inside h.size) →
      (change object).fields.get? name = some v → v.Inside h.size) :
    (h.modifyObject o change).WellFormed := by
  have size : (h.modifyObject o change).size = h.size := modifySize o change
  refine ⟨by rw [size]; exact wf.statics, fun other object name v found field => ?_⟩
  rw [size]
  simp only [modifyObject, object?, Array.getElem?_modify] at found
  split at found
  · obtain ⟨old, there, rfl⟩ := Option.map_eq_some_iff.mp found
    exact keeps old name v (fun w same => wf.fields other old name w there same) field
  · exact wf.fields other object name v found field

theorem WellFormed.setField (wf : h.WellFormed) (o : ObjectId) (name : String) {v : Value}
    (inside : v.Inside h.size) : (h.setField o name v).WellFormed := by
  refine wf.modify o fun object other w old found => ?_
  rw [NameMap.getInsert] at found
  split at found
  · cases Option.some.inj found
    exact inside
  · exact old w found

theorem WellFormed.setMonitor (wf : h.WellFormed) (o : ObjectId) (monitor : Monitor) :
    (h.setMonitor o monitor).WellFormed :=
  wf.modify o fun _ _ v old found => old v found

theorem WellFormed.setStatic (wf : h.WellFormed) (name : String) {v : Value} (inside : v.Inside h.size) :
    (h.setStatic name v).WellFormed := by
  refine ⟨fun other w found => ?_, wf.fields⟩
  rw [Heap.setStatic, NameMap.getInsert] at found
  split at found
  · cases Option.some.inj found
    exact inside
  · exact wf.statics other w found

theorem WellFormed.exception (wf : h.WellFormed) (className : String) (message : Option String) :
    (Machine.newException h className message).1.WellFormed ∧
      (Machine.newException h className message).1.size = h.size + 1 ∧
      (Machine.newException h className message).2.index = h.size := by
  cases message with
  | none => exact ⟨wf.allocate className, allocateSize h className, rfl⟩
  | some text =>
    exact ⟨(wf.allocate className).setField _ _ (Value.plainInside rfl _),
      (modifySize _ _).trans (allocateSize h className), rfl⟩

theorem objectThere {o : ObjectId} (inside : o.index < h.size) : ∃ object, h.object? o = some object :=
  ⟨_, Array.getElem?_eq_getElem inside⟩

end Heap

namespace Program

variable {p : Program} {size : Nat} {stack below : List Activation} {upper : Activation}

theorem Stacked.tail (h : p.Stacked size (upper :: below)) : p.Stacked size below :=
  ⟨(List.forall_mem_cons.mp h.activations).2, h.standing.tail⟩

theorem StandsOn.same {upper' lower : Activation} (h : p.StandsOn upper lower)
    (method : upper'.method = upper.method) (tag : upper'.tag? = upper.tag?) : p.StandsOn upper' lower := by
  cases lower with
  | bytecode f callerTag =>
    obtain ⟨called, untagged⟩ := h
    exact ⟨by rw [method]; exact called, tag.trans untagged⟩
  | native call =>
    obtain ⟨f, tag', rfl, phase⟩ := h
    cases upper' with
    | bytecode f' tagged => exact ⟨f', tag', by rw [show tagged = some tag' from tag], phase⟩
    | native call' => cases tag

theorem Stacked.retop (h : p.Stacked size (upper :: below)) (upper' : Activation)
    (method : upper'.method = upper.method) (tag : upper'.tag? = upper.tag?)
    (wf : upper'.WellFormed p size) : p.Stacked size (upper' :: below) := by
  refine ⟨List.forall_mem_cons.mpr ⟨wf, h.tail.activations⟩, ?_⟩
  obtain ⟨head, rest⟩ := List.isChain_cons.mp h.standing
  exact List.isChain_cons.mpr ⟨fun lower first => (head lower first).same method tag, rest⟩

theorem Stacked.push (h : p.Stacked size stack) (upper : Activation) (wf : upper.WellFormed p size)
    (stands : ∀ lower ∈ stack.head?, p.StandsOn upper lower) : p.Stacked size (upper :: stack) :=
  ⟨List.forall_mem_cons.mpr ⟨wf, h.activations⟩, List.isChain_cons.mpr ⟨stands, h.standing⟩⟩

theorem Stacked.kept {frame after : Frame} {tag : Option String}
    (h : p.Stacked size (.bytecode frame tag :: below)) (kept : frame.Kept size after) :
    p.Stacked size (.bytecode after tag :: below) := by
  obtain ⟨method, here, inside, room⟩ := (List.forall_mem_cons.mp h.activations).1.1
  refine h.retop (.bytecode after tag) kept.method rfl ⟨⟨method, ?_, ?_, ?_⟩, kept.values⟩
  · rw [kept.method]
    exact here
  · rw [kept.pc]
    exact inside
  · rw [kept.locals]
    exact room

theorem placedAt {f g : Frame} (placed : f.Placed p) (method : g.method = f.method)
    (locals : g.locals.size = f.locals.size)
    (pc : ∀ method, p.method? f.method = some method → g.pc < method.code.size) : g.Placed p := by
  obtain ⟨found, here, _, room⟩ := placed
  exact ⟨found, by rw [method]; exact here, pc found here, by rw [locals]; exact room⟩

theorem Interprets.placed (checked : p.Checked) {id : MethodId} {method : Method}
    (found : p.method? id = some method) (interpreted : method.native = false) (args : List Value) :
    (Frame.start id method args).Placed p :=
  ⟨method, found, (checked.methods found).starts interpreted, Nat.le_max_right args.length method.maxLocals.toNat⟩

section Checked

variable (checked : p.Checked)
include checked

theorem nextPlaced {id : MethodId} {pc : Nat} {op : Op} (fetched : p.op? id pc = some op)
    (falls : op.fallsThrough = true) {method : Method} (found : p.method? id = some method) :
    pc + 1 < method.code.size := by
  obtain ⟨own, here, at_⟩ := Option.bind_eq_some_iff.mp fetched
  cases Option.some.inj (here.symm.trans found)
  exact (checked.methods here).follows at_ falls

theorem targetPlaced {id : MethodId} {pc target : Nat} {op : Op} (fetched : p.op? id pc = some op)
    (jumps : op.branchTarget? = some target) {method : Method} (found : p.method? id = some method) :
    target < method.code.size := by
  obtain ⟨own, here, at_⟩ := Option.bind_eq_some_iff.mp fetched
  cases Option.some.inj (here.symm.trans found)
  exact (checked.methods here).targets at_ jumps

theorem handlerPlaced {f : Frame} {className : String} {target : Nat}
    (handled : p.handler? f className = some target) {method : Method}
    (found : p.method? f.method = some method) : target < method.code.size := by
  obtain ⟨own, here, picked⟩ := Option.bind_eq_some_iff.mp handled
  cases Option.some.inj (here.symm.trans found)
  obtain ⟨h, first, rfl⟩ := Option.map_eq_some_iff.mp picked
  exact (checked.methods here).handlers h (List.mem_of_find?_eq_some first)

theorem activationWellFormed {callee : MethodId} {method : Method} {args : List Value}
    (found : p.method? callee = some method) (inside : ∀ v ∈ args, v.Inside size) :
    (p.activation callee args).WellFormed p size ∧ (p.activation callee args).method = callee ∧
      (p.activation callee args).tag? = none ∧
      ∀ call, p.activation callee args = .native call → call.phase = .entry := by
  unfold activation
  rw [found]
  dsimp only
  split
  · refine ⟨⟨⟨method, found⟩, inside, trivial⟩, rfl, rfl, fun call same => ?_⟩
    cases same
    rfl
  · rename_i interpreted
    exact ⟨⟨Interprets.placed checked found (by simpa using interpreted) args,
      Frame.startInside callee method inside⟩, rfl, rfl, nofun⟩

/- The handling frame is one of the stack, so what it stands on is as before. -/
theorem unwoundStacked {o : ObjectId} {className : String} {rest : List Activation}
    (h : p.Stacked size stack) (there : o.index < size)
    (found : Machine.unwound? p o className stack = some rest) :
    p.Stacked size rest ∧ ∃ f tag below, rest = .bytecode f tag :: below := by
  induction stack with
  | nil => cases found
  | cons top below ih =>
    cases top with
    | native call => exact ih h.tail found
    | bytecode f tag =>
      simp only [Machine.unwound?] at found
      split at found
      · rename_i target handled
        cases Option.some.inj found
        obtain ⟨placed, inside⟩ := (List.forall_mem_cons.mp h.activations).1
        refine ⟨h.retop _ rfl rfl ⟨?_, inside.locals, fun v member => ?_⟩, _, _, _, rfl⟩
        · exact placedAt placed rfl rfl fun _ found => handlerPlaced checked handled found
        · rintro o' rfl
          cases List.mem_singleton.mp member
          exact there
      · exact ih h.tail found

end Checked

end Program

structure Upshot.Sound (p : Program) (size : Nat) (u : Upshot) : Prop where
  grows : size ≤ u.heap.size
  heap : u.heap.WellFormed
  thread : u.thread.WellFormed p u.heap.size
  ready : u.thread.Ready
  result : ∃ step, u.result = .ok step

namespace GuestThread

variable {p : Program} {size : Nat}

theorem frameWellFormed (thread : GuestThread) {f : Frame} {tag : Option String}
    {below : List Activation} (top : thread.stack = .bytecode f tag :: below)
    (stack : p.Stacked size thread.stack) (alive : thread.status ≠ .terminated) :
    thread.WellFormed p size ∧ thread.Ready := by
  refine ⟨⟨stack, ⟨fun empty => ?_, fun ended => absurd ended alive⟩, fun call rest tag' same => ?_⟩,
    fun call rest same => ?_⟩
  · rw [top] at empty
    cases empty
  · rw [top] at same
    cases same
  · rw [top] at same
    cases same

theorem WellFormed.alive {thread : GuestThread} (wf : thread.WellFormed p size) {top : Activation}
    {below : List Activation} (stack : thread.stack = top :: below) : thread.status ≠ .terminated := by
  intro ended
  have empty := wf.ended.mpr ended
  rw [stack] at empty
  cases empty

end GuestThread

namespace Upshot

variable {p : Program} (checked : p.Checked) {t : ThreadId} {h : Heap} (heap : h.WellFormed)
  (thread : GuestThread) (alive : thread.status ≠ .terminated)
include checked heap alive

theorem unwindSound (stack : p.Stacked h.size thread.stack) {o : ObjectId} (there : o.index < h.size) :
    (ofUnwind p t o thread h).Sound p h.size := by
  obtain ⟨object, found⟩ := Heap.objectThere there
  unfold ofUnwind
  rw [found]
  dsimp only
  split
  · rename_i rest unwound
    obtain ⟨stacked, f, tag, below, rfl⟩ := Program.unwoundStacked checked stack there unwound
    obtain ⟨wf, ready⟩ :=
      GuestThread.frameWellFormed { thread with stack := .bytecode f tag :: below } rfl stacked alive
    exact ⟨Nat.le_refl _, heap, wf, ready, _, rfl⟩
  · exact ⟨Nat.le_refl _, heap, ⟨⟨nofun, .nil⟩, ⟨fun _ => rfl, fun _ => rfl⟩, nofun⟩, nofun, _, rfl⟩

theorem throwSound (stack : p.Stacked h.size thread.stack) (className : String)
    (message : Option String) : (ofThrow p t className message thread h).Sound p h.size := by
  obtain ⟨heap', size, index⟩ := heap.exception className message
  have le : h.size ≤ (Machine.newException h className message).1.size := by omega
  have there : (Machine.newException h className message).2.index <
      (Machine.newException h className message).1.size := by omega
  have sound := unwindSound checked heap' thread alive (t := t) (stack.mono le) there
  exact ⟨Nat.le_trans le sound.grows, sound.heap, sound.thread, sound.ready, sound.result⟩

theorem deliverSound {upper : Activation} (stack : p.Stacked h.size (upper :: thread.stack))
    {value : Option Value} (inside : ∀ v ∈ value, v.Inside h.size) :
    (ofDeliver thread upper.tag? value h).Sound p h.size := by
  obtain ⟨name, status, levels, flag⟩ := thread
  have standing := (List.isChain_cons.mp stack.standing).1
  have rest := stack.tail
  cases levels with
  | nil => exact ⟨Nat.le_refl _, heap, ⟨⟨nofun, .nil⟩, ⟨fun _ => rfl, fun _ => rfl⟩, nofun⟩, nofun, _, rfl⟩
  | cons lower below =>
    have wf := (List.forall_mem_cons.mp rest.activations).1
    cases lower with
    | native call =>
      obtain ⟨f, tag, rfl, _⟩ := standing _ rfl
      obtain ⟨method, args, _⟩ := wf
      have stacked := rest.retop (.native { call with phase := .directCallReturned tag value })
        rfl rfl ⟨method, args, inside⟩
      refine ⟨Nat.le_refl _, heap, ⟨stacked, ⟨nofun, fun ended => absurd ended alive⟩, ?_⟩, ?_, _, rfl⟩
      · intro call' below' tag' same
        cases same
        exact nofun
      · intro call' below' same
        cases same
        exact nofun
    | bytecode f callerTag =>
      obtain ⟨called, _⟩ := standing _ rfl
      obtain ⟨placed, values⟩ := wf
      have next : (f.pushAll value).advance.Placed p := by
        cases value <;> exact Program.placedAt placed rfl rfl fun _ found =>
          Program.nextPlaced checked called rfl found
      have stacked := rest.retop (.bytecode (f.pushAll value).advance callerTag)
        (by cases value <;> rfl) rfl ⟨next, (values.pushAll inside).locals, (values.pushAll inside).operands⟩
      obtain ⟨wf', ready⟩ := GuestThread.frameWellFormed ⟨name, status,
        .bytecode (f.pushAll value).advance callerTag :: below, flag⟩ rfl stacked alive
      exact ⟨Nat.le_refl _, heap, wf', ready, _, rfl⟩

section Effects

variable {frame after : Frame} {tag : Option String} {below : List Activation} {op : Op}
  (stack : p.Stacked h.size (.bytecode frame tag :: below)) (fetched : p.op? frame.method frame.pc = some op)
include stack fetched

omit heap in
theorem advanceSound (falls : op.fallsThrough = true) {g : Frame} {k : Heap} (le : h.size ≤ k.size)
    (wf : k.WellFormed) (kept : frame.Kept k.size g) (freed : Option ObjectId) :
    Sound p h.size ⟨{ thread with stack := .bytecode g.advance tag :: below }, k, freed, .ok .executed⟩ := by
  have placed := (List.forall_mem_cons.mp stack.activations).1.1
  have next : g.advance.Placed p := by
    refine Program.placedAt placed kept.method kept.locals fun method found => ?_
    change g.pc + 1 < method.code.size
    rw [kept.pc]
    exact Program.nextPlaced checked fetched falls found
  have stacked := (stack.mono le).retop (.bytecode g.advance tag) kept.method rfl ⟨next, kept.values.moved _⟩
  obtain ⟨wf', ready⟩ := GuestThread.frameWellFormed
    { thread with stack := .bytecode g.advance tag :: below } rfl stacked alive
  exact ⟨le, wf, wf', ready, _, rfl⟩

variable (kept : frame.Kept h.size after)
include kept

theorem jumpSound {target : Nat} (jumps : op.branchTarget? = some target) :
    (ofEffect p t thread after tag below h (.jump target)).Sound p h.size := by
  have placed := (List.forall_mem_cons.mp stack.activations).1.1
  have there : Frame.Placed p { after with pc := target } :=
    Program.placedAt placed kept.method kept.locals fun method found =>
      Program.targetPlaced checked fetched jumps found
  have stacked := stack.retop (.bytecode { after with pc := target } tag) kept.method rfl
    ⟨there, kept.values.moved target⟩
  obtain ⟨wf, ready⟩ := GuestThread.frameWellFormed
    { thread with stack := .bytecode { after with pc := target } tag :: below } rfl stacked alive
  exact ⟨Nat.le_refl _, heap, wf, ready, _, rfl⟩

theorem callSound {callee : MethodId} {args : List Value} (calls : op = .invokeStatic callee)
    (inside : ∀ v ∈ args, v.Inside h.size) :
    (ofEffect p t thread after tag below h (.call callee args)).Sound p h.size := by
  subst calls
  obtain ⟨method, found⟩ := checked.calls fetched
  obtain ⟨wf, called, untagged, entered⟩ := Program.activationWellFormed checked found inside
  have stacked := (stack.kept kept).push _ wf fun lower first => by
    cases Option.some.inj first
    exact ⟨by rw [called, kept.method, kept.pc]; exact fetched, untagged⟩
  refine ⟨Nat.le_refl _, heap, ⟨stacked, ⟨nofun, fun ended => absurd ended alive⟩, ?_⟩, ?_, _, rfl⟩
  · intro call rest tag' same
    rw [entered call (List.cons.inj same).1]
    exact nofun
  · intro call rest same
    rw [entered call (List.cons.inj same).1]
    exact nofun

theorem createSound {className : String} (falls : op.fallsThrough = true) :
    (ofEffect p t thread after tag below h (.create className)).Sound p h.size := by
  have grown := h.allocateSize className
  have le : h.size ≤ (h.allocate className).1.size := by omega
  have inside : (Value.ref (h.allocate className).2).Inside (h.allocate className).1.size := by
    rintro o same
    cases same
    change h.size < _
    omega
  exact advanceSound checked thread alive stack fetched falls le (heap.allocate className)
    ((kept.mono le).push inside) none

theorem readSound {field : FieldRef} (reads : op.field? = some field) (falls : op.fallsThrough = true)
    {value : Option Value} (inside : ∀ v ∈ value, v.Inside h.size) :
    Sound p h.size ⟨{ thread with stack := .bytecode (after.push (value.getD field.default)).advance tag :: below },
      h, none, .ok .executed⟩ := by
  refine advanceSound checked thread alive stack fetched falls (Nat.le_refl _) heap (kept.push ?_) none
  cases value with
  | none => exact Value.plainInside (checked.fields fetched reads) h.size
  | some v => exact inside v rfl

theorem readStaticSound {field : FieldRef} (reads : op = .getStatic field) :
    (ofEffect p t thread after tag below h (.readStatic field)).Sound p h.size := by
  subst reads
  exact readSound checked heap thread alive stack fetched kept rfl rfl fun v found => heap.statics _ v found

theorem readFieldSound {o : ObjectId} {field : FieldRef} (reads : op = .getField field) (there : o.index < h.size) :
    (ofEffect p t thread after tag below h (.readField o field)).Sound p h.size := by
  subst reads
  obtain ⟨object, found⟩ := Heap.objectThere there
  simp only [ofEffect, found]
  exact readSound checked heap thread alive stack fetched kept rfl rfl fun v held =>
    heap.fields o object _ v found held

theorem writeFieldSound {o : ObjectId} {field : FieldRef} {v : Value} (writes : op = .putField field)
    (there : o.index < h.size) (inside : v.Inside h.size) :
    (ofEffect p t thread after tag below h (.writeField o field v)).Sound p h.size := by
  subst writes
  obtain ⟨object, found⟩ := Heap.objectThere there
  have size : (h.setField o field.name v).size = h.size := Heap.modifySize o _
  simp only [ofEffect, found]
  exact advanceSound checked thread alive stack fetched rfl (Nat.le_of_eq size.symm)
    (heap.setField o _ inside) (kept.mono (Nat.le_of_eq size.symm)) none

theorem enterSound {o : ObjectId} (enters : op = .monitorEnter) (there : o.index < h.size) :
    (ofEffect p t thread after tag below h (.enter o)).Sound p h.size := by
  subst enters
  obtain ⟨object, found⟩ := Heap.objectThere there
  simp only [ofEffect]
  split
  · rename_i missing
    simp [Heap.entry?, found] at missing
  · rename_i monitor _
    have size : (h.setMonitor o monitor).size = h.size := Heap.modifySize o _
    exact advanceSound checked thread alive stack fetched rfl (Nat.le_of_eq size.symm) (heap.setMonitor o _)
      (kept.drop.mono (Nat.le_of_eq size.symm)) none
  · obtain ⟨wf, ready⟩ := GuestThread.frameWellFormed
      { thread with stack := .bytecode after tag :: below, status := .blocked o } rfl (stack.kept kept)
      fun ended => by cases ended
    exact ⟨Nat.le_refl _, heap, wf, ready, _, rfl⟩

theorem exitSound {o : ObjectId} (exits : op = .monitorExit) :
    (ofEffect p t thread after tag below h (.exit o)).Sound p h.size := by
  subst exits
  simp only [ofEffect]
  split
  · exact throwSound checked heap { thread with stack := .bytecode after tag :: below } alive (stack.kept kept) _ none
  · rename_i monitor _
    have size : (h.setMonitor o monitor).size = h.size := Heap.modifySize o _
    exact advanceSound checked thread alive stack fetched rfl (Nat.le_of_eq size.symm) (heap.setMonitor o monitor)
      (kept.mono (Nat.le_of_eq size.symm)) _

theorem effectSound {effect : Effect} (fits : effect.Fits h.size op) :
    (ofEffect p t thread after tag below h effect).Sound p h.size := by
  -- what throws does so with the frame at its instruction
  let waiting : GuestThread := { thread with stack := .bytecode after tag :: below }
  have stay := stack.kept kept
  have le := Nat.le_refl h.size
  cases effect with
  | next => exact advanceSound checked thread alive stack fetched fits le heap kept none
  | jump target => exact jumpSound checked heap thread alive stack fetched kept fits
  | raise className message => exact throwSound checked heap waiting alive stay className message
  | rethrow o => exact unwindSound checked heap waiting alive stay fits
  | finish value => exact deliverSound checked heap { thread with stack := below } alive stack fits
  | call callee args => exact callSound checked heap thread alive stack fetched kept fits.1 fits.2
  | create className => exact createSound checked heap thread alive stack fetched kept fits
  | readStatic field => exact readStaticSound checked heap thread alive stack fetched kept fits
  | writeStatic field v =>
    obtain ⟨rfl, inside⟩ := fits
    exact advanceSound (k := h.setStatic field.name v) checked thread alive stack fetched rfl le
      (heap.setStatic field.name inside) kept none
  | readField o field => exact readFieldSound checked heap thread alive stack fetched kept fits.1 fits.2
  | writeField o field v =>
    exact writeFieldSound checked heap thread alive stack fetched kept fits.1 fits.2.1 fits.2.2
  | enter o => exact enterSound checked heap thread alive stack fetched kept fits.1 fits.2
  | exit o => exact exitSound checked heap thread alive stack fetched kept fits.1

end Effects

end Upshot

theorem GuestThread.WellFormed.performs {p : Program} (checked : p.Checked) {size : Nat} {thread : GuestThread}
    (wf : thread.WellFormed p size) {frame : Frame} {tag : Option String} {below : List Activation}
    (stack : thread.stack = .bytecode frame tag :: below) :
    ∃ op, p.op? frame.method frame.pc = some op ∧
      Frame.Work.Ends size frame (Effect.Fits size op) (Frame.Work.perform p.argCount op frame) := by
  have stacked := wf.stack
  rw [stack] at stacked
  obtain ⟨⟨method, here, inside, room⟩, values⟩ := (List.forall_mem_cons.mp stacked.activations).1
  have used : ∀ slot, Instruction.slot? method.code[frame.pc] = some slot →
      slot.toNat < method.maxLocals.toNat := fun slot same =>
    (checked.methods here).slots (Array.getElem?_eq_getElem inside) same
  exact ⟨method.code[frame.pc], by simp [Program.op?, here, inside],
    Frame.Work.performSafe p.argCount used frame values room⟩

theorem GuestThread.WellFormed.wake {p : Program} {size : Nat} {thread : GuestThread}
    (wf : thread.WellFormed p size) (freed : Option ObjectId) : (thread.wake freed).WellFormed p size := by
  unfold GuestThread.wake
  split
  · exact wf
  · split
    · rename_i blocked
      refine ⟨wf.stack, ⟨fun empty => ?_, nofun⟩, wf.top⟩
      have ended := wf.ended.mp empty
      rw [blocked] at ended
      cases ended
    · exact wf

theorem GuestThread.wakeStack (thread : GuestThread) (freed : Option ObjectId) :
    (thread.wake freed).stack = thread.stack ∧ (thread.wake freed).firstStep = thread.firstStep := by
  unfold GuestThread.wake
  split
  · exact ⟨rfl, rfl⟩
  · split <;> exact ⟨rfl, rfl⟩

namespace Machine

variable {p : Program} {m : Machine} {t : ThreadId}

structure Runs (p : Program) (t : ThreadId) (m : Machine) : Prop where
  wellFormed : m.WellFormed p
  ready : ∃ thread, m.thread? t = some thread ∧ thread.Ready

def RunsOn {α : Type} (p : Program) (t : ThreadId) (r : Outcome α) : Prop :=
  match r.2 with
  | .ok _ => r.1.Runs p t
  | .error fault => fault.OfOperands

theorem thrownRuns {r : Outcome Thrown} : RunsOn p t (thrownStep r) ↔ RunsOn p t r := by
  obtain ⟨after, result⟩ := r
  cases result <;> rfl

theorem WellFormed.install (wf : m.WellFormed p) {u : Upshot} (sound : u.Sound p m.heap.size)
    (inside : t.index < m.threads.size) : (u.install t m).WellFormed p := by
  refine ⟨?_, fun j thread found => ?_⟩
  · rw [Upshot.installHeap]
    exact sound.heap
  · rw [Upshot.installThread inside] at found
    obtain ⟨before, origin, rfl⟩ := Option.map_eq_some_iff.mp found
    rw [Upshot.installHeap]
    refine GuestThread.WellFormed.wake ?_ _
    split at origin
    · cases Option.some.inj origin
      exact sound.thread
    · exact (wf.threads j before origin).mono sound.grows

theorem installRuns (wf : m.WellFormed p) {u : Upshot} (sound : u.Sound p m.heap.size)
    (inside : t.index < m.threads.size) : RunsOn p t (u.outcome t m) := by
  obtain ⟨step, done⟩ := sound.result
  unfold RunsOn Upshot.outcome
  dsimp only
  rw [done]
  refine ⟨wf.install sound inside, u.thread.wake u.freed, ?_, ?_⟩
  · rw [Upshot.installThread inside, if_pos rfl]
    rfl
  · intro call below stack
    obtain ⟨sameStack, sameFlag⟩ := GuestThread.wakeStack u.thread u.freed
    rw [sameStack] at stack
    rw [sameFlag]
    exact sound.ready call below stack

theorem WellFormed.setThread (wf : m.WellFormed p) {thread : GuestThread}
    (here : thread.WellFormed p m.heap.size) : (m.setThread t thread).WellFormed p := by
  refine ⟨wf.heap, fun j other found => ?_⟩
  by_cases inside : t.index < m.threads.size
  · rw [threadSet inside] at found
    split at found
    · cases Option.some.inj found
      exact here
    · exact wf.threads j other found
  · have same : m.setThread t thread = m := by
      simp [Machine.setThread, Array.setIfInBounds, inside]
    rw [same] at found
    exact wf.threads j other found

theorem WellFormed.flag (wf : m.WellFormed p) (t : ThreadId) (flag : Bool) :
    (m.setFirstStep t flag).WellFormed p := by
  unfold setFirstStep modifyThread
  split
  · rename_i thread found
    have old := wf.threads t thread found
    exact wf.setThread ⟨old.stack, old.ended, old.top⟩
  · exact wf

theorem WellFormed.clear (wf : m.WellFormed p) : m.clearFirstSteps.WellFormed p := by
  refine ⟨wf.heap, fun j thread found => ?_⟩
  simp only [clearFirstSteps, thread?, Array.getElem?_map] at found
  obtain ⟨before, origin, rfl⟩ := Option.map_eq_some_iff.mp found
  have old := wf.threads j before origin
  exact ⟨old.stack, old.ended, old.top⟩

theorem WellFormed.static (wf : m.WellFormed p) (name : String) {v : Value} (plain : v.ref? = none) :
    Machine.WellFormed p { m with heap := m.heap.setStatic name v } :=
  ⟨wf.heap.setStatic name (Value.plainInside plain _), wf.threads⟩

section Checked

variable (checked : p.Checked)
include checked

theorem WellFormed.spawn (wf : m.WellFormed p) (name : String) {id : MethodId} {method : Method}
    (found : p.method? id = some method) (interpreted : method.native = false) {args : List Value}
    (inside : ∀ v ∈ args, v.Inside m.heap.size) : (m.spawn name id method args).1.WellFormed p := by
  refine ⟨wf.heap, fun j thread there => ?_⟩
  simp only [Machine.spawn, thread?, Array.getElem?_push] at there
  split at there
  · cases Option.some.inj there
    refine (GuestThread.frameWellFormed _ rfl ⟨?_, .singleton _⟩ Status.noConfusion).1
    intro a member
    cases List.mem_singleton.mp member
    exact ⟨Program.Interprets.placed checked found interpreted args, Frame.startInside id method inside⟩
  · exact wf.threads j thread there

theorem stepRuns (runs : m.Runs p t) {thread : GuestThread} (found : m.thread? t = some thread)
    (running : thread.status = .runnable) : RunsOn p t (step p t m) := by
  have wf := runs.wellFormed.threads t thread found
  cases stack : thread.stack with
  | nil =>
    have ended := wf.ended.mp stack
    rw [running] at ended
    cases ended
  | cons top below =>
    have stacked := wf.stack
    rw [stack] at stacked
    cases top with
    | native call =>
      have same : step p t m = (m, .ok .native) := by simp [step, found, stack]
      rw [same]
      exact runs
    | bytecode frame tag =>
      obtain ⟨op, fetched, done⟩ := wf.performs checked stack
      rw [stepFetched found stack fetched]
      split
      · exact runs
      · unfold attempt
        cases ran : Frame.Work.perform p.argCount op frame with
        | error fault after =>
          rw [ran] at done
          exact done.1
        | ok effect after =>
          rw [ran] at done
          obtain ⟨fits, kept⟩ := done
          dsimp only
          rw [Upshot.effectInstalls (threadInside found)]
          exact installRuns runs.wellFormed (Upshot.effectSound checked runs.wellFormed.heap
            { thread with firstStep := false } (wf.alive stack) stacked fetched kept fits) (threadInside found)

section Native

variable (wf : m.WellFormed p) {thread : GuestThread} (found : m.thread? t = some thread)
  {call : NativeCall} {below : List Activation} (stack : thread.stack = .native call :: below)
include wf found stack

theorem returnRuns {value : Option Value} (inside : ∀ v ∈ value, v.Inside m.heap.size) :
    RunsOn p t (nativeReturn t value m) := by
  have here := wf.threads t thread found
  have stacked := here.stack
  rw [stack] at stacked
  unfold nativeReturn
  simp only [found, stack]
  rw [Upshot.deliverInstalls]
  exact installRuns wf (Upshot.deliverSound checked wf.heap { thread with stack := below }
    (here.alive stack) stacked inside) (threadInside found)

theorem throwRuns (className : String) (message : Option String) :
    RunsOn p t (throw p t className message m) := by
  have here := wf.threads t thread found
  have thrown := Upshot.throwInstalls (p := p) (threadInside found) className message thread
  rw [setSame found] at thrown
  rw [← thrownRuns, thrown]
  exact installRuns wf (Upshot.throwSound checked wf.heap thread (here.alive stack) here.stack className message)
    (threadInside found)

theorem directCallRuns (tag : String) {callee : MethodId} (code : p.Interprets callee)
    {args : List Value} (inside : ∀ v ∈ args, v.Inside m.heap.size) :
    RunsOn p t (directCall p t tag callee args m) := by
  obtain ⟨method, called, interpreted⟩ := code
  have here := wf.threads t thread found
  have stacked := here.stack
  rw [stack] at stacked
  obtain ⟨known, given, _⟩ := (List.forall_mem_cons.mp stacked.activations).1
  have waits := stacked.retop (.native { call with phase := .awaitingDirectCall tag }) rfl rfl
    ⟨known, given, trivial⟩
  have pushed := waits.push (.bytecode (Frame.start callee method args) (some tag))
    ⟨Program.Interprets.placed checked called interpreted args,
      Frame.startInside callee method inside⟩
    fun lower first => by
      cases Option.some.inj first
      exact ⟨_, tag, rfl, rfl⟩
  obtain ⟨wf', ready⟩ := GuestThread.frameWellFormed { thread with stack := _ } rfl pushed (here.alive stack)
  simp only [directCall, called, interpreted, found, stack]
  exact ⟨wf.setThread wf', _, (threadSet (threadInside found) _ t).trans (if_pos rfl), ready⟩

omit checked in
theorem awaitWellFormed : (m.modifyThread t Explorer.awaitChoice).WellFormed p := by
  have here := wf.threads t thread found
  have stacked := here.stack
  rw [stack] at stacked
  obtain ⟨known, given, _⟩ := (List.forall_mem_cons.mp stacked.activations).1
  have waits := stacked.retop (.native { call with phase := .awaitingChoice }) rfl rfl
    ⟨known, given, trivial⟩
  unfold modifyThread Explorer.awaitChoice
  simp only [found, stack]
  refine wf.setThread ⟨waits, ⟨nofun, fun ended => absurd ended (here.alive stack)⟩, ?_⟩
  intro call' below' tag' same
  cases same
  exact nofun

end Native

end Checked

end Machine

end BytecodeChecker
