import Mathlib.Logic.Relator
import BytecodeChecker.Proofs.Upshot

/-! Steps do not look at the numbers of objects: threads that match make steps that match. A new object
gets the next number on each side, and the two new objects are paired. -/
namespace BytecodeChecker

def Pairing.grow (pairs : Pairing) (made : Bool) (h h' : Heap) : Pairing :=
  fun o o' => pairs o o' ∨ (made = true ∧ o = ⟨h.size⟩ ∧ o' = ⟨h'.size⟩)

theorem Pairing.growLe (pairs : Pairing) (made : Bool) (h h' : Heap) (o o' : ObjectId) (old : pairs o o') :
    pairs.grow made h h' o o' := .inl old

namespace Heap

def add (h : Heap) : Option HeapObject → Heap
  | none => h
  | some object => { h with objects := h.objects.push object }

variable {pairs : Pairing} {h h' : Heap} {made : Option HeapObject}

theorem addSize : (h.add made).size = h.size + made.isSome.toNat := by
  cases made <;> simp [add, size]

theorem addStatics : (h.add made).statics = h.statics := by
  cases made <;> rfl

theorem objectInside {o : ObjectId} {object : HeapObject} (found : h.object? o = some object) :
    o.index < h.size :=
  (Array.getElem?_eq_some_iff.mp found).1

theorem addOld {o : ObjectId} (inside : o.index < h.size) : (h.add made).object? o = h.object? o := by
  cases made with
  | none => rfl
  | some object => exact (Array.getElem?_push_lt inside).trans (Array.getElem?_eq_getElem inside).symm

theorem addNew : (h.add made).object? ⟨h.size⟩ = made := by
  cases made with
  | none => simp [add, object?, size]
  | some object => simp [add, object?, size]

def SameClasses (pairs : Pairing) (h h' : Heap) : Prop :=
  ∀ {o o'}, pairs o o' → ∃ object object', h.object? o = some object ∧ h'.object? o' = some object' ∧
    object.className = object'.className

theorem Matches.sameClasses (heaps : h.Matches pairs h') : SameClasses pairs h h' := by
  intro o o' paired
  obtain ⟨object, object', left, right, same⟩ := heaps.objects paired
  exact ⟨object, object', left, right, same.className⟩

theorem SameClasses.add (classes : SameClasses pairs h h') :
    SameClasses (pairs.grow made.isSome h h') (h.add made) (h'.add made) := by
  rintro o o' (old | ⟨some, rfl, rfl⟩)
  · obtain ⟨object, object', left, right, same⟩ := classes old
    refine ⟨object, object', ?_, ?_, same⟩
    · rwa [addOld (objectInside left)]
    · rwa [addOld (objectInside right)]
  · obtain ⟨object, rfl⟩ := Option.isSome_iff_exists.mp some
    exact ⟨object, object, addNew, addNew, rfl⟩

theorem Matches.add (heaps : h.Matches pairs h')
    (blank : ∀ object ∈ made, ∀ pairs, object.Matches pairs object) :
    (h.add made).Matches (pairs.grow made.isSome h h') (h'.add made) where
  statics := by
    rw [addStatics, addStatics]
    exact heaps.statics.mono (pairs.growLe _ h h')
  objects := by
    rintro o o' (old | ⟨some, rfl, rfl⟩)
    · obtain ⟨object, object', left, right, same⟩ := heaps.objects old
      refine ⟨object, object', ?_, ?_, same.mono (pairs.growLe _ h h')⟩
      · rwa [addOld (objectInside left)]
      · rwa [addOld (objectInside right)]
    · obtain ⟨object, rfl⟩ := Option.isSome_iff_exists.mp some
      exact ⟨object, object, addNew, addNew, blank object rfl _⟩

theorem modifyObject? (o other : ObjectId) (change : HeapObject → HeapObject) :
    (h.modifyObject o change).object? other =
      if o = other then (h.object? other).map change else h.object? other := by
  obtain ⟨i⟩ := o
  obtain ⟨j⟩ := other
  simp [modifyObject, object?, Array.getElem?_modify]

theorem Matches.modify (unique : Relator.BiUnique pairs) (heaps : h.Matches pairs h') {o o' : ObjectId}
    (paired : pairs o o') {change change' : HeapObject → HeapObject}
    (changes : ∀ object object', object.Matches pairs object' →
      (change object).Matches pairs (change' object')) :
    (h.modifyObject o change).Matches pairs (h'.modifyObject o' change') where
  statics := heaps.statics
  objects := by
    intro a a' other
    obtain ⟨object, object', left, right, same⟩ := heaps.objects other
    have here : o = a ↔ o' = a' := Relator.rel_eq unique paired other
    rw [modifyObject?, modifyObject?, left, right]
    by_cases at_ : o = a
    · rw [if_pos at_, if_pos (here.mp at_)]
      exact ⟨_, _, rfl, rfl, changes _ _ same⟩
    · rw [if_neg at_, if_neg fun there => at_ (here.mpr there)]
      exact ⟨object, object', rfl, rfl, same⟩

theorem modifySize (o : ObjectId) (change : HeapObject → HeapObject) :
    (h.modifyObject o change).size = h.size := by
  simp [modifyObject, size]

end Heap

theorem NameMap.Matches.insert {pairs : Pairing} {m m' : NameMap Value} (h : m.Matches pairs m')
    (name : String) {v v' : Value} (value : v.Matches pairs v') :
    (m.insert name v).Matches pairs (m'.insert name v') := by
  intro other
  rw [NameMap.getInsert, NameMap.getInsert]
  split
  · exact .some value
  · exact h other

theorem GuestThread.awake {thread : GuestThread} (runnable : thread.status = .runnable) (o : ObjectId) :
    thread.status ≠ .blocked o := by
  rw [runnable]
  exact nofun

/- Reports that match. The message of an exception is read from the heap, and left to it here. -/
inductive Reported (pairs : Pairing) : Except Fault Step → Except Fault Step → Prop where
  | error (fault fault' : Fault) : Reported pairs (.error fault) (.error fault')
  | executed : Reported pairs (.ok .executed) (.ok .executed)
  | terminated : Reported pairs (.ok .terminated) (.ok .terminated)
  | blocked {o o' : ObjectId} (paired : pairs o o') : Reported pairs (.ok (.blocked o)) (.ok (.blocked o'))
  | exception {thrown thrown' : Thrown} (thread : thrown.thread = thrown'.thread)
      (className : thrown.className = thrown'.className) (object : pairs thrown.object thrown'.object)
      (handled : thrown.handled = thrown'.handled) :
      Reported pairs (.ok (.exception thrown)) (.ok (.exception thrown'))

theorem Reported.mono {pairs more : Pairing} (le : ∀ o o', pairs o o' → more o o')
    {result result' : Except Fault Step} (h : Reported pairs result result') : Reported more result result' := by
  cases h with
  | error fault fault' => exact .error fault fault'
  | executed => exact .executed
  | terminated => exact .terminated
  | blocked paired => exact .blocked (le _ _ paired)
  | exception thread className object handled => exact .exception thread className (le _ _ object) handled

theorem Reported.wentOn {pairs : Pairing} {result result' : Except Fault Step} (h : Reported pairs result result') :
    Step.wentOn result = Step.wentOn result' := by
  cases h with
  | exception thread className object handled => exact handled
  | _ => rfl

namespace Upshot

variable {pairs : Pairing} {p : Program} {t : ThreadId} {thread thread' : GuestThread} {h h' : Heap}
  {o o' : ObjectId}

structure Quiet (pairs : Pairing) (h h' : Heap) (u u' : Upshot) : Prop where
  heap : u.heap = h
  heap' : u'.heap = h'
  thread : u.thread.Matches pairs u'.thread
  freed : u.freed = none
  freed' : u'.freed = none
  awake : ∀ o, u.thread.status ≠ .blocked o
  reports : Reported pairs u.result u'.result

theorem Quiet.sane {u u' : Upshot} (quiet : Quiet pairs h h' u u') :
    Step.wentOn u.result = Step.wentOn u'.result :=
  quiet.reports.wentOn

theorem unwoundMatches (className : String) {stack stack' : List Activation} (paired : pairs o o')
    (levels : stack.Forall₂ (Activation.Matches pairs) stack') :
    Option.Rel (List.Forall₂ (Activation.Matches pairs)) (Machine.unwound? p o className stack)
      (Machine.unwound? p o' className stack') := by
  induction levels with
  | nil => exact .none
  | cons top rest ih =>
    cases top with
    | @bytecode f f' frame tag =>
      have same : p.handler? f className = p.handler? f' className := by
        unfold Program.handler?
        rw [frame.method, frame.pc]
      simp only [Machine.unwound?, same]
      cases p.handler? f' className with
      | none => exact ih
      | some target =>
        refine .some (.cons (.bytecode ?_ tag) rest)
        exact ⟨frame.method, rfl, frame.locals, .cons (.ref paired) .nil⟩
    | native call => exact ih

theorem unwindQuiet (threads : thread.Matches pairs thread') (runnable : thread.status = .runnable)
    (classes : Heap.SameClasses pairs h h') (paired : pairs o o') :
    Quiet pairs h h' (ofUnwind p t o thread h) (ofUnwind p t o' thread' h') := by
  obtain ⟨object, object', left, right, same⟩ := classes paired
  unfold ofUnwind
  rw [left, right]
  dsimp only
  rw [same]
  rcases relCases (unwoundMatches (p := p) object'.className paired threads.stack) with
    ⟨none, none'⟩ | ⟨stack, stack', found, found', levels⟩
  · rw [none, none']
    exact ⟨rfl, rfl, ⟨threads.name, .terminated, .nil⟩, rfl, rfl, nofun, .exception rfl rfl paired rfl⟩
  · rw [found, found']
    exact ⟨rfl, rfl, ⟨threads.name, threads.status, levels⟩, rfl, rfl, GuestThread.awake runnable,
      .exception rfl rfl paired rfl⟩

def exceptionObject (className : String) (message : Option String) : HeapObject :=
  ⟨className, (message.map fun text => NameMap.empty.insert "message" (.str text)).getD NameMap.empty, .free⟩

theorem newExceptionAdds (className : String) (message : Option String) :
    Machine.newException h className message =
      (h.add (some (exceptionObject className message)), ⟨h.size⟩) := by
  cases message with
  | none => rfl
  | some text =>
    have last : ∀ (object : HeapObject) (change : HeapObject → HeapObject),
        (h.objects.push object).modify h.objects.size change = h.objects.push (change object) := by
      intro object change
      apply Array.ext_getElem?
      intro i
      rw [Array.getElem?_modify, Array.getElem?_push, Array.getElem?_push]
      split
      · rename_i here
        rw [if_pos here.symm, if_pos here.symm]
        rfl
      · rename_i other
        rw [if_neg fun here => other here.symm]
        rw [if_neg fun here => other here.symm]
    simp only [Machine.newException, Heap.allocate, Heap.setField, Heap.modifyObject, Heap.size, last]
    rfl

theorem exceptionBlank (className : String) (message : Option String) (pairs : Pairing) :
    (exceptionObject className message).Matches pairs (exceptionObject className message) := by
  refine ⟨rfl, ?_, rfl⟩
  cases message with
  | none => exact fun _ => .none
  | some text => exact NameMap.Matches.insert (fun _ => .none) _ (.str text)

def Inward (pairs : Pairing) (h h' : Heap) (u u' : Upshot) : Prop :=
  ∃ made : Option HeapObject, (∀ object ∈ made, ∀ pairs, object.Matches pairs object) ∧
    Quiet (pairs.grow made.isSome h h') (h.add made) (h'.add made) u u'

theorem Quiet.inward {u u' : Upshot} (quiet : Quiet pairs h h' u u') : Inward pairs h h' u u' :=
  ⟨none, nofun, quiet.heap, quiet.heap', quiet.thread.mono (pairs.growLe _ h h'), quiet.freed,
    quiet.freed', quiet.awake, quiet.reports.mono (pairs.growLe _ h h')⟩

theorem throwInward (threads : thread.Matches pairs thread') (runnable : thread.status = .runnable)
    (classes : Heap.SameClasses pairs h h') (className : String) (message : Option String) :
    Inward pairs h h' (ofThrow p t className message thread h)
      (ofThrow p t className message thread' h') := by
  refine ⟨some (exceptionObject className message), ?_, ?_⟩
  · rintro object ⟨⟩
    exact exceptionBlank className message
  · simp only [ofThrow, newExceptionAdds]
    exact unwindQuiet (threads.mono (pairs.growLe _ h h')) runnable classes.add (.inr ⟨rfl, rfl, rfl⟩)

theorem deliverQuiet (threads : thread.Matches pairs thread') (runnable : thread.status = .runnable)
    (tag : Option String) {value value' : Option Value}
    (values : Option.Rel (Value.Matches pairs) value value') :
    Quiet pairs h h' (ofDeliver thread tag value h) (ofDeliver thread' tag value' h') := by
  obtain ⟨name, status, stack, flag⟩ := thread
  obtain ⟨name', status', stack', flag'⟩ := thread'
  obtain ⟨names, statuses, levels⟩ := threads
  cases runnable
  cases levels with
  | nil => exact ⟨rfl, rfl, ⟨names, .terminated, .nil⟩, rfl, rfl, nofun, .terminated⟩
  | cons top rest =>
    cases top with
    | bytecode frame callerTag =>
      refine ⟨rfl, rfl, ⟨names, statuses, .cons (.bytecode (Frame.Matches.advance ?_) callerTag) rest⟩,
        rfl, rfl, nofun, .executed⟩
      cases values with
      | none => exact frame
      | some value => exact frame.push value
    | native call =>
      cases tag with
      | none => exact ⟨rfl, rfl, ⟨names, statuses, .cons (.native call) rest⟩, rfl, rfl, nofun, .error _ _⟩
      | some tag =>
        exact ⟨rfl, rfl, ⟨names, statuses, .cons (.native ⟨call.method, call.args,
          .directCallReturned tag values⟩) rest⟩, rfl, rfl, nofun, .executed⟩

end Upshot

def Effect.inward : Effect → Bool
  | .readStatic _ | .writeStatic _ _ | .readField _ _ | .writeField _ _ _ | .enter _ | .exit _ => false
  | _ => true

theorem Effect.From.inward {op : Op} {effect : Effect} (h : effect.From op)
    (quiet : op.isSchedulingRelevant = false) : effect.inward = true := by
  cases effect with
  | readStatic _ | writeStatic _ _ | readField _ _ | writeField _ _ _ | enter _ | exit _ =>
    cases (show op = _ from h)
    cases quiet
  | _ => rfl

def Program.PlainFields (p : Program) : Prop :=
  ∀ id pc op field, p.op? id pc = some op → op.field? = some field → field.default.ref? = none

structure Program.Interpreted (p : Program) : Prop where
  calls : ∀ {id pc callee}, p.op? id pc = some (.invokeStatic callee) →
    ∃ method, p.method? callee = some method ∧ method.native = false
  fields : ∀ {id pc op field}, p.op? id pc = some op → op.field? = some field → field.default.ref? = none

theorem Program.Interpreted.plain {p : Program} (interpreted : p.Interpreted) : p.PlainFields :=
  fun _ _ _ _ => interpreted.fields

def Effect.Known : Effect → Prop
  | .readStatic field | .readField _ field => field.default.ref? = none
  | _ => True

theorem Effect.From.known {p : Program} (plain : p.PlainFields) {id : MethodId} {pc : Nat} {op : Op}
    (fetched : p.op? id pc = some op) {effect : Effect} (h : effect.From op) : effect.Known := by
  cases effect with
  | readStatic field =>
    cases (show op = _ from h)
    exact plain _ _ _ _ fetched rfl
  | readField o field =>
    cases (show op = _ from h)
    exact plain _ _ _ _ fetched rfl
  | _ => trivial

theorem activationMatches {pairs : Pairing} (p : Program) (callee : MethodId) {args args' : List Value}
    (values : args.Forall₂ (Value.Matches pairs) args') :
    (p.activation callee args).Matches pairs (p.activation callee args') := by
  unfold Program.activation
  split
  · split
    · exact .native ⟨rfl, values, .entry⟩
    · exact .bytecode (Frame.startMatches callee _ values) none
  · exact .native ⟨rfl, values, .entry⟩

theorem GuestThread.Matches.put {pairs : Pairing} {thread thread' : GuestThread}
    (threads : thread.Matches pairs thread') {frame frame' : Frame} (frames : frame.Matches pairs frame')
    (tag : Option String) {below below' : List Activation}
    (levels : below.Forall₂ (Activation.Matches pairs) below') :
    (Upshot.ofEffect.put thread tag below frame).Matches pairs
      (Upshot.ofEffect.put thread' tag below' frame') :=
  ⟨threads.name, threads.status, .cons (.bytecode frames tag) levels⟩

theorem readMatches {pairs : Pairing} {v v' : Option Value} (h : Option.Rel (Value.Matches pairs) v v')
    {d : Value} (plain : d.ref? = none) : (v.getD d).Matches pairs (v'.getD d) := by
  cases h with
  | some value => exact value
  | none =>
    cases d with
    | null => exact .null
    | int n => exact .int n
    | str text => exact .str text
    | ref o => cases plain

namespace Upshot

/- Two upshots that match on the heaps too. What stands for nothing on the other side is left alone,
and no object changes its class. -/
structure Agrees (pairs : Pairing) (made : Bool) (h h' : Heap) (u u' : Upshot) : Prop where
  thread : u.thread.Matches (pairs.grow made h h') u'.thread
  heap : u.heap.Matches (pairs.grow made h h') u'.heap
  size : u.heap.size = h.size + made.toNat
  size' : u'.heap.size = h'.size + made.toNat
  freed : Option.Rel pairs u.freed u'.freed
  untouched : ∀ o, o.index < h.size → (∀ o', ¬ pairs o o') → u.heap.object? o = h.object? o
  classes : ∀ o object, h'.object? o = some object →
    ∃ object', u'.heap.object? o = some object' ∧ object.className = object'.className
  reports : Reported (pairs.grow made h h') u.result u'.result

section Agreement

variable {pairs : Pairing} {h h' : Heap} {u u' : Upshot}

theorem Agrees.sane {made : Bool} (agrees : Agrees pairs made h h' u u') :
    Step.wentOn u.result = Step.wentOn u'.result :=
  agrees.reports.wentOn

theorem growNothing : pairs.grow false h h' = pairs := by
  funext o o'
  simp [Pairing.grow]

theorem Inward.agrees (inward : Inward pairs h h' u u') (heaps : h.Matches pairs h') :
    ∃ made, Agrees pairs made h h' u u' := by
  obtain ⟨made, blank, quiet⟩ := inward
  refine ⟨made.isSome, quiet.thread, ?_, ?_, ?_, ?_, ?_, ?_, quiet.reports⟩
  · rw [quiet.heap, quiet.heap']
    exact heaps.add blank
  · rw [quiet.heap, Heap.addSize]
  · rw [quiet.heap', Heap.addSize]
  · rw [quiet.freed, quiet.freed']
    exact .none
  · intro o inside _
    rw [quiet.heap, Heap.addOld inside]
  · intro o object found
    rw [quiet.heap', Heap.addOld (Heap.objectInside found)]
    exact ⟨object, found, rfl⟩

theorem agreesStill (heap : u.heap.Matches pairs u'.heap) (left : u.heap.objects = h.objects)
    (right : u'.heap.objects = h'.objects) (thread : u.thread.Matches pairs u'.thread)
    (freed : u.freed = none) (freed' : u'.freed = none)
    (reports : Reported pairs u.result u'.result) : Agrees pairs false h h' u u' := by
  have same : ∀ o, u.heap.object? o = h.object? o := fun o => by rw [Heap.object?, left]; rfl
  have same' : ∀ o, u'.heap.object? o = h'.object? o := fun o => by rw [Heap.object?, right]; rfl
  refine ⟨?_, ?_, congrArg Array.size left, congrArg Array.size right, ?_, fun o _ _ => same o, ?_, ?_⟩
  · rwa [growNothing]
  · rwa [growNothing]
  · rw [freed, freed']
    exact .none
  · intro o object found
    rw [same']
    exact ⟨object, found, rfl⟩
  · rwa [growNothing]

theorem agreesModify (unique : Relator.BiUnique pairs) (heaps : h.Matches pairs h') {o o' : ObjectId}
    (paired : pairs o o') {change change' : HeapObject → HeapObject}
    (left : u.heap = h.modifyObject o change) (right : u'.heap = h'.modifyObject o' change')
    (changes : ∀ object object', object.Matches pairs object' →
      (change object).Matches pairs (change' object'))
    (kept : ∀ object, object.className = (change' object).className)
    (thread : u.thread.Matches pairs u'.thread) (freed : Option.Rel pairs u.freed u'.freed)
    (reports : Reported pairs u.result u'.result) : Agrees pairs false h h' u u' := by
  refine ⟨?_, ?_, ?_, ?_, freed, ?_, ?_, ?_⟩
  · rwa [growNothing]
  · rw [growNothing, left, right]
    exact heaps.modify unique paired changes
  · rw [left, Heap.modifySize]
    rfl
  · rw [right, Heap.modifySize]
    rfl
  · intro other _ alone
    have apart : o ≠ other := fun same => alone o' (same ▸ paired)
    rw [left, Heap.modifyObject?, if_neg apart]
  · intro other object found
    rw [right, Heap.modifyObject?, found]
    split
    · exact ⟨_, rfl, kept object⟩
    · exact ⟨object, rfl, rfl⟩
  · rwa [growNothing]

end Agreement

section Effects

variable {pairs : Pairing} {p : Program} {t : ThreadId} {thread thread' : GuestThread} {h h' : Heap}
  {frame frame' : Frame} {below below' : List Activation} {effect effect' : Effect} (tag : Option String)
  (threads : thread.Matches pairs thread') (runnable : thread.status = .runnable)
  (frames : frame.Matches pairs frame') (levels : below.Forall₂ (Activation.Matches pairs) below')
  (effects : effect.Matches pairs effect') (known : effect.Known)
include threads runnable frames levels effects known

theorem effectInward (classes : Heap.SameClasses pairs h h') (inward : effect.inward = true) :
    Inward pairs h h' (ofEffect p t thread frame tag below h effect)
      (ofEffect p t thread' frame' tag below' h' effect') := by
  have awake := GuestThread.awake runnable
  have still : ∀ {f f' : Frame}, f.Matches pairs f' →
      Inward pairs h h' ⟨ofEffect.put thread tag below f, h, none, .ok .executed⟩
        ⟨ofEffect.put thread' tag below' f', h', none, .ok .executed⟩ := fun moved =>
    Quiet.inward ⟨rfl, rfl, threads.put moved tag levels, rfl, rfl, awake, .executed⟩
  cases effects with
  | next => exact still frames.advance
  | jump target => exact still (frames.jump target)
  | raise className message =>
    exact throwInward (threads.put frames tag levels) runnable classes className message
  | rethrow paired => exact (unwindQuiet (threads.put frames tag levels) runnable classes paired).inward
  | finish value =>
    have rest : GuestThread.Matches pairs { thread with stack := below } { thread' with stack := below' } :=
      ⟨threads.name, threads.status, levels⟩
    exact (deliverQuiet rest runnable tag value).inward
  | call callee values =>
    refine Quiet.inward ⟨rfl, rfl, ⟨threads.name, threads.status, ?_⟩, rfl, rfl, awake, .executed⟩
    exact .cons (activationMatches p callee values) (.cons (.bytecode frames tag) levels)
  | create className =>
    refine ⟨some ⟨className, NameMap.empty, .free⟩, ?_, rfl, rfl, ?_, rfl, rfl, awake, .executed⟩
    · rintro object ⟨⟩ pairs
      exact ⟨rfl, fun _ => .none, rfl⟩
    · have grown := pairs.growLe true h h'
      refine (threads.mono grown).put (((frames.mono grown).push (.ref ?_)).advance) tag
        (levels.imp fun _ _ => Activation.Matches.mono grown)
      exact .inr ⟨rfl, rfl, rfl⟩
  | readStatic _ | writeStatic _ _ | readField _ _ | writeField _ _ _ | enter _ | exit _ => cases inward

theorem effectAgrees (unique : Relator.BiUnique pairs) (heaps : h.Matches pairs h') :
    ∃ made, Agrees pairs made h h' (ofEffect p t thread frame tag below h effect)
      (ofEffect p t thread' frame' tag below' h' effect') := by
  have put : ∀ {f f' : Frame}, f.Matches pairs f' → _ := fun moved => threads.put moved tag levels
  by_cases inward : effect.inward = true
  · have quiet := effectInward (p := p) (t := t) tag threads runnable frames levels effects known
      heaps.sameClasses inward
    exact quiet.agrees heaps
  cases effects with
  | next | jump _ | raise _ _ | rethrow _ | finish _ | call _ _ | create _ => exact absurd rfl inward
  | readStatic field =>
    exact ⟨false, agreesStill heaps rfl rfl
      (put (frames.push (readMatches (heaps.statics field.name) known)).advance) rfl rfl .executed⟩
  | writeStatic field value =>
    exact ⟨false, agreesStill ⟨heaps.statics.insert _ value, heaps.objects⟩ rfl rfl (put frames.advance)
      rfl rfl .executed⟩
  | readField paired field =>
    obtain ⟨object, object', left, right, same⟩ := heaps.objects paired
    simp only [ofEffect, left, right]
    exact ⟨false, agreesStill heaps rfl rfl
      (put (frames.push (readMatches (same.fields field.name) known)).advance) rfl rfl .executed⟩
  | writeField paired field value =>
    obtain ⟨object, object', left, right, same⟩ := heaps.objects paired
    simp only [ofEffect, left, right]
    refine ⟨false, agreesModify unique heaps paired rfl rfl ?_ (fun _ => rfl) (put frames.advance) .none .executed⟩
    exact fun _ _ same => ⟨same.className, same.fields.insert _ value, same.monitor⟩
  | @enter o o' paired =>
    obtain ⟨object, object', left, right, same⟩ := heaps.objects paired
    have entry : h.entry? o t = h'.entry? o' t := by
      simp only [Heap.entry?, left, right, same.monitor, Option.map_some]
    -- the monitors are the same on both sides, so that both threads enter or both wait
    simp only [ofEffect, entry]
    cases found : h'.entry? o' t with
    | none => simp [Heap.entry?, right] at found
    | some entry =>
      cases entry with
      | acquired monitor =>
        refine ⟨false, agreesModify unique heaps paired rfl rfl ?_ (fun _ => rfl)
          (put frames.drop.advance) .none .executed⟩
        exact fun _ _ same => ⟨same.className, same.fields, rfl⟩
      | contended owner =>
        exact ⟨false, agreesStill heaps rfl rfl
          ⟨threads.name, .blocked paired, (put frames).stack⟩ rfl rfl (.blocked paired)⟩
  | @exit o o' paired =>
    obtain ⟨object, object', left, right, same⟩ := heaps.objects paired
    have after : h.afterExit? o t = h'.afterExit? o' t := by
      simp only [Heap.afterExit?, left, right, same.monitor]
    simp only [ofEffect, after]
    cases h'.afterExit? o' t with
    | none => exact (throwInward (put frames) runnable heaps.sameClasses _ none).agrees heaps
    | some monitor =>
      refine ⟨false, agreesModify unique heaps paired rfl rfl ?_ (fun _ => rfl) (put frames.advance) ?_ .executed⟩
      · exact fun _ _ same => ⟨same.className, same.fields, rfl⟩
      · dsimp only
        split
        · exact .some paired
        · exact .none

end Effects

end Upshot

namespace GuestThread

def nextOp? (p : Program) (thread : GuestThread) : Option Op :=
  match thread.stack with
  | .bytecode f _ :: _ => p.op? f.method f.pc
  | _ => none

theorem Matches.flagged {pairs : Pairing} {thread thread' : GuestThread}
    (threads : thread.Matches pairs thread') (flag flag' : Bool) :
    GuestThread.Matches pairs { thread with firstStep := flag } { thread' with firstStep := flag' } :=
  ⟨threads.name, threads.status, threads.stack⟩

inductive Works (p : Program) (pairs : Pairing) (thread thread' : GuestThread) : Prop where
  | fails (left : ∀ t h, thread.upshot? p t h = none) (right : ∀ t h, thread'.upshot? p t h = none)
  | works {id : MethodId} {pc : Nat} {op : Op} {effect effect' : Effect} {frame frame' : Frame}
      {below below' : List Activation} (tag : Option String) (next : thread.nextOp? p = some op)
      (fetched : p.op? id pc = some op) (origin : effect.From op)
      (frames : frame.Matches pairs frame') (levels : below.Forall₂ (Activation.Matches pairs) below')
      (effects : effect.Matches pairs effect')
      (left : ∀ t h, thread.upshot? p t h =
        some (Upshot.ofEffect p t { thread with firstStep := false } frame tag below h effect))
      (right : ∀ t h, thread'.upshot? p t h =
        some (Upshot.ofEffect p t { thread' with firstStep := false } frame' tag below' h effect'))

theorem Matches.works {p : Program} {pairs : Pairing} {thread thread' : GuestThread}
    (threads : thread.Matches pairs thread') : Works p pairs thread thread' := by
  obtain ⟨name, status, stack, flag⟩ := thread
  obtain ⟨name', status', stack', flag'⟩ := thread'
  cases threads.stack with
  | nil => exact .fails (fun _ _ => rfl) (fun _ _ => rfl)
  | cons top rest =>
    cases top with
    | native call => exact .fails (fun _ _ => rfl) (fun _ _ => rfl)
    | @bytecode f f' frames tag =>
      have same : p.op? f'.method f'.pc = p.op? f.method f.pc := by rw [frames.method, frames.pc]
      cases fetched : p.op? f.method f.pc with
      | none =>
        refine .fails (fun t h => ?_) (fun t h => ?_)
        · simp [upshot?, fetched]
        · simp [upshot?, same, fetched]
      | some op =>
        rcases (Frame.Work.performAlike p.argCount op f f' frames).split with
          ⟨fault, fault', g, g', left, right⟩ | ⟨effect, effect', g, g', left, right, effects, frames'⟩
        · refine .fails (fun t h => ?_) (fun t h => ?_)
          · simp [upshot?, fetched, left]
          · simp [upshot?, same, fetched, right]
        · refine .works tag fetched fetched (Frame.Work.performFrom left) frames' rest effects
            (fun t h => ?_) (fun t h => ?_)
          · simp [upshot?, fetched, left]
          · simp [upshot?, same, fetched, right]

section Upshots

variable {p : Program} (plain : p.PlainFields) {pairs : Pairing} {thread thread' : GuestThread}
  {h h' : Heap} (threads : thread.Matches pairs thread') (runnable : thread.status = .runnable)
include plain threads runnable

theorem upshotAgrees (unique : Relator.BiUnique pairs) (heaps : h.Matches pairs h') (t : ThreadId) :
    thread.upshot? p t h = none ∧ thread'.upshot? p t h' = none ∨
    ∃ u u' made, thread.upshot? p t h = some u ∧ thread'.upshot? p t h' = some u' ∧
      u.Agrees pairs made h h' u' := by
  cases threads.works (p := p) with
  | fails left right => exact .inl ⟨left t h, right t h'⟩
  | works tag next fetched origin frames levels effects left right =>
    obtain ⟨made, agrees⟩ := Upshot.effectAgrees (p := p) (t := t) tag (threads.flagged false false) runnable
      frames levels effects (origin.known plain fetched) unique heaps
    exact .inr ⟨_, _, made, left t h, right t h', agrees⟩

theorem upshotInward (classes : Heap.SameClasses pairs h h')
    (quiet : ∀ op, thread.nextOp? p = some op → op.isSchedulingRelevant = false) (t : ThreadId) :
    thread.upshot? p t h = none ∧ thread'.upshot? p t h' = none ∨
    ∃ u u', thread.upshot? p t h = some u ∧ thread'.upshot? p t h' = some u' ∧
      u.Inward pairs h h' u' := by
  cases threads.works (p := p) with
  | fails left right => exact .inl ⟨left t h, right t h'⟩
  | works tag next fetched origin frames levels effects left right =>
    have inward := Upshot.effectInward (p := p) (t := t) tag (threads.flagged false false) runnable
      frames levels effects (origin.known plain fetched) classes (origin.inward (quiet _ next))
    exact .inr ⟨_, _, left t h, right t h', inward⟩

end Upshots

end GuestThread

end BytecodeChecker
