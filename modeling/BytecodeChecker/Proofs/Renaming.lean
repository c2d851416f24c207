import Mathlib.Data.List.Forall2
import Mathlib.Logic.Relation
import BytecodeChecker.Machine

/-! Machines that differ only in the numbers of their objects. Which object stands for which is a
relation; everything that holds values is compared along it, and the first-step flags of the threads
are left out. An instruction does the same work in frames that match. -/
namespace BytecodeChecker

abbrev Pairing := ObjectId → ObjectId → Prop

theorem relCases {α β : Type} {r : α → β → Prop} {x : Option α} {y : Option β} (h : Option.Rel r x y) :
    x = none ∧ y = none ∨ ∃ a b, x = some a ∧ y = some b ∧ r a b := by
  cases h with
  | none => exact .inl ⟨rfl, rfl⟩
  | some related => exact .inr ⟨_, _, rfl, rfl, related⟩

theorem relImp {α β : Type} {r s : α → β → Prop} {x : Option α} {y : Option β} (h : Option.Rel r x y)
    (imp : ∀ a b, r a b → s a b) : Option.Rel s x y := by
  cases h with
  | none => exact .none
  | some related => exact .some (imp _ _ related)

theorem relMap {α β γ δ : Type} {r : α → β → Prop} {s : γ → δ → Prop} {f : α → γ} {g : β → δ}
    {x : Option α} {y : Option β} (h : Option.Rel r x y) (imp : ∀ a b, r a b → s (f a) (g b)) :
    Option.Rel s (x.map f) (y.map g) := by
  cases h with
  | none => exact .none
  | some related => exact .some (imp _ _ related)

theorem relTrans {α : Type} {r s q : α → α → Prop} {x y z : Option α} (left : Option.Rel r x y)
    (right : Option.Rel s y z) (trans : ∀ a b c, r a b → s b c → q a c) : Option.Rel q x z := by
  cases left with
  | none => cases right; exact .none
  | some first =>
    cases right with
    | some second => exact .some (trans _ _ _ first second)

theorem forallTrans {α : Type} {r s q : α → α → Prop} {xs ys zs : List α} (left : xs.Forall₂ r ys)
    (right : ys.Forall₂ s zs) (trans : ∀ a b c, r a b → s b c → q a c) : xs.Forall₂ q zs := by
  induction left generalizing zs with
  | nil => cases right; exact .nil
  | cons head tail ih =>
    cases right with
    | cons head' tail' => exact .cons (trans _ _ _ head head') (ih tail')

inductive Value.Matches (pairs : Pairing) : Value → Value → Prop where
  | null : Matches pairs .null .null
  | int (n : Int64) : Matches pairs (.int n) (.int n)
  | str (text : String) : Matches pairs (.str text) (.str text)
  | ref {o o' : ObjectId} (paired : pairs o o') : Matches pairs (.ref o) (.ref o')

structure Locals.Matches (pairs : Pairing) (l l' : Locals) : Prop where
  size : l.size = l'.size
  slots : ∀ slot, Option.Rel (Value.Matches pairs) (l.get? slot) (l'.get? slot)

structure Frame.Matches (pairs : Pairing) (f f' : Frame) : Prop where
  method : f.method = f'.method
  pc : f.pc = f'.pc
  locals : f.locals.Matches pairs f'.locals
  operands : f.operands.Forall₂ (Value.Matches pairs) f'.operands

inductive Phase.Matches (pairs : Pairing) : Phase → Phase → Prop where
  | entry : Matches pairs .entry .entry
  | awaitingChoice : Matches pairs .awaitingChoice .awaitingChoice
  | awaitingDirectCall (tag : String) : Matches pairs (.awaitingDirectCall tag) (.awaitingDirectCall tag)
  | directCallReturned (tag : String) {v v' : Option Value} (value : Option.Rel (Value.Matches pairs) v v') :
      Matches pairs (.directCallReturned tag v) (.directCallReturned tag v')

structure NativeCall.Matches (pairs : Pairing) (c c' : NativeCall) : Prop where
  method : c.method = c'.method
  args : c.args.Forall₂ (Value.Matches pairs) c'.args
  phase : c.phase.Matches pairs c'.phase

inductive Activation.Matches (pairs : Pairing) : Activation → Activation → Prop where
  | bytecode {f f' : Frame} (frame : f.Matches pairs f') (tag : Option String) :
      Matches pairs (.bytecode f tag) (.bytecode f' tag)
  | native {c c' : NativeCall} (call : c.Matches pairs c') : Matches pairs (.native c) (.native c')

inductive Status.Matches (pairs : Pairing) : Status → Status → Prop where
  | runnable : Matches pairs .runnable .runnable
  | blocked {o o' : ObjectId} (paired : pairs o o') : Matches pairs (.blocked o) (.blocked o')
  | terminated : Matches pairs .terminated .terminated

structure GuestThread.Matches (pairs : Pairing) (t t' : GuestThread) : Prop where
  name : t.name = t'.name
  status : t.status.Matches pairs t'.status
  stack : t.stack.Forall₂ (Activation.Matches pairs) t'.stack

def NameMap.Matches (pairs : Pairing) (m m' : NameMap Value) : Prop :=
  ∀ name, Option.Rel (Value.Matches pairs) (m.get? name) (m'.get? name)

structure HeapObject.Matches (pairs : Pairing) (o o' : HeapObject) : Prop where
  className : o.className = o'.className
  fields : o.fields.Matches pairs o'.fields
  monitor : o.monitor = o'.monitor

structure Heap.Matches (pairs : Pairing) (h h' : Heap) : Prop where
  statics : h.statics.Matches pairs h'.statics
  objects : ∀ {o o'}, pairs o o' → ∃ object object', h.object? o = some object ∧
    h'.object? o' = some object' ∧ object.Matches pairs object'

structure Machine.Matches (pairs : Pairing) (m m' : Machine) : Prop where
  heap : m.heap.Matches pairs m'.heap
  threads : ∀ t, Option.Rel (GuestThread.Matches pairs) (m.thread? t) (m'.thread? t)

section Mono

variable {pairs more : Pairing} (le : ∀ o o', pairs o o' → more o o')
include le

theorem Value.Matches.mono {v v' : Value} (h : v.Matches pairs v') : v.Matches more v' := by
  cases h with
  | null => exact .null
  | int n => exact .int n
  | str text => exact .str text
  | ref paired => exact .ref (le _ _ paired)

theorem Frame.Matches.mono {f f' : Frame} (h : f.Matches pairs f') : f.Matches more f' where
  method := h.method
  pc := h.pc
  locals := ⟨h.locals.size, fun slot => relImp (h.locals.slots slot) fun _ _ => Value.Matches.mono le⟩
  operands := h.operands.imp fun _ _ => Value.Matches.mono le

theorem Status.Matches.mono {s s' : Status} (h : s.Matches pairs s') : s.Matches more s' := by
  cases h with
  | runnable => exact .runnable
  | blocked paired => exact .blocked (le _ _ paired)
  | terminated => exact .terminated

theorem Phase.Matches.mono {a a' : Phase} (h : a.Matches pairs a') : a.Matches more a' := by
  cases h with
  | entry => exact .entry
  | awaitingChoice => exact .awaitingChoice
  | awaitingDirectCall tag => exact .awaitingDirectCall tag
  | directCallReturned tag value => exact .directCallReturned tag (relImp value fun _ _ => Value.Matches.mono le)

theorem NativeCall.Matches.mono {c c' : NativeCall} (h : c.Matches pairs c') : c.Matches more c' where
  method := h.method
  args := h.args.imp fun _ _ => Value.Matches.mono le
  phase := h.phase.mono le

theorem Activation.Matches.mono {a a' : Activation} (h : a.Matches pairs a') : a.Matches more a' := by
  cases h with
  | bytecode frame tag => exact .bytecode (frame.mono le) tag
  | native call => exact .native (call.mono le)

theorem GuestThread.Matches.mono {t t' : GuestThread} (h : t.Matches pairs t') : t.Matches more t' where
  name := h.name
  status := h.status.mono le
  stack := h.stack.imp fun _ _ => Activation.Matches.mono le

theorem NameMap.Matches.mono {m m' : NameMap Value} (h : m.Matches pairs m') : m.Matches more m' :=
  fun name => relImp (h name) fun _ _ => Value.Matches.mono le

theorem HeapObject.Matches.mono {o o' : HeapObject} (h : o.Matches pairs o') : o.Matches more o' :=
  ⟨h.className, h.fields.mono le, h.monitor⟩

end Mono

section Trans

variable {first second both : Pairing} (through : ∀ a b c, first a b → second b c → both a c)
include through

theorem Value.Matches.trans {u v w : Value} (left : u.Matches first v) (right : v.Matches second w) :
    u.Matches both w := by
  cases left with
  | null => cases right; exact .null
  | int n => cases right; exact .int n
  | str text => cases right; exact .str text
  | ref paired =>
    cases right with
    | ref paired' => exact .ref (through _ _ _ paired paired')

theorem Frame.Matches.trans {f g k : Frame} (left : f.Matches first g) (right : g.Matches second k) :
    f.Matches both k where
  method := left.method.trans right.method
  pc := left.pc.trans right.pc
  locals := ⟨left.locals.size.trans right.locals.size, fun slot =>
    relTrans (left.locals.slots slot) (right.locals.slots slot) fun _ _ _ => Value.Matches.trans through⟩
  operands := forallTrans left.operands right.operands fun _ _ _ => Value.Matches.trans through

theorem Phase.Matches.trans {a b c : Phase} (left : a.Matches first b) (right : b.Matches second c) :
    a.Matches both c := by
  cases left with
  | entry => cases right; exact .entry
  | awaitingChoice => cases right; exact .awaitingChoice
  | awaitingDirectCall tag => cases right; exact .awaitingDirectCall tag
  | directCallReturned tag value =>
    cases right with
    | directCallReturned _ value' =>
      exact .directCallReturned tag (relTrans value value' fun _ _ _ => Value.Matches.trans through)

theorem NativeCall.Matches.trans {a b c : NativeCall} (left : a.Matches first b)
    (right : b.Matches second c) : a.Matches both c where
  method := left.method.trans right.method
  args := forallTrans left.args right.args fun _ _ _ => Value.Matches.trans through
  phase := left.phase.trans through right.phase

theorem Activation.Matches.trans {a b c : Activation} (left : a.Matches first b)
    (right : b.Matches second c) : a.Matches both c := by
  cases left with
  | bytecode frame tag =>
    cases right with
    | bytecode frame' tag' => exact .bytecode (frame.trans through frame') tag
  | native call =>
    cases right with
    | native call' => exact .native (call.trans through call')

theorem Status.Matches.trans {a b c : Status} (left : a.Matches first b)
    (right : b.Matches second c) : a.Matches both c := by
  cases left with
  | runnable => cases right; exact .runnable
  | terminated => cases right; exact .terminated
  | blocked paired =>
    cases right with
    | blocked paired' => exact .blocked (through _ _ _ paired paired')

theorem GuestThread.Matches.trans {a b c : GuestThread} (left : a.Matches first b)
    (right : b.Matches second c) : a.Matches both c where
  name := left.name.trans right.name
  status := left.status.trans through right.status
  stack := forallTrans left.stack right.stack fun _ _ _ => Activation.Matches.trans through

theorem NameMap.Matches.trans {a b c : NameMap Value} (left : a.Matches first b)
    (right : b.Matches second c) : a.Matches both c :=
  fun name => relTrans (left name) (right name) fun _ _ _ => Value.Matches.trans through

theorem HeapObject.Matches.trans {a b c : HeapObject} (left : a.Matches first b)
    (right : b.Matches second c) : a.Matches both c where
  className := left.className.trans right.className
  fields := left.fields.trans through right.fields
  monitor := left.monitor.trans right.monitor

end Trans

theorem Heap.Matches.comp {first second : Pairing} {h k l : Heap} (left : h.Matches first k)
    (right : k.Matches second l) : h.Matches (Relation.Comp first second) l where
  statics := left.statics.trans (fun _ b _ early late => ⟨b, early, late⟩) right.statics
  objects := by
    rintro o o' ⟨x, early, late⟩
    obtain ⟨a, b, here, there, same⟩ := left.objects early
    obtain ⟨b', c, here', there', same'⟩ := right.objects late
    cases Option.some.inj (there.symm.trans here')
    exact ⟨a, c, here, there', same.trans (fun _ b _ early late => ⟨b, early, late⟩) same'⟩

theorem Machine.Matches.comp {first second : Pairing} {m n k : Machine} (left : m.Matches first n)
    (right : n.Matches second k) : m.Matches (Relation.Comp first second) k where
  heap := left.heap.comp right.heap
  threads t := relTrans (left.threads t) (right.threads t) fun _ _ _ =>
    GuestThread.Matches.trans fun _ b _ early late => ⟨b, early, late⟩

namespace Frame

variable {pairs : Pairing} {f f' : Frame}

theorem Matches.push (h : f.Matches pairs f') {v v' : Value} (value : v.Matches pairs v') :
    (f.push v).Matches pairs (f'.push v') :=
  ⟨h.method, h.pc, h.locals, .cons value h.operands⟩

theorem Matches.drop (h : f.Matches pairs f') : f.drop.Matches pairs f'.drop :=
  ⟨h.method, h.pc, h.locals, by simpa [Frame.drop] using List.forall₂_drop 1 h.operands⟩

theorem Matches.jump (h : f.Matches pairs f') (pc : Nat) :
    Frame.Matches pairs { f with pc } { f' with pc } :=
  ⟨h.method, rfl, h.locals, h.operands⟩

theorem Matches.advance (h : f.Matches pairs f') : f.advance.Matches pairs f'.advance := by
  unfold Frame.advance
  rw [h.pc]
  exact h.jump _

theorem startMatches (id : MethodId) (method : Method) {args args' : List Value}
    (h : args.Forall₂ (Value.Matches pairs) args') :
    (start id method args).Matches pairs (start id method args') where
  method := rfl
  pc := rfl
  locals := by
    have length := h.length_eq
    refine ⟨by simp [start, length], fun slot => ?_⟩
    simp only [start, Locals.getOfArgs, length]
    split
    · refine .some ?_
      by_cases inside : slot < args.length
      · have inside' : slot < args'.length := length ▸ inside
        rw [List.getElem?_eq_getElem inside, List.getElem?_eq_getElem inside']
        exact h.get inside inside'
      · rw [List.getElem?_eq_none (by omega), List.getElem?_eq_none (by omega)]
        exact .null
    · exact .none
  operands := .nil

end Frame

inductive Effect.Matches (pairs : Pairing) : Effect → Effect → Prop where
  | next : Matches pairs .next .next
  | jump (target : Nat) : Matches pairs (.jump target) (.jump target)
  | raise (className : String) (message : Option String) :
      Matches pairs (.raise className message) (.raise className message)
  | rethrow {o o' : ObjectId} (paired : pairs o o') : Matches pairs (.rethrow o) (.rethrow o')
  | finish {v v' : Option Value} (value : Option.Rel (Value.Matches pairs) v v') :
      Matches pairs (.finish v) (.finish v')
  | call (callee : MethodId) {args args' : List Value}
      (values : args.Forall₂ (Value.Matches pairs) args') :
      Matches pairs (.call callee args) (.call callee args')
  | create (className : String) : Matches pairs (.create className) (.create className)
  | readStatic (field : FieldRef) : Matches pairs (.readStatic field) (.readStatic field)
  | writeStatic (field : FieldRef) {v v' : Value} (value : v.Matches pairs v') :
      Matches pairs (.writeStatic field v) (.writeStatic field v')
  | readField {o o' : ObjectId} (paired : pairs o o') (field : FieldRef) :
      Matches pairs (.readField o field) (.readField o' field)
  | writeField {o o' : ObjectId} (paired : pairs o o') (field : FieldRef) {v v' : Value}
      (value : v.Matches pairs v') : Matches pairs (.writeField o field v) (.writeField o' field v')
  | enter {o o' : ObjectId} (paired : pairs o o') : Matches pairs (.enter o) (.enter o')
  | exit {o o' : ObjectId} (paired : pairs o o') : Matches pairs (.exit o) (.exit o')

namespace Frame.Work

variable {pairs : Pairing}

/- Work that fails on one side fails on the other; the faults may name different objects. -/
inductive Agrees {α : Type} (pairs : Pairing) (rel : α → α → Prop) :
    EStateM.Result Fault Frame α → EStateM.Result Fault Frame α → Prop where
  | ok {a a' : α} {f f' : Frame} (value : rel a a') (frame : f.Matches pairs f') :
      Agrees pairs rel (.ok a f) (.ok a' f')
  | error (fault fault' : Fault) (f f' : Frame) : Agrees pairs rel (.error fault f) (.error fault' f')

theorem Agrees.split {α : Type} {rel : α → α → Prop} {x y : EStateM.Result Fault Frame α}
    (h : Agrees pairs rel x y) :
    (∃ fault fault' f f', x = .error fault f ∧ y = .error fault' f') ∨
    ∃ a a' f f', x = .ok a f ∧ y = .ok a' f' ∧ rel a a' ∧ f.Matches pairs f' := by
  cases h with
  | ok value frame => exact .inr ⟨_, _, _, _, rfl, rfl, value, frame⟩
  | error fault fault' f f' => exact .inl ⟨fault, fault', f, f', rfl, rfl⟩

def Alike {α : Type} (pairs : Pairing) (rel : α → α → Prop) (w w' : Work α) : Prop :=
  ∀ f f', f.Matches pairs f' → Agrees pairs rel (w f) (w' f')

section Calculus

variable {α β : Type} {rel : α → α → Prop} {rel' : β → β → Prop}

theorem pureAlike {a a' : α} (h : rel a a') : Alike pairs rel (pure a) (pure a') :=
  fun _ _ frames => .ok h frames

theorem throwAlike (fault fault' : Fault) : Alike pairs rel (throw fault) (throw fault') :=
  fun f f' _ => .error fault fault' f f'

theorem Alike.bind {w w' : Work α} {k k' : α → Work β} (h : Alike pairs rel w w')
    (next : ∀ a a', rel a a' → Alike pairs rel' (k a) (k' a')) :
    Alike pairs rel' (w >>= k) (w' >>= k') := by
  intro f f' frames
  simp only [Bind.bind, EStateM.bind]
  rcases (h f f' frames).split with
    ⟨fault, fault', g, g', left, right⟩ | ⟨a, a', g, g', left, right, value, frames'⟩
  · rw [left, right]
    exact .error fault fault' g g'
  · rw [left, right]
    exact next a a' value g g' frames'

end Calculus

theorem pushAlike {v v' : Value} (h : v.Matches pairs v') :
    Alike pairs (fun _ _ => True) (push v) (push v') :=
  fun _ _ frames => .ok trivial (frames.push h)

theorem operandCases {f f' : Frame} (frames : f.Matches pairs f') :
    f.operands = [] ∧ f'.operands = [] ∨
    ∃ v v' rest rest', f.operands = v :: rest ∧ f'.operands = v' :: rest' ∧ v.Matches pairs v' ∧
      rest.Forall₂ (Value.Matches pairs) rest' := by
  have operands := frames.operands
  cases left : f.operands with
  | nil =>
    rw [left] at operands
    exact .inl ⟨rfl, List.forall₂_nil_left_iff.mp operands⟩
  | cons v rest =>
    rw [left] at operands
    obtain ⟨v', rest', value, tail, right⟩ := List.forall₂_cons_left_iff.mp operands
    exact .inr ⟨v, v', rest, rest', rfl, right, value, tail⟩

theorem peekAlike : Alike pairs (Value.Matches pairs) peek peek := by
  intro f f' frames
  unfold peek
  rcases operandCases frames with ⟨left, right⟩ | ⟨v, v', rest, rest', left, right, value, _⟩
  · rw [left, right]
    exact .error _ _ f f'
  · rw [left, right]
    exact .ok value frames

theorem popAlike : Alike pairs (Value.Matches pairs) pop pop := by
  intro f f' frames
  unfold pop
  rcases operandCases frames with ⟨left, right⟩ | ⟨v, v', rest, rest', left, right, value, tail⟩
  · rw [left, right]
    exact .error _ _ f f'
  · rw [left, right]
    exact .ok value ⟨frames.method, frames.pc, frames.locals, tail⟩

theorem loadAlike (slot : Nat) : Alike pairs (Value.Matches pairs) (loadLocal slot) (loadLocal slot) := by
  intro f f' frames
  unfold loadLocal
  rcases relCases (frames.locals.slots slot) with ⟨left, right⟩ | ⟨v, v', left, right, value⟩
  · rw [left, right]
    exact .error _ _ f f'
  · rw [left, right]
    exact .ok value frames

theorem storeAlike (slot : Nat) {v v' : Value} (h : v.Matches pairs v') :
    Alike pairs (fun _ _ => True) (storeLocal slot v) (storeLocal slot v') := by
  intro f f' frames
  have size := frames.locals.size
  unfold storeLocal
  by_cases inside : slot < f.locals.size
  · have inside' : slot < f'.locals.size := size ▸ inside
    rw [if_pos inside, if_pos inside']
    refine .ok trivial ⟨frames.method, frames.pc, ⟨by simpa using size, fun other => ?_⟩, frames.operands⟩
    rw [Locals.getSet _ _ _ _ inside, Locals.getSet _ _ _ _ inside']
    split
    · exact .some h
    · exact frames.locals.slots other
  · rw [if_neg inside, if_neg (size ▸ inside)]
    exact .error _ _ f f'

theorem popLongAlike : Alike pairs Eq popLong popLong := by
  refine popAlike.bind fun v v' value => ?_
  cases value with
  | int n => exact pureAlike rfl
  | _ => exact throwAlike _ _

theorem popReferenceAlike : Alike pairs (Value.Matches pairs) popReference popReference := by
  refine popAlike.bind fun v v' value => ?_
  cases value with
  | null => exact pureAlike .null
  | int n => exact throwAlike _ _
  | str text => exact pureAlike (.str text)
  | ref paired => exact pureAlike (.ref paired)

theorem popObjectAlike : Alike pairs (Option.Rel pairs) popObject popObject := by
  refine popReferenceAlike.bind fun v v' value => ?_
  cases value with
  | null => exact pureAlike .none
  | ref paired => exact pureAlike (.some paired)
  | _ => exact throwAlike _ _

theorem popManyAlike (n : Nat) {args args' : List Value}
    (h : args.Forall₂ (Value.Matches pairs) args') :
    Alike pairs (List.Forall₂ (Value.Matches pairs)) (popMany n args) (popMany n args') := by
  induction n generalizing args args' with
  | zero => exact pureAlike h
  | succ n ih => exact popAlike.bind fun v v' value => ih (.cons value h)

theorem popKindAlike (kind : Kind) : Alike pairs (Value.Matches pairs) (popKind kind) (popKind kind) := by
  cases kind with
  | reference => exact popReferenceAlike
  | long =>
    refine popLongAlike.bind fun n n' same => ?_
    subst same
    exact pureAlike (.int n)

theorem onObjectAlike (name : String) {effect effect' : ObjectId → Effect}
    (h : ∀ o o', pairs o o' → (effect o).Matches pairs (effect' o')) :
    Alike pairs (Effect.Matches pairs) (onObject name effect) (onObject name effect') := by
  refine popObjectAlike.bind fun o o' object => ?_
  cases object with
  | none => exact pureAlike (.raise _ _)
  | some paired => exact pureAlike (h _ _ paired)

theorem pushNext {v v' : Value} (h : v.Matches pairs v') :
    Alike pairs (Effect.Matches pairs) (do push v; return .next) (do push v'; return .next) :=
  (pushAlike h).bind fun _ _ _ => pureAlike .next

theorem performAlike (argCount : MethodId → Nat) (op : Op) :
    Alike pairs (Effect.Matches pairs) (perform argCount op) (perform argCount op) := by
  cases op with
  | nop => exact pureAlike .next
  | pushNull => exact pushNext .null
  | pushString s => exact pushNext (.str s)
  | pushLong n => exact pushNext (.int n)
  | load kind slot => exact (loadAlike _).bind fun v v' value => pushNext value
  | store kind slot =>
    exact (popKindAlike kind).bind fun v v' value =>
      (storeAlike _ value).bind fun _ _ _ => pureAlike .next
  | pop => exact popAlike.bind fun _ _ _ => pureAlike .next
  | dup => exact peekAlike.bind fun v v' value => pushNext value
  | swap =>
    exact popAlike.bind fun v v' first => popAlike.bind fun w w' second =>
      (pushAlike first).bind fun _ _ _ => pushNext second
  | arith op =>
    refine popLongAlike.bind fun n n' same => popLongAlike.bind fun k k' same' => ?_
    subst same same'
    cases op.apply? k n with
    | none => exact pureAlike (.raise _ _)
    | some result => exact pushNext (.int result)
  | negate =>
    refine popLongAlike.bind fun n n' same => ?_
    subst same
    exact pushNext (.int _)
  | compare =>
    refine popLongAlike.bind fun n n' same => popLongAlike.bind fun k k' same' => ?_
    subst same same'
    exact pushNext (.int _)
  | branch cond target =>
    refine popLongAlike.bind fun n n' same => ?_
    subst same
    split
    · exact pureAlike (.jump target)
    · exact pureAlike .next
  | branchNull onNull target =>
    refine popReferenceAlike.bind fun v v' value => ?_
    have same : (v == .null) = (v' == .null) := by cases value <;> rfl
    rw [same]
    split
    · exact pureAlike (.jump target)
    · exact pureAlike .next
  | goto target => exact pureAlike (.jump target)
  | ret kind =>
    cases kind with
    | none => exact pureAlike (.finish .none)
    | some kind => exact (popKindAlike kind).bind fun v v' value => pureAlike (.finish (.some value))
  | getStatic field => exact pureAlike (.readStatic field)
  | putStatic field => exact popAlike.bind fun v v' value => pureAlike (.writeStatic field value)
  | getField field => exact onObjectAlike _ fun _ _ paired => .readField paired field
  | putField field =>
    exact popAlike.bind fun v v' value => onObjectAlike _ fun _ _ paired => .writeField paired field value
  | invokeStatic callee =>
    exact (popManyAlike _ .nil).bind fun _ _ values => pureAlike (.call callee values)
  | new className => exact pureAlike (.create className)
  | throw => exact onObjectAlike _ fun _ _ paired => .rethrow paired
  | monitorEnter =>
    refine peekAlike.bind fun v v' value => ?_
    cases value with
    | null => exact popAlike.bind fun _ _ _ => pureAlike (.raise _ _)
    | ref paired => exact pureAlike (.enter paired)
    | _ => exact throwAlike _ _
  | monitorExit => exact onObjectAlike _ fun _ _ paired => .exit paired

end Frame.Work

end BytecodeChecker
