import BytecodeChecker.Machine

/-! An instruction works on the operands and locals of its frame, and unless a local is not there it
fails only for want of an operand or for an operand of the wrong type. References that lead to objects
go on leading to objects. -/
namespace BytecodeChecker

def Fault.OfOperands : Fault → Prop
  | .stackUnderflow .. | .typeMismatch .. => True
  | _ => False

def Value.Inside (size : Nat) (v : Value) : Prop := ∀ o, v = .ref o → o.index < size

structure Frame.Inside (size : Nat) (f : Frame) : Prop where
  locals : ∀ slot v, f.locals.get? slot = some v → v.Inside size
  operands : ∀ v ∈ f.operands, v.Inside size

theorem Value.plainInside {v : Value} (plain : v.ref? = none) (size : Nat) : v.Inside size := by
  rintro o rfl
  cases plain

section Mono

variable {size more : Nat} (le : size ≤ more)
include le

theorem Value.Inside.mono {v : Value} (h : v.Inside size) : v.Inside more :=
  fun o same => Nat.lt_of_lt_of_le (h o same) le

theorem Frame.Inside.mono {f : Frame} (h : f.Inside size) : f.Inside more :=
  ⟨fun slot v found => (h.locals slot v found).mono le, fun v member => (h.operands v member).mono le⟩

end Mono

namespace Frame

variable {size : Nat} {f : Frame}

theorem Inside.push (h : f.Inside size) {v : Value} (value : v.Inside size) : (f.push v).Inside size :=
  ⟨h.locals, List.forall_mem_cons.mpr ⟨value, h.operands⟩⟩

theorem Inside.moved (h : f.Inside size) (pc : Nat) : Frame.Inside size { f with pc } :=
  ⟨h.locals, h.operands⟩

theorem Inside.pushAll (h : f.Inside size) {value : Option Value} (inside : ∀ v ∈ value, v.Inside size) :
    (f.pushAll value).Inside size := by
  cases value with
  | none => exact h
  | some v => exact h.push (inside v rfl)

theorem Inside.drop (h : f.Inside size) : f.drop.Inside size :=
  ⟨h.locals, fun v member => h.operands v (List.mem_of_mem_tail member)⟩

theorem startInside (id : MethodId) (method : Method) {args : List Value}
    (inside : ∀ v ∈ args, v.Inside size) : (start id method args).Inside size := by
  refine ⟨fun slot v found => ?_, nofun⟩
  simp only [start, Locals.getOfArgs] at found
  split at found
  · cases Option.some.inj found
    cases given : args[slot]? with
    | none => exact Value.plainInside rfl size
    | some v => exact inside v (List.mem_of_getElem? given)
  · cases found

structure Kept (size : Nat) (f f' : Frame) : Prop where
  method : f'.method = f.method
  pc : f'.pc = f.pc
  locals : f'.locals.size = f.locals.size
  values : f'.Inside size

theorem Kept.trans {f f' f'' : Frame} (first : f.Kept size f') (second : f'.Kept size f'') :
    f.Kept size f'' :=
  ⟨second.method.trans first.method, second.pc.trans first.pc, second.locals.trans first.locals,
    second.values⟩

theorem Kept.mono {more : Nat} {f f' : Frame} (kept : f.Kept size f') (le : size ≤ more) : f.Kept more f' :=
  ⟨kept.method, kept.pc, kept.locals, kept.values.mono le⟩

theorem Kept.push {f f' : Frame} (kept : f.Kept size f') {v : Value} (inside : v.Inside size) :
    f.Kept size (f'.push v) :=
  ⟨kept.method, kept.pc, kept.locals, kept.values.push inside⟩

theorem Kept.drop {f f' : Frame} (kept : f.Kept size f') : f.Kept size f'.drop :=
  ⟨kept.method, kept.pc, kept.locals, kept.values.drop⟩

end Frame

def Effect.Fits (size : Nat) (op : Op) : Effect → Prop
  | .next => op.fallsThrough = true
  | .jump target => op.branchTarget? = some target
  | .raise .. => True
  | .rethrow o => o.index < size
  | .finish value => ∀ v ∈ value, v.Inside size
  | .call callee args => op = .invokeStatic callee ∧ ∀ v ∈ args, v.Inside size
  | .create _ => op.fallsThrough = true
  | .readStatic field => op = .getStatic field
  | .writeStatic field v => op = .putStatic field ∧ v.Inside size
  | .readField o field => op = .getField field ∧ o.index < size
  | .writeField o field v => op = .putField field ∧ o.index < size ∧ v.Inside size
  | .enter o => op = .monitorEnter ∧ o.index < size
  | .exit o => op = .monitorExit ∧ o.index < size

namespace Frame.Work

variable {size slots : Nat}

/- Work that started in a frame ends in one that keeps its place, also when it lacks an operand. -/
def Ends {α : Type} (size : Nat) (f : Frame) (post : α → Prop) : EStateM.Result Fault Frame α → Prop
  | .ok a f' => post a ∧ f.Kept size f'
  | .error fault f' => fault.OfOperands ∧ f.Kept size f'

def Safe {α : Type} (size slots : Nat) (post : α → Prop) (w : Work α) : Prop :=
  ∀ f, f.Inside size → slots ≤ f.locals.size → Ends size f post (w f)

section Calculus

variable {α β : Type} {post : α → Prop} {post' : β → Prop}

theorem pureSafe {a : α} (h : post a) : Safe size slots post (pure a) :=
  fun _ inside _ => ⟨h, rfl, rfl, rfl, inside⟩

theorem throwSafe {fault : Fault} (h : fault.OfOperands) : Safe size slots post (throw fault) :=
  fun _ inside _ => ⟨h, rfl, rfl, rfl, inside⟩

theorem Safe.bind {w : Work α} {k : α → Work β} (h : Safe size slots post w)
    (next : ∀ a, post a → Safe size slots post' (k a)) : Safe size slots post' (w >>= k) := by
  intro f inside room
  have first := h f inside room
  simp only [Bind.bind, EStateM.bind]
  cases ran : w f with
  | error fault f' =>
    rw [ran] at first
    exact first
  | ok a f' =>
    rw [ran] at first
    obtain ⟨here, kept⟩ := first
    have second := next a here f' kept.values (kept.locals ▸ room)
    change Ends size f post' (k a f')
    cases ran' : k a f' with
    | error fault f'' =>
      rw [ran'] at second
      exact ⟨second.1, kept.trans second.2⟩
    | ok b f'' =>
      rw [ran'] at second
      exact ⟨second.1, kept.trans second.2⟩

end Calculus

theorem pushSafe {v : Value} (h : v.Inside size) : Safe size slots (fun _ => True) (push v) :=
  fun _ inside _ => ⟨trivial, rfl, rfl, rfl, inside.push h⟩

theorem peekSafe : Safe size slots (Value.Inside size) peek := by
  intro f inside _
  have operands := inside.operands
  unfold peek
  cases same : f.operands with
  | nil => exact ⟨trivial, rfl, rfl, rfl, inside⟩
  | cons v rest =>
    rw [same] at operands
    exact ⟨(List.forall_mem_cons.mp operands).1, rfl, rfl, rfl, inside⟩

theorem popSafe : Safe size slots (Value.Inside size) pop := by
  intro f inside _
  have operands := inside.operands
  unfold pop
  cases same : f.operands with
  | nil => exact ⟨trivial, rfl, rfl, rfl, inside⟩
  | cons v rest =>
    rw [same] at operands
    obtain ⟨head, tail⟩ := List.forall_mem_cons.mp operands
    exact ⟨head, rfl, rfl, rfl, inside.locals, tail⟩

theorem loadSafe {slot : Nat} (used : slot < slots) : Safe size slots (Value.Inside size) (loadLocal slot) := by
  intro f inside room
  unfold loadLocal
  cases found : f.locals.get? slot with
  | none =>
    have outside := (f.locals.getNoneIff slot).mp found
    omega
  | some v => exact ⟨inside.locals slot v found, rfl, rfl, rfl, inside⟩

theorem storeSafe {slot : Nat} (used : slot < slots) {v : Value} (h : v.Inside size) :
    Safe size slots (fun _ => True) (storeLocal slot v) := by
  intro f inside room
  have within : slot < f.locals.size := Nat.lt_of_lt_of_le used room
  unfold storeLocal
  rw [if_pos within]
  refine ⟨trivial, rfl, rfl, Locals.sizeSet _ _ _, fun other w found => ?_, inside.operands⟩
  rw [Locals.getSet _ _ _ _ within] at found
  split at found
  · cases Option.some.inj found
    exact h
  · exact inside.locals other w found

theorem popLongSafe : Safe size slots (fun _ => True) popLong := by
  refine popSafe.bind fun v _ => ?_
  cases v with
  | int n => exact pureSafe trivial
  | _ => exact throwSafe trivial

theorem popReferenceSafe : Safe size slots (Value.Inside size) popReference := by
  refine popSafe.bind fun v inside => ?_
  split
  · exact pureSafe inside
  · exact throwSafe trivial

theorem popObjectSafe : Safe size slots (fun found => ∀ o ∈ found, o.index < size) popObject := by
  refine popReferenceSafe.bind fun v inside => ?_
  cases v with
  | null => exact pureSafe nofun
  | ref o =>
    refine pureSafe fun o' same => ?_
    cases same
    exact inside o rfl
  | _ => exact throwSafe trivial

theorem popManySafe (n : Nat) {popped : List Value} (h : ∀ v ∈ popped, v.Inside size) :
    Safe size slots (fun args => ∀ v ∈ args, v.Inside size) (popMany n popped) := by
  induction n generalizing popped with
  | zero => exact pureSafe h
  | succ n ih => exact popSafe.bind fun v inside => ih (List.forall_mem_cons.mpr ⟨inside, h⟩)

theorem popKindSafe (kind : Kind) : Safe size slots (Value.Inside size) (popKind kind) := by
  cases kind with
  | reference => exact popReferenceSafe
  | long => exact popLongSafe.bind fun n _ => pureSafe (Value.plainInside rfl size)

theorem onObjectSafe {op : Op} (name : String) {effect : ObjectId → Effect}
    (h : ∀ o : ObjectId, o.index < size → (effect o).Fits size op) :
    Safe size slots (Effect.Fits size op) (onObject name effect) := by
  refine popObjectSafe.bind fun found inside => ?_
  cases found with
  | none => exact pureSafe trivial
  | some o => exact pureSafe (h o (inside o rfl))

theorem pushNextSafe {op : Op} (falls : op.fallsThrough = true) {v : Value} (h : v.Inside size) :
    Safe size slots (Effect.Fits size op) (do push v; return .next) :=
  (pushSafe h).bind fun _ _ => pureSafe falls

theorem performSafe (argCount : MethodId → Nat) {op : Op}
    (used : ∀ slot, op.slot? = some slot → slot.toNat < slots) :
    Safe size slots (Effect.Fits size op) (perform argCount op) := by
  have plain : ∀ {v : Value}, v.ref? = none → v.Inside size := fun h => Value.plainInside h size
  cases op with
  | nop => exact pureSafe rfl
  | pushNull => exact pushNextSafe rfl (plain rfl)
  | pushString s => exact pushNextSafe rfl (plain rfl)
  | pushLong n => exact pushNextSafe rfl (plain rfl)
  | load kind slot => exact (loadSafe (used slot rfl)).bind fun v inside => pushNextSafe rfl inside
  | store kind slot =>
    exact (popKindSafe kind).bind fun v inside =>
      (storeSafe (used slot rfl) inside).bind fun _ _ => pureSafe rfl
  | pop => exact popSafe.bind fun _ _ => pureSafe rfl
  | dup => exact peekSafe.bind fun v inside => pushNextSafe rfl inside
  | swap =>
    exact popSafe.bind fun v first => popSafe.bind fun w second =>
      (pushSafe first).bind fun _ _ => pushNextSafe rfl second
  | arith op =>
    refine popLongSafe.bind fun n _ => popLongSafe.bind fun k _ => ?_
    cases op.apply? k n with
    | none => exact pureSafe trivial
    | some result => exact pushNextSafe rfl (plain rfl)
  | negate => exact popLongSafe.bind fun n _ => pushNextSafe rfl (plain rfl)
  | compare => exact popLongSafe.bind fun n _ => popLongSafe.bind fun k _ => pushNextSafe rfl (plain rfl)
  | branch cond target =>
    refine popLongSafe.bind fun n _ => ?_
    split
    · exact pureSafe rfl
    · exact pureSafe rfl
  | branchNull onNull target =>
    refine popReferenceSafe.bind fun v _ => ?_
    split
    · exact pureSafe rfl
    · exact pureSafe rfl
  | goto target => exact pureSafe rfl
  | ret kind =>
    cases kind with
    | none => exact pureSafe nofun
    | some kind =>
      refine (popKindSafe kind).bind fun v inside => pureSafe fun w same => ?_
      cases same
      exact inside
  | getStatic field => exact pureSafe rfl
  | putStatic field => exact popSafe.bind fun v inside => pureSafe ⟨rfl, inside⟩
  | getField field => exact onObjectSafe _ fun o inside => ⟨rfl, inside⟩
  | putField field =>
    exact popSafe.bind fun v inside => onObjectSafe _ fun o there => ⟨rfl, there, inside⟩
  | invokeStatic callee =>
    exact (popManySafe _ (List.forall_mem_nil _)).bind fun args inside => pureSafe ⟨rfl, inside⟩
  | new className => exact pureSafe rfl
  | throw => exact onObjectSafe _ fun o inside => inside
  | monitorEnter =>
    refine peekSafe.bind fun v inside => ?_
    cases v with
    | null => exact popSafe.bind fun _ _ => pureSafe trivial
    | ref o => exact pureSafe ⟨rfl, inside o rfl⟩
    | _ => exact throwSafe trivial
  | monitorExit => exact onObjectSafe _ fun o inside => ⟨rfl, inside⟩

end Frame.Work

end BytecodeChecker
