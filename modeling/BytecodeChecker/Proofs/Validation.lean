import BytecodeChecker.Proofs.Checked
import BytecodeChecker.Proofs.Descriptors

/-! Loading accepts exactly the models that can be run, and what it makes of them is what they say: methods
in their order, instructions with their operands, and a native method for every other name that is called. -/
namespace BytecodeChecker

namespace Model

inductive Code.Jumps (target : UInt64) : Code → Prop where
  | branch (cond : Cond) : Jumps target (.branch cond target)
  | branchNull (onNull : Bool) : Jumps target (.branchNull onNull target)
  | goto : Jumps target (.goto target)

inductive Code.Uses (slot : UInt16) : Code → Prop where
  | load (kind : Kind) : Uses slot (.load kind slot)
  | store (kind : Kind) : Uses slot (.store kind slot)

inductive Code.Accesses (text : String) : Code → Prop where
  | getStatic : Accesses text (.getStatic text)
  | putStatic : Accesses text (.putStatic text)
  | getField : Accesses text (.getField text)
  | putField : Accesses text (.putField text)

inductive Code.Leaves : Code → Prop where
  | goto (target : UInt64) : Leaves (.goto target)
  | ret (kind : Option Kind) : Leaves (.ret kind)
  | throw : Leaves .throw

structure Method.Sound (d : Model.Method) : Prop where
  coded : d.code ≠ []
  locals : ∀ signature, Signature.ofString? d.signature = some signature →
    signature.argCount ≤ d.maxLocals.toNat
  targets : ∀ i ∈ d.code, ∀ target, Code.Jumps target i → target.toNat < d.code.length
  slots : ∀ i ∈ d.code, ∀ slot, Code.Uses slot i → slot < d.maxLocals
  fields : ∀ i ∈ d.code, ∀ text, Code.Accesses text i → ∃ field, Load.Names text field
  ends : ∀ i, d.code.getLast? = some i → Code.Leaves i
  handlers : ∀ h ∈ d.handlers, h.start < h.stop ∧ h.stop.toNat ≤ d.code.length ∧
    h.target.toNat < d.code.length

def Starts (model : Model) (text : String) : Prop :=
  ∃ d ∈ model.methods, d.signature = text ∧ d.native = false ∧
    ∃ signature, Signature.ofString? text = some signature ∧ signature.argCount = 0

structure Valid (model : Model) : Prop where
  signatures : ∀ text ∈ model.signatures, (Signature.ofString? text).isSome
  distinct : model.signatures.Nodup
  callees : ∀ d ∈ model.methods, ∀ text, .invokeStatic text ∈ d.code → text ∉ model.signatures →
    (Signature.ofString? text).isSome
  natives : ∀ d ∈ model.methods, d.native = true → d.code = [] ∧ d.handlers = []
  interpreted : ∀ d ∈ model.methods, d.native = false → d.Sound
  entry : model.Starts model.entry
  threads : ∀ text ∈ model.threads, model.Starts text

end Model

/- An instruction as the model has it and as the program does. A callee is the method with the symbol that
the model wrote. -/
inductive Op.Renders (p : Program) : Model.Code → Op → Prop where
  | nop : Renders p .nop .nop
  | pushNull : Renders p .pushNull .pushNull
  | pushString (text : String) : Renders p (.pushString text) (.pushString text)
  | pushLong (n : Int64) : Renders p (.pushLong n) (.pushLong n)
  | load (kind : Kind) (slot : UInt16) : Renders p (.load kind slot) (.load kind slot)
  | store (kind : Kind) (slot : UInt16) : Renders p (.store kind slot) (.store kind slot)
  | pop : Renders p .pop .pop
  | dup : Renders p .dup .dup
  | swap : Renders p .swap .swap
  | arith (op : Arith) : Renders p (.arith op) (.arith op)
  | negate : Renders p .negate .negate
  | compare : Renders p .compare .compare
  | branch (cond : Cond) (target : UInt64) : Renders p (.branch cond target) (.branch cond target.toNat)
  | branchNull (onNull : Bool) (target : UInt64) :
      Renders p (.branchNull onNull target) (.branchNull onNull target.toNat)
  | goto (target : UInt64) : Renders p (.goto target) (.goto target.toNat)
  | ret (kind : Option Kind) : Renders p (.ret kind) (.ret kind)
  | getStatic {text : String} {field : FieldRef} (names : Load.Names text field) :
      Renders p (.getStatic text) (.getStatic field)
  | putStatic {text : String} {field : FieldRef} (names : Load.Names text field) :
      Renders p (.putStatic text) (.putStatic field)
  | getField {text : String} {field : FieldRef} (names : Load.Names text field) :
      Renders p (.getField text) (.getField field)
  | putField {text : String} {field : FieldRef} (names : Load.Names text field) :
      Renders p (.putField text) (.putField field)
  | invokeStatic {text : String} {id : MethodId} (named : (p.method? id).map (·.symbol) = some text) :
      Renders p (.invokeStatic text) (.invokeStatic id)
  | new (className : String) : Renders p (.new className) (.new className)
  | throw : Renders p .throw .throw
  | monitorEnter : Renders p .monitorEnter .monitorEnter
  | monitorExit : Renders p .monitorExit .monitorExit

structure Method.Renders (p : Program) (d : Model.Method) (m : Method) : Prop where
  symbol : m.symbol = d.signature
  signature : Signature.ofString? d.signature = some m.signature
  native : m.native = d.native
  locals : d.native = false → m.maxLocals = d.maxLocals
  code : List.Forall₂ (Op.Renders p) d.code m.code.toList
  handlers : m.handlers = d.handlers.map fun h => ⟨h.start.toNat, h.stop.toNat, h.target.toNat, h.className⟩

structure Method.Stub (m : Method) : Prop where
  native : m.native = true
  code : m.code = #[]
  handlers : m.handlers = []
  signature : Signature.ofString? m.symbol = some m.signature

structure Program.Renders (model : Model) (p : Program) : Prop where
  name : p.name = model.name
  declared : ∀ (i : Nat) d, model.methods[i]? = some d → ∃ m, p.method? ⟨i⟩ = some m ∧ m.Renders p d
  stubs : ∀ (i : Nat) text, model.undeclared[i]? = some text →
    ∃ m, p.method? ⟨model.methods.length + i⟩ = some m ∧ m.symbol = text ∧ m.Stub
  size : p.methods.size = model.methods.length + model.undeclared.length
  entry : (p.method? p.entry).map (·.symbol) = some model.entry
  threads : p.threads.map (fun id => (p.method? id).map (·.symbol)) = model.threads.map some
  lookup : ∀ text id, p.lookup? text = some id ↔ (p.method? id).map (·.symbol) = some text

namespace Model.Code

variable {i : Code}

theorem jumpsIff {target : UInt64} : Jumps target i ↔ i.branchTarget? = some target := by
  constructor
  · rintro (_ | _ | _) <;> rfl
  · intro h
    cases i <;> cases h <;> constructor

theorem usesIff {slot : UInt16} : Uses slot i ↔ i.slot? = some slot := by
  constructor
  · rintro (_ | _) <;> rfl
  · intro h
    cases i <;> cases h <;> constructor

theorem accessesIff {text : String} : Accesses text i ↔ i.field? = some text := by
  constructor
  · rintro (_ | _ | _ | _) <;> rfl
  · intro h
    cases i <;> cases h <;> constructor

theorem leavesIff : Leaves i ↔ i.fallsThrough = false := by
  constructor
  · rintro (_ | _ | _) <;> rfl
  · intro h
    cases i <;> cases h <;> constructor

end Model.Code

namespace Load

theorem calleesIff {methods : List Model.Method} {text : String} :
    text ∈ callees methods ↔ ∃ d ∈ methods, .invokeStatic text ∈ d.code := by
  have called : ∀ i : Model.Code, i.callee? = some text ↔ i = .invokeStatic text := by
    intro i
    cases i <;> simp [Instruction.callee?]
  simp [callees, called]

theorem mapAll {ε α β : Type} {f : α → Except ε β} {xs : List α} (each : ∀ x ∈ xs, ∃ y, f x = .ok y) :
    ∃ ys, xs.mapM f = .ok ys := by
  induction xs with
  | nil => exact ⟨[], rfl⟩
  | cons x xs ih =>
    obtain ⟨y, first⟩ := each x List.mem_cons_self
    obtain ⟨ys, others⟩ := ih fun x' member => each x' (List.mem_cons_of_mem _ member)
    exact ⟨y :: ys, mapOk.mpr (.cons first (mapOk.mp others))⟩

theorem forAll {ε α : Type} {f : α → Except ε Unit} {xs : List α} (each : ∀ x ∈ xs, f x = .ok ()) :
    xs.forM f = .ok () := by
  induction xs with
  | nil => rfl
  | cons x xs ih =>
    exact bindOk.mpr ⟨(), each x List.mem_cons_self, ih fun x' member => each x' (List.mem_cons_of_mem _ member)⟩

theorem firstPlace {α : Type} {key : α → String} {xs : List α} (distinct : (xs.map key).Nodup) {text : String}
    {i : Nat} : xs.findIdx? (fun x => key x == text) = some i ↔ (xs[i]?).map key = some text := by
  rw [List.findIdx?_eq_some_iff_getElem]
  constructor
  · intro h
    obtain ⟨inside, same, _⟩ := h
    simp only [List.getElem?_eq_getElem inside, Option.map_some]
    simpa using same
  · intro h
    obtain ⟨x, found, same⟩ := Option.map_eq_some_iff.mp h
    obtain ⟨inside, rfl⟩ := List.getElem?_eq_some_iff.mp found
    refine ⟨inside, by simpa using same, fun j before again => ?_⟩
    have equal : (xs.map key)[j]? = (xs.map key)[i]? := by
      have earlier : j < xs.length := by omega
      have again : key xs[j] = text := by simpa using again
      simp [inside, earlier, same, again]
    have place := (List.getElem?_inj (by simp; omega) distinct).mp equal
    omega

theorem spellAll {texts : List String} (each : ∀ text ∈ texts, (Signature.ofString? text).isSome) :
    ∃ symbols, List.Forall₂ Spells texts symbols := by
  induction texts with
  | nil => exact ⟨[], .nil⟩
  | cons text texts ih =>
    obtain ⟨signature, read⟩ := Option.isSome_iff_exists.mp (each text List.mem_cons_self)
    obtain ⟨symbols, others⟩ := ih fun later member => each later (List.mem_cons_of_mem _ member)
    exact ⟨⟨text, signature⟩ :: symbols, .cons ⟨rfl, read⟩ others⟩

theorem spelledAll {texts : List String} {symbols : List Symbol} (spelled : List.Forall₂ Spells texts symbols) :
    ∀ text ∈ texts, (Signature.ofString? text).isSome := by
  induction spelled with
  | nil => simp
  | cons first _ ih =>
    intro text member
    rcases List.mem_cons.mp member with rfl | later
    · simp [first.read]
    · exact ih text later

theorem calleeOk {symbols : List Symbol} (distinct : (symbols.map (·.text)).Nodup) {text : String} {id : MethodId} :
    callee symbols text = .ok id ↔ (symbols[id.index]?).map (·.text) = some text := by
  rw [← firstPlace distinct, callee]
  obtain ⟨n⟩ := id
  cases found : symbols.findIdx? (fun symbol => symbol.text == text) with
  | none => simp
  | some i => simp

theorem rootOk {methods : List Method} (distinct : (methods.map (·.symbol)).Nodup) {text : String} {id : MethodId} :
    root methods text = .ok id ↔
      ∃ m, methods[id.index]? = some m ∧ m.symbol = text ∧ m.isThreadEntry = true := by
  obtain ⟨n⟩ := id
  constructor
  · intro h
    unfold root at h
    split at h
    · cases h
    · rename_i i first
      split at h
      · rename_i m found
        split at h
        · rename_i fit
          cases h
          have same := (firstPlace distinct).mp first
          rw [found] at same
          exact ⟨m, found, Option.some.inj same, fit⟩
        · cases h
      · cases h
  · intro h
    obtain ⟨m, found, same, fit⟩ := h
    have first : methods.findIdx? (fun m => m.symbol == text) = some n := by
      rw [firstPlace distinct, found, Option.map_some, same]
    simp only [root, first]
    simp [found, fit]

theorem mapOkOf {ε α β : Type} {f : α → Except ε β} {xs : List α} {ys : List β} (h : xs.mapM f = .ok ys) {x : α}
    (member : x ∈ xs) : ∃ y ∈ ys, f x = .ok y := by
  induction mapOk.mp h with
  | nil => cases member
  | cons first others ih =>
    rcases List.mem_cons.mp member with rfl | later
    · exact ⟨_, List.mem_cons_self, first⟩
    · obtain ⟨y, inside, made⟩ := ih (mapOk.mpr others) later
      exact ⟨y, List.mem_cons_of_mem _ inside, made⟩

section Lowering

variable {symbols : List Symbol} {symbol : Symbol} {d : Model.Method} {code : List Op} {m : Method}

theorem Lowered.parts (lowered : Lowered symbols symbol d code m) :
    List.Forall₂ (Resolved (branchTarget symbol.text d.code.length) fieldRef (callee symbols)) d.code code :=
  (mapOk.mp lowered.resolved).imp fun _ _ => resolvedParts

theorem sameFalls {label : UInt64 → Except LoadError Nat} {field : String → Except LoadError FieldRef}
    {number : String → Except LoadError MethodId} {written : List Model.Code}
    (parts : List.Forall₂ (Resolved label field number) written code) :
    code.getLast?.map Instruction.fallsThrough = written.getLast?.map Instruction.fallsThrough := by
  have same : code.map Instruction.fallsThrough = written.map Instruction.fallsThrough := by
    induction parts with
    | nil => rfl
    | cons first _ ih => simp [first.falls, ih]
  rw [← List.getLast?_map, ← List.getLast?_map, same]

theorem Lowered.sound (lowered : Lowered symbols symbol d code m) (spells : Spells d.signature symbol) : d.Sound := by
  have each : ∀ i ∈ d.code, ∃ op ∈ code,
      Resolved (branchTarget symbol.text d.code.length) fieldRef (callee symbols) i op := by
    intro i member
    obtain ⟨op, inside, made⟩ := mapOkOf lowered.resolved member
    exact ⟨op, inside, resolvedParts made⟩
  constructor
  case coded => exact lowered.coded
  case locals =>
    intro signature read
    cases spells.read.symm.trans read
    exact lowered.args
  case targets =>
    intro i member target jumps
    obtain ⟨op, _, parts⟩ := each i member
    obtain ⟨_, resolved⟩ := relatedSome parts.target (Model.Code.jumpsIff.mp jumps)
    exact (branchTargetOk.mp resolved).1
  case slots =>
    intro i member slot used
    obtain ⟨op, inside, parts⟩ := each i member
    exact checkSlotOk.mp (forOkAt lowered.slots inside) slot (parts.slot.trans (Model.Code.usesIff.mp used))
  case fields =>
    intro i member text named
    obtain ⟨op, _, parts⟩ := each i member
    obtain ⟨field, resolved⟩ := relatedSome parts.named (Model.Code.accessesIff.mp named)
    exact ⟨field, fieldRefIff.mp resolved⟩
  case ends =>
    intro i final
    have same := sameFalls lowered.parts
    have last := lowered.last
    rw [final] at same
    obtain ⟨op, found, falls⟩ := Option.map_eq_some_iff.mp same
    rw [found] at last
    exact Model.Code.leavesIff.mpr (falls.symm.trans last)
  case handlers =>
    intro h member
    obtain ⟨_, _, made⟩ := mapOkOf lowered.handled member
    exact (handlerOk.mp made).1

theorem lowerSound (sound : d.Sound) (interpreted : d.native = false) (spells : Spells d.signature symbol)
    (known : ∀ i ∈ d.code, ∀ text, i.callee? = some text → ∃ id, callee symbols text = .ok id) :
    ∃ m, method symbols symbol d = .ok m := by
  have each : ∀ i ∈ d.code, ∃ op,
      i.resolve (branchTarget symbol.text d.code.length) fieldRef (callee symbols) = .ok op := by
    intro i member
    apply resolveAll
    · intro target jumps
      exact ⟨_, branchTargetOk.mpr ⟨sound.targets i member target (Model.Code.jumpsIff.mpr jumps), rfl⟩⟩
    · intro text named
      obtain ⟨field, names⟩ := sound.fields i member text (Model.Code.accessesIff.mpr named)
      exact ⟨field, fieldRefIff.mpr names⟩
    · exact known i member
  obtain ⟨code, resolved⟩ := mapAll each
  have parts := (mapOk.mp resolved).imp fun _ _ => resolvedParts
  have slots : code.forM (checkSlot symbol.text d.maxLocals) = .ok () := by
    apply forAll
    intro op member
    obtain ⟨n, found⟩ := List.mem_iff_getElem?.mp member
    obtain ⟨i, there, made⟩ := mapOkAt resolved found
    refine checkSlotOk.mpr fun slot used => ?_
    have same := (resolvedParts made).slot.symm.trans used
    exact sound.slots i (List.mem_of_getElem? there) slot (Model.Code.usesIff.mpr same)
  have last : code.getLast?.any Instruction.fallsThrough = false := by
    have same := sameFalls parts
    cases final : code.getLast? with
    | none => rfl
    | some op =>
      rw [final] at same
      obtain ⟨i, found, falls⟩ := Option.map_eq_some_iff.mp same.symm
      exact falls.symm.trans (Model.Code.leavesIff.mp (sound.ends i found))
  obtain ⟨handlers, handled⟩ := mapAll fun h member =>
    ⟨_, (@handlerOk symbol.text _ _ _).mpr ⟨sound.handlers h member, rfl⟩⟩
  exact ⟨⟨symbol.text, symbol.signature, false, d.maxLocals, code.toArray, handlers⟩, methodOk.mpr (.inr ⟨code,
    interpreted, sound.coded, sound.locals _ spells.read, resolved, slots, last, handled, rfl, rfl, rfl, rfl, rfl⟩)⟩

def Numbers (p : Program) (symbols : List Symbol) : Prop :=
  (symbols.map (·.text)).Nodup ∧ ∀ id, (p.method? id).map (·.symbol) = (symbols[id.index]?).map (·.text)

theorem resolveRenders {p : Program} {name : String} {length : Nat} {i : Model.Code} {op : Op}
    (numbers : Numbers p symbols)
    (h : i.resolve (branchTarget name length) fieldRef (callee symbols) = .ok op) : Op.Renders p i op := by
  cases i
  case branch | branchNull | goto =>
    obtain ⟨found, resolved, last⟩ := bindOk.mp h
    obtain ⟨_, rfl⟩ := branchTargetOk.mp resolved
    cases last
    constructor
  case getStatic | putStatic | getField | putField =>
    obtain ⟨found, resolved, last⟩ := bindOk.mp h
    cases last
    constructor
    exact fieldRefIff.mp resolved
  case invokeStatic =>
    obtain ⟨found, resolved, last⟩ := bindOk.mp h
    cases last
    constructor
    rw [numbers.2]
    exact (calleeOk numbers.1).mp resolved
  all_goals
    cases h
    constructor

theorem methodRenders {p : Program} (numbers : Numbers p symbols) (spells : Spells d.signature symbol)
    (made : method symbols symbol d = .ok m) : m.Renders p d := by
  rcases methodOk.mp made with ⟨native, code, handlers, rfl⟩ | ⟨code, lowered⟩
  · constructor
    case symbol => exact spells.written
    case signature => exact spells.read
    case native => exact native.symm
    case locals => simp [native]
    case code => rw [code]; exact .nil
    case handlers => rw [handlers]; rfl
  · constructor
    case symbol => rw [lowered.symbol, spells.written]
    case signature => rw [lowered.signature, spells.read]
    case native => rw [lowered.native, lowered.interpreted]
    case locals => exact fun _ => lowered.locals
    case code =>
      rw [lowered.code]
      exact (mapOk.mp lowered.resolved).imp fun _ _ => resolveRenders numbers
    case handlers =>
      have handled := mapOk.mp lowered.handled
      generalize d.handlers = written, m.handlers = handlers at handled ⊢
      induction handled with
      | nil => rfl
      | cons first _ ih => rw [(handlerOk.mp first).2, List.map_cons, ih]

end Lowering

theorem onceEach {texts : List String} : texts.eraseDups.Nodup := by
  -- what is left behind the first text is not a tail of the list, so the induction is on its length
  induction length : texts.length using Nat.strong_induction_on generalizing texts with
  | _ n ih =>
    cases texts with
    | nil => exact List.nodup_nil
    | cons text rest =>
      rw [List.eraseDups_cons, List.nodup_cons]
      have shorter : (rest.filter fun other => !other == text).length < n := by
        rw [← length, List.length_cons]
        exact Nat.lt_succ_of_le (List.length_filter_le _ _)
      exact ⟨by simp [List.mem_eraseDups], ih _ shorter rfl⟩

namespace Named

variable {model : Model} {own more : List Symbol}

theorem texts (named : Named model own more) :
    (own ++ more).map (·.text) = model.signatures ++ model.undeclared := by
  rw [List.map_append, spelledTexts named.spelled, spelledTexts named.stubbed]

theorem different (named : Named model own more) : ((own ++ more).map (·.text)).Nodup := by
  rw [named.texts, List.nodup_append]
  refine ⟨named.distinct, onceEach, fun text declared other called => ?_⟩
  rintro rfl
  simp [Model.undeclared, declared] at called

theorem spells (named : Named model own more) {i : Nat} {symbol : Symbol} {d : Model.Method}
    (left : own[i]? = some symbol) (right : model.methods[i]? = some d) : Spells d.signature symbol := by
  obtain ⟨inside, rfl⟩ := List.getElem?_eq_some_iff.mp left
  obtain ⟨declared, rfl⟩ := List.getElem?_eq_some_iff.mp right
  have spells := named.spelled.get (i := i) (by simpa [Model.signatures] using declared) inside
  simpa [Model.signatures] using spells

theorem finds (named : Named model own more) {text : String} (called : text ∈ callees model.methods) :
    ∃ id, callee (own ++ more) text = .ok id := by
  have member : text ∈ (own ++ more).map (·.text) := by
    rw [named.texts, List.mem_append]
    by_cases declared : text ∈ model.signatures
    · exact .inl declared
    · exact .inr (List.mem_eraseDups.mpr (List.mem_filter.mpr ⟨called, by simpa using declared⟩))
  obtain ⟨i, found⟩ := List.mem_iff_getElem?.mp member
  rw [List.getElem?_map] at found
  exact ⟨⟨i⟩, (calleeOk named.different).mpr found⟩

end Named

theorem methodSymbol {symbols : List Symbol} {symbol : Symbol} {d : Model.Method} {m : Method}
    (made : method symbols symbol d = .ok m) : m.symbol = symbol.text := by
  rcases methodParts made with rfl | ⟨_, lowered⟩
  · rfl
  · exact lowered.symbol

namespace Assembled

variable {model : Model} {own more : List Symbol} {methods : List Method}

theorem length (assembled : Assembled model own more methods) : methods.length = model.methods.length := by
  rw [mapOkLength assembled.checked, List.length_zip, assembled.counted, Nat.min_self]

theorem symbols (assembled : Assembled model own more methods) :
    (methods ++ more.map nativeMethod).map (·.symbol) = (own ++ more).map (·.text) := by
  have zipped : methods.map (·.symbol) = ((own.zip model.methods).map Prod.fst).map (·.text) := by
    have checked := mapOk.mp assembled.checked
    clear assembled
    generalize own.zip model.methods = pairs at checked ⊢
    induction checked with
    | nil => rfl
    | cons first _ ih => rw [List.map_cons, List.map_cons, List.map_cons, ih, methodSymbol first]
  rw [List.map_fst_zip (Nat.le_of_eq assembled.counted)] at zipped
  rw [List.map_append, List.map_append, zipped, List.map_map]
  rfl

theorem methodAt (assembled : Assembled model own more methods) {i : Nat} {d : Model.Method}
    (found : model.methods[i]? = some d) : ∃ symbol m, Spells d.signature symbol ∧
      methods[i]? = some m ∧ method (own ++ more) symbol d = .ok m := by
  have made : i < methods.length := assembled.length ▸ (List.getElem?_eq_some_iff.mp found).1
  obtain ⟨⟨symbol, d'⟩, paired, ok⟩ := mapOkAt assembled.checked (List.getElem?_eq_getElem made)
  obtain ⟨left, right⟩ := List.getElem?_zip_eq_some.mp paired
  cases found.symm.trans right
  exact ⟨symbol, methods[i], assembled.spells left found, List.getElem?_eq_getElem made, ok⟩

end Assembled

section Roots

variable {model : Model} {own more : List Symbol} {methods : List Method}

theorem Assembled.rootAt (assembled : Assembled model own more methods) {text : String} {id : MethodId} :
    root (methods ++ more.map nativeMethod) text = .ok id ↔
      ∃ m, (methods ++ more.map nativeMethod)[id.index]? = some m ∧ m.symbol = text ∧ m.isThreadEntry = true :=
  rootOk (assembled.symbols ▸ assembled.different)

theorem entryIff {symbols : List Symbol} {symbol : Symbol} {d : Model.Method} {m : Method}
    (made : method symbols symbol d = .ok m) :
    m.isThreadEntry = true ↔ d.native = false ∧ symbol.signature.argCount = 0 := by
  rcases methodOk.mp made with ⟨native, _, _, rfl⟩ | ⟨_, lowered⟩
  · simp [Method.isThreadEntry, nativeMethod, native]
  · simp [Method.isThreadEntry, lowered.native, lowered.interpreted, lowered.signature]

theorem Assembled.starts (assembled : Assembled model own more methods) {text : String} :
    (∃ id, root (methods ++ more.map nativeMethod) text = .ok id) ↔ model.Starts text := by
  have length := assembled.length
  constructor
  · intro h
    obtain ⟨id, ok⟩ := h
    obtain ⟨m, found, rfl, fit⟩ := assembled.rootAt.mp ok
    by_cases early : id.index < methods.length
    · rw [List.getElem?_append_left early] at found
      have there : id.index < model.methods.length := by omega
      obtain ⟨symbol, m', spells, again, made⟩ := assembled.methodAt (List.getElem?_eq_getElem there)
      cases found.symm.trans again
      obtain ⟨interpreted, args⟩ := (entryIff made).mp fit
      have same : m.symbol = model.methods[id.index].signature := (methodSymbol made).trans spells.written
      exact ⟨_, List.getElem_mem there, same.symm, interpreted, symbol.signature, same ▸ spells.read, args⟩
    · rw [List.getElem?_append_right (by omega)] at found
      obtain ⟨symbol, _, rfl⟩ := List.mem_map.mp (List.mem_of_getElem? found)
      simp [Method.isThreadEntry, nativeMethod] at fit
  · intro h
    obtain ⟨d, member, rfl, interpreted, signature, read, args⟩ := h
    obtain ⟨i, found⟩ := List.mem_iff_getElem?.mp member
    obtain ⟨symbol, m, spells, there, made⟩ := assembled.methodAt found
    cases spells.unique read
    refine ⟨⟨i⟩, assembled.rootAt.mpr ⟨m, ?_, methodSymbol made, (entryIff made).mpr ⟨interpreted, args⟩⟩⟩
    rw [List.getElem?_append_left (List.getElem?_eq_some_iff.mp there).1, there]

end Roots

theorem assembleValid {model : Model} (valid : model.Valid) :
    ∃ own more methods, Assembled model own more methods := by
  obtain ⟨own, spelled⟩ := spellAll valid.signatures
  obtain ⟨more, stubbed⟩ : ∃ more, List.Forall₂ Spells model.undeclared more := by
    apply spellAll
    intro text member
    have called := List.mem_filter.mp (List.mem_eraseDups.mp member)
    obtain ⟨d, declared, calls⟩ := calleesIff.mp called.1
    exact valid.callees d declared text calls (by simpa using called.2)
  have named : Named model own more := ⟨spelled, valid.distinct, stubbed⟩
  have each : ∀ x ∈ own.zip model.methods, ∃ m, method (own ++ more) x.1 x.2 = .ok m := by
    intro x member
    obtain ⟨i, found⟩ := List.mem_iff_getElem?.mp member
    obtain ⟨left, right⟩ := List.getElem?_zip_eq_some.mp found
    have declared := List.mem_of_getElem? right
    cases native : x.2.native with
    | true =>
      obtain ⟨code, handlers⟩ := valid.natives x.2 declared native
      exact ⟨nativeMethod x.1, methodOk.mpr (.inl ⟨native, code, handlers, rfl⟩)⟩
    | false =>
      refine lowerSound (valid.interpreted x.2 declared native) native (named.spells left right) ?_
      intro i inside text called
      exact named.finds (List.mem_flatMap.mpr ⟨x.2, declared, List.mem_filterMap.mpr ⟨i, inside, called⟩⟩)
  obtain ⟨methods, checked⟩ := mapAll each
  exact ⟨own, more, methods, named, checked⟩

theorem Assembled.valid {model : Model} {own more : List Symbol} {methods : List Method}
    (assembled : Assembled model own more methods) (entry : model.Starts model.entry)
    (threads : ∀ text ∈ model.threads, model.Starts text) : model.Valid := by
  constructor
  case signatures => exact spelledAll assembled.spelled
  case distinct => exact assembled.distinct
  case callees =>
    intro d declared text calls other
    have called := calleesIff.mpr ⟨d, declared, calls⟩
    exact spelledAll assembled.stubbed text
      (List.mem_eraseDups.mpr (List.mem_filter.mpr ⟨called, by simpa using other⟩))
  case natives =>
    intro d member native
    obtain ⟨i, found⟩ := List.mem_iff_getElem?.mp member
    obtain ⟨_, _, _, _, made⟩ := assembled.methodAt found
    rcases methodOk.mp made with ⟨_, code, handlers, _⟩ | ⟨_, lowered⟩
    · exact ⟨code, handlers⟩
    · cases native.symm.trans lowered.interpreted
  case interpreted =>
    intro d member interpreted
    obtain ⟨i, found⟩ := List.mem_iff_getElem?.mp member
    obtain ⟨_, _, spells, _, made⟩ := assembled.methodAt found
    rcases methodOk.mp made with ⟨native, _⟩ | ⟨_, lowered⟩
    · cases native.symm.trans interpreted
    · exact lowered.sound spells
  case entry => exact entry
  case threads => exact threads

theorem loadValid {model : Model} : (∃ p, Program.load model = .ok p) ↔ model.Valid := by
  constructor
  · intro h
    obtain ⟨p, loaded⟩ := h
    obtain ⟨own, more, methods, assembled, entry, threads, _⟩ := loadOk.mp loaded
    refine assembled.valid (assembled.starts.mp ⟨_, entry⟩) fun text member => ?_
    obtain ⟨id, _, started⟩ := mapOkOf threads member
    exact assembled.starts.mp ⟨id, started⟩
  · intro valid
    obtain ⟨own, more, methods, assembled⟩ := assembleValid valid
    obtain ⟨entry, first⟩ := assembled.starts.mpr valid.entry
    obtain ⟨threads, others⟩ := mapAll fun text member => assembled.starts.mpr (valid.threads text member)
    exact ⟨⟨model.name, _, entry, threads⟩, loadOk.mpr ⟨own, more, methods, assembled, first, others, rfl, rfl⟩⟩

section Rendering

variable {model : Model} {own more : List Symbol} {methods : List Method} {p : Program}

theorem Assembled.numbers (assembled : Assembled model own more methods)
    (all : p.methods = (methods ++ more.map nativeMethod).toArray) : Numbers p (own ++ more) := by
  refine ⟨assembled.different, fun id => ?_⟩
  rw [Program.method?, all, List.getElem?_toArray, ← List.getElem?_map, assembled.symbols, List.getElem?_map]

theorem Assembled.lookup (assembled : Assembled model own more methods)
    (all : p.methods = (methods ++ more.map nativeMethod).toArray) (text : String) (id : MethodId) :
    p.lookup? text = some id ↔ (p.method? id).map (·.symbol) = some text := by
  rw [Program.lookup?, Program.method?, all, List.findIdx?_toArray, List.getElem?_toArray,
    ← firstPlace (assembled.symbols ▸ assembled.different)]
  obtain ⟨n⟩ := id
  simp

theorem loadRenders (loaded : Program.load model = .ok p) : p.Renders model := by
  obtain ⟨own, more, methods, assembled, entry, threads, named, all⟩ := loadOk.mp loaded
  have numbers := assembled.numbers all
  have length := assembled.length
  have listed : ∀ i : Nat, p.method? ⟨i⟩ = (methods ++ more.map nativeMethod)[i]? := by
    intro i
    rw [Program.method?, all, List.getElem?_toArray]
  have rooted : ∀ {text id}, root (methods ++ more.map nativeMethod) text = .ok id →
      (p.method? id).map (·.symbol) = some text := by
    intro text id ok
    obtain ⟨m, found, rfl, _⟩ := assembled.rootAt.mp ok
    rw [listed id.index, found, Option.map_some]
  constructor
  case name => exact named
  case declared =>
    intro i d found
    obtain ⟨symbol, m, spells, there, made⟩ := assembled.methodAt found
    refine ⟨m, ?_, methodRenders numbers spells made⟩
    rw [listed, List.getElem?_append_left (List.getElem?_eq_some_iff.mp there).1, there]
  case stubs =>
    intro i text found
    obtain ⟨inside, rfl⟩ := List.getElem?_eq_some_iff.mp found
    have there : i < more.length := assembled.stubbed.length_eq ▸ inside
    have spells := assembled.stubbed.get inside there
    refine ⟨nativeMethod more[i], ?_, spells.written, rfl, rfl, rfl, ?_⟩
    · rw [listed, List.getElem?_append_right (by omega), length, Nat.add_sub_cancel_left, List.getElem?_map,
        List.getElem?_eq_getElem there, Option.map_some]
    · have read := spells.read
      rw [← spells.written] at read
      exact read
  case size =>
    rw [all, List.size_toArray, List.length_append, List.length_map, length, assembled.stubbed.length_eq]
  case entry => exact rooted entry
  case threads =>
    have started := mapOk.mp threads
    generalize model.threads = texts, p.threads = ids at started ⊢
    induction started with
    | nil => rfl
    | cons first _ ih => rw [List.map_cons, List.map_cons, rooted first, ih]
  case lookup => exact assembled.lookup all

end Rendering

end Load

theorem Program.loadExact (model : Model) : ((∃ p, load model = .ok p) ↔ model.Valid) ∧
    ∀ p, load model = .ok p → p.Renders model :=
  ⟨Load.loadValid, fun _ => Load.loadRenders⟩

def Model.relay : Model where
  name := "relay"
  entry := "Relay.main()V"
  threads := ["Relay.main()V"]
  methods := [
    ⟨"Relay.main()V", false, 2, [.pushLong 7, .store .long 1, .invokeStatic "Clock.now()J", .putStatic "Relay.at:J",
      .invokeStatic "Relay.wait()V", .invokeStatic "Clock.now()J", .branch .eq 0, .ret none],
      [⟨0, 7, 7, "*"⟩]⟩,
    ⟨"Relay.wait()V", true, 0, [], []⟩]
  events := none
  actions := .empty

theorem Model.relayLoaded : relay.undeclared = ["Clock.now()J"] ∧ relay.Valid ∧
    ∃ p, Program.load relay = .ok p ∧ p.Renders relay := by
  cases loaded : Program.load relay with
  | error e =>
    have fine : (Program.load relay).isOk = true := by decide +kernel
    rw [loaded] at fine
    cases fine
  | ok p =>
    have both := Program.loadExact relay
    exact ⟨by decide +kernel, both.1.mp ⟨p, loaded⟩, p, rfl, both.2 p loaded⟩

end BytecodeChecker
