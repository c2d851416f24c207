import Mathlib.Data.List.Forall2
import BytecodeChecker.Program.Load

/-! What a loaded program owes to its model: every method keeps the symbol under which it was
declared or first called, and every call in the code goes to a method whose symbol the model wrote. -/
namespace BytecodeChecker

namespace Model

def signatures (model : Model) : List String := model.methods.map (·.signature)

def undeclared (model : Model) : List String :=
  ((Load.callees model.methods).filter (· ∉ model.signatures)).eraseDups

end Model

namespace Load

theorem bindOk {ε α β : Type} {x : Except ε α} {f : α → Except ε β} {b : β} :
    (x >>= f) = .ok b ↔ ∃ a, x = .ok a ∧ f a = .ok b := by
  cases x with
  | error e => simp [bind, Except.bind]
  | ok a => simp [bind, Except.bind]

theorem bindFails {ε α β : Type} {x : Except ε α} {f : α → Except ε β} {error : ε} (h : x >>= f = .error error) :
    x = .error error ∨ ∃ a, x = .ok a ∧ f a = .error error := by
  cases x with
  | error other =>
    cases h
    exact .inl rfl
  | ok a => exact .inr ⟨a, rfl, h⟩

theorem mapOk {ε α β : Type} {f : α → Except ε β} {xs : List α} {ys : List β} :
    xs.mapM f = .ok ys ↔ List.Forall₂ (fun x y => f x = .ok y) xs ys := by
  induction xs generalizing ys with
  | nil => simp [pure, Except.pure, eq_comm]
  | cons x xs ih =>
    rw [List.mapM_cons, bindOk]
    constructor
    · intro h
      obtain ⟨y, first, h⟩ := h
      obtain ⟨later, others, last⟩ := bindOk.mp h
      cases Except.ok.inj last
      exact .cons first (ih.mp others)
    · intro h
      cases h with
      | cons first others => exact ⟨_, first, bindOk.mpr ⟨_, ih.mpr others, rfl⟩⟩

theorem mapOkAt {ε α β : Type} {f : α → Except ε β} {xs : List α} {ys : List β}
    (h : xs.mapM f = .ok ys) {i : Nat} {y : β} (found : ys[i]? = some y) :
    ∃ x, xs[i]? = some x ∧ f x = .ok y := by
  have related := mapOk.mp h
  obtain ⟨inside, rfl⟩ := List.getElem?_eq_some_iff.mp found
  have there : i < xs.length := related.length_eq ▸ inside
  exact ⟨xs[i], List.getElem?_eq_getElem there, related.get there inside⟩

theorem mapOkLength {ε α β : Type} {f : α → Except ε β} {xs : List α} {ys : List β}
    (h : xs.mapM f = .ok ys) : ys.length = xs.length := (mapOk.mp h).length_eq.symm

structure Spells (text : String) (symbol : Symbol) : Prop where
  written : symbol.text = text
  read : Signature.ofString? text = some symbol.signature

theorem Spells.unique {text : String} {symbol : Symbol} {signature : Signature} (spells : Spells text symbol)
    (read : Signature.ofString? text = some signature) : symbol = ⟨text, signature⟩ := by
  obtain ⟨written, found⟩ := spells
  cases symbol
  cases written
  cases found.symm.trans read
  rfl

theorem spelledTexts {texts : List String} {symbols : List Symbol} (spelled : List.Forall₂ Spells texts symbols) :
    symbols.map (·.text) = texts := by
  induction spelled with
  | nil => rfl
  | cons first _ ih => simp [first.written, ih]

theorem knowsIff {known : List Symbol} {text : String} : knows known text = true ↔ text ∈ known.map (·.text) := by
  simp [knows]

theorem declareOk {known symbols : List Symbol} {decls : List Model.Method} :
    declare known decls = .ok symbols ↔ ∃ own, symbols = known ++ own ∧
      List.Forall₂ Spells (decls.map (·.signature)) own ∧ (decls.map (·.signature)).Nodup ∧
      ∀ text ∈ decls.map (·.signature), text ∉ known.map (·.text) := by
  induction decls generalizing known with
  | nil => simp [declare, eq_comm]
  | cons decl rest ih =>
    simp only [declare, List.map_cons, List.nodup_cons, List.forall_mem_cons, List.forall₂_cons_left_iff]
    cases read : Signature.ofString? decl.signature with
    | none =>
      simp only [reduceCtorEq, false_iff]
      intro h
      obtain ⟨_, _, ⟨symbol, _, first, _⟩, _⟩ := h
      cases read.symm.trans first.read
    | some signature =>
      by_cases again : knows known decl.signature = true
      · simp only [again, if_true, reduceCtorEq, false_iff]
        intro h
        obtain ⟨_, _, _, _, fresh, _⟩ := h
        exact fresh (knowsIff.mp again)
      · simp only [again, if_false, ih, Bool.false_eq_true]
        have new : decl.signature ∉ known.map (·.text) := fun member => again (knowsIff.mpr member)
        constructor
        · intro h
          obtain ⟨own, rfl, spelled, distinct, fresh⟩ := h
          simp only [List.map_append, List.map_cons, List.map_nil, List.mem_append, List.mem_singleton, not_or] at fresh
          exact ⟨⟨decl.signature, signature⟩ :: own, by simp, ⟨_, own, ⟨rfl, read⟩, spelled, rfl⟩,
            ⟨fun member => (fresh _ member).2 rfl, distinct⟩, new, fun text member => (fresh text member).1⟩
        · intro h
          obtain ⟨_, rfl, ⟨symbol, own, first, others, rfl⟩, ⟨other, distinct⟩, _, fresh⟩ := h
          cases first.unique read
          refine ⟨own, by simp, others, distinct, fun text member => ?_⟩
          simp only [List.map_append, List.map_cons, List.map_nil, List.mem_append, List.mem_singleton, not_or]
          exact ⟨fresh text member, fun same => other (same ▸ member)⟩

theorem addStubsOk {known symbols : List Symbol} {callees : List String} :
    addStubs known callees = .ok symbols ↔ ∃ more, symbols = known ++ more ∧
      List.Forall₂ Spells ((callees.filter (· ∉ known.map (·.text))).eraseDups) more := by
  induction callees generalizing known with
  | nil => simp [addStubs, eq_comm]
  | cons callee rest ih =>
    simp only [addStubs]
    by_cases again : knows known callee = true
    · have old : callee ∈ known.map (·.text) := knowsIff.mp again
      simp only [again, if_true, ih]
      rw [List.filter_cons_of_neg (by simpa using old)]
    · have new : callee ∉ known.map (·.text) := fun member => again (knowsIff.mpr member)
      rw [List.filter_cons_of_pos (by simpa using new), List.eraseDups_cons]
      simp only [again, if_false, Bool.false_eq_true, List.forall₂_cons_left_iff]
      cases read : Signature.ofString? callee with
      | none =>
        simp only [reduceCtorEq, false_iff]
        intro h
        obtain ⟨_, _, symbol, _, first, _⟩ := h
        cases read.symm.trans first.read
      | some signature =>
        have later : rest.filter (· ∉ (known ++ [Symbol.mk callee signature]).map (·.text)) =
            (rest.filter (· ∉ known.map (·.text))).filter fun text => !text == callee := by
          rw [List.filter_filter]
          congr 1
          funext text
          by_cases same : text = callee <;> simp [same]
        simp only [ih, later]
        constructor
        · intro h
          obtain ⟨more, rfl, spelled⟩ := h
          exact ⟨⟨callee, signature⟩ :: more, by simp, _, more, ⟨rfl, read⟩, spelled, rfl⟩
        · intro h
          obtain ⟨_, rfl, symbol, more, first, others, rfl⟩ := h
          cases first.unique read
          exact ⟨more, by simp, others⟩

structure Lowered (symbols : List Symbol) (symbol : Symbol) (decl : Model.Method) (code : List Op)
    (m : Method) : Prop where
  interpreted : decl.native = false
  coded : decl.code ≠ []
  args : symbol.signature.argCount ≤ decl.maxLocals.toNat
  resolved : decl.code.mapM (Instruction.resolve (branchTarget symbol.text decl.code.length) fieldRef
    (callee symbols)) = .ok code
  slots : code.forM (checkSlot symbol.text decl.maxLocals) = .ok ()
  last : code.getLast?.any Instruction.fallsThrough = false
  handled : decl.handlers.mapM (handler symbol.text decl.code.length) = .ok m.handlers
  signature : m.signature = symbol.signature
  symbol : m.symbol = symbol.text
  native : m.native = false
  code : m.code = code.toArray
  locals : m.maxLocals = decl.maxLocals

theorem methodOk {symbols : List Symbol} {symbol : Symbol} {decl : Model.Method} {m : Method} :
    method symbols symbol decl = .ok m ↔
      (decl.native = true ∧ decl.code = [] ∧ decl.handlers = [] ∧ m = nativeMethod symbol) ∨
      ∃ code, Lowered symbols symbol decl code m := by
  constructor
  · intro h
    simp only [method] at h
    split at h
    · rename_i native
      split at h
      · rename_i empty
        simp only [Bool.and_eq_true, List.isEmpty_iff] at empty
        exact .inl ⟨native, empty.1, empty.2, (Except.ok.inj h).symm⟩
      · contradiction
    · rename_i interpreted
      split at h
      · contradiction
      · rename_i coded
        split at h
        · contradiction
        · rename_i args
          obtain ⟨code, resolved, h⟩ := bindOk.mp h
          obtain ⟨_, slots, h⟩ := bindOk.mp h
          split at h
          · contradiction
          · rename_i last
            obtain ⟨handlers, handled, h⟩ := bindOk.mp h
            cases Except.ok.inj h
            exact .inr ⟨code, by simpa using interpreted, by simpa using coded, Nat.le_of_not_lt args, resolved,
              slots, by simpa using last, handled, rfl, rfl, rfl, rfl, rfl⟩
  · rintro (⟨native, code, handlers, rfl⟩ | ⟨code, lowered⟩)
    · simp only [method, native, code, handlers]
      rfl
    · have coded : decl.code.isEmpty = false := by simpa using lowered.coded
      have args := Nat.not_lt.mpr lowered.args
      have made : m = ⟨symbol.text, symbol.signature, false, decl.maxLocals, code.toArray, m.handlers⟩ := by
        rw [← lowered.symbol, ← lowered.signature, ← lowered.native, ← lowered.locals, ← lowered.code]
      rw [made]
      simp only [method, lowered.interpreted, coded, args, Bool.false_eq_true, if_false]
      refine bindOk.mpr ⟨code, lowered.resolved, bindOk.mpr ⟨(), lowered.slots, ?_⟩⟩
      simp only [lowered.last, Bool.false_eq_true, if_false]
      exact bindOk.mpr ⟨m.handlers, lowered.handled, rfl⟩

theorem methodParts {symbols : List Symbol} {symbol : Symbol} {decl : Model.Method} {m : Method}
    (h : method symbols symbol decl = .ok m) :
    m = nativeMethod symbol ∨ ∃ code, Lowered symbols symbol decl code m :=
  (methodOk.mp h).imp_left fun native => native.2.2.2

theorem relatedSome {α β : Type} {R : α → β → Prop} {x : Option α} {y : Option β} (related : Option.Rel R x y)
    {a : α} (found : x = some a) : ∃ b, R a b := by
  subst found
  cases related with
  | some holds => exact ⟨_, holds⟩

theorem relatedBack {α β : Type} {R : α → β → Prop} {x : Option α} {y : Option β} (related : Option.Rel R x y)
    {b : β} (found : y = some b) : ∃ a, x = some a ∧ R a b := by
  subst found
  cases related with
  | some holds => exact ⟨_, rfl, holds⟩

theorem branchTargetOk {name : String} {length n : Nat} {target : UInt64} :
    branchTarget name length target = .ok n ↔ target.toNat < length ∧ n = target.toNat := by
  unfold branchTarget
  split
  · rename_i inside
    simp [inside, eq_comm]
  · rename_i outside
    simp [outside]

theorem handlerOk {name : String} {length : Nat} {written : Handler UInt64} {h : Handler Nat} :
    handler name length written = .ok h ↔
      (written.start < written.stop ∧ written.stop.toNat ≤ length ∧ written.target.toNat < length) ∧
      h = ⟨written.start.toNat, written.stop.toNat, written.target.toNat, written.className⟩ := by
  unfold handler
  split
  · rename_i inside
    simp [inside, eq_comm]
  · rename_i outside
    simp [outside]

theorem checkSlotOk {name : String} {maxLocals : UInt16} {op : Op} :
    checkSlot name maxLocals op = .ok () ↔ ∀ slot, op.slot? = some slot → slot < maxLocals := by
  unfold checkSlot
  cases op.slot? with
  | none => simp
  | some slot =>
    by_cases inside : slot < maxLocals
    · simp [inside]
    · simp [inside]

section Resolving

variable {label : UInt64 → Except LoadError Nat} {field : String → Except LoadError FieldRef}
  {number : String → Except LoadError MethodId} {i : Model.Code} {op : Op}

structure Resolved (label : UInt64 → Except LoadError Nat) (field : String → Except LoadError FieldRef)
    (number : String → Except LoadError MethodId) (i : Model.Code) (op : Op) : Prop where
  falls : op.fallsThrough = i.fallsThrough
  slot : op.slot? = i.slot?
  target : Option.Rel (fun written found => label written = .ok found) i.branchTarget? op.branchTarget?
  named : Option.Rel (fun written found => field written = .ok found) i.field? op.field?
  called : Option.Rel (fun written found => number written = .ok found) i.callee? op.callee?

theorem resolvedParts (h : i.resolve label field number = .ok op) : Resolved label field number i op := by
  cases i
  case branch | branchNull | goto =>
    obtain ⟨found, resolved, last⟩ := bindOk.mp h
    cases last
    exact ⟨rfl, rfl, .some resolved, .none, .none⟩
  case getStatic | putStatic | getField | putField =>
    obtain ⟨found, resolved, last⟩ := bindOk.mp h
    cases last
    exact ⟨rfl, rfl, .none, .some resolved, .none⟩
  case invokeStatic =>
    obtain ⟨found, resolved, last⟩ := bindOk.mp h
    cases last
    exact ⟨rfl, rfl, .none, .none, .some resolved⟩
  all_goals
    cases h
    exact ⟨rfl, rfl, .none, .none, .none⟩

theorem resolveAll (targets : ∀ written, i.branchTarget? = some written → ∃ found, label written = .ok found)
    (fields : ∀ written, i.field? = some written → ∃ found, field written = .ok found)
    (callees : ∀ written, i.callee? = some written → ∃ found, number written = .ok found) :
    ∃ op, i.resolve label field number = .ok op := by
  cases i
  case branch cond written =>
    obtain ⟨found, resolved⟩ := targets written rfl
    exact ⟨.branch cond found, bindOk.mpr ⟨found, resolved, rfl⟩⟩
  case branchNull onNull written =>
    obtain ⟨found, resolved⟩ := targets written rfl
    exact ⟨.branchNull onNull found, bindOk.mpr ⟨found, resolved, rfl⟩⟩
  case goto written =>
    obtain ⟨found, resolved⟩ := targets written rfl
    exact ⟨.goto found, bindOk.mpr ⟨found, resolved, rfl⟩⟩
  case getStatic written | putStatic written | getField written | putField written =>
    obtain ⟨found, resolved⟩ := fields written rfl
    exact ⟨_, bindOk.mpr ⟨found, resolved, rfl⟩⟩
  case invokeStatic written =>
    obtain ⟨found, resolved⟩ := callees written rfl
    exact ⟨.invokeStatic found, bindOk.mpr ⟨found, resolved, rfl⟩⟩
  all_goals exact ⟨_, rfl⟩

end Resolving

theorem fieldPlain {spec : String} {field : FieldRef} (h : fieldRef spec = .ok field) :
    field.default.ref? = none := by
  unfold fieldRef at h
  dsimp only at h
  split at h
  · cases h
  · split at h
    · cases h
    · split at h
      · cases h
        rfl
      · split at h
        · cases h
        · cases h
          rename_i t _
          cases t <;> rfl

theorem calleeSymbol {symbols : List Symbol} {text : String} {id : MethodId}
    (h : callee symbols text = .ok id) :
    ∃ symbol, symbols[id.index]? = some symbol ∧ symbol.text = text := by
  unfold callee at h
  cases found : symbols.findIdx? (·.text == text) with
  | none => simp [found] at h
  | some i =>
    simp only [found] at h
    cases Except.ok.inj h
    obtain ⟨inside, same, _⟩ := List.findIdx?_eq_some_iff_getElem.mp found
    exact ⟨symbols[i], List.getElem?_eq_getElem inside, by simpa using same⟩

structure Named (model : Model) (own more : List Symbol) : Prop where
  spelled : List.Forall₂ Spells model.signatures own
  distinct : model.signatures.Nodup
  stubbed : List.Forall₂ Spells model.undeclared more

theorem Named.counted {model : Model} {own more : List Symbol} (named : Named model own more) :
    own.length = model.methods.length := by
  rw [← named.spelled.length_eq, Model.signatures, List.length_map]

structure Assembled (model : Model) (own more : List Symbol) (methods : List Method) : Prop
    extends Named model own more where
  checked : (own.zip model.methods).mapM (fun (symbol, d) => method (own ++ more) symbol d) = .ok methods

theorem loadOk {model : Model} {p : Program} : Program.load model = .ok p ↔ ∃ own more methods,
    Assembled model own more methods ∧
    root (methods ++ more.map nativeMethod) model.entry = .ok p.entry ∧
    model.threads.mapM (root (methods ++ more.map nativeMethod)) = .ok p.threads ∧
    p.name = model.name ∧ p.methods = (methods ++ more.map nativeMethod).toArray := by
  constructor
  · intro h
    unfold Program.load at h
    obtain ⟨declared, hd, h⟩ := bindOk.mp h
    obtain ⟨symbols, hs, h⟩ := bindOk.mp h
    obtain ⟨methods, hm, h⟩ := bindOk.mp h
    obtain ⟨entry, he, h⟩ := bindOk.mp h
    obtain ⟨threads, ht, h⟩ := bindOk.mp h
    cases Except.ok.inj h
    obtain ⟨_, rfl, spelled, distinct, _⟩ := declareOk.mp hd
    obtain ⟨more, rfl, stubbed⟩ := addStubsOk.mp hs
    rw [spelledTexts spelled] at stubbed
    rw [List.drop_left] at he ht ⊢
    exact ⟨declared, more, methods, ⟨⟨spelled, distinct, stubbed⟩, hm⟩, he, ht, rfl, rfl⟩
  · intro h
    obtain ⟨own, more, methods, assembled, entry, threads, named, all⟩ := h
    have declared : declare [] model.methods = .ok own :=
      declareOk.mpr ⟨own, rfl, assembled.spelled, assembled.distinct, by simp⟩
    have stubs : addStubs own (callees model.methods) = .ok (own ++ more) := by
      refine addStubsOk.mpr ⟨more, rfl, ?_⟩
      rw [spelledTexts assembled.spelled]
      exact assembled.stubbed
    unfold Program.load
    refine bindOk.mpr ⟨own, declared, bindOk.mpr ⟨own ++ more, stubs, bindOk.mpr ⟨methods, assembled.checked, ?_⟩⟩⟩
    rw [List.drop_left]
    refine bindOk.mpr ⟨p.entry, entry, bindOk.mpr ⟨p.threads, threads, ?_⟩⟩
    rw [← named, ← all]
    rfl

end Load

namespace Program
open Load

structure Source (model : Model) (p : Program) where
  declared : List Symbol
  more : List Symbol
  counted : declared.length = model.methods.length
  methods : List Method
  checked : (declared.zip model.methods).mapM (fun (symbol, decl) =>
    Load.method (declared ++ more) symbol decl) = .ok methods
  all : p.methods = (methods ++ more.map nativeMethod).toArray

theorem loadSource {model : Model} {p : Program} (h : load model = .ok p) :
    Nonempty (Source model p) := by
  obtain ⟨own, more, methods, assembled, _, _, _, all⟩ := loadOk.mp h
  exact ⟨⟨own, more, assembled.counted, methods, assembled.checked, all⟩⟩

namespace Source

variable {model : Model} {p : Program} (source : Source model p)

def symbols : List Symbol := source.declared ++ source.more

theorem checkedLength : source.methods.length = source.declared.length := by
  have zipped := mapOkLength source.checked
  simp [List.length_zip, source.counted] at zipped
  rw [zipped, source.counted]

theorem checkedAt {i : Nat} {method : Method} (found : source.methods[i]? = some method) :
    ∃ symbol decl, source.declared[i]? = some symbol ∧ decl ∈ model.methods ∧
      Load.method source.symbols symbol decl = .ok method := by
  obtain ⟨⟨symbol, decl⟩, paired, ok⟩ := mapOkAt source.checked found
  obtain ⟨left, right⟩ := List.getElem?_zip_eq_some.mp paired
  exact ⟨symbol, decl, left, List.mem_of_getElem? right, ok⟩

theorem symbolAt {id : MethodId} {symbol : Symbol} (found : source.symbols[id.index]? = some symbol) :
    ∃ method, p.method? id = some method ∧ method.symbol = symbol.text := by
  have length := source.checkedLength
  unfold method?
  rw [source.all, List.getElem?_toArray]
  by_cases early : id.index < source.declared.length
  · have inside : id.index < source.methods.length := by omega
    rw [List.getElem?_append_left inside, List.getElem?_eq_getElem inside]
    obtain ⟨own, decl, atOwn, _, ok⟩ := source.checkedAt (List.getElem?_eq_getElem inside)
    have same : own = symbol := by
      rw [symbols, List.getElem?_append_left early] at found
      exact Option.some.inj (atOwn.symm.trans found)
    subst same
    refine ⟨_, rfl, ?_⟩
    rcases methodParts ok with native | ⟨_, lowered⟩
    · rw [native]; rfl
    · exact lowered.symbol
  · rw [List.getElem?_append_right (by omega), List.getElem?_map, length]
    rw [symbols, List.getElem?_append_right (by omega)] at found
    exact ⟨nativeMethod symbol, by rw [found]; rfl, rfl⟩

theorem methodFrom {id : MethodId} {method : Method} (found : p.method? id = some method) :
    (∃ symbol, method = nativeMethod symbol) ∨
      ∃ symbol, ∃ decl ∈ model.methods, ∃ code, Lowered source.symbols symbol decl code method := by
  have listed : (source.methods ++ source.more.map nativeMethod)[id.index]? = some method := by
    rw [← List.getElem?_toArray, ← source.all]
    exact found
  rcases List.mem_append.mp (List.mem_of_getElem? listed) with own | stub
  · obtain ⟨i, found⟩ := List.mem_iff_getElem?.mp own
    obtain ⟨symbol, decl, _, member, ok⟩ := source.checkedAt found
    rcases methodParts ok with native | ⟨code, lowered⟩
    · exact .inl ⟨symbol, native⟩
    · exact .inr ⟨symbol, decl, member, code, lowered⟩
  · obtain ⟨symbol, _, rfl⟩ := List.mem_map.mp stub
    exact .inl ⟨symbol, rfl⟩

include source in
theorem opAt {id : MethodId} {pc : Nat} {op : Op} (fetched : p.op? id pc = some op) :
    ∃ decl ∈ model.methods, ∃ label, ∃ written ∈ decl.code,
      Instruction.resolve label fieldRef (callee source.symbols) written = .ok op := by
  obtain ⟨caller, atCaller, atPc⟩ := Option.bind_eq_some_iff.mp fetched
  rcases source.methodFrom atCaller with ⟨symbol, rfl⟩ | ⟨symbol, decl, member, code, lowered⟩
  · simp [nativeMethod] at atPc
  · rw [lowered.code, List.getElem?_toArray] at atPc
    obtain ⟨written, atWritten, made⟩ := mapOkAt lowered.resolved atPc
    exact ⟨decl, member, _, written, List.mem_of_getElem? atWritten, made⟩

include source in
theorem callAt {id callee : MethodId} {pc : Nat} (call : p.op? id pc = some (.invokeStatic callee)) :
    ∃ method, p.method? callee = some method ∧ method.symbol ∈ callees model.methods := by
  obtain ⟨decl, member, label, written, inside, lowered⟩ := source.opAt call
  obtain ⟨text, called, hit⟩ := relatedBack (resolvedParts lowered).called rfl
  obtain ⟨target, atTarget, rfl⟩ := calleeSymbol hit
  obtain ⟨method, found, name⟩ := source.symbolAt atTarget
  refine ⟨method, found, ?_⟩
  rw [name]
  exact List.mem_flatMap.mpr ⟨decl, member, List.mem_filterMap.mpr ⟨_, inside, called⟩⟩

include source in
theorem fieldAt {id : MethodId} {pc : Nat} {op : Op} {field : FieldRef} (fetched : p.op? id pc = some op)
    (named : op.field? = some field) : field.default.ref? = none := by
  obtain ⟨_, _, label, written, _, lowered⟩ := source.opAt fetched
  obtain ⟨_, _, hit⟩ := relatedBack (resolvedParts lowered).named named
  exact fieldPlain hit

end Source

end Program

end BytecodeChecker
