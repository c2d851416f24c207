import BytecodeChecker.Proofs.Loading

/-! What running a program relies on, and loading has checked: control stays inside the code, slots
are there, calls go to methods, and threads run interpreted code. -/
namespace BytecodeChecker

structure Method.Checked (m : Method) : Prop where
  starts : m.native = false → 0 < m.code.size
  follows : ∀ {pc : Nat} {op : Op}, m.code[pc]? = some op → op.fallsThrough = true → pc + 1 < m.code.size
  targets : ∀ {pc target : Nat} {op : Op}, m.code[pc]? = some op → op.branchTarget? = some target →
    target < m.code.size
  slots : ∀ {pc : Nat} {op : Op} {slot : UInt16}, m.code[pc]? = some op → op.slot? = some slot →
    slot.toNat < m.maxLocals.toNat
  handlers : ∀ h ∈ m.handlers, h.target < m.code.size

def Program.Interprets (p : Program) (id : MethodId) : Prop :=
  ∃ method, p.method? id = some method ∧ method.native = false

structure Program.Checked (p : Program) : Prop where
  methods : ∀ {id method}, p.method? id = some method → method.Checked
  calls : ∀ {id pc callee}, p.op? id pc = some (.invokeStatic callee) →
    ∃ method, p.method? callee = some method
  fields : ∀ {id pc op field}, p.op? id pc = some op → op.field? = some field →
    field.default.ref? = none
  entry : p.Interprets p.entry
  threads : ∀ id ∈ p.threads, p.Interprets id

namespace Load

variable {symbols : List Symbol} {symbol : Symbol} {decl : Model.Method} {m : Method}

theorem nativeChecked (symbol : Symbol) : (nativeMethod symbol).Checked :=
  ⟨nofun, nofun, nofun, nofun, nofun⟩

theorem forOkAt {ε α : Type} {f : α → Except ε Unit} {xs : List α} (h : xs.forM f = .ok ())
    {x : α} (member : x ∈ xs) : f x = .ok () := by
  induction xs with
  | nil => cases member
  | cons head rest ih =>
    obtain ⟨_, first, others⟩ := bindOk.mp h
    rcases List.mem_cons.mp member with rfl | later
    · exact first
    · exact ih others later

/- The last instruction does not fall through, so the others have one behind them. -/
theorem Lowered.checked {code : List Op} (lowered : Lowered symbols symbol decl code m) :
    m.Checked := by
  have length := mapOkLength lowered.resolved
  have at_ : ∀ {pc : Nat} {op : Op}, m.code[pc]? = some op → code[pc]? = some op := by
    intro pc op fetched
    rwa [lowered.code, List.getElem?_toArray] at fetched
  have size : m.code.size = code.length := by rw [lowered.code, List.size_toArray]
  refine ⟨fun _ => ?_, ?_, ?_, ?_, ?_⟩
  · rw [size, length]
    exact List.length_pos_iff.mpr lowered.coded
  · intro pc op fetched falls
    rw [size]
    have inside : pc < code.length := (List.getElem?_eq_some_iff.mp (at_ fetched)).1
    refine Nat.lt_of_not_le fun outside => ?_
    have final : code.getLast? = some op := by
      rw [List.getLast?_eq_getElem?, ← at_ fetched]
      congr 1
      omega
    have last := lowered.last
    rw [final] at last
    exact absurd (falls.symm.trans last) nofun
  · intro pc target op fetched jumps
    obtain ⟨written, _, resolved⟩ := mapOkAt lowered.resolved (at_ fetched)
    rw [size, length]
    obtain ⟨_, _, inside⟩ := relatedBack (resolvedParts resolved).target jumps
    obtain ⟨bound, rfl⟩ := branchTargetOk.mp inside
    exact bound
  · intro pc op slot fetched used
    rw [lowered.locals]
    have slots := forOkAt lowered.slots (List.mem_of_getElem? (at_ fetched))
    exact UInt16.lt_iff_toNat_lt.mp (checkSlotOk.mp slots slot used)
  · intro h member
    obtain ⟨i, found⟩ := List.mem_iff_getElem?.mp member
    obtain ⟨written, _, ok⟩ := mapOkAt lowered.handled found
    rw [size, length]
    obtain ⟨inside, rfl⟩ := handlerOk.mp ok
    exact inside.2.2

theorem rootInterprets {methods : List Method} {text : String} {id : MethodId} {p : Program}
    (ok : root methods text = .ok id) (all : p.methods = methods.toArray) : p.Interprets id := by
  unfold root at ok
  split at ok
  · cases ok
  · split at ok
    · rename_i i _ _ method found
      split at ok
      · rename_i fit
        cases ok
        refine ⟨method, ?_, ?_⟩
        · rw [Program.method?, all, List.getElem?_toArray]
          exact found
        · simp only [Method.isThreadEntry, Bool.and_eq_true, Bool.not_eq_true'] at fit
          exact fit.1
      · cases ok
    · cases ok

end Load

namespace Program
open Load

theorem Source.methodChecked {model : Model} {p : Program} (source : Source model p) {id : MethodId}
    {method : Method} (found : p.method? id = some method) : method.Checked := by
  rcases source.methodFrom found with ⟨symbol, rfl⟩ | ⟨symbol, decl, _, code, lowered⟩
  · exact nativeChecked symbol
  · exact lowered.checked

theorem loadRoots {model : Model} {p : Program} (h : load model = .ok p) :
    p.Interprets p.entry ∧ ∀ id ∈ p.threads, p.Interprets id := by
  obtain ⟨_, _, _, _, first, others, _, all⟩ := loadOk.mp h
  refine ⟨rootInterprets first all, fun id member => ?_⟩
  obtain ⟨i, found⟩ := List.mem_iff_getElem?.mp member
  obtain ⟨text, _, ok⟩ := mapOkAt others found
  exact rootInterprets ok all

theorem loadThreads {model : Model} {p : Program} (h : load model = .ok p) :
    p.threads.length = model.threads.length := by
  obtain ⟨_, _, _, _, _, others, _⟩ := loadOk.mp h
  exact mapOkLength others

theorem loadChecked {model : Model} {p : Program} (h : load model = .ok p) : p.Checked := by
  obtain ⟨source⟩ := loadSource h
  obtain ⟨entry, threads⟩ := loadRoots h
  refine ⟨source.methodChecked, ?_, source.fieldAt, entry, threads⟩
  intro id pc callee call
  obtain ⟨method, found, _⟩ := source.callAt call
  exact ⟨method, found⟩

end Program

end BytecodeChecker
