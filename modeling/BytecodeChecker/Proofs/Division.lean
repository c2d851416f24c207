import Mathlib.Algebra.Group.Int.Defs
import BytecodeChecker.Proofs.Equivariance
import BytecodeChecker.Proofs.Unwinding

/-! Long division. The quotient is truncated towards zero and the remainder goes with it; one pair of operands
has a quotient that does not fit and wraps. A division by zero raises an exception in its thread and does nothing
else, so that no division fails. -/
namespace BytecodeChecker

structure Truncated (left right quotient remainder : Int64) : Prop where
  whole : (quotient.toInt * right.toInt + remainder.toInt) % 2 ^ 64 = left.toInt % 2 ^ 64
  small : remainder.toInt.natAbs < right.toInt.natAbs
  sign : remainder = 0 ∨ remainder.toInt.sign = left.toInt.sign
  fits : ¬ (left.toInt = -2 ^ 63 ∧ right.toInt = -1) → quotient.toInt = left.toInt.tdiv right.toInt
  wraps : left.toInt = -2 ^ 63 → right.toInt = -1 → quotient.toInt = -2 ^ 63 ∧ remainder = 0

namespace Arith

variable {left right : Int64}

theorem divExact (fits : ¬ (left.toInt = -2 ^ 63 ∧ right.toInt = -1)) :
    (left / right).toInt = left.toInt.tdiv right.toInt := by
  by_cases least : left = Int64.minValue
  · refine Int64.toInt_div_of_ne_right left right fun one => fits ⟨?_, ?_⟩
    · rw [least, Int64.toInt_minValue]
    · rw [one]
      rfl
  · exact Int64.toInt_div_of_ne_left left right least

theorem divWraps (least : left.toInt = -2 ^ 63) (one : right.toInt = -1) :
    (left / right).toInt = -2 ^ 63 ∧ left % right = 0 := by
  have numbers : left = Int64.minValue ∧ right = -1 :=
    ⟨Int64.toInt_inj.mp (least.trans Int64.toInt_minValue.symm), Int64.toInt_inj.mp one⟩
  rw [numbers.1, numbers.2]
  decide

theorem divTruncates (nonzero : right ≠ 0) : Truncated left right (left / right) (left % right) where
  whole := by
    rw [Int64.toInt_mod]
    by_cases wraps : left.toInt = -2 ^ 63 ∧ right.toInt = -1
    · rw [(divWraps wraps.1 wraps.2).1, wraps.1, wraps.2]
      decide
    · rw [divExact wraps, Int.tdiv_mul_add_tmod]
  small := by
    have some : right.toInt ≠ 0 := fun zero => nonzero (Int64.toInt_inj.mp zero)
    rw [Int64.toInt_mod, Int.natAbs_tmod]
    exact Nat.mod_lt _ (Int.natAbs_pos.mpr some)
  sign := by
    by_cases divides : right.toInt ∣ left.toInt
    · exact .inl (Int64.toInt_inj.mp (by rw [Int64.toInt_mod, Int.tmod_eq_zero_of_dvd divides]; rfl))
    · exact .inr (by rw [Int64.toInt_mod, Int.sign_tmod, if_neg divides])
  fits := divExact
  wraps := divWraps

end Arith

structure Machine.Divides (p : Program) (t : ThreadId) (op : Arith) (left right : Int64) (m : Machine)
    (thread : GuestThread) (frame : Frame) (tag : Option String) (below : List Activation) (rest : List Value) :
    Prop where
  found : m.thread? t = some thread
  stack : thread.stack = .bytecode frame tag :: below
  operands : frame.operands = .int right :: .int left :: rest
  fetched : p.op? frame.method frame.pc = some (.arith op)

namespace Machine

variable {p : Program} {t : ThreadId} {op : Arith} {left right : Int64} {m : Machine} {thread : GuestThread}
  {frame : Frame} {tag : Option String} {below : List Activation} {rest : List Value} {o : ObjectId}

section Operands

variable (argCount : MethodId → Nat) (operands : frame.operands = .int right :: .int left :: rest)
include operands

theorem performQuotient {n : Int64} (result : op.apply? left right = some n) :
    Frame.Work.perform argCount (.arith op) frame = .ok .next { frame with operands := .int n :: rest } := by
  simp only [Frame.Work.perform, Frame.Work.popLong, Frame.Work.pop, bind, EStateM.bind, pure, EStateM.pure,
    operands, result]
  rfl

theorem performZero (zero : op.apply? left right = none) : Frame.Work.perform argCount (.arith op) frame =
    .ok (.raise Lineage.arithmeticException (some op.zeroMessage)) { frame with operands := rest } := by
  simp only [Frame.Work.perform, Frame.Work.popLong, Frame.Work.pop, bind, EStateM.bind, pure, EStateM.pure,
    operands, zero]

end Operands

theorem dividesResult (divides : m.Divides p t op left right thread frame tag below rest) {n : Int64}
    (result : op.apply? left right = some n) :
    freeStep p t m = (m.setThread t
      { thread with
        stack := .bytecode { frame with pc := frame.pc + 1, operands := .int n :: rest } tag :: below
        firstStep := false }, .ok .executed) := by
  have performed := performQuotient p.argCount divides.operands result
  exact freeStepInstalls divides.found
    (GuestThread.upshotIff.mpr ⟨_, _, _, _, _, _, divides.stack, divides.fetched, performed, rfl⟩)

theorem dividesRaises (divides : m.Divides p t op left right thread frame tag below rest)
    (zero : op.apply? left right = none) :
    freeStep p t m = (Upshot.ofThrow p t Lineage.arithmeticException (some op.zeroMessage)
      { thread with stack := .bytecode { frame with operands := rest } tag :: below, firstStep := false }
      m.heap).outcome t m := by
  have performed := performZero p.argCount divides.operands zero
  exact freeStepInstalls divides.found
    (GuestThread.upshotIff.mpr ⟨_, _, _, _, _, _, divides.stack, divides.fetched, performed, rfl⟩)

/- A new exception was thrown in a thread, and its object is the only new one. The innermost frame that handles it
goes on there; without one the thread has ended. -/
structure Raised (p : Program) (t : ThreadId) (className text : String) (m : Machine) (thread : GuestThread)
    (after : Machine) (thrown : Thrown) : Prop where
  report : thrown = ⟨t, className, some text, ⟨m.heap.size⟩, thrown.handled⟩
  heap : after.heap = { m.heap with
    objects := m.heap.objects.push ⟨className, NameMap.empty.insert "message" (.str text), .free⟩ }
  others : ∀ j, j ≠ t → after.thread? j = m.thread? j
  caught : ∀ i, IsGreatest (handling p className thread) i →
    ∃ f tag h stack, thread.frames[i]? = some (.bytecode f tag) ∧ p.FirstRow f className h ∧
      stack.reverse = thread.frames.take i ++
        [.bytecode { f with pc := h.target, operands := [.ref thrown.object] } tag] ∧
      after.thread? t = some { thread with stack, firstStep := false } ∧ thrown.handled = true
  ended : (∀ a ∈ thread.frames, ¬ a.Handles p className) →
    after.thread? t = some { thread with stack := [], status := .terminated, firstStep := false } ∧
      thrown.handled = false

theorem unwoundOperands (className : String) (operands : List Value) :
    unwound? p o className (.bytecode { frame with operands } tag :: below) =
      unwound? p o className (.bytecode frame tag :: below) := rfl

theorem thrownObject (h : Heap) (className text : String) :
    (h.add (some (Upshot.exceptionObject className (some text)))).object? ⟨h.size⟩ =
      some (Upshot.exceptionObject className (some text)) := by
  simp [Heap.add, Heap.object?, Heap.size]

theorem thrownMessage (h : Heap) (className text : String) :
    messageOf? (h.add (some (Upshot.exceptionObject className (some text)))) ⟨h.size⟩ = some text := by
  rw [messageOf?, Heap.field?, thrownObject]
  simp [Upshot.exceptionObject, NameMap.getInsert, Value.str?]

theorem throwHandled (h : Heap) {className text : String} {stack : List Activation}
    (handled : unwound? p ⟨h.size⟩ className thread.stack = some stack) :
    Upshot.ofThrow p t className (some text) thread h =
      ⟨{ thread with stack }, h.add (some (Upshot.exceptionObject className (some text))), none,
        .ok (.exception ⟨t, className, some text, ⟨h.size⟩, true⟩)⟩ := by
  simp only [Upshot.ofThrow, Upshot.newExceptionAdds, Upshot.ofUnwind, thrownObject, thrownMessage]
  simp only [Upshot.exceptionObject, handled]

theorem throwUnhandled (h : Heap) {className text : String}
    (unhandled : unwound? p ⟨h.size⟩ className thread.stack = none) :
    Upshot.ofThrow p t className (some text) thread h =
      ⟨{ thread with stack := [], status := .terminated },
        h.add (some (Upshot.exceptionObject className (some text))), none,
        .ok (.exception ⟨t, className, some text, ⟨h.size⟩, false⟩)⟩ := by
  simp only [Upshot.ofThrow, Upshot.newExceptionAdds, Upshot.ofUnwind, thrownObject, thrownMessage]
  simp only [Upshot.exceptionObject, unhandled]

theorem throwRaised (found : m.thread? t = some thread) (stack : thread.stack = .bytecode frame tag :: below)
    (className text : String) (operands : List Value) :
    ∃ after thrown, (Upshot.ofThrow p t className (some text)
        { thread with stack := .bytecode { frame with operands } tag :: below, firstStep := false }
        m.heap).outcome t m = (after, .ok (.exception thrown)) ∧
      Raised p t className text m thread after thrown := by
  have inside := threadInside found
  have here (final : GuestThread) (heap : Heap) : ({ m with heap }.setThread t final).thread? t = some final :=
    (threadSet (m := { m with heap }) inside final t).trans (if_pos rfl)
  have elsewhere (final : GuestThread) (heap : Heap) (j : ThreadId) (other : j ≠ t) :
      ({ m with heap }.setThread t final).thread? j = m.thread? j :=
    (threadSet (m := { m with heap }) inside final j).trans (if_neg fun same => other same.symm)
  have same : unwound? p ⟨m.heap.size⟩ className (.bytecode { frame with operands } tag :: below) =
      unwound? p ⟨m.heap.size⟩ className (.bytecode frame tag :: below) := unwoundOperands className operands
  rw [← stack] at same
  cases unwound : unwound? p ⟨m.heap.size⟩ className thread.stack with
  | some after =>
    rw [throwHandled m.heap (same.trans unwound)]
    refine ⟨_, _, rfl, rfl, rfl, elsewhere _ _, fun i innermost => ?_, fun past => ?_⟩
    · obtain ⟨f, tag', h, place, first, caught⟩ := unwoundInnermost (o := ⟨m.heap.size⟩) innermost
      cases Option.some.inj (unwound.symm.trans caught)
      exact ⟨f, tag', h, _, place, first, by simp, here _ _, rfl⟩
    · have none := unwoundNone (o := ⟨m.heap.size⟩) fun a member => past a (List.mem_reverse.mpr member)
      cases unwound.symm.trans none
  | none =>
    rw [throwUnhandled m.heap (same.trans unwound)]
    refine ⟨_, _, rfl, rfl, rfl, elsewhere _ _, fun i innermost => ?_, fun _ => ⟨here _ _, rfl⟩⟩
    obtain ⟨_, _, _, _, _, caught⟩ := unwoundInnermost (o := ⟨m.heap.size⟩) innermost
    cases unwound.symm.trans caught

theorem divisionTotal (left right : Int64) : ∃ quotient remainder : Int64,
    (right ≠ 0 → Truncated left right quotient remainder) ∧
    ∀ (p : Program) (t : ThreadId) (op : Arith) (m : Machine) (thread : GuestThread) (frame : Frame)
      (tag : Option String) (below : List Activation) (rest : List Value),
      op = .div ∨ op = .rem → m.Divides p t op left right thread frame tag below rest →
      (right ≠ 0 → freeStep p t m = (m.setThread t
        { thread with
          stack := .bytecode { frame with
            pc := frame.pc + 1
            operands := .int (if op = .div then quotient else remainder) :: rest } tag :: below
          firstStep := false }, .ok .executed)) ∧
      (right = 0 → ∃ after thrown, freeStep p t m = (after, .ok (.exception thrown)) ∧
        Raised p t Lineage.arithmeticException
          (if op = .div then "long division by zero" else "long remainder by zero") m thread after thrown) := by
  refine ⟨left / right, left % right, Arith.divTruncates, ?_⟩
  intro p t op m thread frame tag below rest division divides
  constructor
  · intro nonzero
    apply dividesResult divides
    rcases division with rfl | rfl <;> exact if_neg nonzero
  · intro zero
    have none : op.apply? left right = none := by
      rcases division with rfl | rfl <;> exact if_pos zero
    rw [dividesRaises divides none]
    rcases division with rfl | rfl <;> exact throwRaised divides.found divides.stack _ _ _

theorem innermostAt {className : String} {i : Nat} {a : Activation} (there : thread.frames[i]? = some a)
    (handles : a.Handles p className) (above : ∀ b ∈ thread.frames.drop (i + 1), ¬ b.Handles p className) :
    IsGreatest (handling p className thread) i := by
  refine ⟨⟨a, there, handles⟩, fun j member => ?_⟩
  obtain ⟨b, place, handles'⟩ := member
  rcases Nat.lt_or_ge i j with later | before
  · obtain ⟨k, rfl⟩ := Nat.exists_eq_add_of_lt later
    rw [Nat.add_right_comm, ← List.getElem?_drop] at place
    exact absurd handles' (above b (List.mem_of_getElem? place))
  · exact before

def aboutToDivide (left right : Int64) : GuestThread :=
  { divided [nestedCaller] with
    stack := .bytecode ⟨⟨2⟩, 2, Locals.ofArgs 1 [], [.int right, .int left, .int 7]⟩ none ::
      (divided [nestedCaller]).stack.tail }

theorem nestedDivides : ∃ p, Program.load nested = .ok p ∧
    ((freeStep p ⟨0⟩ ⟨Heap.empty, #[aboutToDivide Int64.minValue (-1)]⟩).1.thread? ⟨0⟩).map (·.stack.head?) =
      some (some (.bytecode ⟨⟨2⟩, 3, Locals.ofArgs 1 [], [.int Int64.minValue, .int 7]⟩ none)) ∧
    ∃ after thrown, freeStep p ⟨0⟩ ⟨Heap.empty, #[aboutToDivide 5 0]⟩ = (after, .ok (.exception thrown)) ∧
      thrown = ⟨⟨0⟩, "java.lang.ArithmeticException", some "long division by zero", ⟨0⟩, true⟩ ∧
      (after.thread? ⟨0⟩).map (·.stack) =
        some [.bytecode { nestedCaller with pc := 2, operands := [.ref ⟨0⟩] } none] := by
  have ran : (Program.load nested).toOption.any (fun p => decide
      (p.op? ⟨2⟩ 2 = some (.arith .div) ∧ p.handler? nestedCaller Lineage.arithmeticException = some 2 ∧
        ∀ a ∈ (aboutToDivide 5 0).frames.drop 1, ¬ a.Handles p Lineage.arithmeticException)) = true := by
    decide +kernel
  cases loaded : Program.load nested with
  | error e =>
    rw [loaded] at ran
    cases ran
  | ok p =>
    rw [loaded] at ran
    obtain ⟨fetched, row, above⟩ := of_decide_eq_true ran
    refine ⟨p, rfl, ?_, ?_⟩
    · obtain ⟨quotient, remainder, truncated, steps⟩ := divisionTotal Int64.minValue (-1)
      have least : quotient = Int64.minValue :=
        Int64.toInt_inj.mp ((truncated (by decide)).wraps (by decide) (by decide)).1
      have step := (steps p ⟨0⟩ .div ⟨Heap.empty, #[aboutToDivide Int64.minValue (-1)]⟩ _ _ _ _ _ (.inl rfl)
        ⟨rfl, rfl, rfl, fetched⟩).1 (by decide)
      rw [step, least]
      rfl
    · obtain ⟨_, _, _, steps⟩ := divisionTotal 5 0
      obtain ⟨after, thrown, step, raised⟩ := (steps p ⟨0⟩ .div ⟨Heap.empty, #[aboutToDivide 5 0]⟩ _ _ _ _ _
        (.inl rfl) ⟨rfl, rfl, rfl, fetched⟩).2 rfl
      have handles : (Activation.bytecode nestedCaller none).Handles p Lineage.arithmeticException := by
        by_contra refused
        cases ((Program.handlerNone none).mpr refused).symm.trans row
      obtain ⟨f, tag, h, stack, place, first, frames, thread, handled⟩ :=
        raised.caught 0 (innermostAt rfl handles above)
      cases place
      have target := row.symm.trans (Program.handlerFirst.mpr ⟨h, first, rfl⟩)
      have report := raised.report
      rw [handled] at report
      rw [← Option.some.inj target, report] at frames
      refine ⟨after, thrown, step, report, ?_⟩
      rw [thread]
      exact congrArg some (List.reverse_injective frames)

end Machine

end BytecodeChecker
