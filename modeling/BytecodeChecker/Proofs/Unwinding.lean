import Mathlib.Logic.Relation
import Mathlib.Order.Bounds.Basic
import BytecodeChecker.Model.Builder
import BytecodeChecker.Program.Load
import BytecodeChecker.Proofs.Upshot

/-! Unwinding. An exception goes to the innermost frame of its thread that has a handler for it, past native
calls and code that they called; without one the thread ends. Nothing else changes. Which handlers take an
exception is said here from the rows of the tables and from the superclass of each class. -/
namespace BytecodeChecker

namespace Lineage

def parent? (className : String) : Option String :=
  if className = throwable then none
  else if className ∈ [arithmeticException, nullPointerException, illegalMonitorStateException,
      illegalArgumentException] then some runtimeException
  else if className = runtimeException then some exception
  else if className = assertionError then some error
  else some throwable

def Descends : String → String → Prop := Relation.ReflTransGen fun child parent => parent? child = some parent

theorem ancestorsRoot {className : String} (root : parent? className = none) : ancestors className = [className] := by
  by_cases same : className = throwable
  · rw [same]
    rfl
  · rw [parent?, if_neg same] at root
    repeat' split at root
    all_goals cases root

theorem ancestorsParent {className parent : String} (up : parent? className = some parent) :
    ancestors className = className :: ancestors parent := by
  unfold parent? at up
  unfold ancestors
  split at up
  · cases up
  · rename_i notRoot
    rw [if_neg notRoot]
    split at up
    · rename_i member
      cases up
      have other : className ≠ runtimeException := by
        intro same
        rw [same] at member
        revert member
        decide
      rw [if_neg other, if_pos member]
      rfl
    · rename_i notListed
      split at up
      · rename_i same
        cases up
        rw [if_pos same, same]
        rfl
      · rename_i notRuntime
        rw [if_neg notRuntime, if_neg notListed]
        split at up
        · rename_i same
          cases up
          rw [if_pos same, same]
          rfl
        · rename_i notAssertion
          cases up
          rw [if_neg notAssertion]
          rfl

theorem ancestorsSelf (className : String) : className ∈ ancestors className := by
  cases up : parent? className with
  | none => rw [ancestorsRoot up]; exact List.mem_singleton_self _
  | some parent => rw [ancestorsParent up]; exact List.mem_cons_self

theorem subclassDescends (className ancestor : String) :
    isSubclass className ancestor = true ↔ Descends className ancestor := by
  rw [isSubclass, List.contains_iff_mem]
  constructor
  · intro listed
    -- by induction on the number of ancestors, which is one less for the superclass
    induction size : (ancestors className).length generalizing className with
    | zero =>
      rw [List.eq_nil_of_length_eq_zero size] at listed
      cases listed
    | succ n ih =>
      cases up : parent? className with
      | none =>
        rw [ancestorsRoot up] at listed
        cases List.mem_singleton.mp listed
        exact .refl
      | some parent =>
        rw [ancestorsParent up] at listed size
        rcases List.mem_cons.mp listed with same | above
        · cases same
          exact .refl
        · exact .head up (ih parent above (Nat.succ.inj size))
  · intro descends
    induction descends using Relation.ReflTransGen.head_induction_on with
    | refl => exact ancestorsSelf ancestor
    | head up _ ih =>
      rw [ancestorsParent up]
      exact List.mem_cons_of_mem _ ih

end Lineage

structure Handler.Takes (h : Handler Nat) (pc : Nat) (className : String) : Prop where
  start : h.start ≤ pc
  stop : pc < h.stop
  className : h.className = Handler.anyClass ∨ Lineage.Descends className h.className

theorem Handler.takesIff (h : Handler Nat) (pc : Nat) (className : String) :
    (h.covers pc && h.catches className) = true ↔ h.Takes pc className := by
  simp only [covers, catches, Bool.and_eq_true, Bool.or_eq_true, decide_eq_true_eq, beq_iff_eq,
    Lineage.subclassDescends]
  exact ⟨fun row => ⟨row.1.1, row.1.2, row.2⟩, fun takes => ⟨⟨takes.start, takes.stop⟩, takes.className⟩⟩

theorem Handler.catchesAll (h : Handler Nat) (all : h.className = anyClass ∨ h.className = Lineage.throwable)
    (className : String) : h.catches className = true := by
  rcases all with any | root
  · simp [catches, any]
  · simp [catches, root, Lineage.subclassThrowable]

def Program.FirstRow (p : Program) (f : Frame) (className : String) (h : Handler Nat) : Prop :=
  ∃ (method : Method) (i : Nat), p.method? f.method = some method ∧ method.handlers[i]? = some h ∧
    h.Takes f.pc className ∧
    ∀ j, j < i → ∀ earlier, method.handlers[j]? = some earlier → ¬ earlier.Takes f.pc className

def Activation.Handles (p : Program) (className : String) : Activation → Prop
  | .bytecode f _ => ∃ method, p.method? f.method = some method ∧ ∃ h ∈ method.handlers, h.Takes f.pc className
  | .native _ => False

namespace Program

variable {p : Program} {f : Frame} {className : String}

theorem handlerFirst {target : Nat} :
    p.handler? f className = some target ↔ ∃ h, p.FirstRow f className h ∧ h.target = target := by
  constructor
  · intro found
    obtain ⟨method, here, picked⟩ := Option.bind_eq_some_iff.mp found
    obtain ⟨h, first, same⟩ := Option.map_eq_some_iff.mp picked
    obtain ⟨takes, i, inside, row, before⟩ := List.find?_eq_some_iff_getElem.mp first
    refine ⟨h, ⟨method, i, here, List.getElem?_eq_some_iff.mpr ⟨inside, row⟩,
      (Handler.takesIff _ _ _).mp takes, ?_⟩, same⟩
    intro j less earlier there taken
    obtain ⟨bound, at_⟩ := List.getElem?_eq_some_iff.mp there
    have refused := before j less
    simp [at_, (Handler.takesIff _ _ _).mpr taken] at refused
  · intro found
    obtain ⟨h, ⟨method, i, here, row, takes, before⟩, same⟩ := found
    obtain ⟨inside, at_⟩ := List.getElem?_eq_some_iff.mp row
    have first : method.handlers.find? (fun h => h.covers f.pc && h.catches className) = some h := by
      refine List.find?_eq_some_iff_getElem.mpr ⟨(Handler.takesIff _ _ _).mpr takes, i, inside, at_, ?_⟩
      intro j less
      have refused := before j less _ (List.getElem?_eq_getElem (Nat.lt_trans less inside))
      rw [← Handler.takesIff, Bool.not_eq_true] at refused
      rw [refused]
      rfl
    simp only [handler?, here, Option.bind_some, Method.findHandler?, first, Option.map_some, same]

theorem handlerNone (tag : Option String) :
    p.handler? f className = none ↔ ¬ (Activation.bytecode f tag).Handles p className := by
  unfold handler?
  cases here : p.method? f.method with
  | none => simp [Activation.Handles, here]
  | some method =>
    simp only [Activation.Handles, here, Option.bind_some, Method.findHandler?, Option.map_eq_none_iff,
      List.find?_eq_none, Handler.takesIff, Option.some.injEq, exists_eq_left', not_exists, not_and]

end Program

instance (p : Program) (className : String) (a : Activation) : Decidable (a.Handles p className) :=
  match a with
  | .bytecode f tag =>
    decidable_of_iff (¬ p.handler? f className = none) ((not_congr (Program.handlerNone tag)).trans Classical.not_not)
  | .native _ => .isFalse id

namespace Machine

variable {p : Program} {o : ObjectId} {className : String}

theorem unwoundPast {above : List Activation} (past : ∀ a ∈ above, ¬ a.Handles p className)
    (stack : List Activation) :
    unwound? p o className (above ++ stack) = unwound? p o className stack := by
  induction above with
  | nil => rfl
  | cons top rest ih =>
    obtain ⟨head, tail⟩ := List.forall_mem_cons.mp past
    cases top with
    | native call => exact ih tail
    | bytecode f tag =>
      simp only [List.cons_append, unwound?, (Program.handlerNone tag).mpr head]
      exact ih tail

theorem unwoundNone {stack : List Activation} (past : ∀ a ∈ stack, ¬ a.Handles p className) :
    unwound? p o className stack = none := by
  have all := unwoundPast (o := o) past []
  rw [List.append_nil] at all
  exact all

theorem unwoundHere {f : Frame} {tag : Option String} (handles : (Activation.bytecode f tag).Handles p className)
    (below : List Activation) :
    ∃ h, p.FirstRow f className h ∧ unwound? p o className (.bytecode f tag :: below) =
      some (.bytecode { f with pc := h.target, operands := [.ref o] } tag :: below) := by
  cases handler : p.handler? f className with
  | none => exact absurd handles ((Program.handlerNone tag).mp handler)
  | some target =>
    obtain ⟨h, first, same⟩ := Program.handlerFirst.mp handler
    exact ⟨h, first, by simp only [unwound?, handler, same]⟩

end Machine

def GuestThread.frames (thread : GuestThread) : List Activation := thread.stack.reverse

theorem GuestThread.stackSplit {thread : GuestThread} {i : Nat} {a : Activation}
    (there : thread.frames[i]? = some a) :
    thread.stack = (thread.frames.drop (i + 1)).reverse ++ a :: (thread.frames.take i).reverse := by
  obtain ⟨inside, same⟩ := List.getElem?_eq_some_iff.mp there
  have whole : thread.frames = thread.frames.take i ++ a :: thread.frames.drop (i + 1) := by
    rw [← same, List.getElem_cons_drop, List.take_append_drop]
  calc thread.stack = thread.frames.reverse := (List.reverse_reverse _).symm
    _ = (thread.frames.take i ++ a :: thread.frames.drop (i + 1)).reverse := congrArg List.reverse whole
    _ = _ := by simp

namespace Machine

variable {p : Program} {m : Machine} {t : ThreadId} {o : ObjectId} {thread : GuestThread} {object : HeapObject}

theorem unwindHandled {stack : List Activation} (found : m.thread? t = some thread)
    (there : m.heap.object? o = some object) (handled : unwound? p o object.className thread.stack = some stack) :
    unwind p t o m = (m.setThread t { thread with stack },
      .ok ⟨t, object.className, messageOf? m.heap o, o, true⟩) := by
  simp only [unwind, there, found, handled]

theorem unwindUnhandled (found : m.thread? t = some thread) (there : m.heap.object? o = some object)
    (unhandled : unwound? p o object.className thread.stack = none) :
    unwind p t o m = (m.setThread t { thread with stack := [], status := .terminated },
      .ok ⟨t, object.className, messageOf? m.heap o, o, false⟩) := by
  simp only [unwind, there, found, unhandled]

/- The places of the stack where an exception of the class is handled, counted from the bottom. -/
def handling (p : Program) (className : String) (thread : GuestThread) : Set Nat :=
  { i | ∃ a, thread.frames[i]? = some a ∧ a.Handles p className }

theorem unwoundInnermost {className : String} {i : Nat} (innermost : IsGreatest (handling p className thread) i) :
    ∃ f tag h, thread.frames[i]? = some (.bytecode f tag) ∧ p.FirstRow f className h ∧
      unwound? p o className thread.stack =
        some (.bytecode { f with pc := h.target, operands := [.ref o] } tag :: (thread.frames.take i).reverse) := by
  obtain ⟨⟨a, there, handles⟩, greatest⟩ := innermost
  cases a with
  | native call => cases handles
  | bytecode f tag =>
    obtain ⟨h, first, caught⟩ := unwoundHere (o := o) handles (thread.frames.take i).reverse
    refine ⟨f, tag, h, there, first, ?_⟩
    rw [GuestThread.stackSplit there, unwoundPast, caught]
    intro a above handles'
    obtain ⟨k, place⟩ := List.mem_iff_getElem?.mp (List.mem_reverse.mp above)
    rw [List.getElem?_drop] at place
    have least : i + 1 + k ≤ i := greatest ⟨a, place, handles'⟩
    omega

theorem unwindsToInnermost (found : m.thread? t = some thread) (there : m.heap.object? o = some object) :
    ∃ after thrown, unwind p t o m = (after, .ok thrown) ∧
      thrown.thread = t ∧ thrown.object = o ∧ thrown.className = object.className ∧
      after.heap = m.heap ∧ (∀ j, j ≠ t → after.thread? j = m.thread? j) ∧
      (∀ i, IsGreatest (handling p object.className thread) i →
        ∃ f tag h stack, thread.frames[i]? = some (.bytecode f tag) ∧ p.FirstRow f object.className h ∧
          stack.reverse =
            thread.frames.take i ++ [.bytecode { f with pc := h.target, operands := [.ref o] } tag] ∧
          after.thread? t = some { thread with stack } ∧ thrown.handled = true) ∧
      ((∀ a ∈ thread.frames, ¬ a.Handles p object.className) →
        after.thread? t = some { thread with stack := [], status := .terminated } ∧ thrown.handled = false) ∧
      ∀ h : Handler Nat, h.className = "*" ∨ h.className = "java.lang.Throwable" →
        ∀ className, h.catches className = true := by
  have inside := threadInside found
  have here : ∀ final, (m.setThread t final).thread? t = some final := fun final =>
    (threadSet inside final t).trans (if_pos rfl)
  have elsewhere : ∀ final j, j ≠ t → (m.setThread t final).thread? j = m.thread? j := fun final j other =>
    (threadSet inside final j).trans (if_neg fun same => other same.symm)
  cases unwound : unwound? p o object.className thread.stack with
  | some stack =>
    refine ⟨_, _, unwindHandled found there unwound, rfl, rfl, rfl, rfl, elsewhere _, fun i innermost => ?_,
      fun past => ?_, Handler.catchesAll⟩
    · obtain ⟨f, tag, h, place, first, caught⟩ := unwoundInnermost (o := o) innermost
      cases Option.some.inj (unwound.symm.trans caught)
      exact ⟨f, tag, h, _, place, first, by simp, here _, rfl⟩
    · have none := unwoundNone (o := o) fun a member => past a (List.mem_reverse.mpr member)
      cases unwound.symm.trans none
  | none =>
    refine ⟨_, _, unwindUnhandled found there unwound, rfl, rfl, rfl, rfl, elsewhere _, fun i innermost => ?_,
      fun _ => ⟨here _, rfl⟩, Handler.catchesAll⟩
    obtain ⟨_, _, _, _, _, caught⟩ := unwoundInnermost (o := o) innermost
    cases unwound.symm.trans caught

/- Code that a native call has called, and the code of the native call's caller. Only the caller has rows that
cover where it stands, and the first of them is for other exceptions. -/
def nested : Model :=
  { Model.start "nested" "Nested.main()V" with
    methods :=
      [⟨"Nested.main()V", false, 0, [.invokeStatic "Host.call()V", .ret none, .pop, .ret none],
          [⟨0, 1, 1, Lineage.error⟩, ⟨0, 1, 2, Lineage.runtimeException⟩, ⟨0, 1, 3, Handler.anyClass⟩]⟩,
        ⟨"Nested.called()V", false, 0, [.invokeStatic "Nested.divide()V", .ret none],
          [⟨1, 2, 1, Lineage.arithmeticException⟩]⟩,
        ⟨"Nested.divide()V", false, 1, [.pushLong 1, .pushLong 0, .arith .div, .store .long 0, .ret none], []⟩] }

def divided (caller : List Frame) : GuestThread where
  name := "main"
  status := .runnable
  stack := [.bytecode ⟨⟨2⟩, 2, Locals.ofArgs 1 [], [.int 7]⟩ none, .bytecode ⟨⟨1⟩, 0, Locals.ofArgs 0 [], []⟩ (some "go"),
    .native ⟨⟨3⟩, [], .awaitingDirectCall "go"⟩] ++ caller.map (.bytecode · none)
  firstStep := false

def nestedCaller : Frame := ⟨⟨0⟩, 0, Locals.ofArgs 0 [], [.null, .int 3]⟩

def dividing : Machine where
  heap := ⟨#[⟨Lineage.arithmeticException, NameMap.empty, .free⟩], NameMap.empty⟩
  threads := #[divided [nestedCaller], divided []]

theorem dividingUnwound : ∃ p, Program.load nested = .ok p ∧
    IsGreatest (handling p Lineage.arithmeticException (divided [nestedCaller])) 0 ∧
    (∃ after thrown stack, unwind p ⟨0⟩ ⟨0⟩ dividing = (after, .ok thrown) ∧ thrown.handled = true ∧
      after.heap = dividing.heap ∧ after.thread? ⟨1⟩ = dividing.thread? ⟨1⟩ ∧
      after.thread? ⟨0⟩ = some { divided [nestedCaller] with stack } ∧
      stack.reverse = [.bytecode { nestedCaller with pc := 2, operands := [.ref ⟨0⟩] } none]) ∧
    ∃ after thrown, unwind p ⟨1⟩ ⟨0⟩ dividing = (after, .ok thrown) ∧ thrown.handled = false ∧
      after.thread? ⟨1⟩ = some { divided [] with stack := [], status := .terminated } := by
  have ran : (Program.load nested).toOption.any (fun p => decide
      (p.handler? nestedCaller Lineage.arithmeticException = some 2 ∧
        (∀ a ∈ (divided [nestedCaller]).frames.drop 1, ¬ a.Handles p Lineage.arithmeticException) ∧
        ∀ a ∈ (divided []).frames, ¬ a.Handles p Lineage.arithmeticException)) = true := by
    decide +kernel
  cases loaded : Program.load nested with
  | error e =>
    rw [loaded] at ran
    cases ran
  | ok p =>
    rw [loaded] at ran
    obtain ⟨row, above, nowhere⟩ := of_decide_eq_true ran
    have innermost : IsGreatest (handling p Lineage.arithmeticException (divided [nestedCaller])) 0 := by
      refine ⟨⟨.bytecode nestedCaller none, rfl, ?_⟩, fun i member => ?_⟩
      · apply Classical.byContradiction
        intro refused
        cases ((Program.handlerNone none).mpr refused).symm.trans row
      · obtain ⟨a, place, handles⟩ := member
        cases i with
        | zero => exact Nat.le_refl 0
        | succ i =>
          rw [Nat.add_comm, ← List.getElem?_drop] at place
          exact absurd handles (above a (List.mem_of_getElem? place))
    obtain ⟨after, thrown, unwound, _, _, _, heap, others, caught, _⟩ :=
      unwindsToInnermost (p := p) (m := dividing) (t := ⟨0⟩) (o := ⟨0⟩) rfl rfl
    obtain ⟨f, tag, h, stack, place, first, frames, thread, handled⟩ := caught 0 innermost
    cases place
    have target := row.symm.trans (Program.handlerFirst.mpr ⟨h, first, rfl⟩)
    rw [← Option.some.inj target] at frames
    obtain ⟨after', thrown', unwound', _, _, _, _, _, _, ended, _⟩ :=
      unwindsToInnermost (p := p) (m := dividing) (t := ⟨1⟩) (o := ⟨0⟩) rfl rfl
    obtain ⟨thread', unhandled⟩ := ended nowhere
    exact ⟨p, rfl, innermost,
      ⟨after, thrown, stack, unwound, handled, heap, others ⟨1⟩ (by decide), thread, frames⟩,
      after', thrown', unwound', unhandled, thread'⟩

end Machine

end BytecodeChecker
