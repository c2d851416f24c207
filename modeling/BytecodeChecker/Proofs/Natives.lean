import BytecodeChecker.Peer.Builtin
import BytecodeChecker.Proofs.Step

/-! Which native methods can be on the stacks of a machine. A native call gets onto a stack only by a
call instruction, so what no instruction calls is never found there. -/
namespace BytecodeChecker

/- The native calls of an activation are to the methods of a kind; interpreted code is free. -/
def Activation.Within (kind : MethodId → Prop) : Activation → Prop
  | .bytecode _ _ => True
  | .native call => kind call.method

def Machine.Within (kind : MethodId → Prop) (m : Machine) : Prop :=
  ∀ thread ∈ m.threads, ∀ a ∈ thread.stack, a.Within kind

def Program.CallsWithin (p : Program) (kind : MethodId → Prop) : Prop :=
  ∀ {id pc callee}, p.op? id pc = some (.invokeStatic callee) →
    ∀ args, (p.activation callee args).Within kind

theorem Program.callsAny (p : Program) : p.CallsWithin fun _ => True := by
  intro id pc callee _ args
  cases p.activation callee args <;> trivial

namespace Machine

variable {kind : MethodId → Prop} {p : Program} {m : Machine} {t : ThreadId}

theorem withinAny (m : Machine) : m.Within fun _ => True := by
  intro thread _ a _
  cases a <;> trivial

theorem withinThread (h : m.Within kind) {thread : GuestThread} (found : m.thread? t = some thread) :
    ∀ a ∈ thread.stack, a.Within kind :=
  h thread (Array.mem_of_getElem? found)

theorem withinSet (h : m.Within kind) {thread : GuestThread}
    (stack : ∀ a ∈ thread.stack, a.Within kind) : (m.setThread t thread).Within kind := by
  intro other member
  rcases Array.mem_or_eq_of_mem_setIfInBounds member with old | rfl
  · exact h other old
  · exact stack

theorem withinModify (h : m.Within kind) {change : GuestThread → GuestThread}
    (keeps : ∀ thread, (∀ a ∈ thread.stack, a.Within kind) →
      ∀ a ∈ (change thread).stack, a.Within kind) : (m.modifyThread t change).Within kind := by
  unfold modifyThread
  cases found : m.thread? t with
  | none => exact h
  | some thread => exact withinSet h (keeps thread (withinThread h found))

theorem withinMap (h : m.Within kind) {change : GuestThread → GuestThread}
    (keeps : ∀ thread, (change thread).stack = thread.stack) :
    Machine.Within kind { m with threads := m.threads.map change } := by
  intro thread member
  obtain ⟨old, inside, rfl⟩ := Array.mem_map.mp member
  rw [keeps old]
  exact h old inside

theorem withinSpawn (h : m.Within kind) (name : String) (id : MethodId) (method : Method)
    (args : List Value) : (m.spawn name id method args).1.Within kind := by
  intro thread member
  rcases Array.mem_push.mp member with old | rfl
  · exact h thread old
  · intro a inside
    cases List.mem_singleton.mp inside
    trivial

theorem withinHeap (h : m.Within kind) (heap : Heap) : Machine.Within kind { m with heap } := h

theorem withinUnblock (h : m.Within kind) (o : ObjectId) : (m.unblock o).Within kind := by
  refine withinMap h fun thread => ?_
  split <;> rfl

theorem withinClear (h : m.Within kind) : m.clearFirstSteps.Within kind :=
  withinMap h fun _ => rfl

theorem withinFlag (h : m.Within kind) (flag : Bool) : (m.setFirstStep t flag).Within kind :=
  withinModify h fun _ stack => stack

theorem withinUnwound {o : ObjectId} {className : String} {stack rest : List Activation}
    (h : ∀ a ∈ stack, a.Within kind) (found : unwound? p o className stack = some rest) :
    ∀ a ∈ rest, a.Within kind := by
  induction stack with
  | nil => simp [unwound?] at found
  | cons top below ih =>
    have deeper := ih (List.forall_mem_cons.mp h).2
    cases top with
    | native call => exact deeper found
    | bytecode f tag =>
      simp only [unwound?] at found
      split at found
      · cases Option.some.inj found
        exact List.forall_mem_cons.mpr ⟨trivial, (List.forall_mem_cons.mp h).2⟩
      · exact deeper found

theorem withinUnwind (h : m.Within kind) (o : ObjectId) : (unwind p t o m).1.Within kind := by
  unfold unwind
  split
  · exact h
  · split
    · exact h
    · rename_i thread found
      split
      · rename_i stack unwound
        exact withinSet h (withinUnwound (withinThread h found) unwound)
      · exact withinSet h (by simp)

theorem withinThrow (h : m.Within kind) (className : String) (message : Option String) :
    (throw p t className message m).1.Within kind := by
  unfold throw
  exact withinUnwind (withinHeap h _) _

theorem withinDeliver (h : m.Within kind) {thread : GuestThread}
    (stack : ∀ a ∈ thread.stack, a.Within kind) (tag : Option String) (value : Option Value) :
    (deliver t thread tag value m).1.Within kind := by
  unfold deliver
  split
  · exact withinSet h stack
  · rename_i same
    rw [same] at stack
    obtain ⟨top, rest⟩ := List.forall_mem_cons.mp stack
    exact withinSet h (List.forall_mem_cons.mpr ⟨top, rest⟩)
  · exact withinSet h stack
  · rename_i same
    rw [same] at stack
    exact withinSet h (List.forall_mem_cons.mpr ⟨trivial, (List.forall_mem_cons.mp stack).2⟩)

theorem withinCarryOut (h : m.Within kind) (thread : GuestThread) (frame : Frame)
    (tag : Option String) {below : List Activation} (stack : ∀ a ∈ below, a.Within kind)
    (effect : Effect)
    (called : ∀ callee args, effect = .call callee args → (p.activation callee args).Within kind) :
    (carryOut p t thread frame tag below m effect).1.Within kind := by
  have put : ∀ (m : Machine) (f : Frame), m.Within kind →
      (carryOut.put t thread tag below m f).Within kind := fun m f h =>
    withinSet h (List.forall_mem_cons.mpr ⟨trivial, stack⟩)
  cases effect with
  | next => exact put m _ h
  | jump target => exact put m _ h
  | raise className message => exact withinThrow (put m _ h) className message
  | rethrow o => exact withinUnwind (put m _ h) o
  | finish value => exact withinDeliver h stack tag value
  | call callee args =>
    exact withinSet h (List.forall_mem_cons.mpr
      ⟨called callee args rfl, List.forall_mem_cons.mpr ⟨trivial, stack⟩⟩)
  | create className => exact put _ _ (withinHeap h _)
  | readStatic field => exact put m _ h
  | writeStatic field v => exact put _ _ (withinHeap h _)
  | readField o field =>
    simp only [carryOut]
    split
    · exact put m _ h
    · exact put m _ h
  | writeField o field v =>
    simp only [carryOut]
    split
    · exact put m _ h
    · exact put _ _ (withinHeap h _)
  | enter o =>
    simp only [carryOut]
    split
    · exact put m _ h
    · exact put _ _ (withinHeap h _)
    · exact withinSet h (List.forall_mem_cons.mpr ⟨trivial, stack⟩)
  | exit o =>
    simp only [carryOut]
    split
    · exact withinThrow (put m _ h) _ none
    · split
      · exact withinUnblock (put _ _ (withinHeap h _)) o
      · exact put _ _ (withinHeap h _)

theorem withinStep (calls : p.CallsWithin kind) (h : m.Within kind) :
    (step p t m).1.Within kind := by
  unfold step
  split
  · exact h
  · rename_i thread found
    have stack := withinThread h found
    split
    · exact h
    · exact h
    · rename_i frame tag below same
      rw [same] at stack
      have rest := (List.forall_mem_cons.mp stack).2
      split
      · exact h
      · rename_i op fetched
        split
        · exact h
        · dsimp only
          split
          · rename_i effect after performed
            refine withinCarryOut h _ _ _ rest effect fun callee args same => ?_
            subst same
            have invoked := Frame.Work.performFrom performed
            subst invoked
            exact calls fetched args
          · exact withinSet h (List.forall_mem_cons.mpr ⟨trivial, rest⟩)

theorem withinNativeReturn (h : m.Within kind) (value : Option Value) :
    (nativeReturn t value m).1.Within kind := by
  unfold nativeReturn
  split
  · exact h
  · rename_i thread found
    have stack := withinThread h found
    split
    · exact h
    · rename_i same
      rw [same] at stack
      exact withinDeliver h (List.forall_mem_cons.mp stack).2 none value
    · exact h

theorem withinDirectCall (h : m.Within kind) (tag : String) (callee : MethodId)
    (args : List Value) : (directCall p t tag callee args m).1.Within kind := by
  unfold directCall
  split
  · exact h
  · split
    · exact h
    · split
      · exact h
      · rename_i thread found
        have stack := withinThread h found
        split
        · rename_i same
          rw [same] at stack
          obtain ⟨top, rest⟩ := List.forall_mem_cons.mp stack
          exact withinSet h (List.forall_mem_cons.mpr
            ⟨trivial, List.forall_mem_cons.mpr ⟨top, rest⟩⟩)
        · exact h

end Machine

end BytecodeChecker
