import BytecodeChecker.Proofs.Faults
import BytecodeChecker.Proofs.Locality

/-! The machines that come about. Whatever the threads of a program do, and whatever native calls answer, code
stays inside itself and every reference leads to an object. -/
namespace BytecodeChecker

section Own

variable {p : Program} {h : Heap}

theorem Value.Inside.own {v : Value} (inside : v.Inside h.size) : v.Matches h.own v := by
  cases v with
  | null => exact .null
  | int n => exact .int n
  | str text => exact .str text
  | ref o => exact .ref ⟨rfl, inside o rfl⟩

theorem valuesOwn {vs : List Value} (inside : ∀ v ∈ vs, v.Inside h.size) : vs.Forall₂ (Value.Matches h.own) vs :=
  List.forall₂_same.mpr fun v member => (inside v member).own

theorem relOwn {v : Option Value} (inside : ∀ w ∈ v, w.Inside h.size) : Option.Rel (Value.Matches h.own) v v := by
  cases v with
  | none => exact .none
  | some w => exact .some (inside w rfl).own

theorem Frame.Inside.own {f : Frame} (inside : f.Inside h.size) : f.Matches h.own f :=
  ⟨rfl, rfl, ⟨rfl, fun slot => relOwn fun v found => inside.locals slot v found⟩, valuesOwn inside.operands⟩

theorem Activation.WellFormed.own {a : Activation} (wf : a.WellFormed p h.size) : a.Matches h.own a := by
  cases a with
  | bytecode f tag => exact .bytecode wf.2.own tag
  | native call =>
    obtain ⟨_, args, inside⟩ := wf
    refine .native ⟨rfl, valuesOwn args, ?_⟩
    cases phase : call.phase with
    | entry => exact .entry
    | awaitingChoice => exact .awaitingChoice
    | awaitingDirectCall tag => exact .awaitingDirectCall tag
    | directCallReturned tag value =>
      rw [phase] at inside
      exact .directCallReturned tag (relOwn inside)

theorem Heap.WellFormed.own (wf : h.WellFormed) : h.Matches h.own h where
  statics name := relOwn fun v found => wf.statics name v found
  objects := by
    rintro o o' ⟨rfl, inside⟩
    obtain ⟨object, found⟩ := Heap.objectThere inside
    exact ⟨object, object, found, found, rfl, fun name => relOwn fun v held => wf.fields o object name v found held,
      rfl⟩

end Own

namespace Machine

/- What the machine can come to from the start of a program. A step is one of any thread, whatever comes of it.
A native call on top of a thread is answered by anything that is there. -/
inductive Reached (p : Program) : Machine → Prop where
  | initial : Reached p (State.initial p).toMachine
  | stepped {m : Machine} (reached : Reached p m) (t : ThreadId) : Reached p (step p t m).1
  | flagged {m : Machine} (reached : Reached p m) (t : ThreadId) (flag : Bool) : Reached p (m.setFirstStep t flag)
  | returned {m : Machine} (reached : Reached p m) (t : ThreadId) (value : Option Value)
      (inside : ∀ v ∈ value, v.Inside m.heap.size) : Reached p (nativeReturn t value m).1
  | called {m : Machine} (reached : Reached p m) (t : ThreadId) (tag : String) (callee : MethodId)
      (args : List Value) (inside : ∀ v ∈ args, v.Inside m.heap.size) : Reached p (directCall p t tag callee args m).1
  | thrown {m : Machine} (reached : Reached p m) {t : ThreadId} {thread : GuestThread} {top : Activation}
      {below : List Activation} (found : m.thread? t = some thread) (stack : thread.stack = top :: below)
      (className : String) (message : Option String) : Reached p (throw p t className message m).1
  | spawned {m : Machine} (reached : Reached p m) (name : String) {id : MethodId} {method : Method}
      (found : p.method? id = some method) (interpreted : method.native = false) (args : List Value)
      (inside : ∀ v ∈ args, v.Inside m.heap.size) : Reached p (m.spawn name id method args).1
  | stored {m : Machine} (reached : Reached p m) (name : String) (v : Value) (inside : v.Inside m.heap.size) :
      Reached p { m with heap := m.heap.setStatic name v }

variable {p : Program} {m : Machine} {t : ThreadId} {thread : GuestThread}

def WaitsInside (m : Machine) : Prop :=
  ∀ t thread o, m.thread? t = some thread → thread.status = .blocked o → o.index < m.heap.size

theorem WaitsInside.spawn (waits : m.WaitsInside) (name : String) (id : MethodId) (method : Method)
    (args : List Value) : (m.spawn name id method args).1.WaitsInside := by
  intro j other o found blocked
  simp only [Machine.spawn, thread?, Array.getElem?_push] at found
  split at found
  · cases Option.some.inj found
    cases blocked
  · exact waits j other o found blocked

theorem initialWaits (p : Program) : (State.initial p).toMachine.WaitsInside :=
  Explorer.initialHolds WaitsInside (fun _ _ _ found => by cases found)
    (fun name id method waits => waits.spawn name id method []) p

/- Nothing but an operand can stop a thread, and what it waits for is there. -/
structure Grounded (p : Program) (m : Machine) : Prop where
  wellFormed : m.WellFormed p
  waits : m.WaitsInside

theorem Grounded.live (grounded : m.Grounded p) : m.Live where
  heap := grounded.wellFormed.heap.own
  threads t := by
    cases found : m.thread? t with
    | none => exact .none
    | some thread =>
      have wf := grounded.wellFormed.threads t thread found
      refine .some ⟨rfl, ?_, List.forall₂_same.mpr fun a member => (wf.stack.activations a member).own⟩
      cases status : thread.status with
      | runnable => exact .runnable
      | terminated => exact .terminated
      | blocked o => exact .blocked ⟨rfl, grounded.waits t thread o found status⟩

theorem Grounded.setThread (grounded : m.Grounded p) {thread' : GuestThread}
    (found : m.thread? t = some thread) (wf : thread'.WellFormed p m.heap.size)
    (status : thread'.status = thread.status) : (m.setThread t thread').Grounded p where
  wellFormed := grounded.wellFormed.setThread wf
  waits j other o there blocked := by
    rw [threadSet (threadInside found)] at there
    split at there
    · cases Option.some.inj there
      exact grounded.waits t thread o found (status.symm.trans blocked)
    · exact grounded.waits j other o there blocked

theorem Grounded.flag (grounded : m.Grounded p) (t : ThreadId) (flag : Bool) :
    (m.setFirstStep t flag).Grounded p := by
  unfold setFirstStep modifyThread
  split
  · rename_i thread found
    have old := grounded.wellFormed.threads t thread found
    exact grounded.setThread found ⟨old.stack, old.ended, old.top⟩ rfl
  · exact grounded

theorem Grounded.install (grounded : m.Grounded p) (found : m.thread? t = some thread) {u : Upshot}
    (sound : u.Sound p m.heap.size)
    (waits : ∀ o, u.thread.status = .blocked o → thread.status = .blocked o ∨ o.index < m.heap.size) :
    (u.install t m).Grounded p where
  wellFormed := grounded.wellFormed.install sound (threadInside found)
  waits j other o there blocked := by
    rw [Upshot.installHeap]
    apply Nat.lt_of_lt_of_le _ sound.grows
    rw [Upshot.installThread (threadInside found)] at there
    obtain ⟨before, origin, rfl⟩ := Option.map_eq_some_iff.mp there
    obtain ⟨status, _⟩ := GuestThread.wakeBlocked blocked
    split at origin
    · cases Option.some.inj origin
      rcases waits o status with old | inside
      · exact grounded.waits t thread o found old
      · exact inside
    · exact grounded.waits j before o origin status

theorem sparesWaits {u : Upshot} (spares : u.Spares m.heap thread.status) (o : ObjectId)
    (blocked : u.thread.status = .blocked o) : thread.status = .blocked o ∨ o.index < m.heap.size := by
  rcases spares.status with same | ended
  · exact .inl (same.symm.trans blocked)
  · cases ended.symm.trans blocked

theorem upshotWaits {u : Upshot} (works : thread.upshot? p t m.heap = some u) (o : ObjectId)
    (blocked : u.thread.status = .blocked o) : thread.status = .blocked o ∨ o.index < m.heap.size := by
  cases GuestThread.upshotTrades works with
  | spares spares idle => exact sparesWaits spares o blocked
  | enters about allowed heap freed status result => exact .inl (status.symm.trans blocked)
  | leaves about allowed heap freed status result => exact .inl (status.symm.trans blocked)
  | waits about contended heap freed status stack result =>
    cases status.symm.trans blocked
    obtain ⟨object, there, _⟩ := Heap.entryParts contended
    exact .inr (Heap.objectInside there)

section Checked

variable (checked : p.Checked) (grounded : m.Grounded p)
include checked grounded

theorem Grounded.step (t : ThreadId) : (step p t m).1.Grounded p := by
  cases stepCase p t m with
  | stuck fault same => rwa [same]
  | native found stack same => rwa [same]
  | point found stack fetched relevant rested others same => rwa [same]
  | @ran thread frame tag below op found stack fetched free result =>
    have wf := grounded.wellFormed.threads t thread found
    have stacked := wf.stack
    rw [stack] at stacked
    obtain ⟨op', fetched', done⟩ := wf.performs checked stack
    cases Option.some.inj (fetched.symm.trans fetched')
    rw [result]
    unfold attempt
    cases performed : Frame.Work.perform p.argCount op frame with
    | error fault after =>
      rw [performed] at done
      obtain ⟨_, kept⟩ := done
      have wf' := (GuestThread.frameWellFormed { thread with firstStep := false, stack := _ } rfl
        (stacked.kept kept) (wf.alive stack)).1
      exact grounded.setThread found wf' rfl
    | ok effect after =>
      rw [performed] at done
      obtain ⟨fits, kept⟩ := done
      dsimp only
      rw [Upshot.effectInstalls (threadInside found)]
      have sound := Upshot.effectSound (t := t) checked grounded.wellFormed.heap { thread with firstStep := false }
        (wf.alive stack) stacked fetched kept fits
      have works : thread.upshot? p t m.heap =
          some (Upshot.ofEffect p t { thread with firstStep := false } after tag below m.heap effect) :=
        GuestThread.upshotIff.mpr ⟨_, _, _, _, _, _, stack, fetched, performed, rfl⟩
      exact grounded.install found sound (upshotWaits works)

theorem Grounded.answer (t : ThreadId) {value : Option Value} (inside : ∀ v ∈ value, v.Inside m.heap.size) :
    (nativeReturn t value m).1.Grounded p := by
  unfold nativeReturn
  split
  · exact grounded
  · rename_i thread found
    split
    · exact grounded
    · rename_i call below stack
      have wf := grounded.wellFormed.threads t thread found
      have stacked := wf.stack
      rw [stack] at stacked
      rw [Upshot.deliverInstalls]
      have sound := Upshot.deliverSound checked grounded.wellFormed.heap { thread with stack := below }
        (wf.alive stack) stacked inside
      exact grounded.install found sound (sparesWaits (Upshot.deliverSpares (by rfl) none value))
    · exact grounded

theorem Grounded.call (t : ThreadId) (tag : String) (callee : MethodId) {args : List Value}
    (inside : ∀ v ∈ args, v.Inside m.heap.size) : (directCall p t tag callee args m).1.Grounded p := by
  cases called : p.method? callee with
  | none => simpa [directCall, called] using grounded
  | some method =>
    cases native : method.native with
    | true => simpa [directCall, called, native] using grounded
    | false =>
      cases found : m.thread? t with
      | none => simpa [directCall, called, native, found] using grounded
      | some thread =>
        cases stack : thread.stack with
        | nil => simpa [directCall, called, native, found, stack] using grounded
        | cons top below =>
          cases top with
          | bytecode f tag' => simpa [directCall, called, native, found, stack] using grounded
          | native call =>
            have runs := directCallRuns checked grounded.wellFormed found stack tag ⟨method, called, native⟩ inside
            have set := fun thread' => (threadSet (threadInside found) thread' t).trans (if_pos rfl)
            simp only [directCall, called, native, found, stack] at runs ⊢
            exact grounded.setThread found (runs.wellFormed.threads t _ (set _)) rfl

theorem Grounded.throw (found : m.thread? t = some thread) {top : Activation} {below : List Activation}
    (stack : thread.stack = top :: below) (className : String) (message : Option String) :
    (throw p t className message m).1.Grounded p := by
  have wf := grounded.wellFormed.threads t thread found
  have thrown := Upshot.throwInstalls (p := p) (threadInside found) className message thread
  rw [setSame found] at thrown
  have after : (Machine.throw p t className message m).1 =
      (Upshot.ofThrow p t className message thread m.heap).install t m := congrArg Prod.fst thrown
  rw [after]
  have sound := Upshot.throwSound (t := t) checked grounded.wellFormed.heap thread (wf.alive stack) wf.stack
    className message
  exact grounded.install found sound (sparesWaits (Upshot.throwSpares rfl className message))

end Checked

theorem Reached.grounded {model : Model} (loaded : Program.load model = .ok p) (reached : m.Reached p) :
    m.Grounded p := by
  have checked := Program.loadChecked loaded
  induction reached with
  | initial =>
    have runs := State.initialRuns checked
    exact ⟨runs.wellFormed.machine, initialWaits p⟩
  | stepped reached t ih => exact ih.step checked t
  | flagged reached t flag ih => exact ih.flag t flag
  | returned reached t value inside ih => exact ih.answer checked t inside
  | called reached t tag callee args inside ih => exact ih.call checked t tag callee inside
  | thrown reached found stack className message ih => exact ih.throw checked found stack className message
  | spawned reached name found interpreted args inside ih =>
    exact ⟨ih.wellFormed.spawn checked name found interpreted inside, ih.waits.spawn name _ _ args⟩
  | stored reached name v inside ih =>
    exact ⟨⟨ih.wellFormed.heap.setStatic name inside, ih.wellFormed.threads⟩, ih.waits⟩

end Machine

end BytecodeChecker
