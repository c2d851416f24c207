import BytecodeChecker.Proofs.Descriptors
import BytecodeChecker.Proofs.Exchange
import BytecodeChecker.Proofs.Reached

/-! Steps that do not depend on each other. An instruction that other threads cannot observe may be made before
or after an instruction of another thread: both orders succeed or neither does, both report the same, and they
end in the same machine. Only where each makes an object the two objects exchange their numbers. -/
namespace BytecodeChecker

theorem Load.Names.dotted {text : String} {field : FieldRef} (names : Names text field) : '.' ∈ field.name.toList := by
  cases names with
  | untyped owned named last apart written => simp [written]
  | typed owned named last apart plain written => simp

theorem Program.messageUnnamed {model : Model} {p : Program} (loaded : load model = .ok p) {id : MethodId} {pc : Nat}
    {op : Op} {field : FieldRef} (fetched : p.op? id pc = some op) (named : op.field? = some field) :
    field.name ≠ "message" := by
  obtain ⟨source⟩ := loadSource loaded
  obtain ⟨_, _, _, _, _, lowered⟩ := source.opAt fetched
  obtain ⟨_, _, hit⟩ := Load.relatedBack (Load.resolvedParts lowered).named named
  intro same
  have dotted := (Load.fieldRefIff.mp hit).dotted
  rw [same] at dotted
  revert dotted
  decide

theorem GuestThread.messageSpared {model : Model} {p : Program} (loaded : Program.load model = .ok p)
    (thread : GuestThread) : ¬ thread.Writes p "message" := by
  rintro ⟨field, next, same⟩
  unfold nextOp? at next
  split at next
  · exact Program.messageUnnamed loaded next rfl same
  · cases next

namespace Machine

variable {pairs : Pairing} {h h' : Heap} {o o' : ObjectId}

theorem messageMatches (heaps : h.Matches pairs h') (paired : pairs o o') : messageOf? h o = messageOf? h' o' := by
  obtain ⟨object, object', found, found', same⟩ := heaps.objects paired
  unfold messageOf? Heap.field?
  rw [found, found', Option.bind_some, Option.bind_some]
  rcases relCases (same.fields "message") with ⟨none, none'⟩ | ⟨v, v', held, held', values⟩
  · rw [none, none']
  · rw [held, held']
    cases values <;> rfl

theorem messageAdd {made : Option HeapObject} (inside : o.index < h.size) :
    messageOf? (h.add made) o = messageOf? h o := by
  unfold messageOf? Heap.field?
  rw [Heap.addOld inside]

theorem messageNew (made : Option HeapObject) (h h' : Heap) :
    messageOf? (h.add made) ⟨h.size⟩ = messageOf? (h'.add made) ⟨h'.size⟩ := by
  unfold messageOf? Heap.field?
  rw [Heap.addNew, Heap.addNew]

theorem messageGrown {written : String → Prop} (grown : h.Grown written h') (spared : ¬ written "message")
    (inside : o.index < h.size) : messageOf? h' o = messageOf? h o := by
  obtain ⟨object, found⟩ := Heap.objectThere inside
  obtain ⟨object', found', _, fields⟩ := grown.object found
  unfold messageOf? Heap.field?
  rw [found, found', Option.bind_some, Option.bind_some, fields "message" spared]

end Machine

theorem Step.exchangeSelf (a : ObjectId) (step : Step) : step.exchange a a = step := by
  rw [exchange, Equiv.swap_self]
  cases step <;> rfl

theorem Reported.succeeds {pairs : Pairing} {result result' : Except Fault Step} (h : Reported pairs result result') :
    (∃ step, result = .ok step) ↔ ∃ step, result' = .ok step := by
  cases h <;> simp

theorem Reported.renamed {pairs : Pairing} {σ : ObjectId → ObjectId} (follows : ∀ o o', pairs o o' → o' = σ o)
    {step step' : Step} (h : Reported pairs (.ok step) (.ok step'))
    (messages : ∀ thrown thrown', step = .exception thrown → step' = .exception thrown' →
      pairs thrown.object thrown'.object → thrown'.message = thrown.message) : step' = step.rename σ := by
  cases h with
  | executed => rfl
  | terminated => rfl
  | blocked paired => rw [Step.rename, follows _ _ paired]
  | @exception thrown thrown' thread className object handled =>
    have message := messages thrown thrown' rfl rfl object
    have place := follows _ _ object
    obtain ⟨_, _, _, _, _⟩ := thrown'
    cases thread
    cases className
    cases message
    cases place
    cases handled
    rfl

namespace Machine

variable {p : Program} {m : Machine} {c t : ThreadId} {a b : GuestThread}

structure Chosen (m : Machine) (t : ThreadId) (thread : GuestThread) : Prop where
  found : m.thread? t = some thread
  running : thread.status = .runnable
  flag : thread.firstStep = true
  code : ∃ frame tag below, thread.stack = .bytecode frame tag :: below

theorem Chosen.install (chosen : m.Chosen t b) (inside : c.index < m.threads.size) (apart : c ≠ t) (u : Upshot) :
    (u.install c m).Chosen t b :=
  ⟨Upshot.installRunnable inside u apart chosen.found chosen.running, chosen.running, chosen.flag, chosen.code⟩

theorem Chosen.stepIff (chosen : m.Chosen t b) {after : Machine} {step : Step} :
    Machine.step p t m = (after, .ok step) ↔
      ∃ u, b.upshot? p t m.heap = some u ∧ u.result = .ok step ∧ after = u.install t m := by
  obtain ⟨found, _, flag, frame, tag, below, stack⟩ := chosen
  constructor
  · intro ran
    have reported : (Machine.step p t m).2 = .ok step := congrArg Prod.snd ran
    have runs : step ≠ .schedulingPoint ∧ step ≠ .native := by
      cases stepCase p t m with
      | stuck fault same =>
        rw [same] at reported
        cases reported
      | native found' stack' same =>
        cases Option.some.inj (found.symm.trans found')
        cases stack.symm.trans stack'
      | point found' stack' fetched relevant rested others same =>
        cases Option.some.inj (found.symm.trans found')
        cases flag.symm.trans rested
      | ran found' stack' fetched free result =>
        have ran : Ran (Machine.step p t m).2 := by rw [result]; exact attemptRan
        rw [reported] at ran
        constructor
        · rintro rfl
          exact ran
        · rintro rfl
          exact ran
    obtain ⟨u, works, installed, result⟩ := stepUpshots found reported runs.1 runs.2
    exact ⟨u, works, result, (congrArg Prod.fst ran).symm.trans (congrArg Prod.fst installed)⟩
  · rintro ⟨u, works, result, rfl⟩
    have same : m.setFirstStep t true = m := by
      unfold setFirstStep modifyThread
      rw [found]
      obtain ⟨name, status, stack, _⟩ := b
      cases flag
      exact setSame found
    have free := freeStepInstalls found works
    unfold freeStep at free
    rw [same] at free
    exact free.trans (congrArg (Prod.mk _) result)

structure InTurn (p : Program) (t u : ThreadId) (m between after : Machine) (first second : Step) : Prop where
  first : step p t m = (between, .ok first)
  second : step p u between = (after, .ok second)

theorem inTurnIff (left : m.Chosen c a) (right : m.Chosen t b) (apart : c ≠ t) {between after : Machine}
    {first second : Step} : InTurn p c t m between after first second ↔
      ∃ u late, a.upshot? p c m.heap = some u ∧ b.upshot? p t u.heap = some late ∧ u.result = .ok first ∧
        late.result = .ok second ∧ between = u.install c m ∧ after = late.install t (u.install c m) := by
  have inside := threadInside left.found
  constructor
  · rintro ⟨ran, ran'⟩
    obtain ⟨u, works, result, rfl⟩ := left.stepIff.mp ran
    obtain ⟨late, works', result', rfl⟩ := (right.install inside apart u).stepIff.mp ran'
    rw [Upshot.installHeap] at works'
    exact ⟨u, late, works, works', result, result', rfl, rfl⟩
  · rintro ⟨u, late, works, works', result, result', rfl, rfl⟩
    rw [← Upshot.installHeap u c m] at works'
    exact ⟨left.stepIff.mpr ⟨u, works, result, rfl⟩,
      (right.install inside apart u).stepIff.mpr ⟨late, works', result', rfl⟩⟩

theorem upshotAnywhere {thread : GuestThread} {h : Heap} {u : Upshot} (works : thread.upshot? p t h = some u)
    (h' : Heap) : ∃ u', thread.upshot? p t h' = some u' := by
  obtain ⟨_, _, _, _, _, _, stack, fetched, performed, _⟩ := GuestThread.upshotIff.mp works
  exact ⟨_, GuestThread.upshotIff.mpr ⟨_, _, _, _, _, _, stack, fetched, performed, rfl⟩⟩

theorem installFlag {u : Upshot} (rested : u.thread.firstStep = false) (inside : t.index < m.threads.size)
    (j : ThreadId) : ((u.install t m).thread? j).map (·.firstStep) =
      if t = j then some false else (m.thread? j).map (·.firstStep) := by
  have woken : (fun thread : GuestThread => thread.firstStep) ∘ GuestThread.wake u.freed = (·.firstStep) := by
    funext thread
    exact (GuestThread.wakeStack thread u.freed).2
  rw [Upshot.installThread inside, Option.map_map, woken]
  split
  · exact congrArg some rested
  · rfl

section Diamond

variable {u late early v : Upshot} {made : Option HeapObject} {madeLate : Bool}
  (diamond : Diamond p c t a b m.heap u late early v made madeLate)

/- The second of the two numbers that are exchanged; it is the first one unless both steps make an object. -/
def partner (h : Heap) (made : Option HeapObject) (madeLate : Bool) : ObjectId :=
  ⟨h.size + (made.isSome && madeLate).toNat⟩

include diamond

theorem Diamond.grows : u.heap.size = m.heap.size + made.isSome.toNat ∧
    late.heap.size = u.heap.size + madeLate.toNat ∧ early.heap.size = m.heap.size + madeLate.toNat ∧
    v.heap.size = early.heap.size + made.isSome.toNat := by
  have first : u.heap.size = m.heap.size + made.isSome.toNat := by rw [diamond.silent.heap, Heap.addSize]
  have last : v.heap.size = early.heap.size + made.isSome.toNat := by rw [diamond.silent.heap', Heap.addSize]
  refine ⟨first, ?_, diamond.agrees.size', last⟩
  rw [diamond.agrees.size, Heap.addSize, first]

theorem Diamond.partnerIs : partner m.heap made madeLate =
    if u.heap.size = m.heap.size ∨ late.heap.size = u.heap.size then ⟨m.heap.size⟩ else ⟨m.heap.size + 1⟩ := by
  obtain ⟨first, second, _⟩ := diamond.grows
  rw [partner, second, first]
  cases made.isSome <;> cases madeLate <;> simp

theorem Diamond.follows (o o' : ObjectId) (paired : Upshot.swapped m.heap made madeLate early o o') :
    o' = Equiv.swap ⟨m.heap.size⟩ (partner m.heap made madeLate) o := by
  rcases paired with (⟨rfl, inside⟩ | ⟨new, rfl, rfl⟩) | ⟨new, rfl, rfl⟩
  · refine (Equiv.swap_apply_of_ne_of_ne ?_ ?_).symm
    · rintro rfl
      exact Nat.lt_irrefl _ inside
    · rintro rfl
      simp only [partner] at inside
      omega
  · have place : (⟨(m.heap.add made).size⟩ : ObjectId) = partner m.heap made madeLate := by
      rw [partner, Heap.addSize, new, Bool.and_true]
    rw [place, Equiv.swap_apply_right]
  · have place : (⟨early.heap.size⟩ : ObjectId) = partner m.heap made madeLate := by
      rw [partner, diamond.grows.2.2.1, new, Bool.true_and]
    rw [place, Equiv.swap_apply_left]

theorem Diamond.flags (inside : c.index < m.threads.size) (inside' : t.index < m.threads.size) (j : ThreadId)
    (thread thread' : GuestThread) (found : (late.install t (u.install c m)).thread? j = some thread)
    (found' : (v.install c (early.install t m)).thread? j = some thread') :
    thread'.firstStep = thread.firstStep := by
  have bound : t.index < (u.install c m).threads.size := by rwa [installSize]
  have bound' : c.index < (early.install t m).threads.size := by rwa [installSize]
  have left := installFlag (GuestThread.upshotRested diamond.otherLate) bound j
  have right := installFlag (GuestThread.upshotRested diamond.quietLate) bound' j
  rw [installFlag (GuestThread.upshotRested diamond.quietFirst) inside, found] at left
  rw [installFlag (GuestThread.upshotRested diamond.otherFirst) inside', found'] at right
  have order : ∀ x : Option Bool, (if c = j then some false else if t = j then some false else x) =
      if t = j then some false else if c = j then some false else x := by
    intro x
    split <;> split <;> rfl
  exact Option.some.inj (right.trans ((order _).trans left.symm))

theorem Diamond.exchanges (live : m.Live) (apart : c ≠ t) (inside : c.index < m.threads.size)
    (inside' : t.index < m.threads.size) : v.install c (early.install t m) =
      (late.install t (u.install c m)).exchange ⟨m.heap.size⟩ (partner m.heap made madeLate) := by
  obtain ⟨first, second, second', first'⟩ := diamond.grows
  apply (diamond.swaps live apart inside inside').exchanged (diamond.bijects live) diamond.follows
  · rw [Upshot.installHeap, Upshot.installHeap]
    omega
  · rw [Upshot.installHeap]
    cases isMade : made.isSome with
    | false => exact .inl (by simp [partner, isMade])
    | true =>
      cases madeLate with
      | false => exact .inl (by simp [partner, isMade])
      | true =>
        rw [isMade, Bool.toNat_true] at first
        rw [Bool.toNat_true] at second
        refine .inr ⟨?_, ?_⟩
        · dsimp only
          omega
        · simp only [partner, isMade, Bool.and_true, Bool.toNat_true]
          omega
  · exact diamond.flags inside inside'

/- What the quiet step reports, in both orders. An exception that it throws again may be an old one, whose
message the other step has left as it was. -/
theorem Diamond.quietReports {model : Model} (loaded : Program.load model = .ok p) {step step' : Step}
    (result : u.result = .ok step) (result' : v.result = .ok step') :
    step' = step.exchange ⟨m.heap.size⟩ (partner m.heap made madeLate) := by
  have silent := diamond.silent
  have stays := GuestThread.upshotStays diamond.quietFirst
  have stays' := GuestThread.upshotStays diamond.quietLate
  have other := GuestThread.upshotStays diamond.otherFirst
  have reports := silent.reports
  rw [result, result'] at reports
  refine reports.renamed (fun o o' paired => diamond.follows o o' ?_) fun thrown thrown' same same' paired => ?_
  · rcases paired with own | new
    · exact .inl (.inl own)
    · exact .inr new
  · rw [stays.message thrown (result.trans (congrArg _ same)), stays'.message thrown' (result'.trans (congrArg _ same')),
      silent.heap, silent.heap']
    rcases paired with ⟨here, old⟩ | ⟨_, here, here'⟩
    · have older : thrown.object.index < early.heap.size := by
        have grows := diamond.grows.2.2.1
        omega
      rw [← here, messageAdd older, messageAdd old]
      exact messageGrown other.heap (b.messageSpared loaded) old
    · rw [here, here']
      exact messageNew made early.heap m.heap

theorem Diamond.otherReports {step step' : Step} (result : late.result = .ok step) (result' : early.result = .ok step') :
    step' = step.exchange ⟨m.heap.size⟩ (partner m.heap made madeLate) := by
  have agrees := diamond.agrees
  have stays := GuestThread.upshotStays diamond.otherLate
  have stays' := GuestThread.upshotStays diamond.otherFirst
  have reports := agrees.reports
  rw [result, result'] at reports
  refine reports.renamed (fun o o' paired => diamond.follows o o' (.inl paired)) fun thrown thrown' same same' paired => ?_
  rw [stays.message thrown (result.trans (congrArg _ same)), stays'.message thrown' (result'.trans (congrArg _ same'))]
  exact (messageMatches agrees.heap paired).symm

end Diamond

/- Two threads have been chosen, and the next instruction of the first is one that others cannot observe. The two
steps succeed in one order if they do in the other. They report the same and end in the same machine, unless
both make an object; then it is the same up to an exchange of the two new ones. -/
theorem unobservedStepsCommute {model : Model} (loaded : Program.load model = .ok p) (reached : m.Reached p)
    {t u : ThreadId} (apart : t ≠ u) (left : m.Chosen t a) (right : m.Chosen u b)
    (quiet : ∀ op, m.nextOp? p t = some op → op.isSchedulingRelevant = false) :
    ((∃ between after first second, InTurn p t u m between after first second) ↔
      ∃ between after first second, InTurn p u t m between after first second) ∧
    ∀ between after first second between' after' first' second',
      InTurn p t u m between after first second → InTurn p u t m between' after' second' first' →
      (between.heap.size = m.heap.size ∨ after.heap.size = between.heap.size →
        first' = first ∧ second' = second ∧ after' = after) ∧
      (between.heap.size ≠ m.heap.size → after.heap.size ≠ between.heap.size →
        first' = first.exchange ⟨m.heap.size⟩ ⟨m.heap.size + 1⟩ ∧
        second' = second.exchange ⟨m.heap.size⟩ ⟨m.heap.size + 1⟩ ∧
        after' = after.exchange ⟨m.heap.size⟩ ⟨m.heap.size + 1⟩) := by
  have live := (reached.grounded loaded).live
  have plain : p.PlainFields := fun _ _ _ _ => (Program.loadChecked loaded).fields
  have next : ∀ op, a.nextOp? p = some op → op.isSchedulingRelevant = false := by
    intro op fetched
    apply quiet op
    unfold nextOp?
    rw [left.found]
    exact fetched
  -- Where both instructions can do their work, all four steps are there.
  have cross : ∀ {w w' : Upshot} {h h' : Heap}, a.upshot? p t h = some w → b.upshot? p u h' = some w' →
      ∃ first late early last made madeLate, Diamond p t u a b m.heap first late early last made madeLate := by
    intro w w' h h' works works'
    obtain ⟨first, quietFirst⟩ := upshotAnywhere works m.heap
    obtain ⟨other, otherFirst⟩ := upshotAnywhere works' m.heap
    rcases live.diamond plain left.found left.running right.found right.running next quietFirst with
      ⟨_, fails⟩ | ⟨late, early, last, made, madeLate, diamond⟩
    · cases fails.symm.trans otherFirst
    · exact ⟨first, late, early, last, made, madeLate, diamond⟩
  refine ⟨⟨?_, ?_⟩, ?_⟩
  · rintro ⟨_, _, _, _, turn⟩
    obtain ⟨_, _, works, works', ok, ok', _⟩ := (inTurnIff left right apart).mp turn
    obtain ⟨_, _, early, last, _, _, diamond⟩ := cross works works'
    cases Option.some.inj (works.symm.trans diamond.quietFirst)
    cases Option.some.inj (works'.symm.trans diamond.otherLate)
    obtain ⟨first, result⟩ := diamond.silent.reports.succeeds.mp ⟨_, ok⟩
    obtain ⟨second, result'⟩ := diamond.agrees.reports.succeeds.mp ⟨_, ok'⟩
    exact ⟨_, _, second, first, (inTurnIff right left apart.symm).mpr
      ⟨early, last, diamond.otherFirst, diamond.quietLate, result', result, rfl, rfl⟩⟩
  · rintro ⟨_, _, _, _, turn⟩
    obtain ⟨_, _, works', works, ok', ok, _⟩ := (inTurnIff right left apart.symm).mp turn
    obtain ⟨first, late, _, _, _, _, diamond⟩ := cross works works'
    cases Option.some.inj (works'.symm.trans diamond.otherFirst)
    cases Option.some.inj (works.symm.trans diamond.quietLate)
    obtain ⟨_, result⟩ := diamond.silent.reports.succeeds.mpr ⟨_, ok⟩
    obtain ⟨_, result'⟩ := diamond.agrees.reports.succeeds.mpr ⟨_, ok'⟩
    exact ⟨_, _, _, _, (inTurnIff left right apart).mpr
      ⟨first, late, diamond.quietFirst, diamond.otherLate, result, result', rfl, rfl⟩⟩
  · intro between after first second between' after' first' second' turn turn'
    have reached' : after.Reached p := by
      have last := (reached.stepped t).stepped u
      rwa [turn.first, turn.second] at last
    obtain ⟨_, _, works, works', result, result', rfl, rfl⟩ := (inTurnIff left right apart).mp turn
    obtain ⟨_, _, early, last, ok', ok, rfl, rfl⟩ := (inTurnIff right left apart.symm).mp turn'
    obtain ⟨_, _, _, _, made, madeLate, diamond⟩ := cross works works'
    cases Option.some.inj (works.symm.trans diamond.quietFirst)
    cases Option.some.inj (works'.symm.trans diamond.otherLate)
    cases Option.some.inj (early.symm.trans diamond.otherFirst)
    cases Option.some.inj (last.symm.trans diamond.quietLate)
    rw [diamond.quietReports loaded result ok, diamond.otherReports result' ok',
      diamond.exchanges live apart (threadInside left.found) (threadInside right.found),
      diamond.partnerIs, Upshot.installHeap, Upshot.installHeap]
    refine ⟨fun one => ?_, fun some late => ?_⟩
    · rw [if_pos one]
      exact ⟨first.exchangeSelf _, second.exchangeSelf _, (reached'.grounded loaded).live.exchangeSelf _⟩
    · rw [if_neg (not_or.mpr ⟨some, late⟩)]
      exact ⟨rfl, rfl, rfl⟩

def twins : Model :=
  ((Model.start "twins" "Twins.main()V").withMethod "Twins.main()V" 1
    [.new "Left", .store .reference 0, .ret none]).withThread "Twins.other()V"
    [.new "Right", .putStatic "Twins.right", .ret none]

def chooseBoth (m : Machine) : Machine := (m.setFirstStep ⟨0⟩ true).setFirstStep ⟨1⟩ true

def twinAt (name : String) (method pc locals : Nat) (operands : List Value) : GuestThread :=
  ⟨name, .runnable, [.bytecode ⟨⟨method⟩, pc, Locals.ofArgs locals [], operands⟩ none], true⟩

theorem twinsCommute : ∃ p, Program.load twins = .ok p ∧
    (∃ m between after between' after', InTurn p ⟨0⟩ ⟨1⟩ m between after .executed .executed ∧
      InTurn p ⟨1⟩ ⟨0⟩ m between' after' .executed .executed ∧ after' = after.exchange ⟨0⟩ ⟨1⟩ ∧ after' ≠ after) ∧
    ∃ m between after between' after', InTurn p ⟨0⟩ ⟨1⟩ m between after .executed .executed ∧
      InTurn p ⟨1⟩ ⟨0⟩ m between' after' .executed .executed ∧ after' = after ∧ after ≠ m := by
  have ran : (Program.load twins).toOption.any (fun p => decide (
      let m := chooseBoth (State.initial p).toMachine
      let n := chooseBoth (step p ⟨1⟩ (step p ⟨0⟩ m).1).1
      (m.thread? ⟨0⟩ = some (twinAt "main" 0 0 1 []) ∧ m.thread? ⟨1⟩ = some (twinAt "other" 1 0 0 []) ∧
        m.nextOp? p ⟨0⟩ = some (.new "Left")) ∧
      (n.thread? ⟨0⟩ = some (twinAt "main" 0 1 1 [.ref ⟨0⟩]) ∧
        n.thread? ⟨1⟩ = some (twinAt "other" 1 1 0 [.ref ⟨1⟩]) ∧
        n.nextOp? p ⟨0⟩ = some (.store .reference 0)) ∧
      ((step p ⟨0⟩ m).2.toOption = some .executed ∧ (step p ⟨1⟩ (step p ⟨0⟩ m).1).2.toOption = some .executed ∧
        (step p ⟨1⟩ m).2.toOption = some .executed ∧ (step p ⟨0⟩ (step p ⟨1⟩ m).1).2.toOption = some .executed) ∧
      ((step p ⟨0⟩ n).2.toOption = some .executed ∧ (step p ⟨1⟩ (step p ⟨0⟩ n).1).2.toOption = some .executed ∧
        (step p ⟨1⟩ n).2.toOption = some .executed ∧ (step p ⟨0⟩ (step p ⟨1⟩ n).1).2.toOption = some .executed) ∧
      m.heap.size = 0 ∧ (step p ⟨0⟩ m).1.heap.size ≠ m.heap.size ∧
      (step p ⟨1⟩ (step p ⟨0⟩ m).1).1.heap.size ≠ (step p ⟨0⟩ m).1.heap.size ∧
      (step p ⟨0⟩ (step p ⟨1⟩ m).1).1 ≠ (step p ⟨1⟩ (step p ⟨0⟩ m).1).1 ∧
      (step p ⟨0⟩ n).1.heap.size = n.heap.size ∧ (step p ⟨1⟩ (step p ⟨0⟩ n).1).1 ≠ n)) = true := by
    decide +kernel
  cases loaded : Program.load twins with
  | error e =>
    rw [loaded] at ran
    cases ran
  | ok p =>
    rw [loaded] at ran
    obtain ⟨⟨main, other, create⟩, ⟨main', other', store⟩, ⟨r, s, s', r'⟩, ⟨q, w, w', q'⟩, empty, grows, grows',
      differ, same, moved⟩ := of_decide_eq_true ran
    have chosen : ∀ {m : Machine} {t : ThreadId} {name : String} {method pc locals : Nat} {operands : List Value},
        m.thread? t = some (twinAt name method pc locals operands) →
        m.Chosen t (twinAt name method pc locals operands) :=
      fun found => ⟨found, rfl, rfl, _, _, _, rfl⟩
    have both : ∀ {m : Machine}, m.Reached p → (chooseBoth m).Reached p :=
      fun reached => (reached.flagged ⟨0⟩ true).flagged ⟨1⟩ true
    have start := both Reached.initial
    have later := both ((start.stepped ⟨0⟩).stepped ⟨1⟩)
    have first := (unobservedStepsCommute loaded start (by decide) (chosen main) (chosen other)
      (fun op next => by cases create.symm.trans next; rfl)).2 _ _ _ _ _ _ _ _ ⟨stepOk r, stepOk s⟩ ⟨stepOk s', stepOk r'⟩
    have second := (unobservedStepsCommute loaded later (by decide) (chosen main') (chosen other')
      (fun op next => by cases store.symm.trans next; rfl)).2 _ _ _ _ _ _ _ _ ⟨stepOk q, stepOk w⟩ ⟨stepOk w', stepOk q'⟩
    have exchanged := (first.2 grows grows').2.2
    rw [empty] at exchanged
    have equal := (second.1 (.inl same)).2.2
    exact ⟨p, rfl, ⟨_, _, _, _, _, ⟨stepOk r, stepOk s⟩, ⟨stepOk s', stepOk r'⟩, exchanged, differ⟩,
      ⟨_, _, _, _, _, ⟨stepOk q, stepOk w⟩, ⟨stepOk w', stepOk q'⟩, equal, moved⟩⟩

end Machine

end BytecodeChecker
