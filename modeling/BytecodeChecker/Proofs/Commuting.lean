import Mathlib.Logic.Relation
import BytecodeChecker.Proofs.Equivariance

/-! Steps of different threads commute when one of them does not reach beyond its thread. The two
orders end in machines that differ in the numbers of their new objects at most. -/
namespace BytecodeChecker

structure Heap.Bijects (pairs : Pairing) (h h' : Heap) : Prop where
  unique : Relator.BiUnique pairs
  left : ∀ o, o.index < h.size → ∃ o', pairs o o'
  right : ∀ o', o'.index < h'.size → ∃ o, pairs o o'

def Machine.Renamed (m n : Machine) : Prop :=
  ∃ pairs, Heap.Bijects pairs m.heap n.heap ∧ m.Matches pairs n

def Heap.own (h : Heap) : Pairing := fun o o' => o = o' ∧ o.index < h.size

def Machine.Live (m : Machine) : Prop := m.Matches m.heap.own m

theorem Heap.ownUnique (h : Heap) : Relator.BiUnique h.own :=
  ⟨fun _ _ _ left right => left.1.trans right.1.symm, fun _ _ _ left right => left.1.symm.trans right.1⟩

theorem Machine.Live.renamed {m : Machine} (live : m.Live) : m.Renamed m :=
  ⟨m.heap.own, ⟨m.heap.ownUnique, fun o inside => ⟨o, rfl, inside⟩, fun o inside => ⟨o, rfl, inside⟩⟩, live⟩

theorem Heap.Matches.inside {pairs : Pairing} {h h' : Heap} (heaps : h.Matches pairs h') {o o' : ObjectId}
    (paired : pairs o o') : o.index < h.size ∧ o'.index < h'.size := by
  obtain ⟨_, _, left, right, _⟩ := heaps.objects paired
  exact ⟨Heap.objectInside left, Heap.objectInside right⟩

theorem Heap.Bijects.comp {first second : Pairing} {h k l : Heap} (onto : Bijects first h k)
    (onto' : Bijects second k l) (heaps : h.Matches first k) (heaps' : k.Matches second l) :
    Bijects (Relation.Comp first second) h l where
  unique := by
    refine ⟨?_, ?_⟩
    · rintro a b c ⟨x, left, right⟩ ⟨y, left', right'⟩
      cases onto'.unique.1 right right'
      exact onto.unique.1 left left'
    · rintro a b c ⟨x, left, right⟩ ⟨y, left', right'⟩
      cases onto.unique.2 left left'
      exact onto'.unique.2 right right'
  left := by
    intro o inside
    obtain ⟨o', paired⟩ := onto.left o inside
    obtain ⟨o'', paired'⟩ := onto'.left o' (heaps.inside paired).2
    exact ⟨o'', o', paired, paired'⟩
  right := by
    intro o inside
    obtain ⟨o', paired⟩ := onto'.right o inside
    obtain ⟨o'', paired'⟩ := onto.right o' (heaps'.inside paired).1
    exact ⟨o'', o', paired', paired⟩

theorem Machine.Renamed.trans {m n k : Machine} (first : m.Renamed n) (second : n.Renamed k) :
    m.Renamed k := by
  obtain ⟨pairs, onto, machines⟩ := first
  obtain ⟨pairs', onto', machines'⟩ := second
  exact ⟨_, onto.comp onto' machines.heap machines'.heap, machines.comp machines'⟩

def GuestThread.wake (freed : Option ObjectId) (thread : GuestThread) : GuestThread :=
  match freed with
  | none => thread
  | some o => if thread.status = .blocked o then { thread with status := .runnable } else thread

namespace Upshot

variable {pairs : Pairing} {t : ThreadId} {m n : Machine} {u u' : Upshot}

theorem installThread (inside : t.index < m.threads.size) (u : Upshot) (j : ThreadId) :
    (u.install t m).thread? j =
      (if t = j then some u.thread else m.thread? j).map (GuestThread.wake u.freed) := by
  obtain ⟨thread, heap, freed, result⟩ := u
  have set : ({ m with heap }.setThread t thread).thread? j = if t = j then some thread else m.thread? j :=
    Machine.threadSet (m := { m with heap }) inside thread j
  cases freed with
  | none => exact set.trans Option.map_id'.symm
  | some o =>
    dsimp only
    rw [← set]
    exact Array.getElem?_map ..

theorem installHeap (u : Upshot) (t : ThreadId) (m : Machine) : (u.install t m).heap = u.heap := by
  unfold install
  cases u.freed <;> rfl

theorem wakeMatches (unique : Relator.BiUnique pairs) {freed freed' : Option ObjectId}
    (same : Option.Rel pairs freed freed') {thread thread' : GuestThread}
    (threads : thread.Matches pairs thread') :
    (thread.wake freed).Matches pairs (thread'.wake freed') := by
  obtain ⟨name, status, stack, flag⟩ := thread
  obtain ⟨name', status', stack', flag'⟩ := thread'
  obtain ⟨names, statuses, levels⟩ := threads
  cases same with
  | none => exact ⟨names, statuses, levels⟩
  | @some o o' paired =>
    cases statuses with
    | runnable => exact ⟨names, .runnable, levels⟩
    | terminated => exact ⟨names, .terminated, levels⟩
    | @blocked a a' waits =>
      have here : a = o ↔ a' = o' := Relator.rel_eq unique waits paired
      simp only [GuestThread.wake, Status.blocked.injEq]
      by_cases at_ : a = o
      · rw [if_pos at_, if_pos (here.mp at_)]
        exact ⟨names, .runnable, levels⟩
      · rw [if_neg at_, if_neg fun there => at_ (here.mpr there)]
        exact ⟨names, .blocked waits, levels⟩

theorem growFresh {made : Bool} {h h' : Heap} (unique : Relator.BiUnique pairs)
    (left : made = true → ∀ o', ¬ pairs ⟨h.size⟩ o') (right : made = true → ∀ o, ¬ pairs o ⟨h'.size⟩) :
    Relator.BiUnique (pairs.grow made h h') := by
  constructor
  · rintro a b c (old | ⟨new, rfl, rfl⟩) (old' | ⟨new', rfl, same⟩)
    · exact unique.1 old old'
    · exact absurd (same ▸ old) (right new' a)
    · exact absurd old' (right new b)
    · rfl
  · rintro a b c (old | ⟨new, rfl, rfl⟩) (old' | ⟨new', same, rfl⟩)
    · exact unique.2 old old'
    · exact absurd (same ▸ old) (left new' b)
    · exact absurd old' (left new c)
    · rfl

theorem growUnique {made : Bool} {h h' : Heap} (unique : Relator.BiUnique pairs)
    (heaps : h.Matches pairs h') : Relator.BiUnique (pairs.grow made h h') :=
  growFresh unique (fun _ _ paired => Nat.lt_irrefl _ (heaps.inside paired).1)
    fun _ _ paired => Nat.lt_irrefl _ (heaps.inside paired).2

end Upshot

namespace Heap

variable {pairs : Pairing} {h h' k k' : Heap} {made : Bool}

theorem growInside {o : ObjectId} (size : k.size = h.size + made.toNat) (inside : o.index < k.size) :
    o.index < h.size ∨ made = true ∧ o = ⟨h.size⟩ := by
  by_cases old : o.index < h.size
  · exact .inl old
  · cases made with
    | false => exact .inl (by simpa [size] using inside)
    | true =>
      refine .inr ⟨rfl, ?_⟩
      obtain ⟨i⟩ := o
      have last : i = h.size := by
        simp only [size, Bool.toNat_true] at inside old
        omega
      rw [last]

theorem Bijects.grow (onto : Bijects pairs h h') (heaps : h.Matches pairs h')
    (size : k.size = h.size + made.toNat) (size' : k'.size = h'.size + made.toNat) :
    Bijects (pairs.grow made h h') k k' where
  unique := Upshot.growUnique onto.unique heaps
  left := by
    intro o inside
    rcases growInside size inside with old | ⟨new, rfl⟩
    · obtain ⟨o', paired⟩ := onto.left o old
      exact ⟨o', .inl paired⟩
    · exact ⟨⟨h'.size⟩, .inr ⟨new, rfl, rfl⟩⟩
  right := by
    intro o inside
    rcases growInside size' inside with old | ⟨new, rfl⟩
    · obtain ⟨o', paired⟩ := onto.right o old
      exact ⟨o', .inl paired⟩
    · exact ⟨⟨h.size⟩, .inr ⟨new, rfl, rfl⟩⟩

theorem ownGrow (size : k.size = h.size + made.toNat) : h.own.grow made h h = k.own := by
  funext o o'
  refine propext ⟨?_, ?_⟩
  · rintro (⟨rfl, inside⟩ | ⟨new, rfl, rfl⟩)
    · exact ⟨rfl, by omega⟩
    · exact ⟨rfl, by simp [size, new]⟩
  · rintro ⟨rfl, inside⟩
    rcases growInside size inside with old | ⟨new, rfl⟩
    · exact .inl ⟨rfl, old⟩
    · exact .inr ⟨new, rfl, rfl⟩

end Heap

namespace Upshot

variable {pairs : Pairing} {t : ThreadId} {m n : Machine} {u u' : Upshot}

theorem Agrees.install {made : Bool} (unique : Relator.BiUnique pairs)
    (agrees : u.Agrees pairs made m.heap n.heap u') (machines : m.Matches pairs n)
    (inside : t.index < m.threads.size) (inside' : t.index < n.threads.size) :
    (u.install t m).Matches (pairs.grow made m.heap n.heap) (u'.install t n) where
  heap := by
    rw [installHeap, installHeap]
    exact agrees.heap
  threads := by
    intro j
    have unique' : Relator.BiUnique (pairs.grow made m.heap n.heap) := growUnique unique machines.heap
    have grown := pairs.growLe made m.heap n.heap
    rw [installThread inside, installThread inside']
    by_cases here : t = j
    · rw [if_pos here, if_pos here]
      exact .some (wakeMatches unique' (relImp agrees.freed grown) agrees.thread)
    · rw [if_neg here, if_neg here]
      exact relMap (machines.threads j) fun _ _ threads =>
        wakeMatches unique' (relImp agrees.freed grown) (threads.mono grown)

end Upshot

namespace Machine

variable {pairs : Pairing} {p : Program} {t : ThreadId} {m n : Machine}

theorem runnableThread (runnable : m.isRunnable t = true) :
    ∃ thread, m.thread? t = some thread ∧ thread.status = .runnable := by
  unfold isRunnable at runnable
  cases found : m.thread? t with
  | none => simp [found] at runnable
  | some thread => exact ⟨thread, rfl, by simpa [found] using runnable⟩

theorem insideRunnable (runnable : m.isRunnable t = true) : t.index < m.threads.size :=
  let ⟨_, found, _⟩ := runnableThread runnable
  threadInside found

theorem Matches.thread {thread : GuestThread} (machines : m.Matches pairs n)
    (found : m.thread? t = some thread) :
    ∃ thread', n.thread? t = some thread' ∧ thread.Matches pairs thread' := by
  rcases relCases (machines.threads t) with ⟨none, _⟩ | ⟨_, thread', there, found', same⟩
  · cases none.symm.trans found
  · cases there.symm.trans found
    exact ⟨thread', found', same⟩

theorem Matches.stepAgrees (plain : p.PlainFields) (unique : Relator.BiUnique pairs)
    (machines : m.Matches pairs n) (runnable : m.isRunnable t = true) :
    Step.wentOn (freeStep p t m).2 = false ∧ Step.wentOn (freeStep p t n).2 = false ∨
    ∃ (u u' : Upshot) (made : Bool), u.Agrees pairs made m.heap n.heap u' ∧
      freeStep p t m = u.outcome t m ∧ freeStep p t n = u'.outcome t n := by
  obtain ⟨thread, found, status⟩ := runnableThread runnable
  obtain ⟨thread', found', same⟩ := machines.thread found
  rcases GuestThread.upshotAgrees plain same status unique machines.heap t with
    ⟨fails, fails'⟩ | ⟨u, u', made, works, works', agrees⟩
  · exact .inl ⟨freeStepFails found fails, freeStepFails found' fails'⟩
  · exact .inr ⟨u, u', made, agrees, freeStepInstalls found works, freeStepInstalls found' works'⟩

theorem Matches.runnable (machines : m.Matches pairs n) (t : ThreadId) : m.isRunnable t = n.isRunnable t := by
  unfold isRunnable
  rcases relCases (machines.threads t) with ⟨left, right⟩ | ⟨thread, thread', left, right, same⟩
  · rw [left, right]
  · rw [left, right]
    obtain ⟨name, status, stack, flag⟩ := thread
    obtain ⟨name', status', stack', flag'⟩ := thread'
    cases same.status <;> rfl

theorem Renamed.runnable (same : m.Renamed n) (t : ThreadId) : m.isRunnable t = n.isRunnable t :=
  let ⟨_, _, machines⟩ := same
  machines.runnable t

theorem Renamed.stepRenamed (plain : p.PlainFields) (same : m.Renamed n)
    (runnable : m.isRunnable t = true) :
    Step.wentOn (freeStep p t m).2 = Step.wentOn (freeStep p t n).2 ∧
    (Step.wentOn (freeStep p t m).2 = true → (freeStep p t m).1.Renamed (freeStep p t n).1) := by
  obtain ⟨pairs, onto, machines⟩ := same
  rcases machines.stepAgrees plain onto.unique runnable with
    ⟨failed, failed'⟩ | ⟨u, u', made, agrees, ran, ran'⟩
  · exact ⟨failed.trans failed'.symm, fun went => absurd (failed.symm.trans went) Bool.false_ne_true⟩
  · rw [ran, ran']
    refine ⟨agrees.sane, fun _ => ⟨pairs.grow made m.heap n.heap, ?_, ?_⟩⟩
    · exact onto.grow machines.heap ((congrArg Heap.size (Upshot.installHeap u t m)).trans agrees.size)
        ((congrArg Heap.size (Upshot.installHeap u' t n)).trans agrees.size')
    · exact agrees.install onto.unique machines (insideRunnable runnable)
        (insideRunnable (machines.runnable t ▸ runnable))

theorem Live.stepLive (plain : p.PlainFields) (live : m.Live) (runnable : m.isRunnable t = true)
    (went : Step.wentOn (freeStep p t m).2 = true) : (freeStep p t m).1.Live := by
  rcases Matches.stepAgrees plain m.heap.ownUnique live runnable with
    ⟨failed, _⟩ | ⟨u, u', made, agrees, ran, ran'⟩
  · exact absurd (failed.symm.trans went) Bool.false_ne_true
  · have inside := insideRunnable runnable
    have installed := agrees.install m.heap.ownUnique live inside inside
    have same : u.install t m = u'.install t m := congrArg Prod.fst (ran.symm.trans ran')
    have grown : m.heap.own.grow made m.heap m.heap = (u.install t m).heap.own := by
      rw [Upshot.installHeap]
      exact Heap.ownGrow agrees.size
    rw [← same, grown] at installed
    rw [ran]
    exact installed

end Machine

namespace Upshot

variable {h : Heap} {made : Option HeapObject} {madeLate : Bool} {late early : Upshot}

/- One thread adds an object, or none, before another one makes a step that ends as `late`; without
that object, the other step ends as `early`. The objects of the second machine are those that the two
steps have in common, and then the added one. -/
def swapped (h : Heap) (made : Option HeapObject) (madeLate : Bool) (early : Upshot) : Pairing :=
  (h.own.grow madeLate (h.add made) h).grow made.isSome h early.heap

theorem swappedBijects (heaps : (h.add made).Matches h.own h)
    (agrees : late.Agrees h.own madeLate (h.add made) h early) :
    Heap.Bijects (swapped h made madeLate early) late.heap (early.heap.add made) where
  unique := by
    have unique : Relator.BiUnique (h.own.grow madeLate (h.add made) h) := growUnique h.ownUnique heaps
    have fresh : ∀ {b}, made.isSome = true → ¬ h.own.grow madeLate (h.add made) h ⟨h.size⟩ b := by
      rintro b some (⟨_, inside⟩ | ⟨_, same, _⟩)
      · exact Nat.lt_irrefl _ inside
      · have size : (h.add made).size = h.size + made.isSome.toNat := Heap.addSize
        have index : h.size = (h.add made).size := congrArg ObjectId.index same
        rw [some, Bool.toNat_true] at size
        omega
    exact growFresh unique (fun some _ => fresh some)
      fun _ _ paired => Nat.lt_irrefl _ (agrees.heap.inside paired).2
  left := by
    intro o inside
    rcases Heap.growInside agrees.size inside with old | ⟨new, rfl⟩
    · rcases Heap.growInside Heap.addSize old with older | ⟨added, rfl⟩
      · exact ⟨o, .inl (.inl ⟨rfl, older⟩)⟩
      · exact ⟨⟨early.heap.size⟩, .inr ⟨added, rfl, rfl⟩⟩
    · exact ⟨⟨h.size⟩, .inl (.inr ⟨new, rfl, rfl⟩)⟩
  right := by
    intro o inside
    rcases Heap.growInside Heap.addSize inside with old | ⟨added, rfl⟩
    · rcases Heap.growInside agrees.size' old with older | ⟨new, rfl⟩
      · exact ⟨o, .inl (.inl ⟨rfl, older⟩)⟩
      · exact ⟨⟨(h.add made).size⟩, .inl (.inr ⟨new, rfl, rfl⟩)⟩
    · exact ⟨⟨h.size⟩, .inr ⟨added, rfl, rfl⟩⟩

theorem swappedHeaps (blank : ∀ object ∈ made, ∀ pairs, object.Matches pairs object)
    (agrees : late.Agrees h.own madeLate (h.add made) h early) :
    late.heap.Matches (swapped h made madeLate early) (early.heap.add made) where
  statics := by
    rw [Heap.addStatics]
    exact agrees.heap.statics.mono (Pairing.growLe _ _ _ _)
  objects := by
    rintro o o' (common | ⟨some, rfl, rfl⟩)
    · obtain ⟨object, object', left, right, same⟩ := agrees.heap.objects common
      refine ⟨object, object', left, ?_, same.mono (Pairing.growLe _ _ _ _)⟩
      rwa [Heap.addOld (Heap.objectInside right)]
    · obtain ⟨object, rfl⟩ := Option.isSome_iff_exists.mp some
      refine ⟨object, object, ?_, Heap.addNew, blank object rfl _⟩
      have kept := agrees.untouched ⟨h.size⟩ (by rw [Heap.addSize]; exact Nat.lt_succ_self _)
        fun o' own => Nat.lt_irrefl _ own.2
      exact kept.trans Heap.addNew

theorem wakeAwake {thread : GuestThread} (freed : Option ObjectId)
    (awake : ∀ o, thread.status ≠ .blocked o) : thread.wake freed = thread := by
  cases freed with
  | none => rfl
  | some o => exact if_neg (awake o)

theorem installRunnable {t j : ThreadId} {m : Machine} {thread : GuestThread}
    (inside : t.index < m.threads.size) (u : Upshot) (away : t ≠ j) (found : m.thread? j = some thread)
    (runnable : thread.status = .runnable) : (u.install t m).thread? j = some thread := by
  rw [installThread inside, if_neg away, found, Option.map_some, wakeAwake _ (GuestThread.awake runnable)]

end Upshot

namespace Machine

variable {p : Program} {t c : ThreadId} {m : Machine}

theorem Live.addMatches (live : m.Live) (made : Option HeapObject) :
    (m.heap.add made).Matches m.heap.own m.heap where
  statics := by
    rw [Heap.addStatics]
    exact live.heap.statics
  objects := by
    intro o o' own
    obtain ⟨object, object', left, right, same⟩ := live.heap.objects own
    exact ⟨object, object', (Heap.addOld own.2).trans left, right, same⟩

theorem Live.classesKept {late early : Upshot} {pairs : Pairing} {made : Bool} {h : Heap} (live : m.Live)
    (agrees : late.Agrees pairs made h m.heap early) : Heap.SameClasses m.heap.own m.heap early.heap := by
  rintro o o' ⟨rfl, inside⟩
  obtain ⟨object, _, found, _⟩ := live.heap.objects ⟨rfl, inside⟩
  obtain ⟨object', found', same⟩ := agrees.classes o object found
  exact ⟨object, object', found, found', same⟩

structure Commutes (p : Program) (c t : ThreadId) (m : Machine) : Prop where
  runnable : (freeStep p c m).1.isRunnable t = true
  sane : Step.wentOn (freeStep p t (freeStep p c m).1).2 = Step.wentOn (freeStep p t m).2
  still : Step.wentOn (freeStep p t m).2 = true → (freeStep p t m).1.thread? c = m.thread? c
  went : Step.wentOn (freeStep p t m).2 = true → Step.wentOn (freeStep p c (freeStep p t m).1).2 = true
  same : Step.wentOn (freeStep p t m).2 = true →
    (freeStep p t (freeStep p c m).1).1.Renamed (freeStep p c (freeStep p t m).1).1

theorem Live.thread {thread : GuestThread} (live : m.Live) (found : m.thread? t = some thread) :
    thread.Matches m.heap.own thread := by
  obtain ⟨thread', found', same⟩ := Matches.thread live found
  cases Option.some.inj (found.symm.trans found')
  exact same

theorem installSize (u : Upshot) (t : ThreadId) (m : Machine) :
    (u.install t m).threads.size = m.threads.size := by
  unfold Upshot.install
  cases u.freed <;> simp [setThread, unblock]

/- Both orders of an instruction of one thread that does not reach beyond it, and an instruction of another
thread. The first thread adds an object, or none; the second one ends as `late` behind that, and as `early`
without it. -/
structure Diamond (p : Program) (c t : ThreadId) (a b : GuestThread) (h : Heap) (u late early v : Upshot)
    (made : Option HeapObject) (madeLate : Bool) : Prop where
  quietFirst : a.upshot? p c h = some u
  otherLate : b.upshot? p t u.heap = some late
  otherFirst : b.upshot? p t h = some early
  quietLate : a.upshot? p c early.heap = some v
  blank : ∀ object ∈ made, ∀ pairs, object.Matches pairs object
  agrees : late.Agrees h.own madeLate (h.add made) h early
  silent : u.Quiet (h.own.grow made.isSome h early.heap) (h.add made) (early.heap.add made) v

theorem Live.diamond (plain : p.PlainFields) (live : m.Live) {a b : GuestThread}
    (found : m.thread? c = some a) (status : a.status = .runnable) (found' : m.thread? t = some b)
    (status' : b.status = .runnable)
    (quiet : ∀ op, a.nextOp? p = some op → op.isSchedulingRelevant = false) {u : Upshot}
    (works : a.upshot? p c m.heap = some u) :
    b.upshot? p t u.heap = none ∧ b.upshot? p t m.heap = none ∨
    ∃ late early v made madeLate, Diamond p c t a b m.heap u late early v made madeLate := by
  rcases GuestThread.upshotInward plain (live.thread found) status live.heap.sameClasses quiet c with
    ⟨fails, _⟩ | ⟨u', _, works', _, made, blank, silent⟩
  · cases fails.symm.trans works
  cases Option.some.inj (works.symm.trans works')
  have heap : u.heap = m.heap.add made := silent.heap
  -- the other instruction, behind the quiet one and without it
  rcases GuestThread.upshotAgrees plain (live.thread found') status' m.heap.ownUnique (live.addMatches made) t with
    ⟨fails, fails'⟩ | ⟨late, early, madeLate, otherLate, otherFirst, agrees⟩
  · exact .inl ⟨heap ▸ fails, fails'⟩
  -- the quiet instruction behind the other one
  rcases GuestThread.upshotInward plain (live.thread found) status (live.classesKept agrees) quiet c with
    ⟨fails, _⟩ | ⟨u', v, works', quietLate, made', _, silent'⟩
  · cases fails.symm.trans works
  cases Option.some.inj (works.symm.trans works')
  have added : made = made' := by
    have newest : (m.heap.add made).object? ⟨m.heap.size⟩ = made := Heap.addNew
    rw [← newest, ← silent.heap, silent'.heap]
    exact Heap.addNew
  subst added
  exact .inr ⟨late, early, v, made, madeLate, works, heap ▸ otherLate, otherFirst, quietLate, blank, agrees,
    silent'⟩

section Diamond

variable {a b : GuestThread} {u late early v : Upshot} {made : Option HeapObject} {madeLate : Bool}
  (live : m.Live) (diamond : Diamond p c t a b m.heap u late early v made madeLate)
include live diamond

theorem Diamond.bijects : Heap.Bijects (Upshot.swapped m.heap made madeLate early)
    (late.install t (u.install c m)).heap (v.install c (early.install t m)).heap := by
  rw [Upshot.installHeap, Upshot.installHeap, diamond.silent.heap']
  exact Upshot.swappedBijects (live.addMatches made) diamond.agrees

theorem Diamond.swaps (apart : c ≠ t) (inside : c.index < m.threads.size) (inside' : t.index < m.threads.size) :
    (late.install t (u.install c m)).Matches (Upshot.swapped m.heap made madeLate early)
      (v.install c (early.install t m)) := by
  have agrees := diamond.agrees
  have silent := diamond.silent
  have bound : t.index < (u.install c m).threads.size := by rwa [installSize]
  have bound' : c.index < (early.install t m).threads.size := by rwa [installSize]
  have common : ∀ o o', m.heap.own.grow madeLate (m.heap.add made) m.heap o o' →
      Upshot.swapped m.heap made madeLate early o o' := fun _ _ => .inl
  have older : ∀ o o', m.heap.own o o' → Upshot.swapped m.heap made madeLate early o o' :=
    fun _ _ own => .inl (.inl own)
  have unique := (Upshot.swappedBijects (live.addMatches made) agrees).unique
  have woken := relImp agrees.freed older
  refine ⟨?_, fun j => ?_⟩
  · rw [Upshot.installHeap, Upshot.installHeap, silent.heap']
    exact Upshot.swappedHeaps diamond.blank agrees
  · rw [Upshot.installThread bound, Upshot.installThread inside, Upshot.installThread bound',
      Upshot.installThread inside', silent.freed, silent.freed']
    by_cases atT : t = j
    · subst atT
      rw [if_pos rfl, if_neg apart, if_pos rfl]
      exact .some (Upshot.wakeMatches unique woken (agrees.thread.mono common))
    · rw [if_neg atT, if_neg atT]
      by_cases atC : c = j
      · -- the thread of the quiet step waits for no monitor, so that nothing wakes it
        rw [if_pos atC, if_pos atC]
        refine .some ?_
        rw [GuestThread.wake, Upshot.wakeAwake late.freed silent.awake]
        refine silent.thread.mono fun o o' => ?_
        rintro (own | new)
        · exact older o o' own
        · exact .inr new
      · rw [if_neg atC, if_neg atC]
        have bare : GuestThread.wake none = id := rfl
        rw [bare, Option.map_id, id, id]
        exact relMap (live.threads j) fun _ _ same => Upshot.wakeMatches unique woken (same.mono older)

end Diamond

theorem Live.commutes (plain : p.PlainFields) (live : m.Live) (apart : c ≠ t)
    (runs : m.isRunnable c = true) (runs' : m.isRunnable t = true)
    (quiet : ∀ op, m.nextOp? p c = some op → op.isSchedulingRelevant = false)
    (went : Step.wentOn (freeStep p c m).2 = true) : Commutes p c t m := by
  obtain ⟨a, found, status⟩ := runnableThread runs
  obtain ⟨b, found', status'⟩ := runnableThread runs'
  have inside := threadInside found
  have inside' := threadInside found'
  have next : ∀ op, a.nextOp? p = some op → op.isSchedulingRelevant = false := by
    intro op fetched
    refine quiet op ?_
    unfold nextOp?
    rw [found]
    exact fetched
  rcases freeStepCases found with ⟨u, works, ran⟩ | ⟨_, failed, _⟩
  swap
  · exact absurd (failed.symm.trans went) Bool.false_ne_true
  have after : (u.install c m).thread? t = some b := Upshot.installRunnable inside u apart found' status'
  have heap := Upshot.installHeap u c m
  have runnable : (freeStep p c m).1.isRunnable t = true := by
    rw [ran]
    simp [isRunnable, Upshot.outcome, after, status']
  rcases live.diamond plain found status found' status' next works with
    ⟨fails, fails'⟩ | ⟨late, early, v, made, madeLate, diamond⟩
  · have failed := freeStepFails found' fails'
    have vain : ∀ {q : Prop}, Step.wentOn (freeStep p t m).2 = true → q :=
      fun went => absurd (failed.symm.trans went) Bool.false_ne_true
    refine ⟨runnable, ?_, vain, vain, vain⟩
    rw [ran, failed]
    rw [← heap] at fails
    exact freeStepFails after fails
  have still : (early.install t m).thread? c = some a :=
    Upshot.installRunnable inside' early apart.symm found status
  have otherLate := diamond.otherLate
  have quietLate := diamond.quietLate
  rw [← heap] at otherLate
  rw [← Upshot.installHeap early t m] at quietLate
  have ranLate := freeStepInstalls after otherLate
  have ranEarly := freeStepInstalls found' diamond.otherFirst
  have ranAgain := freeStepInstalls still quietLate
  refine ⟨runnable, ?_, fun _ => ?_, fun _ => ?_, fun _ => ?_⟩
  · rw [ran, ranEarly]
    exact (congrArg (Step.wentOn ·.2) ranLate).trans diamond.agrees.sane
  · rw [ranEarly]
    exact still.trans found.symm
  · rw [ran] at went
    rw [ranEarly]
    exact (congrArg (Step.wentOn ·.2) ranAgain).trans (diamond.silent.sane.symm.trans went)
  · rw [ran, ranEarly]
    show (freeStep p t (u.install c m)).1.Renamed (freeStep p c (early.install t m)).1
    rw [ranLate, ranAgain]
    exact ⟨_, diamond.bijects live, diamond.swaps live apart inside inside'⟩

end Machine

end BytecodeChecker
