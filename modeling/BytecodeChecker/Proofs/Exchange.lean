import Mathlib.Data.List.Sort
import Mathlib.Logic.Equiv.Basic
import BytecodeChecker.Proofs.Commuting

/-! Machines in which two objects have exchanged their numbers. Such a machine is computed here; machines that
match along the exchange, with the same flags, are the exchange of each other, and so machines that match
along equality are equal. -/
namespace BytecodeChecker

theorem keyedExt {κ α : Type} [LT κ] (asymm : ∀ {a b : κ}, a < b → ¬ b < a) {left right : List (κ × α)}
    (sorted : left.Pairwise fun a b => a.1 < b.1) (sorted' : right.Pairwise fun a b => a.1 < b.1)
    (same : ∀ e, e ∈ left ↔ e ∈ right) : left = right := by
  have antisymm : Std.Antisymm fun a b : κ × α => a.1 < b.1 := ⟨fun _ _ less more => absurd more (asymm less)⟩
  have irrefl : Std.Irrefl fun a b : κ × α => a.1 < b.1 := ⟨fun _ less => asymm less less⟩
  exact sorted.eq_of_mem_iff sorted' same

namespace NameMap

variable {α β : Type}

def map (f : α → β) (m : NameMap α) : NameMap β where
  entries := m.entries.map fun e => (e.1, f e.2)
  sorted := List.pairwise_map.mpr m.sorted

theorem getMap (f : α → β) (m : NameMap α) (name : String) : (m.map f).get? name = (m.get? name).map f := by
  have entries : ∀ entries : List (String × α),
      lookup name (entries.map fun e => (e.1, f e.2)) = (lookup name entries).map f := by
    intro entries
    induction entries with
    | nil => rfl
    | cons e rest ih =>
      by_cases here : e.1 = name
      · simp [lookup, here]
      · simp [lookup, here, ih]
  exact entries m.entries

theorem lookupIff {entries : List (String × α)} (sorted : entries.Pairwise fun a b => a.1 < b.1) (name : String)
    (value : α) : (name, value) ∈ entries ↔ lookup name entries = some value := by
  induction entries with
  | nil => simp [lookup]
  | cons e rest ih =>
    obtain ⟨first, held⟩ := e
    obtain ⟨above, later⟩ := List.pairwise_cons.mp sorted
    rw [List.mem_cons, ih later, lookup]
    by_cases here : first = name
    · have gone : lookup name rest ≠ some value := by
        intro found
        have less := above _ ((ih later).mpr found)
        rw [here] at less
        exact String.lt_irrefl name less
      simp [here, gone, eq_comm]
    · simp [here, Ne.symm here]

theorem getExt {m m' : NameMap α} (same : ∀ name, m.get? name = m'.get? name) : m = m' := by
  obtain ⟨entries, sorted⟩ := m
  obtain ⟨entries', sorted'⟩ := m'
  have members : entries = entries' := keyedExt String.lt_asymm sorted sorted' fun e => by
    rw [lookupIff sorted, lookupIff sorted']
    exact iff_of_eq (congrArg (· = some e.2) (same e.1))
  subst members
  rfl

end NameMap

def Value.rename (σ : ObjectId → ObjectId) : Value → Value
  | .ref o => .ref (σ o)
  | v => v

theorem Value.renameNull {σ : ObjectId → ObjectId} {v : Value} : v.rename σ = .null ↔ v = .null := by
  cases v <;> simp [rename]

namespace Locals

variable {σ : ObjectId → ObjectId}

def rename (σ : ObjectId → ObjectId) (l : Locals) : Locals where
  size := l.size
  held := l.held.map fun e => (e.1, e.2.rename σ)
  sorted := List.pairwise_map.mpr l.sorted
  within e member := by
    obtain ⟨old, there, rfl⟩ := List.mem_map.mp member
    exact l.within old there
  filled e member := by
    obtain ⟨old, there, rfl⟩ := List.mem_map.mp member
    exact fun null => l.filled old there (Value.renameNull.mp null)

theorem getRename (l : Locals) (slot : Nat) : (l.rename σ).get? slot = (l.get? slot).map (Value.rename σ) := by
  have held : ∀ held : List (Nat × Value),
      valueAt slot (held.map fun e => (e.1, e.2.rename σ)) = (valueAt slot held).rename σ := by
    intro held
    induction held with
    | nil => rfl
    | cons e rest ih =>
      by_cases here : e.1 = slot
      · simp [valueAt, here]
      · simp [valueAt, here, ih]
  have here : valueAt slot (l.rename σ).held = (valueAt slot l.held).rename σ := held l.held
  have size : (l.rename σ).size = l.size := rfl
  rw [get?, get?, size, here]
  split <;> rfl

theorem heldIff {held : List (Nat × Value)} (sorted : held.Pairwise fun a b => a.1 < b.1)
    (filled : ∀ e ∈ held, e.2 ≠ .null) (slot : Nat) (v : Value) :
    (slot, v) ∈ held ↔ valueAt slot held = v ∧ v ≠ .null := by
  induction held with
  | nil => simp [valueAt, eq_comm]
  | cons e rest ih =>
    obtain ⟨first, w⟩ := e
    obtain ⟨above, later⟩ := List.pairwise_cons.mp sorted
    obtain ⟨full, others⟩ := List.forall_mem_cons.mp filled
    rw [List.mem_cons, valueAt]
    by_cases here : first = slot
    · have gone : (slot, v) ∉ rest := by
        intro member
        have less := above _ member
        rw [here] at less
        exact Nat.lt_irrefl slot less
      have full' : w ≠ .null := full
      simp only [here, gone, or_false, if_true, Prod.mk.injEq, true_and]
      exact ⟨fun same => ⟨same.symm, same ▸ full'⟩, fun same => same.1.symm⟩
    · rw [ih later others]
      simp [here, Ne.symm here]

theorem getExt {l l' : Locals} (size : l.size = l'.size) (same : ∀ slot, l.get? slot = l'.get? slot) : l = l' := by
  have values : ∀ slot, valueAt slot l.held = valueAt slot l'.held := by
    intro slot
    by_cases inside : slot < l.size
    · have here := same slot
      rw [get?, get?, if_pos inside, if_pos (size ▸ inside)] at here
      exact Option.some.inj here
    · have past : ∀ {k : Locals}, k.size = l.size → valueAt slot k.held = .null := by
        intro k length
        apply Classical.byContradiction
        intro full
        have member := (heldIff k.sorted k.filled slot _).mpr ⟨rfl, full⟩
        exact inside (length ▸ k.within _ member)
      rw [past rfl, past size.symm]
  have held : l.held = l'.held := keyedExt Nat.lt_asymm l.sorted l'.sorted fun e => by
    rw [heldIff l.sorted l.filled, heldIff l'.sorted l'.filled, values]
  obtain ⟨n, entries, sorted, within, filled⟩ := l
  obtain ⟨n', entries', sorted', within', filled'⟩ := l'
  subst size held
  rfl

end Locals

section Rename

variable (σ : ObjectId → ObjectId)

def Frame.rename (f : Frame) : Frame :=
  { f with locals := f.locals.rename σ, operands := f.operands.map (Value.rename σ) }

def Phase.rename : Phase → Phase
  | .directCallReturned tag value => .directCallReturned tag (value.map (Value.rename σ))
  | phase => phase

def NativeCall.rename (call : NativeCall) : NativeCall :=
  { call with args := call.args.map (Value.rename σ), phase := call.phase.rename σ }

def Activation.rename : Activation → Activation
  | .bytecode f tag => .bytecode (f.rename σ) tag
  | .native call => .native (call.rename σ)

def Status.rename : Status → Status
  | .blocked o => .blocked (σ o)
  | status => status

def GuestThread.rename (thread : GuestThread) : GuestThread :=
  { thread with status := thread.status.rename σ, stack := thread.stack.map (Activation.rename σ) }

def HeapObject.rename (object : HeapObject) : HeapObject :=
  { object with fields := object.fields.map (Value.rename σ) }

def Step.rename : Step → Step
  | .blocked o => .blocked (σ o)
  | .exception thrown => .exception { thrown with object := σ thrown.object }
  | step => step

end Rename

def Heap.exchange (a b : ObjectId) (h : Heap) : Heap where
  objects := (h.objects.swapIfInBounds a.index b.index).map (HeapObject.rename (Equiv.swap a b))
  statics := h.statics.map (Value.rename (Equiv.swap a b))

def Step.exchange (a b : ObjectId) (step : Step) : Step := step.rename (Equiv.swap a b)

def Machine.exchange (a b : ObjectId) (m : Machine) : Machine where
  heap := m.heap.exchange a b
  threads := m.threads.map (GuestThread.rename (Equiv.swap a b))

section Follows

variable {pairs : Pairing} {σ : ObjectId → ObjectId} (follows : ∀ o o', pairs o o' → o' = σ o)
include follows

theorem Value.Matches.renamed {v v' : Value} (h : v.Matches pairs v') : v' = v.rename σ := by
  cases h with
  | ref paired => rw [rename, follows _ _ paired]
  | _ => rfl

theorem relRenamed {v v' : Option Value} (h : Option.Rel (Value.Matches pairs) v v') :
    v' = v.map (Value.rename σ) := by
  cases h with
  | none => rfl
  | some value => exact congrArg some (value.renamed follows)

theorem valuesRenamed {vs vs' : List Value} (h : vs.Forall₂ (Value.Matches pairs) vs') :
    vs' = vs.map (Value.rename σ) := by
  induction h with
  | nil => rfl
  | cons value _ ih => rw [List.map_cons, value.renamed follows, ih]

theorem Frame.Matches.renamed {f f' : Frame} (h : f.Matches pairs f') : f' = f.rename σ := by
  have locals : f'.locals = f.locals.rename σ := Locals.getExt h.locals.size.symm fun slot => by
    rw [Locals.getRename]
    exact relRenamed follows (h.locals.slots slot)
  have operands := valuesRenamed follows h.operands
  obtain ⟨method, pc, _, _⟩ := f'
  cases h.method
  cases h.pc
  cases locals
  cases operands
  rfl

theorem Phase.Matches.renamed {a a' : Phase} (h : a.Matches pairs a') : a' = a.rename σ := by
  cases h with
  | directCallReturned tag value => rw [rename, relRenamed follows value]
  | _ => rfl

theorem NativeCall.Matches.renamed {c c' : NativeCall} (h : c.Matches pairs c') : c' = c.rename σ := by
  have args := valuesRenamed follows h.args
  have phase := h.phase.renamed follows
  obtain ⟨method, _, _⟩ := c'
  cases h.method
  cases args
  cases phase
  rfl

theorem Activation.Matches.renamed {a a' : Activation} (h : a.Matches pairs a') : a' = a.rename σ := by
  cases h with
  | bytecode frame tag => rw [rename, frame.renamed follows]
  | native call => rw [rename, call.renamed follows]

theorem Status.Matches.renamed {a a' : Status} (h : a.Matches pairs a') : a' = a.rename σ := by
  cases h with
  | blocked paired => rw [rename, follows _ _ paired]
  | _ => rfl

theorem stackRenamed {stack stack' : List Activation} (h : stack.Forall₂ (Activation.Matches pairs) stack') :
    stack' = stack.map (Activation.rename σ) := by
  induction h with
  | nil => rfl
  | cons top _ ih => rw [List.map_cons, top.renamed follows, ih]

theorem GuestThread.Matches.renamed {t t' : GuestThread} (h : t.Matches pairs t')
    (flag : t'.firstStep = t.firstStep) : t' = t.rename σ := by
  have status := h.status.renamed follows
  have stack := stackRenamed follows h.stack
  obtain ⟨name, _, _, _⟩ := t'
  cases h.name
  cases status
  cases stack
  cases flag
  rfl

theorem NameMap.Matches.renamed {m m' : NameMap Value} (h : m.Matches pairs m') : m' = m.map (Value.rename σ) :=
  NameMap.getExt fun name => by
    rw [NameMap.getMap]
    exact relRenamed follows (h name)

theorem HeapObject.Matches.renamed {o o' : HeapObject} (h : o.Matches pairs o') : o' = o.rename σ := by
  have fields := h.fields.renamed follows
  obtain ⟨className, _, monitor⟩ := o'
  cases h.className
  cases fields
  cases h.monitor
  rfl

end Follows

namespace Machine

variable {pairs : Pairing} {m n : Machine} {a b : ObjectId}

theorem swapObject {objects : Array HeapObject}
    (inside : a = b ∨ a.index < objects.size ∧ b.index < objects.size) (o : ObjectId) :
    (objects.swapIfInBounds a.index b.index)[o.index]? = objects[(Equiv.swap a b o).index]? := by
  obtain ⟨i⟩ := a
  obtain ⟨j⟩ := b
  obtain ⟨k⟩ := o
  simp only [Equiv.swap_apply_def, ObjectId.mk.injEq] at inside ⊢
  grind

theorem Matches.exchanged (machines : m.Matches pairs n) (onto : Heap.Bijects pairs m.heap n.heap)
    (follows : ∀ o o', pairs o o' → o' = Equiv.swap a b o) (size : n.heap.size = m.heap.size)
    (inside : a = b ∨ a.index < m.heap.size ∧ b.index < m.heap.size)
    (flags : ∀ t thread thread', m.thread? t = some thread → n.thread? t = some thread' →
      thread'.firstStep = thread.firstStep) : n = m.exchange a b := by
  have objects : n.heap.objects = (m.heap.exchange a b).objects := by
    apply Array.ext_getElem?
    intro i
    by_cases within : i < n.heap.size
    · obtain ⟨o, paired⟩ := onto.right ⟨i⟩ within
      obtain ⟨object, object', found, found', same⟩ := machines.heap.objects paired
      have origin : Equiv.swap a b ⟨i⟩ = o := by
        rw [follows o _ paired]
        exact Equiv.swap_apply_self a b o
      have moved : (m.heap.objects.swapIfInBounds a.index b.index)[i]? = some object :=
        (swapObject inside ⟨i⟩).trans (origin ▸ found)
      rw [Heap.exchange, Array.getElem?_map, moved]
      exact found'.trans (congrArg some (same.renamed follows))
    · have past : (m.heap.exchange a b).objects.size ≤ i := by
        simp only [Heap.exchange, Array.size_map, Array.size_swapIfInBounds]
        exact Nat.le_trans (Nat.le_of_eq size.symm) (Nat.le_of_not_lt within)
      rw [Array.getElem?_eq_none past, Array.getElem?_eq_none (Nat.le_of_not_lt within)]
  have threads : n.threads = (m.exchange a b).threads := by
    apply Array.ext_getElem?
    intro i
    rw [exchange, Array.getElem?_map]
    rcases relCases (machines.threads ⟨i⟩) with ⟨none, none'⟩ | ⟨thread, thread', found, found', same⟩
    · exact none'.trans (congrArg (Option.map _) none).symm
    · have renamed := same.renamed follows (flags ⟨i⟩ thread thread' found found')
      exact (found'.trans (congrArg some renamed)).trans (congrArg (Option.map _) found).symm
  have statics := machines.heap.statics.renamed follows
  obtain ⟨⟨_, _⟩, _⟩ := n
  cases objects
  cases statics
  cases threads
  rfl

theorem Live.exchangeSelf (live : m.Live) (a : ObjectId) : m.exchange a a = m := by
  have onto : Heap.Bijects m.heap.own m.heap m.heap :=
    ⟨m.heap.ownUnique, fun o inside => ⟨o, rfl, inside⟩, fun o inside => ⟨o, rfl, inside⟩⟩
  refine (Matches.exchanged live onto (fun o o' own => ?_) rfl (.inl rfl) fun t thread thread' found found' => ?_).symm
  · rw [Equiv.swap_self]
    exact own.1.symm
  · cases Option.some.inj (found.symm.trans found')
    rfl

end Machine

end BytecodeChecker
