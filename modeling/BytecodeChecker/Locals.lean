import BytecodeChecker.Value

/-! The local variables of a frame. A frame may have many slots of which few are ever used, so only
the slots that hold something are kept. -/
namespace BytecodeChecker

/-- A number of slots. Those with anything but null are listed in increasing order, so slots that
hold the same are equal. -/
structure Locals where
  size : Nat
  held : List (Nat × Value)
  sorted : held.Pairwise (fun a b => a.1 < b.1)
  within : ∀ e ∈ held, e.1 < size
  filled : ∀ e ∈ held, e.2 ≠ .null
  deriving DecidableEq, Repr

namespace Locals

instance : Hashable Locals := ⟨fun l => mixHash (hash l.size) (hash l.held)⟩

def valueAt (slot : Nat) : List (Nat × Value) → Value
  | [] => .null
  | (s, v) :: rest => if s = slot then v else valueAt slot rest

def hold (slot : Nat) (v : Value) (later : List (Nat × Value)) : List (Nat × Value) :=
  match v with
  | .null => later
  | v => (slot, v) :: later

def place (slot : Nat) (v : Value) : List (Nat × Value) → List (Nat × Value)
  | [] => hold slot v []
  | (s, w) :: rest =>
    if slot < s then hold slot v ((s, w) :: rest)
    else if s = slot then hold slot v rest
    else (s, w) :: place slot v rest

def heldFrom (slot : Nat) : List Value → List (Nat × Value)
  | [] => []
  | v :: rest => hold slot v (heldFrom (slot + 1) rest)

theorem memberHold {slot : Nat} {v : Value} {later : List (Nat × Value)} {e : Nat × Value} :
    e ∈ hold slot v later ↔ (e = (slot, v) ∧ v ≠ .null) ∨ e ∈ later := by
  cases v <;> simp [hold]

theorem sortedHold {slot : Nat} {v : Value} {later : List (Nat × Value)}
    (above : ∀ e ∈ later, slot < e.1) (h : later.Pairwise (fun a b => a.1 < b.1)) :
    (hold slot v later).Pairwise (fun a b => a.1 < b.1) := by
  cases v <;> first | exact h | exact List.pairwise_cons.2 ⟨above, h⟩

theorem valueAtAbove {slot : Nat} {held : List (Nat × Value)} (above : ∀ e ∈ held, slot < e.1) :
    valueAt slot held = .null := by
  induction held with
  | nil => rfl
  | cons head rest ih =>
    obtain ⟨s, w⟩ := head
    have here : slot < s := above (s, w) (by simp)
    simp [valueAt, Nat.ne_of_gt here, ih fun e he => above e (by simp [he])]

theorem valueAtHold {slot other : Nat} {v : Value} {later : List (Nat × Value)}
    (above : ∀ e ∈ later, slot < e.1) :
    valueAt other (hold slot v later) = if slot = other then v else valueAt other later := by
  by_cases same : slot = other
  · subst same
    cases v <;> simp [hold, valueAt, valueAtAbove above]
  · cases v <;> simp [hold, valueAt, same]

theorem memberPlace {slot : Nat} {v : Value} {held : List (Nat × Value)} {e : Nat × Value}
    (h : e ∈ place slot v held) : (e = (slot, v) ∧ v ≠ .null) ∨ e ∈ held := by
  induction held with
  | nil => exact memberHold.1 h
  | cons head rest ih =>
    obtain ⟨s, w⟩ := head
    simp only [place] at h
    split at h
    · exact memberHold.1 h
    · split at h
      · exact (memberHold.1 h).imp_right (List.mem_cons_of_mem _)
      · rcases List.mem_cons.1 h with h | h
        · exact .inr (by simp [h])
        · exact (ih h).imp_right (List.mem_cons_of_mem _)

theorem sortedPlace {slot : Nat} {v : Value} {held : List (Nat × Value)}
    (h : held.Pairwise (fun a b => a.1 < b.1)) :
    (place slot v held).Pairwise (fun a b => a.1 < b.1) := by
  induction held with
  | nil => exact sortedHold (by simp) .nil
  | cons head rest ih =>
    obtain ⟨s, w⟩ := head
    obtain ⟨above, tail⟩ := List.pairwise_cons.1 h
    simp only [place]
    split
    · rename_i before
      refine sortedHold (fun e he => ?_) h
      rcases List.mem_cons.1 he with rfl | he
      · exact before
      · exact Nat.lt_trans before (above e he)
    · split
      · rename_i same
        subst same
        exact sortedHold above tail
      · rename_i notBefore other
        refine List.pairwise_cons.2 ⟨fun e he => ?_, ih tail⟩
        rcases memberPlace he with ⟨rfl, _⟩ | he
        · exact Nat.lt_of_le_of_ne (Nat.not_lt.1 notBefore) other
        · exact above e he

theorem valueAtPlace {slot other : Nat} {v : Value} {held : List (Nat × Value)}
    (h : held.Pairwise (fun a b => a.1 < b.1)) :
    valueAt other (place slot v held) = if slot = other then v else valueAt other held := by
  induction held with
  | nil => exact valueAtHold (by simp)
  | cons head rest ih =>
    obtain ⟨s, w⟩ := head
    obtain ⟨above, tail⟩ := List.pairwise_cons.1 h
    simp only [place]
    split
    · rename_i before
      refine valueAtHold fun e he => ?_
      rcases List.mem_cons.1 he with rfl | he
      · exact before
      · exact Nat.lt_trans before (above e he)
    · split
      · rename_i same
        subst same
        rw [valueAtHold above]
        by_cases here : s = other <;> simp [valueAt, here]
      · rename_i different
        by_cases here : s = other
        · subst here
          simp [valueAt, Ne.symm different]
        · simp [valueAt, here, ih tail]

theorem memberHeldFrom {slot : Nat} {values : List Value} {e : Nat × Value}
    (h : e ∈ heldFrom slot values) :
    slot ≤ e.1 ∧ e.1 < slot + values.length ∧ e.2 ≠ .null := by
  induction values generalizing slot with
  | nil => simp [heldFrom] at h
  | cons v rest ih =>
    rcases memberHold.1 h with ⟨rfl, filled⟩ | h
    · exact ⟨Nat.le_refl _, by simp, filled⟩
    · obtain ⟨low, high, filled⟩ := ih h
      exact ⟨by omega, by simp only [List.length_cons]; omega, filled⟩

theorem sortedHeldFrom (slot : Nat) (values : List Value) :
    (heldFrom slot values).Pairwise (fun a b => a.1 < b.1) := by
  induction values generalizing slot with
  | nil => exact .nil
  | cons v rest ih => exact sortedHold (fun e he => (memberHeldFrom he).1) (ih (slot + 1))

theorem valueAtHeldFrom (slot index : Nat) (values : List Value) :
    valueAt (slot + index) (heldFrom slot values) = values[index]?.getD .null := by
  induction values generalizing slot index with
  | nil => rfl
  | cons v rest ih =>
    rw [heldFrom, valueAtHold fun e he => (memberHeldFrom he).1]
    cases index with
    | zero => simp
    | succ index =>
      have next := ih (slot + 1) index
      rw [Nat.add_right_comm] at next
      have apart : ¬ slot = slot + index + 1 := by omega
      simp [← Nat.add_assoc, next, apart]

def ofArgs (size : Nat) (args : List Value) : Locals where
  size := max args.length size
  held := heldFrom 0 args
  sorted := sortedHeldFrom 0 args
  within e he := by
    have := (memberHeldFrom he).2.1
    omega
  filled e he := (memberHeldFrom he).2.2

def get? (l : Locals) (slot : Nat) : Option Value :=
  if slot < l.size then some (valueAt slot l.held) else none

def set (l : Locals) (slot : Nat) (v : Value) : Locals :=
  if h : slot < l.size then
    { size := l.size
      held := place slot v l.held
      sorted := sortedPlace l.sorted
      within := fun e he => by
        rcases memberPlace he with ⟨rfl, _⟩ | he
        · exact h
        · exact l.within e he
      filled := fun e he => by
        rcases memberPlace he with ⟨rfl, filled⟩ | he
        · exact filled
        · exact l.filled e he }
  else l

def toArray (l : Locals) : Array Value :=
  l.held.foldl (fun slots e => slots.setIfInBounds e.1 e.2) (Array.replicate l.size .null)

@[simp] theorem sizeOfArgs (size : Nat) (args : List Value) :
    (ofArgs size args).size = max args.length size := rfl

@[simp] theorem sizeSet (l : Locals) (slot : Nat) (v : Value) : (l.set slot v).size = l.size := by
  unfold set
  split <;> rfl

theorem getNoneIff (l : Locals) (slot : Nat) : l.get? slot = none ↔ l.size ≤ slot := by
  simp [get?]

theorem getOfArgs (size : Nat) (args : List Value) (slot : Nat) :
    (ofArgs size args).get? slot =
      if slot < max args.length size then some (args[slot]?.getD .null) else none := by
  have value := valueAtHeldFrom 0 slot args
  rw [Nat.zero_add] at value
  simp [get?, ofArgs, value]

theorem getSet (l : Locals) (slot other : Nat) (v : Value) (h : slot < l.size) :
    (l.set slot v).get? other = if slot = other then some v else l.get? other := by
  by_cases same : slot = other
  · subst same
    simp [get?, set, h, valueAtPlace l.sorted]
  · simp [get?, set, h, valueAtPlace l.sorted, same]

end Locals

end BytecodeChecker
