/-! Finite maps from names to values, kept in increasing order of the names. Two maps with the same
entries are equal, so states that hold them can be compared. -/
namespace BytecodeChecker

structure NameMap (α : Type) where
  entries : List (String × α)
  sorted : entries.Pairwise (fun a b => a.1 < b.1)
  deriving DecidableEq, Repr

namespace NameMap

variable {α : Type}

instance : Inhabited (NameMap α) := ⟨⟨[], .nil⟩⟩

instance [Hashable α] : Hashable (NameMap α) := ⟨fun m => hash m.entries⟩

def empty : NameMap α := ⟨[], .nil⟩

def isEmpty (m : NameMap α) : Bool := m.entries.isEmpty

def size (m : NameMap α) : Nat := m.entries.length

def lookup (name : String) : List (String × α) → Option α
  | [] => none
  | (n, a) :: rest => if n = name then some a else lookup name rest

def get? (m : NameMap α) (name : String) : Option α := lookup name m.entries

def insertEntry (name : String) (value : α) : List (String × α) → List (String × α)
  | [] => [(name, value)]
  | (n, a) :: rest =>
    if name < n then (name, value) :: (n, a) :: rest
    else if n = name then (name, value) :: rest
    else (n, a) :: insertEntry name value rest

theorem memberInsert {name : String} {value : α} {entries : List (String × α)} {e : String × α}
    (h : e ∈ insertEntry name value entries) : e = (name, value) ∨ e ∈ entries := by
  induction entries with
  | nil => simpa [insertEntry] using h
  | cons head rest ih =>
    obtain ⟨n, a⟩ := head
    simp only [insertEntry] at h
    split at h
    · simpa using h
    · split at h
      · rcases List.mem_cons.1 h with h | h
        · exact .inl h
        · exact .inr (List.mem_cons_of_mem _ h)
      · rcases List.mem_cons.1 h with h | h
        · exact .inr (by simp [h])
        · rcases ih h with h | h
          · exact .inl h
          · exact .inr (List.mem_cons_of_mem _ h)

theorem ltOfNotLt {a b : String} (h : ¬ a < b) (ne : ¬ b = a) : b < a := by
  apply Classical.byContradiction
  intro hn
  exact ne (String.le_antisymm (String.not_lt.1 h) (String.not_lt.1 hn))

theorem sortedInsert {name : String} {value : α} {entries : List (String × α)}
    (h : entries.Pairwise (fun a b => a.1 < b.1)) :
    (insertEntry name value entries).Pairwise (fun a b => a.1 < b.1) := by
  induction entries with
  | nil => simp [insertEntry]
  | cons head rest ih =>
    obtain ⟨n, a⟩ := head
    obtain ⟨below, tail⟩ := List.pairwise_cons.1 h
    simp only [insertEntry]
    split
    · rename_i before
      refine List.pairwise_cons.2 ⟨fun e he => ?_, h⟩
      rcases List.mem_cons.1 he with rfl | he
      · exact before
      · exact String.lt_trans before (below e he)
    · split
      · rename_i same
        subst same
        exact List.pairwise_cons.2 ⟨below, tail⟩
      · rename_i notBefore other
        refine List.pairwise_cons.2 ⟨fun e he => ?_, ih tail⟩
        rcases memberInsert he with rfl | he
        · exact ltOfNotLt notBefore other
        · exact below e he

def insert (m : NameMap α) (name : String) (value : α) : NameMap α :=
  ⟨insertEntry name value m.entries, sortedInsert m.sorted⟩

def ofList (bindings : List (String × α)) : NameMap α :=
  bindings.foldl (fun m b => m.insert b.1 b.2) empty

theorem lookupInsert (name other : String) (value : α) (entries : List (String × α)) :
    lookup other (insertEntry name value entries) =
      if name = other then some value else lookup other entries := by
  induction entries with
  | nil => simp [insertEntry, lookup]
  | cons head rest ih =>
    obtain ⟨n, a⟩ := head
    simp only [insertEntry]
    split
    · rename_i before
      by_cases same : name = other <;> simp [lookup, same]
    · split
      · rename_i eq
        subst eq
        by_cases same : n = other <;> simp [lookup, same]
      · rename_i different
        by_cases here : n = other
        · subst here
          simp [lookup, Ne.symm different]
        · simp [lookup, here, ih]

@[simp] theorem getInsert (m : NameMap α) (name other : String) (value : α) :
    (m.insert name value).get? other = if name = other then some value else m.get? other :=
  lookupInsert name other value m.entries

@[simp] theorem getEmpty (name : String) : (empty : NameMap α).get? name = none := rfl

end NameMap

end BytecodeChecker
