import BytecodeChecker.Event.Tree
import BytecodeChecker.Proofs.Loading

/-! What a script stands for, said without listing it: an item of a sequence comes before the next one, one
alternative is taken, and interleaved items keep each their own order. Expanding a script lists that. -/
namespace BytecodeChecker

inductive Merge {α : Type} : List α → List α → List α → Prop where
  | nil : Merge [] [] []
  | left {x : α} {xs ys zs : List α} (rest : Merge xs ys zs) : Merge (x :: xs) ys (x :: zs)
  | right {y : α} {xs ys zs : List α} (rest : Merge xs ys zs) : Merge xs (y :: ys) (y :: zs)

namespace Merge

variable {α : Type} {x y : α} {xs ys zs us ws : List α}

theorem symm (h : Merge xs ys zs) : Merge ys xs zs := by
  induction h with
  | nil => exact .nil
  | left _ ih => exact ih.right
  | right _ ih => exact ih.left

theorem alone (ys : List α) : Merge [] ys ys := by
  induction ys with
  | nil => exact .nil
  | cons y ys ih => exact ih.right

theorem nilIff : Merge [] ys zs ↔ zs = ys := by
  constructor
  · intro h
    induction ys generalizing zs with
    | nil =>
      cases h with
      | nil => rfl
    | cons y ys ih =>
      cases h with
      | right rest => rw [ih rest]
  · rintro rfl
    exact alone zs

theorem rightNilIff : Merge xs [] zs ↔ zs = xs :=
  ⟨fun h => nilIff.mp h.symm, fun h => (nilIff.mpr h).symm⟩

theorem consIff : Merge (x :: xs) (y :: ys) zs ↔ (∃ ws, Merge xs (y :: ys) ws ∧ x :: ws = zs) ∨
    ∃ ws, Merge (x :: xs) ys ws ∧ y :: ws = zs := by
  constructor
  · intro h
    cases h with
    | left rest => exact .inl ⟨_, rest, rfl⟩
    | right rest => exact .inr ⟨_, rest, rfl⟩
  · rintro (⟨ws, rest, rfl⟩ | ⟨ws, rest, rfl⟩)
    · exact rest.left
    · exact rest.right

theorem memIff (h : Merge xs ys zs) (a : α) : a ∈ zs ↔ a ∈ xs ∨ a ∈ ys := by
  induction h with
  | nil => simp
  | left _ ih => simp [ih, or_assoc]
  | right _ ih => simp [ih, or_left_comm]

theorem assoc (first : Merge xs ys us) (second : Merge us zs ws) : ∃ vs, Merge ys zs vs ∧ Merge xs vs ws := by
  induction second generalizing xs ys with
  | nil =>
    cases first with
    | nil => exact ⟨[], .nil, .nil⟩
  | left rest ih =>
    cases first with
    | left here =>
      obtain ⟨vs, inner, outer⟩ := ih here
      exact ⟨vs, inner, outer.left⟩
    | right here =>
      obtain ⟨vs, inner, outer⟩ := ih here
      exact ⟨_, inner.left, outer.right⟩
  | right rest ih =>
    obtain ⟨vs, inner, outer⟩ := ih first
    exact ⟨_, inner.right, outer.right⟩

theorem unassoc {vs : List α} (inner : Merge ys zs vs) (outer : Merge xs vs ws) :
    ∃ us, Merge xs ys us ∧ Merge us zs ws := by
  obtain ⟨us, first, second⟩ := inner.symm.assoc outer.symm
  exact ⟨us, first.symm, second.symm⟩

theorem append (xs ys : List α) : Merge xs ys (xs ++ ys) := by
  induction xs with
  | nil => exact alone ys
  | cons x xs ih => exact ih.left

end Merge

namespace Script

theorem mergesIff {α : Type} {xs ys zs : List α} : zs ∈ merges xs ys ↔ Merge xs ys zs := by
  induction xs generalizing ys zs with
  | nil => rw [merges, List.mem_singleton, Merge.nilIff]
  | cons x xs ih =>
    rw [merges]
    induction ys generalizing zs with
    | nil => rw [mergesCons, List.mem_singleton, Merge.rightNilIff]
    | cons y ys later =>
      rw [mergesCons, List.mem_append, List.mem_map, List.mem_map, Merge.consIff]
      simp only [ih, later]

theorem collectedGroups {α : Type} {step : Collected → α → Except ScriptError Collected}
    (added : α → List (List (List Event)))
    (adds : ∀ c a c', step c a = .ok c' → c'.groups = (added a).reverse ++ c.groups) {xs : List α}
    {c c' : Collected} (h : xs.foldlM step c = .ok c') :
    c'.groups = (xs.flatMap added).reverse ++ c.groups := by
  induction xs generalizing c with
  | nil =>
    cases h
    rfl
  | cons x xs ih =>
    rw [List.foldlM_cons] at h
    obtain ⟨next, one, rest⟩ := Load.bindOk.mp h
    rw [ih rest, adds c x next one, List.flatMap_cons, List.reverse_append, List.append_assoc]

theorem addGroup {c c' : Collected} {group : List (List Event)} (h : c.add group = .ok c') :
    c'.groups = [group].reverse ++ c.groups := by
  unfold Collected.add at h
  dsimp only at h
  split at h
  · cases h
  · cases h
    rfl

theorem mergeAllLists {heads tails merged : List (List Event)} (h : mergeAll heads tails = .ok merged) :
    merged = (heads.flatMap fun a => tails.map (merges a)).flatten := by
  obtain ⟨collected, folded, last⟩ := Load.bindOk.mp h
  have groups := collectedGroups (fun a => tails.map (merges a)) (fun c a c' inner => by
    rw [collectedGroups (fun b => [merges a b]) (fun c b c' => addGroup) inner, ← List.map_eq_flatMap]) folded
  rw [← Except.ok.inj last, groups]
  simp

theorem mergeAllIff {heads tails merged : List (List Event)} (h : mergeAll heads tails = .ok merged)
    (zs : List Event) : zs ∈ merged ↔ ∃ xs ∈ heads, ∃ ys ∈ tails, Merge xs ys zs := by
  rw [mergeAllLists h]
  simp only [List.mem_flatten, List.mem_flatMap, List.mem_map]
  constructor
  · rintro ⟨group, ⟨xs, left, ys, right, rfl⟩, member⟩
    exact ⟨xs, left, ys, right, mergesIff.mp member⟩
  · rintro ⟨xs, left, ys, right, merged⟩
    exact ⟨_, ⟨xs, left, ys, right, rfl⟩, mergesIff.mpr merged⟩

inductive Denotes : Script → List Event → Prop where
  | event (e : Event) : Denotes (.event e) [e]
  | noneInSequence : Denotes (.sequence []) []
  | inSequence {s : Script} {rest : List Script} {xs ys : List Event} (first : Denotes s xs)
      (later : Denotes (.sequence rest) ys) : Denotes (.sequence (s :: rest)) (xs ++ ys)
  | alternative {s : Script} {items : List Script} {xs : List Event} (member : s ∈ items)
      (taken : Denotes s xs) : Denotes (.alternatives items) xs
  | noneInterleaved : Denotes (.interleave []) []
  | interleaved {s : Script} {rest : List Script} {xs ys zs : List Event} (first : Denotes s xs)
      (others : Denotes (.interleave rest) ys) (merged : Merge xs ys zs) : Denotes (.interleave (s :: rest)) zs

section Inversion

variable {s : Script} {items rest : List Script} {zs : List Event}

theorem denotesEvent {e : Event} : Denotes (.event e) zs ↔ zs = [e] := by
  constructor
  · intro h
    cases h
    rfl
  · rintro rfl
    exact .event e

theorem denotesNil : Denotes (.sequence []) zs ↔ zs = [] := by
  constructor
  · intro h
    cases h
    rfl
  · rintro rfl
    exact .noneInSequence

theorem denotesSequence : Denotes (.sequence (s :: rest)) zs ↔
    ∃ xs, Denotes s xs ∧ ∃ ys, Denotes (.sequence rest) ys ∧ xs ++ ys = zs := by
  constructor
  · intro h
    cases h with
    | inSequence first later => exact ⟨_, first, _, later, rfl⟩
  · rintro ⟨xs, first, ys, later, rfl⟩
    exact .inSequence first later

theorem denotesAlternatives : Denotes (.alternatives items) zs ↔ ∃ s ∈ items, Denotes s zs := by
  constructor
  · intro h
    cases h with
    | alternative member taken => exact ⟨_, member, taken⟩
  · rintro ⟨s, member, taken⟩
    exact .alternative member taken

theorem denotesUninterleaved : Denotes (.interleave []) zs ↔ zs = [] := by
  constructor
  · intro h
    cases h
    rfl
  · rintro rfl
    exact .noneInterleaved

theorem denotesInterleave : Denotes (.interleave (s :: rest)) zs ↔
    ∃ xs, Denotes s xs ∧ ∃ ys, Denotes (.interleave rest) ys ∧ Merge xs ys zs := by
  constructor
  · intro h
    cases h with
    | interleaved first others merged => exact ⟨_, first, _, others, merged⟩
  · rintro ⟨xs, first, ys, others, merged⟩
    exact .interleaved first others merged

end Inversion

section Listing

variable {s : Script} {rest : List Script} {heads listed : List (List Event)}

theorem expandSequenceCons (h : expandSequence heads (s :: rest) = .ok listed) :
    ∃ tails, s.expand = .ok tails ∧ heads.length * tails.length ≤ maxPaths ∧
      expandSequence (heads.flatMap fun head => tails.map (head ++ ·)) rest = .ok listed := by
  rw [expandSequence] at h
  obtain ⟨tails, expanded, h⟩ := Load.bindOk.mp h
  dsimp only at h
  split at h
  · cases h
  · rename_i few
    exact ⟨tails, expanded, Nat.le_of_not_lt few, h⟩

theorem expandAlternativesCons (h : expandAlternatives heads (s :: rest) = .ok listed) :
    ∃ own, s.expand = .ok own ∧ (heads ++ own).length ≤ maxPaths ∧
      expandAlternatives (heads ++ own) rest = .ok listed := by
  rw [expandAlternatives] at h
  obtain ⟨own, expanded, h⟩ := Load.bindOk.mp h
  dsimp only at h
  split at h
  · cases h
  · rename_i few
    exact ⟨own, expanded, Nat.le_of_not_lt few, h⟩

theorem expandInterleaveCons (h : expandInterleave heads (s :: rest) = .ok listed) :
    ∃ tails merged, s.expand = .ok tails ∧ mergeAll heads tails = .ok merged ∧
      expandInterleave merged rest = .ok listed := by
  rw [expandInterleave] at h
  obtain ⟨tails, expanded, h⟩ := Load.bindOk.mp h
  obtain ⟨merged, all, h⟩ := Load.bindOk.mp h
  exact ⟨tails, merged, expanded, all, h⟩

end Listing

mutual

theorem expandIff (s : Script) {listed : List (List Event)} (h : s.expand = .ok listed) (zs : List Event) :
    zs ∈ listed ↔ s.Denotes zs := by
  cases s with
  | event e =>
    cases h
    rw [List.mem_singleton, denotesEvent]
  | sequence items =>
    rw [expand] at h
    rw [expandSequenceIff items h]
    simp
  | alternatives items =>
    rw [denotesAlternatives]
    cases items with
    | nil => cases h
    | cons s rest =>
      rw [expand] at h
      rw [expandAlternativesIff (s :: rest) h]
      simp
  | interleave items =>
    rw [expand] at h
    rw [expandInterleaveIff items h]
    simp [Merge.nilIff]

theorem expandSequenceIff (items : List Script) {heads listed : List (List Event)}
    (h : expandSequence heads items = .ok listed) (zs : List Event) :
    zs ∈ listed ↔ ∃ xs ∈ heads, ∃ ys, Denotes (.sequence items) ys ∧ xs ++ ys = zs := by
  cases items with
  | nil =>
    cases h
    simp [denotesNil]
  | cons s rest =>
    obtain ⟨tails, expanded, _, h⟩ := expandSequenceCons h
    rw [expandSequenceIff rest h]
    simp only [List.mem_flatMap, List.mem_map, expandIff s expanded, denotesSequence]
    constructor
    · rintro ⟨_, ⟨head, listed, xs, first, rfl⟩, ys, later, rfl⟩
      exact ⟨head, listed, _, ⟨xs, first, ys, later, rfl⟩, (List.append_assoc ..).symm⟩
    · rintro ⟨head, listed, _, ⟨xs, first, ys, later, rfl⟩, rfl⟩
      exact ⟨_, ⟨head, listed, xs, first, rfl⟩, ys, later, List.append_assoc ..⟩

theorem expandAlternativesIff (items : List Script) {before listed : List (List Event)}
    (h : expandAlternatives before items = .ok listed) (zs : List Event) :
    zs ∈ listed ↔ zs ∈ before ∨ ∃ s ∈ items, Denotes s zs := by
  cases items with
  | nil =>
    cases h
    simp
  | cons s rest =>
    obtain ⟨own, expanded, _, h⟩ := expandAlternativesCons h
    simp only [expandAlternativesIff rest h, List.mem_append, expandIff s expanded, List.mem_cons,
      exists_eq_or_imp, or_assoc]

theorem expandInterleaveIff (items : List Script) {heads listed : List (List Event)}
    (h : expandInterleave heads items = .ok listed) (zs : List Event) :
    zs ∈ listed ↔ ∃ xs ∈ heads, ∃ ys, Denotes (.interleave items) ys ∧ Merge xs ys zs := by
  cases items with
  | nil =>
    cases h
    simp [denotesUninterleaved, Merge.rightNilIff]
  | cons s rest =>
    obtain ⟨tails, merged, expanded, all, h⟩ := expandInterleaveCons h
    rw [expandInterleaveIff rest h]
    simp only [mergeAllIff all, expandIff s expanded, denotesInterleave]
    constructor
    · rintro ⟨us, ⟨head, listed, xs, first, inner⟩, ys, others, outer⟩
      obtain ⟨vs, inner, outer⟩ := inner.assoc outer
      exact ⟨head, listed, vs, ⟨xs, first, ys, others, inner⟩, outer⟩
    · rintro ⟨head, listed, vs, ⟨xs, first, ys, others, inner⟩, outer⟩
      obtain ⟨us, inner, outer⟩ := inner.unassoc outer
      exact ⟨us, ⟨head, listed, xs, first, inner⟩, ys, others, outer⟩

end

mutual

theorem expandSome (s : Script) {listed : List (List Event)} (h : s.expand = .ok listed) : ∃ zs, zs ∈ listed := by
  cases s with
  | event e =>
    cases h
    exact ⟨_, .head _⟩
  | sequence items =>
    rw [expand] at h
    exact expandSequenceSome items ⟨[], .head _⟩ h
  | alternatives items =>
    cases items with
    | nil => cases h
    | cons s rest =>
      rw [expand] at h
      obtain ⟨own, expanded, _, h⟩ := expandAlternativesCons h
      obtain ⟨zs, member⟩ := expandSome s expanded
      exact ⟨zs, (expandAlternativesIff rest h zs).mpr (.inl (List.mem_append_right _ member))⟩
  | interleave items =>
    rw [expand] at h
    exact expandInterleaveSome items ⟨[], .head _⟩ h

theorem expandSequenceSome (items : List Script) {heads listed : List (List Event)} (some : ∃ zs, zs ∈ heads)
    (h : expandSequence heads items = .ok listed) : ∃ zs, zs ∈ listed := by
  cases items with
  | nil =>
    cases h
    exact some
  | cons s rest =>
    obtain ⟨tails, expanded, _, h⟩ := expandSequenceCons h
    obtain ⟨xs, left⟩ := some
    obtain ⟨ys, right⟩ := expandSome s expanded
    refine expandSequenceSome rest ⟨xs ++ ys, List.mem_flatMap.mpr ⟨xs, left, ?_⟩⟩ h
    exact List.mem_map_of_mem right

theorem expandInterleaveSome (items : List Script) {heads listed : List (List Event)} (some : ∃ zs, zs ∈ heads)
    (h : expandInterleave heads items = .ok listed) : ∃ zs, zs ∈ listed := by
  cases items with
  | nil =>
    cases h
    exact some
  | cons s rest =>
    obtain ⟨tails, merged, expanded, all, h⟩ := expandInterleaveCons h
    obtain ⟨xs, left⟩ := some
    obtain ⟨ys, right⟩ := expandSome s expanded
    exact expandInterleaveSome rest ⟨xs ++ ys, (mergeAllIff all _).mpr ⟨xs, left, ys, right, .append xs ys⟩⟩ h

end

mutual

def checkFree : Script → Bool
  | event e => !e.isCheck
  | sequence items => checkFreeAll items
  | alternatives items => checkFreeAll items
  | interleave items => checkFreeAll items

def checkFreeAll : List Script → Bool
  | [] => true
  | s :: rest => s.checkFree && checkFreeAll rest

end

theorem checkFreeMember {items : List Script} (free : checkFreeAll items = true) {s : Script} (member : s ∈ items) :
    s.checkFree = true := by
  induction items with
  | nil => cases member
  | cons first rest ih =>
    rw [checkFreeAll, Bool.and_eq_true] at free
    rcases List.mem_cons.mp member with rfl | later
    · exact free.1
    · exact ih free.2 later

theorem Denotes.checkFree {s : Script} {zs : List Event} (h : s.Denotes zs) (free : s.checkFree = true) :
    ∀ e ∈ zs, e.isCheck = false := by
  induction h with
  | event e => simpa [Script.checkFree] using free
  | noneInSequence => simp
  | inSequence _ _ first later =>
    simp only [Script.checkFree, checkFreeAll, Bool.and_eq_true] at free first later
    exact List.forall_mem_append.mpr ⟨first free.1, later free.2⟩
  | alternative member _ taken => exact taken (checkFreeMember free member)
  | noneInterleaved => simp
  | interleaved _ _ merged first others =>
    simp only [Script.checkFree, checkFreeAll, Bool.and_eq_true] at free first others
    intro e member
    rcases (merged.memIff e).mp member with left | right
    · exact first free.1 e left
    · exact others free.2 e right

end Script

end BytecodeChecker
