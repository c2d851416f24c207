import BytecodeChecker.Proofs.Lengths

/-! Which scripts are accepted. The bound on the number of sequences is tested on every list that is made on the way;
since nothing that follows makes a list shorter, a script passes all the tests exactly if it passes the last one. -/
namespace BytecodeChecker.Script

mutual

def filled : Script → Bool
  | event _ => true
  | sequence items => filledEach items
  | alternatives items => !items.isEmpty && filledEach items
  | interleave items => filledEach items

def filledEach : List Script → Bool
  | [] => true
  | s :: rest => s.filled && filledEach rest

end

theorem filledEachIff (items : List Script) : filledEach items = true ↔ ∀ s ∈ items, s.filled = true := by
  induction items with
  | nil => simp [filledEach]
  | cons s rest ih => rw [filledEach, Bool.and_eq_true, ih, List.forall_mem_cons]

structure Collects (act : Collected → Except ScriptError Collected) (size : Nat) : Prop where
  fits : ∀ c, c.count ≤ maxPaths → ((∃ c', act c = .ok c') ↔ c.count + size ≤ maxPaths)
  counts : ∀ c c', act c = .ok c' → c'.count = c.count + size

theorem addCollects (group : List (List Event)) : Collects (·.add group) group.length where
  fits c small := by
    unfold Collected.add
    dsimp only
    split
    · rename_i many
      simp [Nat.not_le_of_lt many]
    · rename_i few
      simp [Nat.le_of_not_lt few]
  counts c c' h := by
    unfold Collected.add at h
    dsimp only at h
    split at h
    · cases h
    · cases h
      rfl

theorem foldCollects {α : Type} {step : Collected → α → Except ScriptError Collected} {size : α → Nat}
    (collects : ∀ x, Collects (step · x) (size x)) (xs : List α) :
    Collects (fun c => xs.foldlM step c) (xs.map size).sum where
  counts c c' h := by
    induction xs generalizing c with
    | nil =>
      cases h
      rfl
    | cons x xs ih =>
      rw [List.foldlM_cons] at h
      obtain ⟨next, one, rest⟩ := Load.bindOk.mp h
      rw [ih next rest, (collects x).counts c next one, List.map_cons, List.sum_cons, Nat.add_assoc]
  fits c small := by
    induction xs generalizing c with
    | nil => simpa [pure, Except.pure] using small
    | cons x xs ih =>
      rw [List.map_cons, List.sum_cons, ← Nat.add_assoc]
      constructor
      · intro found
        obtain ⟨c', h⟩ := found
        rw [List.foldlM_cons] at h
        obtain ⟨next, one, rest⟩ := Load.bindOk.mp h
        have bounded := ((collects x).fits c small).mp ⟨next, one⟩
        rw [← (collects x).counts c next one] at bounded ⊢
        exact (ih next bounded).mp ⟨c', rest⟩
      · intro total
        obtain ⟨next, one⟩ := ((collects x).fits c small).mpr (by omega)
        rw [← (collects x).counts c next one] at total
        obtain ⟨c', rest⟩ := (ih next (by omega)).mpr total
        exact ⟨c', by rw [List.foldlM_cons]; exact Load.bindOk.mpr ⟨next, one, rest⟩⟩

theorem mergeAllOk (heads tails : List (List Event)) : (∃ merged, mergeAll heads tails = .ok merged) ↔
    (mergedLengths (lengthsOf heads) (lengthsOf tails)).card ≤ maxPaths := by
  have collects := foldCollects (fun a => foldCollects (fun b => addCollects (merges a b)) tails) heads
  have fits := collects.fits ⟨0, []⟩ (Nat.zero_le _)
  have total : (mergedLengths (lengthsOf heads) (lengthsOf tails)).card =
      (heads.map fun a => (tails.map fun b => (merges a b).length).sum).sum := by
    simp [mergedLengths, lengthsOf, Multiset.card_bind, Function.comp_def, mergesLength]
  rw [total]
  constructor
  · intro found
    obtain ⟨merged, h⟩ := found
    obtain ⟨collected, folded, _⟩ := Load.bindOk.mp h
    simpa using fits.mp ⟨collected, folded⟩
  · intro small
    obtain ⟨collected, folded⟩ := fits.mpr (by simpa using small)
    exact ⟨_, Load.bindOk.mpr ⟨collected, folded, rfl⟩⟩

theorem foldSome {op : Multiset Nat → Multiset Nat → Multiset Nat} (keeps : ∀ A B, A ≠ 0 → B ≠ 0 → op A B ≠ 0)
    {each : List (Multiset Nat)} (some : ∀ A ∈ each, A ≠ 0) : each.foldr op {0} ≠ 0 := by
  induction each with
  | nil => exact Multiset.singleton_ne_zero 0
  | cons first rest ih =>
    obtain ⟨here, later⟩ := List.forall_mem_cons.mp some
    exact keeps first _ here (ih later)

mutual

theorem filledSome (s : Script) (full : s.filled = true) : (s.lengths : Multiset Nat) ≠ 0 := by
  cases s with
  | event e => exact Multiset.singleton_ne_zero 1
  | sequence items =>
    rw [sequenceLengths]
    refine foldSome (fun A B left right => ?_) (filledEachSome items full)
    rw [← Multiset.card_pos, joinedLengths.card]
    exact Nat.mul_pos (Multiset.card_pos.mpr left) (Multiset.card_pos.mpr right)
  | alternatives items =>
    cases items with
    | nil => cases full
    | cons s rest =>
      obtain ⟨here, _⟩ := List.forall_mem_cons.mp (filledEachSome (s :: rest) full)
      rw [alternativesLengths, List.map_cons, List.foldr_cons]
      exact fun none => here (add_eq_zero.mp none).1
  | interleave items =>
    rw [interleaveLengths]
    refine foldSome (fun A B left right => ?_) (filledEachSome items full)
    exact Multiset.card_pos.mp (Nat.lt_of_lt_of_le (Multiset.card_pos.mpr left) (mergedLengths.cardLe A right))

theorem filledEachSome (items : List Script) (full : filledEach items = true) :
    ∀ A ∈ items.map fun s => (s.lengths : Multiset Nat), A ≠ 0 := by
  cases items with
  | nil => exact List.forall_mem_nil _
  | cons s rest =>
    rw [filledEach, Bool.and_eq_true] at full
    exact List.forall_mem_cons.mpr ⟨filledSome s full.1, filledEachSome rest full.2⟩

end

theorem countPositive {s : Script} (full : s.filled = true) : 0 < s.count := by
  rw [countLengths, ← Multiset.coe_card]
  exact Multiset.card_pos.mpr (filledSome s full)

section Onward

variable {s : Script} {heads tails merged : List (List Event)} (rest : List Script)

theorem sequenceOnward (expanded : s.expand = .ok tails) (few : heads.length * tails.length ≤ maxPaths) :
    expandSequence heads (s :: rest) = expandSequence (heads.flatMap fun head => tails.map (head ++ ·)) rest := by
  rw [expandSequence, expanded]
  exact if_neg (Nat.not_lt_of_le few)

theorem alternativesOnward (expanded : s.expand = .ok tails) (few : (heads ++ tails).length ≤ maxPaths) :
    expandAlternatives heads (s :: rest) = expandAlternatives (heads ++ tails) rest := by
  rw [expandAlternatives, expanded]
  exact if_neg (Nat.not_lt_of_le few)

theorem interleaveOnward (expanded : s.expand = .ok tails) (all : mergeAll heads tails = .ok merged) :
    expandInterleave heads (s :: rest) = expandInterleave merged rest := by
  rw [expandInterleave, expanded]
  exact congrArg (· >>= fun m => expandInterleave m rest) all

end Onward

theorem lengthsOfSome {sequences : List (List Event)} : lengthsOf sequences ≠ 0 ↔ sequences ≠ [] := by
  simp [lengthsOf]

mutual

theorem expandOk (s : Script) :
    (∃ listed, s.expand = .ok listed) ↔ s.filled = true ∧ s.count ≤ maxPaths := by
  cases s with
  | event e => exact ⟨fun _ => ⟨rfl, (by decide : 1 ≤ maxPaths)⟩, fun _ => ⟨_, rfl⟩⟩
  | sequence items =>
    rw [expand, expandSequenceOk items [[]] (by decide) (by decide)]
    simp [filled]
  | alternatives items =>
    cases items with
    | nil => simp [expand, filled]
    | cons s rest =>
      rw [expand, expandAlternativesOk (s :: rest) [] (by decide)]
      simp [filled]
  | interleave items =>
    rw [expand, expandInterleaveOk items [[]] (by decide) (by decide), countLengths,
      show lengthsOf [[]] = {0} from rfl, mergedLengths.unit, Multiset.coe_card]
    rfl

theorem expandSequenceOk (items : List Script) (heads : List (List Event)) (some : heads ≠ [])
    (small : heads.length ≤ maxPaths) : (∃ listed, expandSequence heads items = .ok listed) ↔
      filledEach items = true ∧ heads.length * (sequence items).count ≤ maxPaths := by
  cases items with
  | nil => simpa [expandSequence, filledEach, count, countEach] using small
  | cons s rest =>
    have product : heads.length * (sequence (s :: rest)).count =
        heads.length * s.count * (sequence rest).count := (Nat.mul_assoc ..).symm
    rw [product, filledEach, Bool.and_eq_true]
    have onward {tails : List (List Event)} (expanded : s.expand = .ok tails) (full : s.filled = true)
        (few : heads.length * tails.length ≤ maxPaths) :
        (∃ listed, expandSequence heads (s :: rest) = .ok listed) ↔
          filledEach rest = true ∧ heads.length * s.count * (sequence rest).count ≤ maxPaths := by
      have next : (heads.flatMap fun head => tails.map (head ++ ·)).length = heads.length * s.count := by
        rw [← lengthsOfCard, joinedSequences, joinedLengths.card, lengthsOfCard, lengthsOfCard, expandCount expanded]
      rw [sequenceOnward rest expanded few, expandSequenceOk rest _ ?_ ?_, next]
      · rw [← List.length_pos_iff, next]
        exact Nat.mul_pos (List.length_pos_iff.mpr some) (countPositive full)
      · rwa [next, ← expandCount expanded]
    constructor
    · intro found
      obtain ⟨listed, h⟩ := found
      obtain ⟨tails, expanded, few, _⟩ := expandSequenceCons h
      obtain ⟨full, _⟩ := (expandOk s).mp ⟨tails, expanded⟩
      obtain ⟨others, total⟩ := (onward expanded full few).mp ⟨listed, h⟩
      exact ⟨⟨full, others⟩, total⟩
    · intro found
      obtain ⟨⟨full, others⟩, total⟩ := found
      -- the later items multiply by one at least, so that the whole product bounds what comes before it
      have later : 0 < (sequence rest).count := countPositive others
      have few : heads.length * s.count ≤ maxPaths := Nat.le_trans (Nat.le_mul_of_pos_right _ later) total
      have own : s.count ≤ maxPaths := Nat.le_trans (Nat.le_mul_of_pos_left _ (List.length_pos_iff.mpr some)) few
      obtain ⟨tails, expanded⟩ := (expandOk s).mpr ⟨full, own⟩
      rw [← expandCount expanded] at few
      exact (onward expanded full few).mpr ⟨others, total⟩

theorem expandAlternativesOk (items : List Script) (before : List (List Event))
    (small : before.length ≤ maxPaths) : (∃ listed, expandAlternatives before items = .ok listed) ↔
      filledEach items = true ∧ before.length + (alternatives items).count ≤ maxPaths := by
  cases items with
  | nil => simpa [expandAlternatives, filledEach, count, countEach] using small
  | cons s rest =>
    have sum : before.length + (alternatives (s :: rest)).count =
        before.length + s.count + (alternatives rest).count := (Nat.add_assoc ..).symm
    rw [sum, filledEach, Bool.and_eq_true]
    have onward {own : List (List Event)} (expanded : s.expand = .ok own)
        (few : (before ++ own).length ≤ maxPaths) :
        (∃ listed, expandAlternatives before (s :: rest) = .ok listed) ↔
          filledEach rest = true ∧ before.length + s.count + (alternatives rest).count ≤ maxPaths := by
      rw [alternativesOnward rest expanded few, expandAlternativesOk rest _ few, List.length_append,
        expandCount expanded]
    constructor
    · intro found
      obtain ⟨listed, h⟩ := found
      obtain ⟨own, expanded, few, _⟩ := expandAlternativesCons h
      obtain ⟨full, _⟩ := (expandOk s).mp ⟨own, expanded⟩
      obtain ⟨others, total⟩ := (onward expanded few).mp ⟨listed, h⟩
      exact ⟨⟨full, others⟩, total⟩
    · intro found
      obtain ⟨⟨full, others⟩, total⟩ := found
      obtain ⟨own, expanded⟩ := (expandOk s).mpr ⟨full, by omega⟩
      have few : (before ++ own).length ≤ maxPaths := by
        rw [List.length_append, expandCount expanded]
        omega
      exact (onward expanded few).mpr ⟨others, total⟩

theorem expandInterleaveOk (items : List Script) (heads : List (List Event)) (some : heads ≠ [])
    (small : heads.length ≤ maxPaths) : (∃ listed, expandInterleave heads items = .ok listed) ↔
      filledEach items = true ∧ (mergedLengths (lengthsOf heads) (interleave items).lengths).card ≤ maxPaths := by
  cases items with
  | nil =>
    have same : mergedLengths (lengthsOf heads) (interleave []).lengths = lengthsOf heads := by
      rw [mergedLengths.comm]
      exact mergedLengths.unit _
    rw [same, lengthsOfCard]
    simpa [expandInterleave, filledEach] using small
  | cons s rest =>
    have regrouped : mergedLengths (lengthsOf heads) (interleave (s :: rest)).lengths =
        mergedLengths (mergedLengths (lengthsOf heads) s.lengths) (interleave rest).lengths := by
      rw [interleaveCons, mergedLengths.assoc]
    rw [regrouped, filledEach, Bool.and_eq_true]
    have onward {tails merged : List (List Event)} (expanded : s.expand = .ok tails) (full : s.filled = true)
        (all : mergeAll heads tails = .ok merged) :
        (∃ listed, expandInterleave heads (s :: rest) = .ok listed) ↔ filledEach rest = true ∧
          (mergedLengths (mergedLengths (lengthsOf heads) s.lengths) (interleave rest).lengths).card ≤ maxPaths := by
      have fits := (mergeAllOk heads tails).mp ⟨merged, all⟩
      rw [← mergeAllLengths all, lengthsOfCard] at fits
      have next := mergeAllLengths all
      rw [expandLengths s expanded] at next
      rw [interleaveOnward rest expanded all, expandInterleaveOk rest merged ?_ fits, next]
      rw [← lengthsOfSome, next, ← Multiset.card_pos]
      exact Nat.lt_of_lt_of_le (Multiset.card_pos.mpr (lengthsOfSome.mpr some))
        (mergedLengths.cardLe _ (filledSome s full))
    constructor
    · intro found
      obtain ⟨listed, h⟩ := found
      obtain ⟨tails, merged, expanded, all, _⟩ := expandInterleaveCons h
      obtain ⟨full, _⟩ := (expandOk s).mp ⟨tails, expanded⟩
      obtain ⟨others, total⟩ := (onward expanded full all).mp ⟨listed, h⟩
      exact ⟨⟨full, others⟩, total⟩
    · intro found
      obtain ⟨⟨full, others⟩, total⟩ := found
      -- neither the later items nor the sequences so far make anything fewer
      have few := Nat.le_trans (mergedLengths.cardLe _ (filledSome (interleave rest) others)) total
      have own : s.count ≤ maxPaths := by
        rw [countLengths, ← Multiset.coe_card]
        rw [mergedLengths.comm] at few
        exact Nat.le_trans (mergedLengths.cardLe _ (lengthsOfSome.mpr some)) few
      obtain ⟨tails, expanded⟩ := (expandOk s).mpr ⟨full, own⟩
      rw [← expandLengths s expanded] at few
      obtain ⟨merged, all⟩ := (mergeAllOk heads tails).mpr few
      exact (onward expanded full all).mpr ⟨others, total⟩

end

theorem treeOk (s : Script) : (∃ tree, EventTree.ofScript s = .ok tree) ↔ ∃ listed, s.expand = .ok listed := by
  constructor
  · intro found
    obtain ⟨tree, made⟩ := found
    obtain ⟨listed, expanded, _⟩ := Load.bindOk.mp made
    exact ⟨listed, expanded⟩
  · intro found
    obtain ⟨listed, expanded⟩ := found
    exact ⟨_, Load.bindOk.mpr ⟨listed, expanded, rfl⟩⟩

/- A script is turned down only for alternatives without an item or for more sequences than the bound allows;
otherwise it is expanded to as many sequences as it stands for. The number for interleaved items is the one that
their own expansions give. -/
theorem acceptedExactly (s : Script) :
    ((∃ tree, EventTree.ofScript s = .ok tree) ↔ s.filled = true ∧ s.count ≤ maxPaths) ∧
    ((∃ listed, s.expand = .ok listed ∧ listed.length = s.count) ↔ s.filled = true ∧ s.count ≤ maxPaths) ∧
    ∀ items listings, List.Forall₂ (fun item listed => expand item = .ok listed) items listings →
      (interleave items).count =
        (listings.sections.map fun chosen => (chosen.map List.length).multinomial).sum := by
  refine ⟨?_, ?_, fun items listings => interleaveCount⟩
  · rw [treeOk, expandOk]
  · rw [← expandOk]
    constructor
    · intro found
      obtain ⟨listed, expanded, _⟩ := found
      exact ⟨listed, expanded⟩
    · intro found
      obtain ⟨listed, expanded⟩ := found
      exact ⟨listed, expanded, expandCount expanded⟩

def brimming : Script := sequence (List.replicate 5 (alternatives (List.replicate 10 (event .none))))

theorem brimmingAccepted : (∃ tree, EventTree.ofScript brimming = .ok tree) ∧
    (∃ listed, brimming.expand = .ok listed ∧ listed.length = 100000) ∧
    (¬ ∃ tree, EventTree.ofScript (alternatives [brimming, event .none]) = .ok tree) ∧
    (interleave [alternatives [event .none, sequence [event .none, event .none]], event .none]).count = 5 := by
  have count : brimming.count = 100000 := by decide
  have fits : brimming.filled = true ∧ brimming.count ≤ maxPaths := by decide
  refine ⟨(acceptedExactly brimming).1.mpr fits, count ▸ (acceptedExactly brimming).2.1.mpr fits, ?_, ?_⟩
  · rw [(acceptedExactly _).1]
    decide
  · have each : List.Forall₂ (fun item listed => expand item = .ok listed)
        [alternatives [event .none, sequence [event .none, event .none]], event .none]
        [[[.none], [.none, .none]], [[.none]]] := .cons rfl (.cons rfl .nil)
    rw [(acceptedExactly brimming).2.2 _ _ each]
    decide

end BytecodeChecker.Script
