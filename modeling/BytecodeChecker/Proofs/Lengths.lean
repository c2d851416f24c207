import Mathlib.Data.List.Sections
import Mathlib.Data.Nat.Choose.Multinomial
import BytecodeChecker.Proofs.Denotation

/-! The lengths of the sequences that a script stands for, and with them their number, said without listing the
sequences. Interleaved items have as many sequences as there are ways to share out the places among them. -/
namespace BytecodeChecker

/- The lengths of merged sequences, given those of what is merged. Two sequences have as many merges as there are
ways to choose the places of the first one. -/
def mergedLengths (A B : Multiset Nat) : Multiset Nat :=
  A.bind fun a => B.bind fun b => Multiset.replicate ((a + b).choose a) (a + b)

namespace mergedLengths

variable (A B C : Multiset Nat)

theorem comm : mergedLengths A B = mergedLengths B A := by
  unfold mergedLengths
  rw [Multiset.bind_bind]
  refine Multiset.bind_congr fun b _ => Multiset.bind_congr fun a _ => ?_
  rw [Nat.choose_symm_add, Nat.add_comm]

theorem add : mergedLengths (A + B) C = mergedLengths A C + mergedLengths B C := Multiset.add_bind ..

theorem zero : mergedLengths 0 A = 0 := Multiset.zero_bind _

theorem addRight : mergedLengths A (B + C) = mergedLengths A B + mergedLengths A C := by
  rw [comm, add, comm B, comm C]

theorem zeroRight : mergedLengths A 0 = 0 := by
  rw [comm, zero]

theorem repeated (n : Nat) : mergedLengths (n • A) B = n • mergedLengths A B := by
  induction n with
  | zero => rw [zero_nsmul, zero_nsmul, zero]
  | succ n ih => rw [succ_nsmul, succ_nsmul, add, ih]

theorem repeatedRight (n : Nat) : mergedLengths A (n • B) = n • mergedLengths A B := by
  rw [comm, repeated, comm]

theorem singles (a b : Nat) : mergedLengths {a} {b} = (a + b).choose a • {a + b} := by
  rw [Multiset.nsmul_singleton]
  simp [mergedLengths]

theorem unit : mergedLengths {0} A = A := by
  induction A using Multiset.induction with
  | empty => exact zeroRight {0}
  | cons a A ih => rw [← Multiset.singleton_add, addRight, ih, singles, Nat.choose_zero_right, one_nsmul, Nat.zero_add]

theorem chooseTwice (a b c : Nat) : (a + b).choose a * (a + b + c).choose (a + b) =
    (b + c).choose b * (a + (b + c)).choose a := by
  have first := Nat.choose_mul (n := a + b + c) (Nat.le_add_right a b)
  rw [Nat.add_sub_cancel_left, Nat.add_assoc, Nat.add_sub_cancel_left] at first
  rw [Nat.mul_comm, Nat.add_assoc, first, Nat.mul_comm]

theorem assocSingles (a b c : Nat) :
    mergedLengths (mergedLengths {a} {b}) {c} = mergedLengths {a} (mergedLengths {b} {c}) := by
  rw [singles, repeated, singles, singles, repeatedRight, singles, ← mul_nsmul', ← mul_nsmul',
    chooseTwice, Nat.add_assoc]

theorem assoc : mergedLengths (mergedLengths A B) C = mergedLengths A (mergedLengths B C) := by
  -- every side is additive in each of the three, so that single lengths decide
  have one (a b : Nat) : mergedLengths (mergedLengths {a} {b}) C = mergedLengths {a} (mergedLengths {b} C) := by
    induction C using Multiset.induction with
    | empty => simp only [zeroRight]
    | cons c C ih => simp only [← Multiset.singleton_add, addRight, ih, assocSingles]
  have two (a : Nat) : mergedLengths (mergedLengths {a} B) C = mergedLengths {a} (mergedLengths B C) := by
    induction B using Multiset.induction with
    | empty => simp only [zeroRight, zero]
    | cons b B ih => simp only [← Multiset.singleton_add, addRight, add, ih, one]
  induction A using Multiset.induction with
  | empty => simp only [zero]
  | cons a A ih => simp only [← Multiset.singleton_add, add, ih, two]

theorem cardLe {B : Multiset Nat} (some : B ≠ 0) : A.card ≤ (mergedLengths A B).card := by
  induction A using Multiset.induction with
  | empty => exact Nat.zero_le _
  | cons a A ih =>
    obtain ⟨b, member⟩ := Multiset.exists_mem_of_ne_zero some
    have here : a + b ∈ mergedLengths {a} B := by
      simp only [mergedLengths, Multiset.singleton_bind, Multiset.mem_bind, Multiset.mem_replicate]
      exact ⟨b, member, (Nat.choose_pos (Nat.le_add_right a b)).ne', rfl⟩
    have grows : 0 < (mergedLengths {a} B).card := Multiset.card_pos_iff_exists_mem.mpr ⟨_, here⟩
    rw [← Multiset.singleton_add, add, Multiset.card_add, Multiset.card_add, Multiset.card_singleton]
    omega

end mergedLengths

theorem replicateBind {β : Type} (n b : Nat) (f : Nat → Multiset β) :
    (Multiset.replicate n b).bind f = n • f b := by
  induction n with
  | zero => simp
  | succ n ih => rw [Multiset.replicate_succ, Multiset.cons_bind, ih, succ_nsmul']

def sharedLengths (each : List (List Nat)) : List Nat :=
  each.sections.flatMap fun chosen => List.replicate chosen.multinomial chosen.sum

namespace sharedLengths

variable (first : List Nat) (each : List (List Nat))

theorem length : (sharedLengths each).length = (each.sections.map List.multinomial).sum := by
  simp [sharedLengths, List.length_flatMap]

theorem cons : (sharedLengths (first :: each) : Multiset Nat) = mergedLengths first (sharedLengths each) := by
  have one (a : Nat) (chosen : List Nat) :
      (List.replicate (a :: chosen).multinomial (a :: chosen).sum : Multiset Nat) =
      (Multiset.replicate chosen.multinomial chosen.sum).bind fun b =>
        Multiset.replicate ((a + b).choose a) (a + b) := by
    rw [replicateBind, Multiset.nsmul_replicate, Multiset.coe_replicate, List.multinomial_cons, List.sum_cons,
      Nat.mul_comm]
  simp only [sharedLengths, List.sections, List.flatMap_assoc, List.flatMap_map, mergedLengths,
    ← Multiset.coe_bind, Multiset.bind_assoc, one, Multiset.coe_replicate]
  rw [Multiset.bind_bind]

theorem folded : (sharedLengths each : Multiset Nat) = (each.map (↑)).foldr mergedLengths {0} := by
  induction each with
  | nil => rfl
  | cons first each ih => rw [cons, ih, List.map_cons, List.foldr_cons]

end sharedLengths

def joinedLengths (A B : Multiset Nat) : Multiset Nat := A.bind fun a => B.map fun b => a + b

namespace joinedLengths

variable (A B C : Multiset Nat)

theorem unit : joinedLengths {0} A = A := by
  simp [joinedLengths]

theorem unitRight : joinedLengths A {0} = A := (Multiset.bind_singleton A id).trans (Multiset.map_id A)

theorem assoc : joinedLengths (joinedLengths A B) C = joinedLengths A (joinedLengths B C) := by
  simp [joinedLengths, Multiset.bind_assoc, Multiset.map_bind, Multiset.bind_map, Nat.add_assoc]

theorem card : (joinedLengths A B).card = A.card * B.card := by
  simp [joinedLengths, Multiset.card_bind]

theorem folded (each : List (List Nat)) :
    (each.sections.map List.sum : Multiset Nat) = (each.map (↑)).foldr joinedLengths {0} := by
  induction each with
  | nil => rfl
  | cons first each ih =>
    rw [List.map_cons, List.foldr_cons, ← ih, joinedLengths]
    simp only [List.sections, List.map_flatMap, List.map_map, ← Multiset.coe_bind, ← Multiset.map_coe,
      Multiset.map_map, Function.comp_def, List.sum_cons]
    rw [Multiset.bind_map_comm]

end joinedLengths

namespace Script

mutual

def lengths : Script → List Nat
  | event _ => [1]
  | sequence items => (lengthsEach items).sections.map List.sum
  | alternatives items => (lengthsEach items).flatten
  | interleave items => sharedLengths (lengthsEach items)

def lengthsEach : List Script → List (List Nat)
  | [] => []
  | s :: rest => s.lengths :: lengthsEach rest

end

mutual

def count : Script → Nat
  | event _ => 1
  | sequence items => (countEach items).prod
  | alternatives items => (countEach items).sum
  | interleave items => ((lengthsEach items).sections.map List.multinomial).sum

def countEach : List Script → List Nat
  | [] => []
  | s :: rest => s.count :: countEach rest

end

section Items

variable (items : List Script)

theorem lengthsEachMap : lengthsEach items = items.map lengths := by
  induction items with
  | nil => rfl
  | cons s rest ih => rw [lengthsEach, ih, List.map_cons]

theorem sequenceLengths : ((sequence items).lengths : Multiset Nat) =
    (items.map fun s => (s.lengths : Multiset Nat)).foldr joinedLengths {0} := by
  rw [lengths, joinedLengths.folded, lengthsEachMap, List.map_map]
  rfl

theorem alternativesLengths : ((alternatives items).lengths : Multiset Nat) =
    (items.map fun s => (s.lengths : Multiset Nat)).foldr (· + ·) 0 := by
  rw [lengths, lengthsEachMap]
  induction items with
  | nil => rfl
  | cons s rest ih => rw [List.map_cons, List.flatten_cons, List.map_cons, List.foldr_cons, ← ih, Multiset.coe_add]

theorem interleaveLengths : ((interleave items).lengths : Multiset Nat) =
    (items.map fun s => (s.lengths : Multiset Nat)).foldr mergedLengths {0} := by
  rw [lengths, sharedLengths.folded, lengthsEachMap, List.map_map]
  rfl

theorem interleaveCons (s : Script) (rest : List Script) : ((interleave (s :: rest)).lengths : Multiset Nat) =
    mergedLengths s.lengths (interleave rest).lengths := sharedLengths.cons s.lengths (lengthsEach rest)

end Items

theorem sectionsLength {α : Type} (each : List (List α)) : each.sections.length = (each.map List.length).prod := by
  induction each with
  | nil => rfl
  | cons first rest ih =>
    simp [List.sections, List.length_flatMap, ih, Nat.mul_comm]

mutual

theorem countLengths (s : Script) : s.count = s.lengths.length := by
  cases s with
  | event e => rfl
  | sequence items => rw [count, lengths, List.length_map, sectionsLength, countEachLengths]
  | alternatives items => rw [count, lengths, List.length_flatten, countEachLengths]
  | interleave items => rw [count, lengths, sharedLengths.length]

theorem countEachLengths (items : List Script) : countEach items = (lengthsEach items).map List.length := by
  cases items with
  | nil => rfl
  | cons s rest => rw [countEach, lengthsEach, List.map_cons, countLengths s, countEachLengths rest]

end

theorem mergesLength {α : Type} (xs ys : List α) :
    (merges xs ys).length = (xs.length + ys.length).choose xs.length := by
  induction xs generalizing ys with
  | nil => rw [merges, List.length_singleton, List.length_nil, Nat.choose_zero_right]
  | cons x xs ih =>
    rw [merges]
    induction ys with
    | nil => simp [mergesCons]
    | cons y ys later =>
      rw [mergesCons, List.length_append, List.length_map, List.length_map, ih, later]
      simp only [List.length_cons]
      rw [Nat.add_right_comm xs.length 1, ← Nat.add_assoc, ← Nat.add_assoc, Nat.add_right_comm xs.length 1,
        Nat.choose_succ_succ' (xs.length + ys.length + 1)]

theorem mergedLength {α : Type} {xs ys zs : List α} (h : Merge xs ys zs) : zs.length = xs.length + ys.length := by
  induction h with
  | nil => rfl
  | left _ ih => simp only [List.length_cons, ih]; omega
  | right _ ih => simp only [List.length_cons, ih]; omega

theorem mergesLengths {α : Type} (xs ys : List α) : (merges xs ys).map List.length =
    List.replicate ((xs.length + ys.length).choose xs.length) (xs.length + ys.length) := by
  rw [List.eq_replicate_iff, List.length_map, mergesLength]
  refine ⟨rfl, fun n listed => ?_⟩
  obtain ⟨zs, member, rfl⟩ := List.mem_map.mp listed
  exact mergedLength (mergesIff.mp member)

def lengthsOf (sequences : List (List Event)) : Multiset Nat := (sequences.map List.length : List Nat)

theorem lengthsOfCard (sequences : List (List Event)) : (lengthsOf sequences).card = sequences.length := by
  simp [lengthsOf]

theorem mergeAllLengths {heads tails merged : List (List Event)} (h : mergeAll heads tails = .ok merged) :
    lengthsOf merged = mergedLengths (lengthsOf heads) (lengthsOf tails) := by
  have listed : merged.map List.length = heads.flatMap fun a => tails.flatMap fun b =>
      List.replicate ((a.length + b.length).choose a.length) (a.length + b.length) := by
    rw [mergeAllLists h, List.map_flatten, List.map_flatMap, List.flatten_eq_flatMap, List.flatMap_assoc]
    simp only [List.map_map, Function.comp_def, List.flatMap_map, mergesLengths, id]
  rw [lengthsOf, listed]
  simp only [mergedLengths, lengthsOf, ← Multiset.map_coe, ← Multiset.coe_bind, Multiset.bind_map,
    Multiset.coe_replicate]

theorem joinedSequences (heads tails : List (List Event)) :
    lengthsOf (heads.flatMap fun head => tails.map (head ++ ·)) = joinedLengths (lengthsOf heads) (lengthsOf tails) := by
  simp only [lengthsOf, joinedLengths, List.map_flatMap, List.map_map, Function.comp_def, List.length_append,
    ← Multiset.map_coe, ← Multiset.coe_bind, Multiset.bind_map, Multiset.map_map]

theorem appendedSequences (before own : List (List Event)) :
    lengthsOf (before ++ own) = lengthsOf before + lengthsOf own := by
  rw [lengthsOf, List.map_append, ← Multiset.coe_add]
  rfl

mutual

theorem expandLengths (s : Script) {listed : List (List Event)} (h : s.expand = .ok listed) :
    lengthsOf listed = s.lengths := by
  cases s with
  | event e =>
    cases h
    rfl
  | sequence items =>
    rw [expand] at h
    rw [expandSequenceLengths items h]
    exact joinedLengths.unit _
  | alternatives items =>
    cases items with
    | nil => cases h
    | cons s rest =>
      rw [expand] at h
      rw [expandAlternativesLengths (s :: rest) h]
      exact zero_add _
  | interleave items =>
    rw [expand] at h
    rw [expandInterleaveLengths items h]
    exact mergedLengths.unit _

theorem expandSequenceLengths (items : List Script) {heads listed : List (List Event)}
    (h : expandSequence heads items = .ok listed) :
    lengthsOf listed = joinedLengths (lengthsOf heads) (sequence items).lengths := by
  cases items with
  | nil =>
    cases h
    exact (joinedLengths.unitRight _).symm
  | cons s rest =>
    obtain ⟨tails, expanded, _, h⟩ := expandSequenceCons h
    rw [expandSequenceLengths rest h, joinedSequences, expandLengths s expanded, joinedLengths.assoc,
      sequenceLengths (s :: rest), List.map_cons, List.foldr_cons, ← sequenceLengths]

theorem expandAlternativesLengths (items : List Script) {before listed : List (List Event)}
    (h : expandAlternatives before items = .ok listed) :
    lengthsOf listed = lengthsOf before + (alternatives items).lengths := by
  cases items with
  | nil =>
    cases h
    exact (add_zero _).symm
  | cons s rest =>
    obtain ⟨own, expanded, _, h⟩ := expandAlternativesCons h
    rw [expandAlternativesLengths rest h, appendedSequences, expandLengths s expanded, add_assoc,
      alternativesLengths (s :: rest), List.map_cons, List.foldr_cons, ← alternativesLengths]

theorem expandInterleaveLengths (items : List Script) {heads listed : List (List Event)}
    (h : expandInterleave heads items = .ok listed) :
    lengthsOf listed = mergedLengths (lengthsOf heads) (interleave items).lengths := by
  cases items with
  | nil =>
    cases h
    rw [mergedLengths.comm]
    exact (mergedLengths.unit _).symm
  | cons s rest =>
    obtain ⟨tails, merged, expanded, all, h⟩ := expandInterleaveCons h
    rw [expandInterleaveLengths rest h, mergeAllLengths all, expandLengths s expanded, mergedLengths.assoc,
      interleaveCons]

end

theorem expandCount {s : Script} {listed : List (List Event)} (h : s.expand = .ok listed) :
    listed.length = s.count := by
  rw [← lengthsOfCard, expandLengths s h, countLengths, Multiset.coe_card]

theorem sectionsMap {α β : Type} (f : α → β) (each : List (List α)) :
    (each.map (List.map f)).sections = each.sections.map (List.map f) := by
  induction each with
  | nil => rfl
  | cons first rest ih => simp [List.sections, ih, List.map_flatMap, List.flatMap_map, Function.comp_def]

theorem interleaveCount {items : List Script} {listings : List (List (List Event))}
    (expanded : List.Forall₂ (fun item listed => expand item = .ok listed) items listings) :
    (interleave items).count =
      (listings.sections.map fun chosen => (chosen.map List.length).multinomial).sum := by
  have listed : (items.map fun s => (s.lengths : Multiset Nat)) = listings.map lengthsOf := by
    induction expanded with
    | nil => rfl
    | cons here _ ih => rw [List.map_cons, List.map_cons, expandLengths _ here, ih]
  have chosen : (listings.sections.map fun chosen => (chosen.map List.length).multinomial).sum =
      (sharedLengths (listings.map (List.map List.length))).length := by
    rw [sharedLengths.length, sectionsMap, List.map_map]
    rfl
  rw [chosen, ← Multiset.coe_card, sharedLengths.folded, List.map_map, countLengths, ← Multiset.coe_card,
    interleaveLengths, listed]
  rfl

end Script

end BytecodeChecker
