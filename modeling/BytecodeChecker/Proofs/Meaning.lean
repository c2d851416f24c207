import Mathlib.Data.Fin.Tuple.Basic
import Mathlib.Data.List.FinRange
import Mathlib.Data.Set.NAry
import BytecodeChecker.Proofs.Counting

/-! What a script means, part by part. Interleaved items mean the sequences whose positions can be shared out among
sequences of the items; in which order the items stand, and which of them are put together first, does not matter. -/
namespace BytecodeChecker

def Shares {α : Type} {n : Nat} (parts : Fin n → List α) (zs : List α) : Prop :=
  ∃ owner : Fin zs.length → Fin n,
    ∀ k, ((List.finRange zs.length).filter fun i => owner i = k).map zs.get = parts k

namespace Shares

variable {α : Type} {n : Nat} {parts : Fin n → List α} {z : α} {zs : List α}

theorem nilIff : Shares parts [] ↔ ∀ k, parts k = [] := by
  constructor
  · intro shares k
    obtain ⟨owner, owned⟩ := shares
    exact (owned k).symm
  · intro none
    exact ⟨Fin.elim0, fun k => (none k).symm⟩

theorem ownedCons (owner : Fin (zs.length + 1) → Fin n) (k : Fin n) :
    ((List.finRange (zs.length + 1)).filter fun i => owner i = k).map (z :: zs).get =
      (if owner 0 = k then [z] else []) ++
        ((List.finRange zs.length).filter fun i => owner i.succ = k).map zs.get := by
  rw [List.finRange_succ, List.filter_cons, List.filter_map]
  split <;> rename_i first
  · simp_all [Function.comp_def]
  · simp_all [Function.comp_def]

theorem consIff : Shares parts (z :: zs) ↔
    ∃ k rest, parts k = z :: rest ∧ Shares (Function.update parts k rest) zs := by
  constructor
  · intro found
    obtain ⟨owner, owned⟩ := found
    refine ⟨owner 0, ((List.finRange zs.length).filter fun i => owner i.succ = owner 0).map zs.get, ?_,
      fun i => owner i.succ, fun k => ?_⟩
    · rw [← owned (owner 0)]
      exact (ownedCons owner (owner 0)).trans (by simp)
    · by_cases same : k = owner 0
      · rw [same, Function.update_self]
      · rw [Function.update_of_ne same, ← owned k]
        refine ((ownedCons owner k).trans ?_).symm
        rw [if_neg (Ne.symm same), List.nil_append]
  · intro found
    obtain ⟨k, rest, starts, owner, owned⟩ := found
    refine ⟨Fin.cons k owner, fun j => (ownedCons (Fin.cons k owner) j).trans ?_⟩
    simp only [Fin.cons_zero, Fin.cons_succ]
    rw [owned j]
    by_cases same : k = j
    · rw [if_pos same, ← same, Function.update_self, starts]
      rfl
    · rw [if_neg same, Function.update_of_ne (Ne.symm same), List.nil_append]

theorem mergeIff {first : List α} : Shares (Fin.cons first parts : Fin (n + 1) → List α) zs ↔
    ∃ ys, Merge first ys zs ∧ Shares parts ys := by
  -- the list that owns the first position is the one list or one of the others, as in a merge
  induction zs generalizing first parts with
  | nil =>
    rw [nilIff, Fin.forall_fin_succ]
    constructor
    · intro found
      obtain ⟨head, others⟩ := found
      rw [Fin.cons_zero] at head
      subst head
      exact ⟨[], .nil, nilIff.mpr others⟩
    · intro found
      obtain ⟨ys, merge, shares⟩ := found
      cases merge with
      | nil => exact ⟨rfl, nilIff.mp shares⟩
  | cons z zs ih =>
    rw [consIff, Fin.exists_fin_succ]
    constructor
    · rintro (⟨rest, starts, shares⟩ | ⟨j, rest, starts, shares⟩)
      · rw [Fin.cons_zero] at starts
        subst starts
        rw [Fin.update_cons_zero, ih] at shares
        obtain ⟨ys, merge, shares⟩ := shares
        exact ⟨ys, merge.left, shares⟩
      · rw [← Fin.cons_update, ih] at shares
        obtain ⟨ys, merge, shares⟩ := shares
        exact ⟨z :: ys, merge.right, consIff.mpr ⟨j, rest, starts, shares⟩⟩
    · intro found
      obtain ⟨ys, merge, shares⟩ := found
      cases merge with
      | left later =>
        refine .inl ⟨_, rfl, ?_⟩
        rw [Fin.update_cons_zero, ih]
        exact ⟨ys, later, shares⟩
      | right later =>
        obtain ⟨j, rest, starts, shares⟩ := consIff.mp shares
        refine .inr ⟨j, rest, starts, ?_⟩
        rw [← Fin.cons_update, ih]
        exact ⟨_, later, shares⟩

theorem listIff {first : List α} {others : List (List α)} :
    Shares (first :: others).get zs ↔ ∃ ys, Merge first ys zs ∧ Shares others.get ys := by
  have parts : (first :: others).get = (Fin.cons first others.get : Fin (others.length + 1) → List α) :=
    funext (Fin.cases rfl fun _ => rfl)
  rw [← mergeIff, ← parts]

theorem noneIff : Shares ([] : List (List α)).get zs ↔ zs = [] := by
  cases zs with
  | nil => exact ⟨fun _ => rfl, fun _ => nilIff.mpr fun k => k.elim0⟩
  | cons z zs =>
    constructor
    · intro shares
      obtain ⟨owner, _⟩ := shares
      exact (owner 0).elim0
    · intro none
      cases none

end Shares

namespace Script

mutual

def meaning : Script → Set (List Event)
  | event e => {[e]}
  | sequence items => {zs | ∃ picks, List.Forall₂ (· ∈ ·) picks (meanings items) ∧ zs = picks.flatten}
  | alternatives items => {zs | ∃ each ∈ meanings items, zs ∈ each}
  | interleave items => {zs | ∃ picks, List.Forall₂ (· ∈ ·) picks (meanings items) ∧ Shares picks.get zs}

def meanings : List Script → List (Set (List Event))
  | [] => []
  | s :: rest => s.meaning :: meanings rest

end

mutual

theorem meaningIff (s : Script) (zs : List Event) : zs ∈ s.meaning ↔ s.Denotes zs := by
  cases s with
  | event e => rw [denotesEvent, meaning, Set.mem_singleton_iff]
  | sequence items => rw [meaning, Set.mem_ofPred_eq, sequenceMeans]
  | alternatives items => rw [meaning, Set.mem_ofPred_eq, denotesAlternatives, alternativesMean]
  | interleave items => rw [meaning, Set.mem_ofPred_eq, interleaveMeans]

theorem sequenceMeans (items : List Script) (zs : List Event) :
    (∃ picks, List.Forall₂ (· ∈ ·) picks (meanings items) ∧ zs = picks.flatten) ↔ Denotes (.sequence items) zs := by
  cases items with
  | nil => simp [meanings, denotesNil]
  | cons s rest =>
    simp only [meanings, List.forall₂_cons_right_iff, denotesSequence, ← meaningIff s, ← sequenceMeans rest]
    constructor
    · rintro ⟨_, ⟨xs, picks, first, later, rfl⟩, rfl⟩
      exact ⟨xs, first, picks.flatten, ⟨picks, later, rfl⟩, rfl⟩
    · rintro ⟨xs, first, _, ⟨picks, later, rfl⟩, rfl⟩
      exact ⟨xs :: picks, ⟨xs, picks, first, later, rfl⟩, rfl⟩

theorem alternativesMean (items : List Script) (zs : List Event) :
    (∃ each ∈ meanings items, zs ∈ each) ↔ ∃ s ∈ items, Denotes s zs := by
  cases items with
  | nil => simp [meanings]
  | cons s rest =>
    simp only [meanings, List.mem_cons, exists_eq_or_imp, meaningIff s, alternativesMean rest]

theorem interleaveMeans (items : List Script) (zs : List Event) :
    (∃ picks, List.Forall₂ (· ∈ ·) picks (meanings items) ∧ Shares picks.get zs) ↔
      Denotes (.interleave items) zs := by
  cases items with
  | nil => simp [meanings, denotesUninterleaved, Shares.noneIff]
  | cons s rest =>
    simp only [meanings, List.forall₂_cons_right_iff, denotesInterleave, ← meaningIff s, ← interleaveMeans rest]
    constructor
    · rintro ⟨_, ⟨xs, picks, first, later, rfl⟩, shares⟩
      obtain ⟨ys, merged, shares⟩ := Shares.listIff.mp shares
      exact ⟨xs, first, ys, ⟨picks, later, shares⟩, merged⟩
    · rintro ⟨xs, first, ys, ⟨picks, later, shares⟩, merged⟩
      exact ⟨xs :: picks, ⟨xs, picks, first, later, rfl⟩, Shares.listIff.mpr ⟨ys, merged, shares⟩⟩

end

/- Scripts that differ in the order of alternatives or of interleaved items, or in which of them are put together
first, anywhere inside. -/
inductive Rearranged : Script → Script → Prop where
  | refl (s : Script) : Rearranged s s
  | symm {s t : Script} (h : Rearranged s t) : Rearranged t s
  | trans {s t u : Script} (h : Rearranged s t) (k : Rearranged t u) : Rearranged s u
  | alternatives {items others : List Script} (order : items.Perm others) :
      Rearranged (.alternatives items) (.alternatives others)
  | interleave {items others : List Script} (order : items.Perm others) :
      Rearranged (.interleave items) (.interleave others)
  | nestAlternatives (before after : List Script) {group : List Script} (some : group ≠ []) :
      Rearranged (.alternatives (before ++ group ++ after)) (.alternatives (before ++ .alternatives group :: after))
  | nestInterleave (before group after : List Script) :
      Rearranged (.interleave (before ++ group ++ after)) (.interleave (before ++ .interleave group :: after))
  | inSequence (before after : List Script) {s t : Script} (h : Rearranged s t) :
      Rearranged (.sequence (before ++ s :: after)) (.sequence (before ++ t :: after))
  | inAlternatives (before after : List Script) {s t : Script} (h : Rearranged s t) :
      Rearranged (.alternatives (before ++ s :: after)) (.alternatives (before ++ t :: after))
  | inInterleave (before after : List Script) {s t : Script} (h : Rearranged s t) :
      Rearranged (.interleave (before ++ s :: after)) (.interleave (before ++ t :: after))

structure Mixes {M : Type} (op : M → M → M) (unit : M) : Prop where
  comm : ∀ a b, op a b = op b a
  assoc : ∀ a b c, op (op a b) c = op a (op b c)
  unit : ∀ a, op unit a = a

namespace Mixes

variable {M : Type} {op : M → M → M} {unit : M} {as bs : List M}

theorem perm (mixes : Mixes op unit) (order : as.Perm bs) : as.foldr op unit = bs.foldr op unit := by
  have swaps : LeftCommutative op := ⟨fun a b c => by rw [← mixes.assoc, mixes.comm a b, mixes.assoc]⟩
  exact order.foldr_eq unit

theorem append (mixes : Mixes op unit) (as bs : List M) :
    (as ++ bs).foldr op unit = op (as.foldr op unit) (bs.foldr op unit) := by
  induction as with
  | nil => exact (mixes.unit _).symm
  | cons a as ih => rw [List.cons_append, List.foldr_cons, ih, List.foldr_cons, mixes.assoc]

theorem nest (mixes : Mixes op unit) (before group after : List M) :
    (before ++ group ++ after).foldr op unit = (before ++ group.foldr op unit :: after).foldr op unit := by
  rw [List.append_assoc, mixes.append, mixes.append group, mixes.append before, List.foldr_cons]

end Mixes

structure Reads {M : Type} (read : Script → M) (join both merge : M → M → M) (start nothing whole : M) : Prop where
  sequence : ∀ items, read (.sequence items) = (items.map read).foldr join start
  alternatives : ∀ items, read (.alternatives items) = (items.map read).foldr both nothing
  interleave : ∀ items, read (.interleave items) = (items.map read).foldr merge whole
  alternative : Mixes both nothing
  interleaved : Mixes merge whole

theorem Rearranged.read {M : Type} {read : Script → M} {join both merge : M → M → M} {start nothing whole : M}
    (reads : Reads read join both merge start nothing whole) {s t : Script} (h : Rearranged s t) : read s = read t := by
  induction h with
  | refl s => rfl
  | symm _ ih => exact ih.symm
  | trans _ _ first second => exact first.trans second
  | alternatives order => rw [reads.alternatives, reads.alternatives, reads.alternative.perm (order.map read)]
  | interleave order => rw [reads.interleave, reads.interleave, reads.interleaved.perm (order.map read)]
  | nestAlternatives before after some =>
    rw [reads.alternatives, reads.alternatives, List.map_append, List.map_append, reads.alternative.nest,
      ← reads.alternatives, List.map_append, List.map_cons]
  | nestInterleave before group after =>
    rw [reads.interleave, reads.interleave, List.map_append, List.map_append, reads.interleaved.nest,
      ← reads.interleave, List.map_append, List.map_cons]
  | inSequence before after _ ih =>
    rw [reads.sequence, reads.sequence, List.map_append, List.map_append, List.map_cons, List.map_cons, ih]
  | inAlternatives before after _ ih =>
    rw [reads.alternatives, reads.alternatives, List.map_append, List.map_append, List.map_cons, List.map_cons, ih]
  | inInterleave before after _ ih =>
    rw [reads.interleave, reads.interleave, List.map_append, List.map_append, List.map_cons, List.map_cons, ih]

theorem lengthsRead : Reads (fun s => (s.lengths : Multiset Nat)) joinedLengths (· + ·) mergedLengths {0} 0 {0} where
  sequence := sequenceLengths
  alternatives := alternativesLengths
  interleave := interleaveLengths
  alternative := ⟨add_comm, add_assoc, zero_add⟩
  interleaved := ⟨mergedLengths.comm, mergedLengths.assoc, mergedLengths.unit⟩

def mergedSets (A B : Set (List Event)) : Set (List Event) := {zs | ∃ xs ∈ A, ∃ ys ∈ B, Merge xs ys zs}

theorem mergedSetsMix : Mixes mergedSets {[]} where
  comm A B := by
    ext zs
    constructor
    · intro found
      obtain ⟨xs, left, ys, right, merged⟩ := found
      exact ⟨ys, right, xs, left, merged.symm⟩
    · intro found
      obtain ⟨ys, right, xs, left, merged⟩ := found
      exact ⟨xs, left, ys, right, merged.symm⟩
  assoc A B C := by
    ext ws
    constructor
    · intro found
      obtain ⟨us, ⟨xs, first, ys, second, inner⟩, zs, third, outer⟩ := found
      obtain ⟨vs, inner, outer⟩ := inner.assoc outer
      exact ⟨xs, first, vs, ⟨ys, second, zs, third, inner⟩, outer⟩
    · intro found
      obtain ⟨xs, first, vs, ⟨ys, second, zs, third, inner⟩, outer⟩ := found
      obtain ⟨us, inner, outer⟩ := inner.unassoc outer
      exact ⟨us, ⟨xs, first, ys, second, inner⟩, zs, third, outer⟩
  unit A := by
    ext zs
    simp [mergedSets, Merge.nilIff]

theorem denotedRead : Reads (fun s => {zs | s.Denotes zs}) (Set.image2 (· ++ ·)) (· ∪ ·) mergedSets {[]} ∅ {[]} where
  sequence items := by
    induction items with
    | nil => ext zs; simp [denotesNil]
    | cons s rest ih => ext zs; simp [← ih, denotesSequence, Set.mem_image2]
  alternatives items := by
    induction items with
    | nil => ext zs; simp [denotesAlternatives]
    | cons s rest ih => ext zs; simp [← ih, denotesAlternatives]
  interleave items := by
    induction items with
    | nil => ext zs; simp [denotesUninterleaved]
    | cons s rest ih => ext zs; simp [← ih, denotesInterleave, mergedSets]
  alternative := ⟨Set.union_comm, Set.union_assoc, Set.empty_union⟩
  interleaved := mergedSetsMix

theorem alternativesFilled (items : List Script) :
    (alternatives items).filled = true ↔ items ≠ [] ∧ ∀ s ∈ items, s.filled = true := by
  simp [filled, filledEachIff]

theorem Rearranged.filled {s t : Script} (h : Rearranged s t) : s.filled = true ↔ t.filled = true := by
  induction h with
  | refl s => rfl
  | symm _ ih => exact ih.symm
  | trans _ _ first second => exact first.trans second
  | alternatives order =>
    rw [alternativesFilled, alternativesFilled, ← List.length_pos_iff, ← List.length_pos_iff, order.length_eq]
    simp only [order.mem_iff]
  | interleave order => simp [Script.filled, filledEachIff, order.mem_iff]
  | nestAlternatives before after some =>
    simp [alternativesFilled, or_imp, forall_and, some]
  | nestInterleave before group after =>
    simp [Script.filled, filledEachIff, or_imp, forall_and]
  | inSequence before after _ ih =>
    simp [Script.filled, filledEachIff, or_imp, forall_and, ih]
  | inAlternatives before after _ ih =>
    simp [alternativesFilled, or_imp, forall_and, ih]
  | inInterleave before after _ ih =>
    simp [Script.filled, filledEachIff, or_imp, forall_and, ih]

theorem Rearranged.count {s t : Script} (h : Rearranged s t) : s.count = t.count := by
  rw [countLengths, countLengths, ← Multiset.coe_card, ← Multiset.coe_card, h.read lengthsRead]

theorem Rearranged.denotes {s t : Script} (h : Rearranged s t) (zs : List Event) : s.Denotes zs ↔ t.Denotes zs :=
  Set.ext_iff.mp (h.read denotedRead) zs

theorem expandsToMeaning {s : Script} {listed : List (List Event)} (h : s.expand = .ok listed) :
    (∀ zs, zs ∈ listed ↔ zs ∈ s.meaning) ∧
    ∀ t, s.Rearranged t → ∃ others, t.expand = .ok others ∧ ∀ zs, zs ∈ others ↔ zs ∈ listed := by
  constructor
  · intro zs
    rw [expandIff s h, meaningIff]
  · intro t rearranged
    obtain ⟨full, few⟩ := (expandOk s).mp ⟨listed, h⟩
    rw [rearranged.filled] at full
    rw [rearranged.count] at few
    obtain ⟨others, expanded⟩ := (expandOk t).mpr ⟨full, few⟩
    refine ⟨others, expanded, fun zs => ?_⟩
    rw [expandIff t expanded, expandIff s h, rearranged.denotes]

def mixing : Script :=
  interleave [sequence [event (.normal "a" []), event .none], alternatives [event (.normal "a" []), event .none]]

def remixed : Script :=
  interleave [interleave [alternatives [event .none, event (.normal "a" [])]],
    sequence [event (.normal "a" []), event .none]]

theorem mixingRearranged : mixing.Rearranged remixed :=
  .trans (.interleave (.swap _ _ [])) (.trans (.inInterleave [] _ (.alternatives (.swap _ _ [])))
    (.nestInterleave [] [_] _))

theorem mixingExpands : ∃ listed, mixing.expand = .ok listed ∧ listed.length = 6 ∧
    (∀ zs, zs ∈ listed ↔ zs ∈ mixing.meaning) ∧
    ∃ others, remixed.expand = .ok others ∧ ∀ zs, zs ∈ others ↔ zs ∈ listed := by
  obtain ⟨listed, expanded⟩ := (expandOk mixing).mpr (by decide)
  obtain ⟨meant, rearranged⟩ := expandsToMeaning expanded
  exact ⟨listed, expanded, expandCount expanded, meant, rearranged remixed mixingRearranged⟩

end Script

end BytecodeChecker
