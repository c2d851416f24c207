import BytecodeChecker.Proofs.Sharing

/-! Siblings of an event tree. Two of them differ in their event, or in that one ends a sequence and the other
does not; so no sequence is listed twice, and the tree stands for the set of sequences that it was made of. -/
namespace BytecodeChecker

namespace Trie

def label : Trie → Event × Bool
  | leaf e => (e, true)
  | branch e _ => (e, false)

mutual

def Apart : Trie → Prop
  | leaf _ => True
  | branch _ children => (children.map label).Nodup ∧ AllApart children

def AllApart : List Trie → Prop
  | [] => True
  | t :: rest => t.Apart ∧ AllApart rest

end

structure Distinct (ts : List Trie) : Prop where
  labels : (ts.map label).Nodup
  below : AllApart ts

theorem distinctNil : Distinct [] := ⟨List.nodup_nil, trivial⟩

theorem leafLabel (e : Event) (ts : List Trie) : ts.any (isLeafOf e) = true ↔ (e, true) ∈ ts.map label := by
  induction ts with
  | nil => simp
  | cons t rest ih =>
    rw [List.any_cons, Bool.or_eq_true, List.map_cons, List.mem_cons, ih]
    cases t with
    | leaf e' => simp [isLeafOf, label, eq_comm]
    | branch e' children => simp [isLeafOf, label]

theorem updateLabels (e : Event) (change : List Trie → List Trie) (ts : List Trie) :
    (updateBranch e change ts).map label =
      if (e, false) ∈ ts.map label then ts.map label else ts.map label ++ [(e, false)] := by
  induction ts with
  | nil => rfl
  | cons t rest ih =>
    cases t with
    | leaf e' =>
      rw [updateBranch, List.map_cons, ih, List.map_cons, label]
      split <;> simp_all
    | branch e' children =>
      by_cases same : e' = e
      · simp [updateBranch, same, label]
      · rw [updateBranch, if_neg same, List.map_cons, ih, List.map_cons, label]
        split <;> simp_all [eq_comm]

theorem insertLabels (e : Event) (later : List Event) (ts : List Trie) :
    (insert (e :: later) ts).map label =
      if (e, later.isEmpty) ∈ ts.map label then ts.map label else ts.map label ++ [(e, later.isEmpty)] := by
  cases later with
  | nil =>
    rw [insert, List.isEmpty_nil]
    simp only [leafLabel]
    split
    · rfl
    · rw [List.map_append, List.map_singleton, label]
  | cons e' rest => exact updateLabels e (insert (e' :: rest)) ts

theorem insertNodup (e : Event) (later : List Event) {ts : List Trie} (labels : (ts.map label).Nodup) :
    ((insert (e :: later) ts).map label).Nodup := by
  rw [insertLabels]
  split
  · exact labels
  · rename_i new
    rw [← List.concat_eq_append]
    exact labels.concat new

theorem updateApart {e : Event} {change : List Trie → List Trie}
    (keeps : ∀ ts, Distinct ts → Distinct (change ts)) {ts : List Trie} (below : AllApart ts) :
    AllApart (updateBranch e change ts) := by
  induction ts with
  | nil =>
    have made := keeps [] distinctNil
    exact ⟨⟨made.labels, made.below⟩, trivial⟩
  | cons t rest ih =>
    cases t with
    | leaf e' => exact ⟨below.1, ih below.2⟩
    | branch e' children =>
      by_cases same : e' = e
      · have changed := keeps children ⟨below.1.1, below.1.2⟩
        rw [updateBranch, if_pos same]
        exact ⟨⟨changed.labels, changed.below⟩, below.2⟩
      · rw [updateBranch, if_neg same]
        exact ⟨below.1, ih below.2⟩

theorem apartAppend {ts us : List Trie} (left : AllApart ts) (right : AllApart us) : AllApart (ts ++ us) := by
  induction ts with
  | nil => exact right
  | cons t rest ih => exact ⟨left.1, ih left.2⟩

theorem insertDistinct (xs : List Event) {ts : List Trie} (distinct : Distinct ts) : Distinct (insert xs ts) := by
  induction xs generalizing ts with
  | nil => exact distinct
  | cons e later ih =>
    refine ⟨insertNodup e later distinct.labels, ?_⟩
    cases later with
    | nil =>
      rw [insert]
      split
      · exact distinct.below
      · exact apartAppend distinct.below ⟨trivial, trivial⟩
    | cons e' rest => exact updateApart (fun ts => ih) distinct.below

theorem sharedDistinct (sequences : List (List Event)) : Distinct (ofSequences sequences) := by
  have kept : ∀ ts, Distinct ts → Distinct (sequences.foldl (fun children s => insert s children) ts) := by
    induction sequences with
    | nil => exact fun ts distinct => distinct
    | cons xs rest ih => exact fun ts distinct => ih _ (insertDistinct xs distinct)
  exact kept [] distinctNil

theorem allSequencesMember {ts : List Trie} {xs : List Event} :
    xs ∈ allSequences ts ↔ ∃ t ∈ ts, xs ∈ t.sequences := by
  induction ts with
  | nil => simp [allSequences]
  | cons t rest ih => simp [allSequences, ih]

theorem sequenceFilled {t : Trie} {xs : List Event} (member : xs ∈ t.sequences) : xs ≠ [] := by
  cases t with
  | leaf e => simp_all [sequences]
  | branch e children =>
    obtain ⟨ys, _, rfl⟩ := List.mem_map.mp member
    exact List.cons_ne_nil e ys

theorem sequenceLabel {t : Trie} {xs : List Event} (member : xs ∈ t.sequences) :
    ∃ e later, xs = e :: later ∧ t.label = (e, later.isEmpty) := by
  cases t with
  | leaf e => exact ⟨e, [], List.mem_singleton.mp member, rfl⟩
  | branch e children =>
    obtain ⟨ys, below, rfl⟩ := List.mem_map.mp member
    obtain ⟨t, _, held⟩ := allSequencesMember.mp below
    refine ⟨e, ys, rfl, ?_⟩
    rw [label, List.isEmpty_eq_false_iff.mpr (sequenceFilled held)]

theorem sameLabel {t u : Trie} {xs : List Event} (left : xs ∈ t.sequences) (right : xs ∈ u.sequences) :
    t.label = u.label := by
  obtain ⟨e, later, rfl, first⟩ := sequenceLabel left
  obtain ⟨e', later', same, second⟩ := sequenceLabel right
  cases same
  rw [first, second]

mutual

theorem sequencesNodup (t : Trie) (apart : t.Apart) : t.sequences.Nodup := by
  cases t with
  | leaf e => exact List.nodup_singleton [e]
  | branch e children =>
    have below := allSequencesNodup children apart.1 apart.2
    exact below.map (List.cons_injective)

theorem allSequencesNodup (ts : List Trie) (labels : (ts.map label).Nodup) (below : AllApart ts) :
    (allSequences ts).Nodup := by
  cases ts with
  | nil => exact List.nodup_nil
  | cons t rest =>
    obtain ⟨other, labels⟩ := List.nodup_cons.mp labels
    rw [allSequences, List.nodup_append']
    refine ⟨sequencesNodup t below.1, allSequencesNodup rest labels below.2, ?_⟩
    intro xs left right
    -- a sequence that is held twice gives two siblings the same label
    obtain ⟨u, member, held⟩ := allSequencesMember.mp right
    apply other
    rw [sameLabel left held]
    exact List.mem_map_of_mem member

end

end Trie

namespace EventNode

def label (n : EventNode) : Option Event × Bool := (n.event?, n.isLeaf)

theorem numberedLabels (next : Nat) (ts : List Trie) (full : Trie.AllFull ts) :
    (ofTries next ts).1.map label = (ts.map Trie.label).map fun l => (some l.1, l.2) := by
  induction ts generalizing next with
  | nil => rfl
  | cons t rest ih =>
    have first : (ofTrie next t).1.label = (some t.label.1, t.label.2) := by
      cases t with
      | leaf e => rfl
      | branch e children =>
        cases children with
        | nil => exact absurd rfl full.1.1
        | cons child others => rfl
    have others := ih (ofTrie next t).2 full.2
    simp only [ofTries, List.map_cons, first, others]

theorem numberedChildren (next : Nat) {ts : List Trie} (full : Trie.AllFull ts)
    (labels : (ts.map Trie.label).Nodup) : ((ofTries next ts).1.map label).Nodup := by
  rw [numberedLabels next ts full]
  refine labels.map ?_
  intro l l' same
  simpa [Prod.ext_iff] using same

mutual

theorem subtreeApart (next : Nat) (t : Trie) (full : t.Full) (apart : t.Apart) {n : EventNode}
    (below : n ∈ (ofTrie next t).1.subtree) : (n.children.map label).Nodup := by
  cases t with
  | leaf e =>
    cases List.mem_singleton.mp below
    exact List.nodup_nil
  | branch e children =>
    rcases List.mem_cons.mp below with rfl | deeper
    · exact numberedChildren (next + 1) full.2 apart.1
    · exact forestBelowApart (next + 1) children full.2 apart.2 deeper

theorem forestBelowApart (next : Nat) (ts : List Trie) (full : Trie.AllFull ts) (apart : Trie.AllApart ts)
    {n : EventNode} (below : n ∈ forest (ofTries next ts).1) : (n.children.map label).Nodup := by
  cases ts with
  | nil => cases below
  | cons t rest =>
    rcases List.mem_append.mp below with here | later
    · exact subtreeApart next t full.1 apart.1 here
    · exact forestBelowApart (ofTrie next t).2 rest full.2 apart.2 later

end

end EventNode

namespace EventTree

/- What it is for a tree to stand for a set of sequences, given as a list in any order and with repetitions. -/
structure Represents (t : EventTree) (sequences : List (List Event)) : Prop where
  once : t.paths.Nodup
  members : ∀ xs, xs ∈ t.paths ↔ xs ∈ sequences ∧ xs ≠ []
  leafCount : t.leafCount = t.paths.length
  /- `subtree` lists a node before all that is below it. -/
  preorder : t.root.subtree.map EventNode.id = List.range t.nodeCount
  siblings : ∀ n ∈ t.root.subtree, (n.children.map fun child => (child.event?, child.isLeaf)).Nodup
  leaf : ∀ id, id ∈ t.leaves ↔ ∃ n ∈ EventNode.forest t.root.children, n.children = [] ∧ n.id = id
  leavesOnce : t.leaves.Nodup

variable (sequences : List (List Event))

theorem rootIds : (ofSequences sequences).root.subtree.map EventNode.id =
    List.range (ofSequences sequences).nodeCount := by
  obtain ⟨le, ids⟩ := EventNode.forestIds 1 (Trie.ofSequences sequences)
  have count : (ofSequences sequences).nodeCount =
      (EventNode.ofTries 1 (Trie.ofSequences sequences)).2 - 1 + 1 := (Nat.sub_add_cancel le).symm
  rw [count, List.range_eq_range', List.range'_succ, ← ids]
  rfl

theorem rootApart {n : EventNode} (inside : n ∈ (ofSequences sequences).root.subtree) :
    (n.children.map EventNode.label).Nodup := by
  have full := Trie.sharedFull sequences
  have distinct := Trie.sharedDistinct sequences
  rcases List.mem_cons.mp inside with rfl | below
  · exact EventNode.numberedChildren 1 full distinct.labels
  · exact EventNode.forestBelowApart 1 _ full distinct.below below

theorem leafIff (id : Nat) : id ∈ (ofSequences sequences).leaves ↔
    ∃ n ∈ EventNode.forest (ofSequences sequences).root.children, n.children = [] ∧ n.id = id := by
  constructor
  · intro listed
    obtain ⟨n, found, same⟩ := List.mem_map.mp listed
    obtain ⟨inside, ends⟩ := List.mem_filter.mp found
    obtain ⟨leaf, event⟩ := Bool.and_eq_true_iff.mp ends
    rcases List.mem_cons.mp inside with rfl | below
    · cases event
    · exact ⟨n, below, List.isEmpty_iff.mp leaf, same⟩
  · intro found
    obtain ⟨n, below, leaf, same⟩ := found
    obtain ⟨e, event, _⟩ := nodeEvents sequences below
    apply List.mem_map.mpr
    refine ⟨n, List.mem_filter.mpr ⟨.tail _ below, ?_⟩, same⟩
    simp [EventNode.isLeaf, leaf, event]

theorem leavesDistinct : (ofSequences sequences).leaves.Nodup := by
  have sub : (ofSequences sequences).leaves.Sublist ((ofSequences sequences).root.subtree.map EventNode.id) :=
    List.filter_sublist.map EventNode.id
  exact (idsDistinct sequences).sublist sub

theorem treeRepresents : (ofSequences sequences).Represents sequences where
  once := by
    have distinct := Trie.sharedDistinct sequences
    rw [sharedPaths]
    exact Trie.allSequencesNodup _ distinct.labels distinct.below
  members := pathsIff sequences
  leafCount := leafCountPaths sequences
  preorder := rootIds sequences
  siblings := fun _ inside => rootApart sequences inside
  leaf := leafIff sequences
  leavesOnce := leavesDistinct sequences

/- A sequence that another one continues keeps a path of its own, also if the longer one comes first. -/
example : (ofSequences [[.none, .normal "a" []], [.none], [], [.none, .none], [.none]]).paths =
    [[.none, .normal "a" []], [.none, .none], [.none]] := by decide

end EventTree

end BytecodeChecker
