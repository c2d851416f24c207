import BytecodeChecker.Proofs.Numbering

/-! Sequences that are shared from the front. A trie holds the sequences that were added to it, and the tree
that is numbered from it has a leaf for each of them; only the empty sequence has none. -/
namespace BytecodeChecker

namespace Trie

mutual

def sequences : Trie → List (List Event)
  | leaf e => [[e]]
  | branch e children => (allSequences children).map (e :: ·)

def allSequences : List Trie → List (List Event)
  | [] => []
  | t :: rest => t.sequences ++ allSequences rest

end

mutual

def Full : Trie → Prop
  | leaf _ => True
  | branch _ children => children ≠ [] ∧ AllFull children

def AllFull : List Trie → Prop
  | [] => True
  | t :: rest => t.Full ∧ AllFull rest

end

theorem allSequencesAppend (ts us : List Trie) : allSequences (ts ++ us) = allSequences ts ++ allSequences us := by
  induction ts with
  | nil => rfl
  | cons t rest ih => rw [List.cons_append, allSequences, allSequences, ih, List.append_assoc]

theorem allFullAppend {ts us : List Trie} (left : AllFull ts) (right : AllFull us) : AllFull (ts ++ us) := by
  induction ts with
  | nil => exact right
  | cons t rest ih => exact ⟨left.1, ih left.2⟩

theorem leafSequence {e : Event} {ts : List Trie} (found : ts.any (isLeafOf e) = true) : [e] ∈ allSequences ts := by
  induction ts with
  | nil => cases found
  | cons t rest ih =>
    rw [List.any_cons, Bool.or_eq_true] at found
    rw [allSequences, List.mem_append]
    rcases found with here | later
    · left
      cases t with
      | leaf e' => simpa [isLeafOf, sequences, eq_comm] using here
      | branch e' children => cases here
    · exact .inr (ih later)

structure Adds (ys : List Event) (ts us : List Trie) : Prop where
  sequences : ∀ xs, xs ∈ allSequences us ↔ xs ∈ allSequences ts ∨ xs = ys
  full : AllFull ts → AllFull us
  some : us ≠ []

theorem updateAdds {e : Event} {ys : List Event} {change : List Trie → List Trie}
    (adds : ∀ ts, Adds ys ts (change ts)) (ts : List Trie) : Adds (e :: ys) ts (updateBranch e change ts) := by
  induction ts with
  | nil =>
    refine ⟨fun xs => ?_, fun _ => ⟨⟨(adds []).some, (adds []).full trivial⟩, trivial⟩, by simp [updateBranch]⟩
    simp [updateBranch, allSequences, sequences, (adds []).sequences, eq_comm]
  | cons t rest ih =>
    cases t with
    | leaf e' =>
      refine ⟨fun xs => ?_, fun full => ⟨full.1, ih.full full.2⟩, by simp [updateBranch]⟩
      simp [updateBranch, allSequences, ih.sequences, or_assoc]
    | branch e' children =>
      by_cases same : e' = e
      · subst same
        rw [updateBranch, if_pos rfl]
        have added := adds children
        refine ⟨fun xs => ?_, fun full => ⟨⟨added.some, added.full full.1.2⟩, full.2⟩, by simp⟩
        simp only [allSequences, sequences, List.mem_append, List.mem_map, added.sequences]
        constructor
        · rintro (⟨zs, held | rfl, rfl⟩ | later)
          · exact .inl (.inl ⟨zs, held, rfl⟩)
          · exact .inr rfl
          · exact .inl (.inr later)
        · rintro ((⟨zs, held, rfl⟩ | later) | rfl)
          · exact .inl ⟨zs, .inl held, rfl⟩
          · exact .inr later
          · exact .inl ⟨ys, .inr rfl, rfl⟩
      · rw [updateBranch, if_neg same]
        refine ⟨fun xs => ?_, fun full => ⟨full.1, ih.full full.2⟩, by simp⟩
        simp [allSequences, ih.sequences, or_assoc]

theorem insertAdds (e : Event) (rest : List Event) (ts : List Trie) : Adds (e :: rest) ts (insert (e :: rest) ts) := by
  induction rest generalizing e ts with
  | nil =>
    rw [insert]
    split
    · rename_i found
      have held := leafSequence found
      refine ⟨fun xs => ?_, fun full => full, ?_⟩
      · constructor
        · exact .inl
        · rintro (there | rfl)
          · exact there
          · exact held
      · rintro rfl
        cases found
    · refine ⟨fun xs => ?_, fun full => allFullAppend full ⟨trivial, trivial⟩, by simp⟩
      simp [allSequencesAppend, allSequences, sequences]
  | cons e' rest ih =>
    rw [insert]
    exact updateAdds (ih e') ts

theorem insertedIff (sequences : List (List Event)) (ts : List Trie) (full : AllFull ts) :
    AllFull (sequences.foldl (fun children s => insert s children) ts) ∧
      ∀ xs, xs ∈ allSequences (sequences.foldl (fun children s => insert s children) ts) ↔
        xs ∈ allSequences ts ∨ xs ∈ sequences ∧ xs ≠ [] := by
  induction sequences generalizing ts with
  | nil => exact ⟨full, fun xs => by simp⟩
  | cons ys later ih =>
    rw [List.foldl_cons]
    cases ys with
    | nil =>
      obtain ⟨full', same⟩ := ih ts full
      refine ⟨full', fun xs => (same xs).trans ?_⟩
      cases xs <;> simp
    | cons e rest =>
      have added := insertAdds e rest ts
      obtain ⟨full', same⟩ := ih _ (added.full full)
      refine ⟨full', fun xs => ?_⟩
      rw [same, added.sequences, List.mem_cons, or_assoc]
      refine or_congr_right ?_
      constructor
      · rintro (rfl | ⟨member, some⟩)
        · exact ⟨.inl rfl, List.cons_ne_nil _ _⟩
        · exact ⟨.inr member, some⟩
      · rintro ⟨rfl | member, some⟩
        · exact .inl rfl
        · exact .inr ⟨member, some⟩

theorem sequencesSome (t : Trie) (full : t.Full) : ∃ xs, xs ∈ t.sequences := by
  cases t with
  | leaf e => exact ⟨[e], .head _⟩
  | branch e children =>
    cases children with
    | nil => exact absurd rfl full.1
    | cons t rest =>
      obtain ⟨xs, member⟩ := sequencesSome t full.2.1
      exact ⟨e :: xs, List.mem_map_of_mem (List.mem_append_left _ member)⟩

theorem sharedFull (sequences : List (List Event)) : AllFull (ofSequences sequences) :=
  (insertedIff sequences [] trivial).1

theorem sharedIff (sequences : List (List Event)) (xs : List Event) :
    xs ∈ allSequences (ofSequences sequences) ↔ xs ∈ sequences ∧ xs ≠ [] :=
  ((insertedIff sequences [] trivial).2 xs).trans (by simp [allSequences])

end Trie

namespace EventNode

def tails (n : EventNode) : List (List Event) := if n.isLeaf then [[]] else forestPaths n.children

theorem pathsTails (n : EventNode) : n.paths = n.tails.map (n.event?.toList ++ ·) := by
  obtain ⟨id, event, children⟩ := n
  cases children with
  | nil => simp [paths, tails, isLeaf, EventNode.children, event?]
  | cons first rest => rfl

mutual

theorem numberedPaths (next : Nat) (t : Trie) (full : t.Full) : (ofTrie next t).1.paths = t.sequences := by
  cases t with
  | leaf e => rfl
  | branch e children =>
    have below := numberedForestPaths (next + 1) children full.2
    rw [Trie.sequences, ← below]
    cases children with
    | nil => exact absurd rfl full.1
    | cons t rest => rfl

theorem numberedForestPaths (next : Nat) (ts : List Trie) (full : Trie.AllFull ts) :
    forestPaths (ofTries next ts).1 = Trie.allSequences ts := by
  cases ts with
  | nil => rfl
  | cons t rest =>
    rw [Trie.allSequences, ← numberedPaths next t full.1, ← numberedForestPaths (ofTrie next t).2 rest full.2]
    rfl

end

mutual

theorem numberedEvents (next : Nat) (t : Trie) (full : t.Full) {x : EventNode}
    (below : x ∈ (ofTrie next t).1.subtree) : ∃ e, x.event? = some e ∧ ∃ xs ∈ t.sequences, e ∈ xs := by
  cases t with
  | leaf e =>
    cases List.mem_singleton.mp below
    exact ⟨e, rfl, [e], .head _, .head _⟩
  | branch e children =>
    rcases List.mem_cons.mp below with rfl | deeper
    · obtain ⟨xs, member⟩ := Trie.sequencesSome (.branch e children) full
      obtain ⟨ys, _, rfl⟩ := List.mem_map.mp member
      exact ⟨e, rfl, _, member, .head _⟩
    · obtain ⟨e', event, xs, member, inside⟩ := numberedForestEvents (next + 1) children full.2 deeper
      exact ⟨e', event, e :: xs, List.mem_map_of_mem member, .tail _ inside⟩

theorem numberedForestEvents (next : Nat) (ts : List Trie) (full : Trie.AllFull ts) {x : EventNode}
    (below : x ∈ forest (ofTries next ts).1) : ∃ e, x.event? = some e ∧ ∃ xs ∈ Trie.allSequences ts, e ∈ xs := by
  cases ts with
  | nil => cases below
  | cons t rest =>
    rcases List.mem_append.mp below with here | later
    · obtain ⟨e, event, xs, member, inside⟩ := numberedEvents next t full.1 here
      exact ⟨e, event, xs, List.mem_append_left _ member, inside⟩
    · obtain ⟨e, event, xs, member, inside⟩ := numberedForestEvents (ofTrie next t).2 rest full.2 later
      exact ⟨e, event, xs, List.mem_append_right _ member, inside⟩

end

end EventNode

namespace EventTree

theorem leafIdsAppend (nodes more : List EventNode) : leafIds (nodes ++ more) = leafIds nodes ++ leafIds more := by
  simp [leafIds]

mutual

theorem numberedLeaves (next : Nat) (t : Trie) (full : t.Full) :
    (leafIds (EventNode.ofTrie next t).1.subtree).length = t.sequences.length := by
  cases t with
  | leaf e => rfl
  | branch e children =>
    have below := numberedForestLeaves (next + 1) children full.2
    rw [Trie.sequences, List.length_map, ← below]
    cases children with
    | nil => exact absurd rfl full.1
    | cons t rest => rfl

theorem numberedForestLeaves (next : Nat) (ts : List Trie) (full : Trie.AllFull ts) :
    (leafIds (EventNode.forest (EventNode.ofTries next ts).1)).length = (Trie.allSequences ts).length := by
  cases ts with
  | nil => rfl
  | cons t rest =>
    rw [Trie.allSequences, List.length_append, ← numberedLeaves next t full.1,
      ← numberedForestLeaves (EventNode.ofTrie next t).2 rest full.2, ← List.length_append, ← leafIdsAppend]
    rfl

end

variable (sequences : List (List Event))

theorem sharedPaths : (ofSequences sequences).paths = Trie.allSequences (Trie.ofSequences sequences) :=
  EventNode.numberedForestPaths 1 _ (Trie.sharedFull sequences)

theorem pathsIff (xs : List Event) : xs ∈ (ofSequences sequences).paths ↔ xs ∈ sequences ∧ xs ≠ [] := by
  rw [sharedPaths, Trie.sharedIff]

theorem leafCountPaths : (ofSequences sequences).leafCount = (ofSequences sequences).paths.length := by
  rw [sharedPaths, ← numberedForestLeaves 1 _ (Trie.sharedFull sequences)]
  simp [leafCount, ofSequences, EventNode.subtree, leafIds, EventNode.event?]

theorem nodeCountForest : (ofSequences sequences).nodeCount =
    (EventNode.forest (ofSequences sequences).root.children).length + 1 := by
  obtain ⟨le, ids⟩ := EventNode.forestIds 1 (Trie.ofSequences sequences)
  have length := congrArg List.length ids
  rw [List.length_map, List.length_range'] at length
  show (EventNode.ofTries 1 (Trie.ofSequences sequences)).2 =
    (EventNode.forest (EventNode.ofTries 1 (Trie.ofSequences sequences)).1).length + 1
  omega

theorem nodeEvents {x : EventNode} (below : x ∈ EventNode.forest (ofSequences sequences).root.children) :
    ∃ e, x.event? = some e ∧ ∃ xs ∈ sequences, e ∈ xs := by
  obtain ⟨e, event, xs, member, inside⟩ :=
    EventNode.numberedForestEvents 1 _ (Trie.sharedFull sequences) below
  exact ⟨e, event, xs, ((Trie.sharedIff sequences xs).mp member).1, inside⟩

theorem coveredComplete {c : Coverage} (covers : ∀ x ∈ EventNode.forest (ofSequences sequences).root.children,
    c.contains x.id = true) : c.isComplete (ofSequences sequences) = true := by
  unfold Coverage.isComplete Coverage.uncovered
  rw [beq_iff_eq, List.countP_eq_zero]
  intro id leaf
  obtain ⟨x, found, rfl⟩ := List.mem_map.mp leaf
  obtain ⟨inside, ends⟩ := List.mem_filter.mp found
  rcases List.mem_cons.mp inside with rfl | below
  · simp [EventNode.event?] at ends
  · simp [covers x below]

end EventTree

end BytecodeChecker
