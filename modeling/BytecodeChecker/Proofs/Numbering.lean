import Mathlib.Data.List.Nodup
import BytecodeChecker.Event.Tree

/-! The numbers of the nodes of an event tree: the walk that gives them out gives each of them once,
so that a node is known by its number. -/
namespace BytecodeChecker.EventNode

mutual

theorem subtreeIds (next : Nat) (t : Trie) : next ≤ (ofTrie next t).2 ∧
    (ofTrie next t).1.subtree.map id = List.range' next ((ofTrie next t).2 - next) := by
  cases t with
  | leaf e => simp [ofTrie, subtree, forest, id]
  | branch e children =>
    obtain ⟨le, same⟩ := forestIds (next + 1) children
    simp only [ofTrie, subtree, List.map_cons, same, id]
    refine ⟨by omega, ?_⟩
    rw [show (ofTries (next + 1) children).2 - next =
      ((ofTries (next + 1) children).2 - (next + 1)) + 1 by omega, List.range'_succ]

theorem forestIds (next : Nat) (ts : List Trie) : next ≤ (ofTries next ts).2 ∧
    (forest (ofTries next ts).1).map id = List.range' next ((ofTries next ts).2 - next) := by
  cases ts with
  | nil => simp [ofTries, forest]
  | cons t rest =>
    obtain ⟨le, same⟩ := subtreeIds next t
    obtain ⟨le', same'⟩ := forestIds (ofTrie next t).2 rest
    simp only [ofTries, forest, List.map_append, same, same']
    refine ⟨by omega, ?_⟩
    have first : (ofTrie next t).2 = next + 1 * ((ofTrie next t).2 - next) := by omega
    have length : (ofTries (ofTrie next t).2 rest).2 - next =
      ((ofTrie next t).2 - next) + ((ofTries (ofTrie next t).2 rest).2 - (ofTrie next t).2) := by omega
    rw [length, ← List.range'_append, ← first]

end

theorem subtreeSelf (n : EventNode) : n ∈ n.subtree := by
  cases n
  simp [subtree]

theorem forestChild {nodes : List EventNode} {n : EventNode} (member : n ∈ nodes) :
    ∀ d ∈ n.subtree, d ∈ forest nodes := by
  induction nodes with
  | nil => cases member
  | cons first rest ih =>
    intro d below
    rw [forest, List.mem_append]
    rcases List.mem_cons.mp member with rfl | later
    · exact .inl below
    · exact .inr (ih later d below)

mutual

theorem subtreeChild (n : EventNode) {d child : EventNode} (below : d ∈ n.subtree)
    (member : child ∈ d.children) : child ∈ n.subtree := by
  cases n with
  | mk k e nodes =>
    rw [subtree, List.mem_cons] at below ⊢
    rcases below with rfl | deeper
    · exact .inr (forestChild member child (subtreeSelf child))
    · exact .inr (forestDescends nodes deeper member)

theorem forestDescends (nodes : List EventNode) {d child : EventNode} (below : d ∈ forest nodes)
    (member : child ∈ d.children) : child ∈ forest nodes := by
  cases nodes with
  | nil => cases below
  | cons first rest =>
    rw [forest, List.mem_append] at below ⊢
    rcases below with here | later
    · exact .inl (subtreeChild first here member)
    · exact .inr (forestDescends rest later member)

end

end BytecodeChecker.EventNode

namespace BytecodeChecker.EventTree

theorem idsDistinct (sequences : List (List Event)) :
    ((ofSequences sequences).root.subtree.map EventNode.id).Nodup := by
  have numbered := (EventNode.forestIds 1 (Trie.ofSequences sequences)).2
  simp only [ofSequences, EventNode.subtree, List.map_cons, numbered, EventNode.id]
  refine List.nodup_cons.mpr ⟨?_, List.nodup_range'⟩
  rw [List.mem_range'_1]
  omega

theorem nodeUnique {sequences : List (List Event)} {n d : EventNode}
    (left : n ∈ (ofSequences sequences).root.subtree)
    (right : d ∈ (ofSequences sequences).root.subtree) (same : n.id = d.id) : n = d :=
  List.inj_on_of_nodup_map (idsDistinct sequences) left right same

end BytecodeChecker.EventTree
