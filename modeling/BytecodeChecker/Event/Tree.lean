import Std.Data.TreeSet
import BytecodeChecker.Event.Expansion

/-! Event trees. The sequences of a script are shared from the front: each of them is a path from the
root to a leaf. A sequence that is the beginning of another has a leaf of its own beside the node
where the other goes on. -/
namespace BytecodeChecker

/-- A shared set of sequences, seen from one event: the sequences end with it or go on. -/
inductive Trie where
  | leaf (e : Event)
  | branch (e : Event) (children : List Trie)

namespace Trie

def isLeafOf (e : Event) : Trie → Bool
  | leaf e' => e' = e
  | branch .. => false

def updateBranch (e : Event) (change : List Trie → List Trie) : List Trie → List Trie
  | [] => [branch e (change [])]
  | leaf e' :: rest => leaf e' :: updateBranch e change rest
  | branch e' children :: rest =>
    if e' = e then branch e' (change children) :: rest
    else branch e' children :: updateBranch e change rest

def insert : List Event → List Trie → List Trie
  | [], children => children
  | [e], children => if children.any (isLeafOf e) then children else children ++ [leaf e]
  | e :: e' :: rest, children => updateBranch e (insert (e' :: rest)) children

def ofSequences (sequences : List (List Event)) : List Trie :=
  sequences.foldl (fun children s => insert s children) []

end Trie

inductive EventNode where
  | mk (id : Nat) (event : Option Event) (children : List EventNode)
  deriving Inhabited

namespace EventNode

def id : EventNode → Nat
  | mk id _ _ => id

def event? : EventNode → Option Event
  | mk _ e _ => e

def children : EventNode → List EventNode
  | mk _ _ children => children

def isLeaf (n : EventNode) : Bool := n.children.isEmpty

def text (n : EventNode) : String :=
  match n.event? with
  | some e => e.text
  | none => "<root>"

mutual

/-- Numbers a trie in the order of a walk that visits a node before what follows it; returns the next
free number. -/
def ofTrie (next : Nat) : Trie → EventNode × Nat
  | .leaf e => (mk next (some e) [], next + 1)
  | .branch e children =>
    let (nodes, after) := ofTries (next + 1) children
    (mk next (some e) nodes, after)

def ofTries (next : Nat) : List Trie → List EventNode × Nat
  | [] => ([], next)
  | t :: rest =>
    let (node, next) := ofTrie next t
    let (nodes, after) := ofTries next rest
    (node :: nodes, after)

end

mutual

def subtree : EventNode → List EventNode
  | mk id e children => mk id e children :: forest children

def forest : List EventNode → List EventNode
  | [] => []
  | n :: rest => subtree n ++ forest rest

end

mutual

def paths : EventNode → List (List Event)
  | mk _ e [] => [e.toList]
  | mk _ e (n :: rest) => (forestPaths (n :: rest)).map (e.toList ++ ·)

def forestPaths : List EventNode → List (List Event)
  | [] => []
  | n :: rest => paths n ++ forestPaths rest

end

end EventNode

structure EventTree where
  root : EventNode
  nodeCount : Nat
  leaves : List Nat

namespace EventTree

def leafIds (nodes : List EventNode) : List Nat :=
  (nodes.filter fun n => n.isLeaf && n.event?.isSome).map EventNode.id

def ofSequences (sequences : List (List Event)) : EventTree :=
  let (children, count) := EventNode.ofTries 1 (Trie.ofSequences sequences)
  let root := EventNode.mk 0 none children
  ⟨root, count, leafIds root.subtree⟩

def ofScript (script : Script) : Except ScriptError EventTree := return ofSequences (← script.expand)

def leafCount (t : EventTree) : Nat := t.leaves.length

def paths (t : EventTree) : List (List Event) := EventNode.forestPaths t.root.children

def node? (t : EventTree) (id : Nat) : Option EventNode := t.root.subtree.find? (·.id == id)

end EventTree

structure Coverage where
  visited : Std.TreeSet Nat

namespace Coverage

def empty : Coverage := ⟨∅⟩

def visit (c : Coverage) (n : EventNode) : Coverage := ⟨c.visited.insert n.id⟩

def contains (c : Coverage) (id : Nat) : Bool := c.visited.contains id

def uncovered (c : Coverage) (t : EventTree) : Nat := t.leaves.countP fun id => !c.contains id

def isComplete (c : Coverage) (t : EventTree) : Bool := c.uncovered t == 0

end Coverage

end BytecodeChecker
