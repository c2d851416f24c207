import BytecodeChecker.Event

/-! The event sequences that a script stands for, listed with repetitions. A script that stands for
more than a fixed number of them is refused. -/
namespace BytecodeChecker

inductive ScriptError where
  | tooManyPaths
  | empty
  deriving DecidableEq, Repr

namespace Script

def maxPaths : Nat := 100000

end Script

def ScriptError.message : ScriptError → String
  | tooManyPaths =>
    "event script denotes more than " ++ toString Script.maxPaths ++ " event sequences"
  | empty => "event script contains an empty alternatives"

namespace Script

def mergesCons {α : Type} (x : α) (xs : List α) (merges : List α → List (List α)) :
    List α → List (List α)
  | [] => [x :: xs]
  | y :: ys =>
    (merges (y :: ys)).map (x :: ·) ++ (mergesCons x xs merges ys).map (y :: ·)

def merges {α : Type} : List α → List α → List (List α)
  | [], ys => [ys]
  | x :: xs, ys => mergesCons x xs (merges xs) ys

/-- Sequences collected so far, in groups with the last one first, and how many they are. -/
structure Collected where
  count : Nat
  groups : List (List (List Event))

def Collected.add (c : Collected) (group : List (List Event)) : Except ScriptError Collected :=
  let count := c.count + group.length
  if maxPaths < count then .error .tooManyPaths else .ok ⟨count, group :: c.groups⟩

def mergeAll (heads tails : List (List Event)) : Except ScriptError (List (List Event)) := do
  let collected ← heads.foldlM
    (fun c a => tails.foldlM (fun c b => c.add (merges a b)) c) (⟨0, []⟩ : Collected)
  return collected.groups.reverse.flatten

mutual

def expand : Script → Except ScriptError (List (List Event))
  | event e => .ok [[e]]
  | sequence items => expandSequence [[]] items
  | alternatives [] => .error .empty
  | alternatives (s :: rest) => expandAlternatives [] (s :: rest)
  | interleave items => expandInterleave [[]] items

def expandSequence (heads : List (List Event)) : List Script → Except ScriptError (List (List Event))
  | [] => .ok heads
  | s :: rest => do
    let tails ← expand s
    if maxPaths < heads.length * tails.length then throw .tooManyPaths
    expandSequence (heads.flatMap fun h => tails.map (h ++ ·)) rest

def expandAlternatives (before : List (List Event)) :
    List Script → Except ScriptError (List (List Event))
  | [] => .ok before
  | s :: rest => do
    let sequences := before ++ (← expand s)
    if maxPaths < sequences.length then throw .tooManyPaths
    expandAlternatives sequences rest

def expandInterleave (heads : List (List Event)) :
    List Script → Except ScriptError (List (List Event))
  | [] => .ok heads
  | s :: rest => do expandInterleave (← mergeAll heads (← expand s)) rest

end

end Script

end BytecodeChecker
