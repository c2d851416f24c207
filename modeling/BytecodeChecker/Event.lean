import BytecodeChecker.Predicate

/-! Environment events and the scripts that say which sequences of them may happen. -/
namespace BytecodeChecker

inductive Event where
  | normal (name : String) (args : List Int64)
  | check (name : String) (predicate : Predicate)
  | none
  deriving DecidableEq, Repr

namespace Event

def name : Event → String
  | normal name _ => name
  | check name _ => name
  | none => "none"

def args : Event → List Int64
  | normal _ args => args
  | _ => []

def values (e : Event) : List Value := e.args.map .int

def isCheck : Event → Bool
  | check .. => true
  | _ => false

def text : Event → String
  | normal name [] => name
  | normal name args => name ++ "(" ++ ", ".intercalate (args.map (toString ·.toInt)) ++ ")"
  | check name predicate => "check " ++ name ++ " [" ++ predicate.text ++ "]"
  | none => "none"

end Event

/-- A script is one event, or its items one after the other, or one of its items, or its items in
any order-preserving merge. -/
inductive Script where
  | event (e : Event)
  | sequence (items : List Script)
  | alternatives (items : List Script)
  | interleave (items : List Script)
  deriving Repr, Inhabited

namespace Script

mutual

def decEq : (s t : Script) → Decidable (s = t)
  | event e, event e' =>
    if h : e = e' then isTrue (by rw [h]) else isFalse (by simpa using h)
  | sequence ss, sequence ts =>
    match decEqList ss ts with
    | isTrue h => isTrue (by rw [h])
    | isFalse h => isFalse (by simpa using h)
  | alternatives ss, alternatives ts =>
    match decEqList ss ts with
    | isTrue h => isTrue (by rw [h])
    | isFalse h => isFalse (by simpa using h)
  | interleave ss, interleave ts =>
    match decEqList ss ts with
    | isTrue h => isTrue (by rw [h])
    | isFalse h => isFalse (by simpa using h)
  | event _, sequence _ => isFalse (by simp)
  | event _, alternatives _ => isFalse (by simp)
  | event _, interleave _ => isFalse (by simp)
  | sequence _, event _ => isFalse (by simp)
  | sequence _, alternatives _ => isFalse (by simp)
  | sequence _, interleave _ => isFalse (by simp)
  | alternatives _, event _ => isFalse (by simp)
  | alternatives _, sequence _ => isFalse (by simp)
  | alternatives _, interleave _ => isFalse (by simp)
  | interleave _, event _ => isFalse (by simp)
  | interleave _, sequence _ => isFalse (by simp)
  | interleave _, alternatives _ => isFalse (by simp)

def decEqList : (ss ts : List Script) → Decidable (ss = ts)
  | [], [] => isTrue rfl
  | [], _ :: _ => isFalse (by simp)
  | _ :: _, [] => isFalse (by simp)
  | s :: ss, t :: ts =>
    match decEq s t, decEqList ss ts with
    | isTrue h, isTrue k => isTrue (by rw [h, k])
    | isFalse h, _ => isFalse (by simp [h])
    | _, isFalse k => isFalse (by simp [k])

end

instance : DecidableEq Script := decEq

end Script

end BytecodeChecker
