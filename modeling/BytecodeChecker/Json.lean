/-! JSON values. An integer that fits in 64 bits, signed or unsigned, is an `int`; every other number
is a `real`, which keeps the text it was written with. The members of an object stand in the order
in which they were written, repeated names included. What is spelled as a value and yet stands for
none is `garbled`: it can be skipped and not read. -/
namespace BytecodeChecker

inductive Json where
  | null
  | bool (b : Bool)
  | int (n : Int)
  | real (literal : String)
  | str (s : String)
  | arr (items : List Json)
  | obj (members : List (String × Json))
  | garbled
  deriving Inhabited

namespace Json

mutual

def legible : Json → Bool
  | arr items => itemsLegible items
  | obj members => membersLegible members
  | garbled => false
  | _ => true

def itemsLegible : List Json → Bool
  | [] => true
  | v :: rest => legible v && itemsLegible rest

def membersLegible : List (String × Json) → Bool
  | [] => true
  | (_, v) :: rest => legible v && membersLegible rest

end

def bool? : Json → Option Bool
  | bool b => some b
  | _ => none

def str? : Json → Option String
  | str s => some s
  | _ => none

def arr? : Json → Option (List Json)
  | arr items => some items
  | _ => none

def obj? : Json → Option (List (String × Json))
  | obj members => some members
  | _ => none

def int? : Json → Option Int
  | int n => some n
  | _ => none

def natBelow? (bound : Nat) : Json → Option Nat
  | int n => if 0 ≤ n ∧ n.toNat < bound then some n.toNat else none
  | _ => none

def uint16? (j : Json) : Option UInt16 := (j.natBelow? UInt16.size).map UInt16.ofNat

def uint64? (j : Json) : Option UInt64 := (j.natBelow? UInt64.size).map UInt64.ofNat

def int64? : Json → Option Int64
  | int n => if Int64.minValue.toInt ≤ n ∧ n ≤ Int64.maxValue.toInt then some (Int64.ofInt n) else none
  | _ => none

def list? {α : Type} (item : Json → Option α) (j : Json) : Option (List α) :=
  j.arr?.bind (·.mapM item)

def member? (name : String) : List (String × Json) → Option Json
  | [] => none
  | (n, v) :: rest => if n = name then some v else member? name rest

/-- The fields of a record. As an object it may have other members too, but each field once; as an
array it lists the fields in order, and those at the end may be missing. -/
def record? (fields : List String) : Json → Option (List (String × Json))
  | obj members =>
    if ((members.map (·.1)).filter (fields.contains ·)).Nodup then some members else none
  | arr items => if items.length ≤ fields.length then some (fields.zip items) else none
  | _ => none

/-- The tag of a tagged value and what remains: an object has the tag once, among other members, and
an array has it first. -/
def tagged? (tag : String) : Json → Option (Json × Json)
  | obj members =>
    match members.filter (·.1 == tag) with
    | [(_, kind)] => some (kind, obj (members.filter (·.1 != tag)))
    | _ => none
  | arr (kind :: rest) => some (kind, arr rest)
  | _ => none

def noFields? : Json → Option Unit
  | obj _ => some ()
  | arr [] => some ()
  | _ => none

def field? {α : Type} (name : String) (read : Json → Option α) (fields : List (String × Json)) :
    Option α :=
  (member? name fields).bind read

def fieldOr? {α : Type} (name : String) (read : Json → Option α) (default : α)
    (fields : List (String × Json)) : Option α :=
  match member? name fields with
  | none => some default
  | some j => read j

end Json

end BytecodeChecker
