import BytecodeChecker.Value

/-! Boolean conditions on static fields. A field that was never written counts as zero, and a
comparison with a field that holds no integer is false. -/
namespace BytecodeChecker

inductive Comparison where
  | eq | ne | lt | le | gt | ge
  deriving DecidableEq, Repr

namespace Comparison

def holds : Comparison → Int64 → Int64 → Bool
  | eq, a, b => a == b
  | ne, a, b => a != b
  | lt, a, b => a < b
  | le, a, b => a ≤ b
  | gt, a, b => b < a
  | ge, a, b => b ≤ a

def symbol : Comparison → String
  | eq => "=="
  | ne => "!="
  | lt => "<"
  | le => "<="
  | gt => ">"
  | ge => ">="

end Comparison

inductive Predicate where
  | compare (field : String) (op : Comparison) (value : Int64)
  | all (items : List Predicate)
  | any (items : List Predicate)
  | not (inner : Predicate)
  deriving Repr, Inhabited

namespace Predicate

mutual

def decEq : (p q : Predicate) → Decidable (p = q)
  | compare f o v, compare f' o' v' =>
    if h : f = f' ∧ o = o' ∧ v = v' then isTrue (by simp [h]) else isFalse (by simp_all)
  | all ps, all qs =>
    match decEqList ps qs with
    | isTrue h => isTrue (by rw [h])
    | isFalse h => isFalse (by simpa using h)
  | any ps, any qs =>
    match decEqList ps qs with
    | isTrue h => isTrue (by rw [h])
    | isFalse h => isFalse (by simpa using h)
  | not p, not q =>
    match decEq p q with
    | isTrue h => isTrue (by rw [h])
    | isFalse h => isFalse (by simpa using h)
  | compare .., all _ => isFalse (by simp)
  | compare .., any _ => isFalse (by simp)
  | compare .., not _ => isFalse (by simp)
  | all _, compare .. => isFalse (by simp)
  | all _, any _ => isFalse (by simp)
  | all _, not _ => isFalse (by simp)
  | any _, compare .. => isFalse (by simp)
  | any _, all _ => isFalse (by simp)
  | any _, not _ => isFalse (by simp)
  | not _, compare .. => isFalse (by simp)
  | not _, all _ => isFalse (by simp)
  | not _, any _ => isFalse (by simp)

def decEqList : (ps qs : List Predicate) → Decidable (ps = qs)
  | [], [] => isTrue rfl
  | [], _ :: _ => isFalse (by simp)
  | _ :: _, [] => isFalse (by simp)
  | p :: ps, q :: qs =>
    match decEq p q, decEqList ps qs with
    | isTrue h, isTrue t => isTrue (by rw [h, t])
    | isFalse h, _ => isFalse (by simp [h])
    | _, isFalse t => isFalse (by simp [t])

end

instance : DecidableEq Predicate := decEq

mutual

def holds (statics : String → Option Value) : Predicate → Bool
  | compare field op value =>
    match statics field with
    | none => op.holds 0 value
    | some (.int n) => op.holds n value
    | some _ => false
  | all items => allHold statics items
  | any items => anyHolds statics items
  | not inner => !holds statics inner

def allHold (statics : String → Option Value) : List Predicate → Bool
  | [] => true
  | p :: rest => holds statics p && allHold statics rest

def anyHolds (statics : String → Option Value) : List Predicate → Bool
  | [] => false
  | p :: rest => holds statics p || anyHolds statics rest

end

mutual

def text : Predicate → String
  | compare field op value => field ++ " " ++ op.symbol ++ " " ++ toString value.toInt
  | all items => "(" ++ " and ".intercalate (texts items) ++ ")"
  | any items => "(" ++ " or ".intercalate (texts items) ++ ")"
  | not inner => "not " ++ text inner

def texts : List Predicate → List String
  | [] => []
  | p :: rest => text p :: texts rest

end

theorem allHoldAll (statics : String → Option Value) (items : List Predicate) :
    allHold statics items = items.all (holds statics) := by
  induction items with
  | nil => rfl
  | cons p rest ih => simp [allHold, ih]

theorem anyHoldsAny (statics : String → Option Value) (items : List Predicate) :
    anyHolds statics items = items.any (holds statics) := by
  induction items with
  | nil => rfl
  | cons p rest ih => simp [anyHolds, ih]

end Predicate

end BytecodeChecker
