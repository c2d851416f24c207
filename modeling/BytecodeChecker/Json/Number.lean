import BytecodeChecker.Json

/-! Numbers in JSON text. A number is a whole part, a fraction and a power of ten. It is read as a
significand of 64 bits times a power of ten, each rounded to 53 binary digits; when their product is
beyond all numbers of that precision whose exponent has 11 bits, the number is garbled. -/
namespace BytecodeChecker.Json

def digitValue (c : Char) : Nat := c.toNat - '0'.toNat

structure Numeral where
  negative : Bool
  whole : List Char
  fraction : List Char
  power : Option Int

namespace Numeral

def digits? (cs : List Char) : Option Nat :=
  if !cs.isEmpty && cs.all Char.isDigit then
    some (cs.foldl (fun n c => 10 * n + digitValue c) 0)
  else none

def power? : List Char → Option (Option Int)
  | [] => some none
  | e :: rest =>
    if e == 'e' || e == 'E' then
      match rest with
      | '-' :: digits => (digits? digits).map fun n => some (-(n : Int))
      | '+' :: digits => (digits? digits).map fun n => some (n : Int)
      | digits => (digits? digits).map fun n => some (n : Int)
    else none

def fraction? : List Char → Option (List Char × List Char)
  | '.' :: rest =>
    let digits := rest.takeWhile Char.isDigit
    if digits.isEmpty then none else some (digits, rest.dropWhile Char.isDigit)
  | cs => some ([], cs)

def ofChars? (cs : List Char) : Option Numeral := do
  let negative := cs.head? == some '-'
  let unsigned := if negative then cs.drop 1 else cs
  let whole := unsigned.takeWhile Char.isDigit
  if whole.isEmpty || (whole.head? == some '0' && whole.length != 1) then none
  else
    let (fraction, after) ← fraction? (unsigned.dropWhile Char.isDigit)
    return { negative, whole, fraction, power := ← power? after }

def leading (value taken : Nat) : List Char → Nat × Nat
  | [] => (value, taken)
  | c :: rest =>
    let longer := 10 * value + digitValue c
    if longer < UInt64.size then leading longer (taken + 1) rest else (value, taken)

/-- A natural number to 53 binary digits; a tie goes to the even neighbour. -/
def nearest (n : Nat) : Nat :=
  let spare := n.log2 + 1 - 53
  let kept := n >>> spare
  let rest := 2 * (n - kept <<< spare)
  let unit := 1 <<< spare
  let up := unit < rest || (unit == rest && kept % 2 == 1)
  (if up then kept + 1 else kept) <<< spare

def isExcessive (n : Numeral) : Bool :=
  let (significand, taken) := leading 0 0 (n.whole ++ n.fraction)
  let power := n.whole.length - taken + n.power.getD 0
  0 < significand && 0 ≤ power &&
    (308 < power ||
      1 <<< 1024 ≤ nearest (nearest significand * nearest (Nat.pow 10 power.toNat)))

/-- The integer that the number is, when it has neither fraction nor exponent, fits in 64 bits and is
not a negative zero. -/
def int? (n : Numeral) : Option Int :=
  let (value, taken) := leading 0 0 n.whole
  if !n.fraction.isEmpty || n.power.isSome || taken != n.whole.length then none
  else if !n.negative then some value
  else if 0 < value && value ≤ 0x8000000000000000 then some (-(value : Int))
  else none

end Numeral

def number? (cs : List Char) : Option Json :=
  (Numeral.ofChars? cs).map fun n =>
    match n.int? with
    | some i => int i
    | none => if n.isExcessive then garbled else real (String.ofList cs)

end BytecodeChecker.Json
