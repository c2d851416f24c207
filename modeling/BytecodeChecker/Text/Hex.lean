/-! Hexadecimal numerals. -/
namespace BytecodeChecker.Text

def hex (width n : Nat) : String :=
  let digits := Nat.toDigits 16 n
  String.ofList (List.replicate (width - digits.length) '0' ++ digits)

end BytecodeChecker.Text
