import BytecodeChecker.Json
import BytecodeChecker.Text.Hex

/-! Writing JSON text in its most compact form. What is garbled is written as null. -/
namespace BytecodeChecker.Json

def escapeChar (c : Char) : String :=
  if c == '"' then "\\\""
  else if c == '\\' then "\\\\"
  else if c == '\n' then "\\n"
  else if c == '\r' then "\\r"
  else if c == '\t' then "\\t"
  else if c == '\x08' then "\\b"
  else if c == '\x0c' then "\\f"
  else if c.toNat < 0x20 then "\\u" ++ Text.hex 4 c.toNat
  else c.toString

def quote (s : String) : String :=
  s.foldl (fun out c => out ++ escapeChar c) "\"" ++ "\""

mutual

def write (out : String) : Json → String
  | null | garbled => out ++ "null"
  | bool b => out ++ (if b then "true" else "false")
  | int n => out ++ toString n
  | real literal => out ++ literal
  | str s => out ++ quote s
  | arr items => writeItems (out ++ "[") true items ++ "]"
  | obj members => writeMembers (out ++ "\x7b") true members ++ "\x7d"

def writeItems (out : String) (first : Bool) : List Json → String
  | [] => out
  | v :: rest => writeItems (write (if first then out else out ++ ",") v) false rest

def writeMembers (out : String) (first : Bool) : List (String × Json) → String
  | [] => out
  | (name, v) :: rest =>
    writeMembers (write ((if first then out else out ++ ",") ++ quote name ++ ":") v) false rest

end

def text (j : Json) : String := write "" j

end BytecodeChecker.Json
