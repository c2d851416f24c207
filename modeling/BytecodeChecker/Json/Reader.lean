import BytecodeChecker.Json.Number

/-! Reading JSON text. Characters are grouped into tokens, and tokens into a value, each by a machine
that looks at one character or token at a time. The whole text has to be one value. A string with
half a surrogate pair is garbled, and so are an object with such a name, a number out of range, and
an array or object inside 127 others. -/
namespace BytecodeChecker.Json

inductive Token where
  | beginArray | endArray | beginObject | endObject | comma | colon
  | word (value : Json)
  | text (content : Option String)

inductive Escape where
  | no
  | started
  | unicode (digits : Nat) (unit : Nat)

inductive Scan where
  | between
  | word (reversed : List Char)
  | text (reversed : List Nat) (escape : Escape)

def isBlank (c : Char) : Bool := c == ' ' || c == '\n' || c == '\t' || c == '\r'

def isWordChar (c : Char) : Bool := c.isAlphanum || c == '+' || c == '-' || c == '.'

def word? (cs : List Char) : Option Json :=
  if cs = "null".toList then some null
  else if cs = "true".toList then some (bool true)
  else if cs = "false".toList then some (bool false)
  else number? cs

def hexDigit? (c : Char) : Option Nat :=
  if c.isDigit then some (digitValue c)
  else if 'a' ≤ c && c ≤ 'f' then some (c.toNat - 'a'.toNat + 10)
  else if 'A' ≤ c && c ≤ 'F' then some (c.toNat - 'A'.toNat + 10)
  else none

def escaped? : Char → Option Char
  | '"' => some '"'
  | '\\' => some '\\'
  | '/' => some '/'
  | 'b' => some '\x08'
  | 'f' => some '\x0c'
  | 'n' => some '\n'
  | 'r' => some '\r'
  | 't' => some '\t'
  | _ => none

def isHigh (unit : Nat) : Bool := 0xD800 ≤ unit && unit < 0xDC00

def isLow (unit : Nat) : Bool := 0xDC00 ≤ unit && unit < 0xE000

def pairChar (high low : Nat) : Char :=
  Char.ofNat (0x10000 + (high - 0xD800) * 0x400 + (low - 0xDC00))

/-- The characters of a string whose numbers are given last one first, in front of those already
known. No half of a surrogate pair may stand alone. -/
def chars? : List Nat → List Char → Option (List Char)
  | [], known => some known
  | unit :: before, known =>
    if isHigh unit then none
    else if isLow unit then
      match before with
      | high :: before =>
        if isHigh high then chars? before (pairChar high unit :: known) else none
      | [] => none
    else chars? before (Char.ofNat unit :: known)

def scanBetween? (c : Char) : Option (Scan × List Token) :=
  if isBlank c then some (.between, [])
  else if c == '"' then some (.text [] .no, [])
  else if c == '[' then some (.between, [.beginArray])
  else if c == ']' then some (.between, [.endArray])
  else if c == '\x7b' then some (.between, [.beginObject])
  else if c == '\x7d' then some (.between, [.endObject])
  else if c == ',' then some (.between, [.comma])
  else if c == ':' then some (.between, [.colon])
  else if isWordChar c then some (.word [c], [])
  else none

def scan? : Scan → Char → Option (Scan × List Token)
  | .between, c => scanBetween? c
  | .word reversed, c =>
    if isWordChar c then some (.word (c :: reversed), []) else do
      let value ← word? reversed.reverse
      let (place, tokens) ← scanBetween? c
      some (place, tokens ++ [.word value])
  | .text reversed .no, c =>
    if c == '\\' then some (.text reversed .started, [])
    else if c.toNat < 0x20 then none
    else if c == '"' then some (.between, [.text ((chars? reversed []).map String.ofList)])
    else some (.text (c.toNat :: reversed) .no, [])
  | .text reversed .started, c =>
    if c == 'u' then some (.text reversed (.unicode 0 0), [])
    else (escaped? c).map fun e => (.text (e.toNat :: reversed) .no, [])
  | .text reversed (.unicode digits unit), c => do
    let unit := 16 * unit + (← hexDigit? c)
    if digits < 3 then some (.text reversed (.unicode (digits + 1) unit), [])
    else some (.text (unit :: reversed) .no, [])

def tokens? (cs : List Char) : Option (List Token) := do
  let (place, tokens) ← cs.foldlM
    (fun (state : Scan × List Token) c => (scan? state.1 c).map fun (p, ts) => (p, ts ++ state.2))
    (.between, [])
  match place with
  | .between => some tokens.reverse
  | .word reversed => (word? reversed.reverse).map fun v => (.word v :: tokens).reverse
  | .text .. => none

inductive Pending where
  | items (reversed : List Json)
  | members (reversed : List (Option String × Json)) (name : Option String)

inductive Expect where
  | value (mayClose : Bool)
  | name (mayClose : Bool)
  | colon
  | more
  | done (value : Json)

def maxDepth : Nat := 127

def place (v : Json) : List Pending → List Pending × Expect
  | [] => ([], .done v)
  | .items reversed :: outer => (.items (v :: reversed) :: outer, .more)
  | .members reversed name :: outer => (.members ((name, v) :: reversed) name :: outer, .more)

/-- A complete array or object takes its place, garbled when it is inside too many others. -/
def placeInner (v : Json) (outer : List Pending) : List Pending × Expect :=
  place (if (outer.drop (maxDepth - 1)).isEmpty then v else garbled) outer

def object (reversed : List (Option String × Json)) : Json :=
  match reversed.reverse.mapM fun (name, v) => name.map (·, v) with
  | some members => obj members
  | none => garbled

def grow? : List Pending × Expect → Token → Option (List Pending × Expect)
  | (stack, .value _), .word v => some (place v stack)
  | (stack, .value _), .text content => some (place (content.elim garbled str) stack)
  | (stack, .value _), .beginArray => some (.items [] :: stack, .value true)
  | (stack, .value _), .beginObject => some (.members [] none :: stack, .name true)
  | (.items [] :: outer, .value true), .endArray => some (placeInner (arr []) outer)
  | (.members reversed _ :: outer, .name _), .text name =>
    some (.members reversed name :: outer, .colon)
  | (.members _ _ :: outer, .name true), .endObject => some (placeInner (obj []) outer)
  | (stack, .colon), .colon => some (stack, .value false)
  | (.items reversed :: outer, .more), .comma => some (.items reversed :: outer, .value false)
  | (.items reversed :: outer, .more), .endArray => some (placeInner (arr reversed.reverse) outer)
  | (.members reversed name :: outer, .more), .comma =>
    some (.members reversed name :: outer, .name false)
  | (.members reversed _ :: outer, .more), .endObject => some (placeInner (object reversed) outer)
  | _, _ => none

def parse? (s : String) : Option Json := do
  let tokens ← tokens? s.toList
  match ← tokens.foldlM grow? ([], .value false) with
  | ([], .done v) => some v
  | _ => none

end BytecodeChecker.Json
