import BytecodeChecker.Json
import BytecodeChecker.Model

/-! The JSON form of models. Writing puts in every field; reading ignores members it does not know
and fills in the defaults of those that are missing. A model, a method or a handler may hold garbled
members that it does not know; an instruction, a script or a predicate is legible throughout. -/
namespace BytecodeChecker

namespace Json

mutual

def depth : Json → Nat
  | arr items => itemsDepth items + 1
  | obj members => membersDepth members + 1
  | _ => 0

def itemsDepth : List Json → Nat
  | [] => 0
  | v :: rest => max (depth v) (itemsDepth rest)

def membersDepth : List (String × Json) → Nat
  | [] => 0
  | (_, v) :: rest => max (depth v) (membersDepth rest)

end

/-- The name that a tag gives. Inside a script or predicate it may also be the place of the name in
the list of names. -/
def tagName? (inside : Bool) (names : List String) : Json → Option String
  | str s => if s ∈ names then some s else none
  | int n => if inside ∧ 0 ≤ n then names[n.toNat]? else none
  | _ => none

def strings (items : List String) : Json := arr (items.map str)

end Json

namespace Comparison

def name : Comparison → String
  | eq => "eq"
  | ne => "ne"
  | lt => "lt"
  | le => "le"
  | gt => "gt"
  | ge => "ge"

def ofName? (s : String) : Option Comparison := [eq, ne, lt, le, gt, ge].find? (·.name == s)

def toJson (c : Comparison) : Json := .str c.name

def ofJson? : Json → Option Comparison
  | .str s => ofName? s
  | .obj [(s, .null)] => ofName? s
  | _ => none

/-- Inside a predicate an empty object may stand for null. -/
def ofJsonInside? : Json → Option Comparison
  | .obj [(s, .obj [])] => ofName? s
  | j => ofJson? j

end Comparison

namespace Predicate

mutual

def toJson : Predicate → Json
  | compare field op value => .obj [("kind", .str "compare"), ("field", .str field),
      ("op", op.toJson), ("value", .int value.toInt)]
  | all items => .obj [("kind", .str "and"), ("items", .arr (listToJson items))]
  | any items => .obj [("kind", .str "or"), ("items", .arr (listToJson items))]
  | not inner => .obj [("kind", .str "not"), ("inner", toJson inner)]

def listToJson : List Predicate → List Json
  | [] => []
  | p :: rest => toJson p :: listToJson rest

end

def kinds : List String := ["compare", "and", "or", "not"]

def ofKind? (inner : Json → Option Predicate) (kind : String) (body : Json) : Option Predicate :=
  match kind with
  | "compare" => do
    let fields ← body.record? ["field", "op", "value"]
    return compare (← Json.field? "field" Json.str? fields)
      (← Json.field? "op" Comparison.ofJsonInside? fields)
      (← Json.field? "value" Json.int64? fields)
  | "and" => do
    let fields ← body.record? ["items"]
    return all (← Json.field? "items" (Json.list? inner) fields)
  | "or" => do
    let fields ← body.record? ["items"]
    return any (← Json.field? "items" (Json.list? inner) fields)
  | _ => do
    let fields ← body.record? ["inner"]
    return not (← Json.field? "inner" inner fields)

def read? : (fuel : Nat) → (inside : Bool) → Json → Option Predicate
  | 0, _, _ => none
  | fuel + 1, inside, j => do
    let (tag, body) ← j.tagged? "kind"
    ofKind? (read? fuel true) (← Json.tagName? inside kinds tag) body

def ofJson? (j : Json) : Option Predicate :=
  if j.legible then read? (j.depth + 1) false j else none

end Predicate

namespace Script

mutual

def toJson : Script → Json
  | event (.normal name args) => .obj [("kind", .str "event"), ("name", .str name),
      ("args", .arr (args.map (.int ·.toInt)))]
  | event (.check name predicate) => .obj [("kind", .str "check"), ("name", .str name),
      ("predicate", predicate.toJson)]
  | event .none => .obj [("kind", .str "none")]
  | sequence items => .obj [("kind", .str "sequence"), ("items", .arr (listToJson items))]
  | alternatives items => .obj [("kind", .str "alternatives"), ("items", .arr (listToJson items))]
  | interleave items => .obj [("kind", .str "interleave"), ("items", .arr (listToJson items))]

def listToJson : List Script → List Json
  | [] => []
  | s :: rest => toJson s :: listToJson rest

end

def kinds : List String := ["event", "check", "none", "sequence", "alternatives", "interleave"]

def ofKind? (inner : Json → Option Script) (predicate : Json → Option Predicate) (kind : String)
    (body : Json) : Option Script :=
  match kind with
  | "event" => do
    let fields ← body.record? ["name", "args"]
    return event (.normal (← Json.field? "name" Json.str? fields)
      (← Json.fieldOr? "args" (Json.list? Json.int64?) [] fields))
  | "check" => do
    let fields ← body.record? ["name", "predicate"]
    return event (.check (← Json.field? "name" Json.str? fields)
      (← Json.field? "predicate" predicate fields))
  | "none" => do
    body.noFields?
    return event .none
  | "sequence" => do
    let fields ← body.record? ["items"]
    return sequence (← Json.field? "items" (Json.list? inner) fields)
  | "alternatives" => do
    let fields ← body.record? ["items"]
    return alternatives (← Json.field? "items" (Json.list? inner) fields)
  | _ => do
    let fields ← body.record? ["items"]
    return interleave (← Json.field? "items" (Json.list? inner) fields)

def read? : (fuel : Nat) → (inside : Bool) → Json → Option Script
  | 0, _, _ => none
  | fuel + 1, inside, j => do
    let (tag, body) ← j.tagged? "kind"
    ofKind? (read? fuel true) (Predicate.read? fuel true) (← Json.tagName? inside kinds tag) body

def ofJson? (j : Json) : Option Script :=
  if j.legible then read? (j.depth + 1) false j else none

end Script

namespace Model

namespace Code

def operand : Code → List (String × Json)
  | .pushString s => [("value", .str s)]
  | .pushLong n => [("value", .int n.toInt)]
  | .load _ slot | .store _ slot => [("slot", .int slot.toNat)]
  | .branch _ t | .branchNull _ t | .goto t => [("target", .int t.toNat)]
  | .getStatic f | .putStatic f | .getField f | .putField f => [("field", .str f)]
  | .invokeStatic m => [("method", .str m)]
  | .new c => [("class", .str c)]
  | _ => []

def toJson (c : Code) : Json := .obj (("op", .str c.mnemonic) :: c.operand)

def withOperand? {α : Type} (name : String) (read : Json → Option α) (make : α → Code)
    (body : Json) : Option Code := do
  let fields ← body.record? [name]
  return make (← Json.field? name read fields)

def withTarget? (make : UInt64 → Code) : Json → Option Code := withOperand? "target" Json.uint64? make

def withSlot? (make : UInt16 → Code) : Json → Option Code := withOperand? "slot" Json.uint16? make

def withField? (make : String → Code) : Json → Option Code := withOperand? "field" Json.str? make

def plain? (c : Code) (body : Json) : Option Code := body.noFields?.map fun _ => c

def ofMnemonic? (mnemonic : String) (body : Json) : Option Code :=
  match mnemonic with
  | "nop" => plain? .nop body
  | "aconst_null" => plain? .pushNull body
  | "ldc" => withOperand? "value" Json.str? .pushString body
  | "ldc2_w" => withOperand? "value" Json.int64? .pushLong body
  | "lload" => withSlot? (.load .long) body
  | "aload" => withSlot? (.load .reference) body
  | "lstore" => withSlot? (.store .long) body
  | "astore" => withSlot? (.store .reference) body
  | "pop" => plain? .pop body
  | "dup" => plain? .dup body
  | "swap" => plain? .swap body
  | "ladd" => plain? (.arith .add) body
  | "lsub" => plain? (.arith .sub) body
  | "lmul" => plain? (.arith .mul) body
  | "ldiv" => plain? (.arith .div) body
  | "lrem" => plain? (.arith .rem) body
  | "lneg" => plain? .negate body
  | "lcmp" => plain? .compare body
  | "ifeq" => withTarget? (.branch .eq) body
  | "ifne" => withTarget? (.branch .ne) body
  | "iflt" => withTarget? (.branch .lt) body
  | "ifge" => withTarget? (.branch .ge) body
  | "ifgt" => withTarget? (.branch .gt) body
  | "ifle" => withTarget? (.branch .le) body
  | "ifnull" => withTarget? (.branchNull true) body
  | "ifnonnull" => withTarget? (.branchNull false) body
  | "goto" => withTarget? .goto body
  | "lreturn" => plain? (.ret (some .long)) body
  | "areturn" => plain? (.ret (some .reference)) body
  | "return" => plain? (.ret none) body
  | "getstatic" => withField? .getStatic body
  | "putstatic" => withField? .putStatic body
  | "getfield" => withField? .getField body
  | "putfield" => withField? .putField body
  | "invokestatic" => withOperand? "method" Json.str? .invokeStatic body
  | "new" => withOperand? "class" Json.str? .new body
  | "athrow" => plain? .throw body
  | "monitorenter" => plain? .monitorEnter body
  | "monitorexit" => plain? .monitorExit body
  | _ => none

def read? (j : Json) : Option Code := do
  let (tag, body) ← j.tagged? "op"
  ofMnemonic? (← tag.str?) body

def ofJson? (j : Json) : Option Code := if j.legible then read? j else none

end Code

def handlerToJson (h : Handler UInt64) : Json :=
  .obj [("start", .int h.start.toNat), ("end", .int h.stop.toNat), ("handler", .int h.target.toNat),
    ("class", .str h.className)]

def handlerOfJson? (j : Json) : Option (Handler UInt64) := do
  let fields ← j.record? ["start", "end", "handler", "class"]
  return {
    start := ← Json.field? "start" Json.uint64? fields
    stop := ← Json.field? "end" Json.uint64? fields
    target := ← Json.field? "handler" Json.uint64? fields
    className := ← Json.fieldOr? "class" Json.str? Handler.anyClass fields }

def Method.toJson (m : Method) : Json :=
  .obj [("signature", .str m.signature), ("native", .bool m.native),
    ("max_locals", .int m.maxLocals.toNat), ("code", .arr (m.code.map Code.toJson)),
    ("handlers", .arr (m.handlers.map handlerToJson))]

def Method.ofJson? (j : Json) : Option Method := do
  let fields ← j.record? ["signature", "native", "max_locals", "code", "handlers"]
  return {
    signature := ← Json.field? "signature" Json.str? fields
    native := ← Json.fieldOr? "native" Json.bool? false fields
    maxLocals := ← Json.fieldOr? "max_locals" Json.uint16? 0 fields
    code := ← Json.fieldOr? "code" (Json.list? Code.ofJson?) [] fields
    handlers := ← Json.fieldOr? "handlers" (Json.list? handlerOfJson?) [] fields }

def eventsOfJson? : Json → Option (Option Script)
  | .null => some none
  | j => (Script.ofJson? j).map some

def actionsOfJson? (j : Json) : Option (NameMap String) := do
  let members ← j.obj?
  let bindings ← members.mapM fun (event, signature) => signature.str?.map (event, ·)
  return NameMap.ofList bindings

def toJson (m : Model) : Json :=
  .obj [("name", .str m.name), ("entry", .str m.entry), ("threads", .strings m.threads),
    ("methods", .arr (m.methods.map Method.toJson)),
    ("events", match m.events with | none => .null | some s => s.toJson),
    ("actions", .obj (m.actions.entries.map fun (event, signature) => (event, .str signature)))]

def ofJson? (j : Json) : Option Model := do
  let fields ← j.record? ["name", "entry", "threads", "methods", "events", "actions"]
  return {
    name := ← Json.field? "name" Json.str? fields
    entry := ← Json.field? "entry" Json.str? fields
    threads := ← Json.fieldOr? "threads" (Json.list? Json.str?) [] fields
    methods := ← Json.field? "methods" (Json.list? Method.ofJson?) fields
    events := ← Json.fieldOr? "events" eventsOfJson? none fields
    actions := ← Json.fieldOr? "actions" actionsOfJson? NameMap.empty fields }

end Model

end BytecodeChecker
