import BytecodeChecker.NameMap
import BytecodeChecker.Value

/-! The heap: numbered objects with fields and a monitor each, and the static fields. Objects are
never removed. -/
namespace BytecodeChecker

structure ThreadId where
  index : Nat
  deriving DecidableEq, Repr, Hashable, Inhabited

def ThreadId.text (t : ThreadId) : String := "T" ++ toString t.index

structure Monitor where
  owner : Option ThreadId
  count : Nat
  deriving DecidableEq, Repr, Hashable

def Monitor.free : Monitor := ⟨none, 0⟩

structure HeapObject where
  className : String
  fields : NameMap Value
  monitor : Monitor
  deriving DecidableEq, Repr, Hashable

structure Heap where
  objects : Array HeapObject
  statics : NameMap Value
  deriving DecidableEq, Repr, Hashable

inductive Heap.Entry where
  | acquired (monitor : Monitor)
  | contended (owner : ThreadId)
  deriving DecidableEq, Repr

namespace Heap

def empty : Heap := ⟨#[], NameMap.empty⟩

def size (h : Heap) : Nat := h.objects.size

def object? (h : Heap) (o : ObjectId) : Option HeapObject := h.objects[o.index]?

def modifyObject (h : Heap) (o : ObjectId) (change : HeapObject → HeapObject) : Heap :=
  { h with objects := h.objects.modify o.index change }

def allocate (h : Heap) (className : String) : Heap × ObjectId :=
  let o : ObjectId := ⟨h.size⟩
  ({ h with objects := h.objects.push ⟨className, NameMap.empty, .free⟩ }, o)

def field? (h : Heap) (o : ObjectId) (name : String) : Option Value :=
  (h.object? o).bind (·.fields.get? name)

def setField (h : Heap) (o : ObjectId) (name : String) (v : Value) : Heap :=
  h.modifyObject o fun object => { object with fields := object.fields.insert name v }

def static? (h : Heap) (name : String) : Option Value := h.statics.get? name

def setStatic (h : Heap) (name : String) (v : Value) : Heap :=
  { h with statics := h.statics.insert name v }

def setMonitor (h : Heap) (o : ObjectId) (monitor : Monitor) : Heap :=
  h.modifyObject o fun object => { object with monitor }

def entry? (h : Heap) (o : ObjectId) (t : ThreadId) : Option Entry :=
  (h.object? o).map fun object =>
    match object.monitor with
    | ⟨none, count⟩ => .acquired ⟨some t, count + 1⟩
    | ⟨some owner, count⟩ =>
      if owner = t then .acquired ⟨some t, count + 1⟩ else .contended owner

def afterExit? (h : Heap) (o : ObjectId) (t : ThreadId) : Option Monitor :=
  match h.object? o with
  | none => none
  | some object =>
    if object.monitor.owner = some t then
      let count := object.monitor.count - 1
      some (if count = 0 then ⟨none, count⟩ else ⟨some t, count⟩)
    else none

def objectText (index : Nat) (object : HeapObject) : String :=
  let fields := object.fields.entries.map fun (name, v) => name ++ ": " ++ v.text
  let inside := if fields.isEmpty then " " else " " ++ ", ".intercalate fields ++ " "
  "  " ++ (ObjectId.mk index).text ++ " " ++ object.className ++ " \x7b" ++ inside ++ "\x7d\n"

def text (h : Heap) : String :=
  String.join (h.statics.entries.map fun (name, v) => "  static " ++ name ++ " = " ++ v.text ++ "\n")
    ++ String.join (h.objects.toList.zipIdx.map fun (object, i) => objectText i object)

end Heap

end BytecodeChecker
