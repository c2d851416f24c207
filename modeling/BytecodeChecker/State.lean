import BytecodeChecker.Machine
import BytecodeChecker.Text.Hex

/-! System states: a machine, the thread that runs, and how many decisions led here. -/
namespace BytecodeChecker

structure State extends Machine where
  current : ThreadId
  depth : Nat
  deriving DecidableEq, Repr

structure Fingerprint where
  value : UInt64
  deriving DecidableEq, Repr

def Fingerprint.text (f : Fingerprint) : String := Text.hex 16 f.value.toNat

namespace State

def spawn (p : Program) (name : Method → String) (m : Machine) (id : MethodId) : Machine :=
  match p.method? id with
  | some method => (m.spawn (name method) id method []).1
  | none => m

def initial (p : Program) : State :=
  let main := spawn p (fun _ => "main") Machine.empty p.entry
  { toMachine := p.threads.foldl (spawn p (·.signature.name)) main, current := ⟨0⟩, depth := 0 }

/-- What the future of a state depends on, with the place in the event tree that was reached. -/
structure Key where
  position : Nat
  machine : Machine
  current : ThreadId
  deriving DecidableEq, Repr, Hashable

def key (s : State) (position : Nat) : Key := ⟨position, s.toMachine, s.current⟩

def fingerprint (s : State) : Fingerprint := ⟨hash (s.key 0)⟩

def statusText : Status → String
  | .runnable => "runnable"
  | .blocked o => "blocked on " ++ o.text
  | .terminated => "terminated"

def locationText (p : Program) (stack : List Activation) : String :=
  match stack with
  | [] => ""
  | .native call :: _ => " in native " ++ p.symbol call.method
  | .bytecode f _ :: _ => " at " ++ p.symbol f.method ++ ":" ++ toString f.pc

def threadLine (p : Program) (s : State) (index : Nat) (thread : GuestThread) : String :=
  let t : ThreadId := ⟨index⟩
  (if t = s.current then "*" else " ") ++ t.text ++ " (" ++ thread.name ++ ") "
    ++ statusText thread.status ++ locationText p thread.stack ++ "\n"

def render (p : Program) (s : State) : String :=
  String.join (s.threads.toList.zipIdx.map fun (thread, i) => threadLine p s i thread)
    ++ String.join (s.heap.statics.entries.map fun (name, v) =>
      "  " ++ name ++ " = " ++ v.text ++ "\n")

def staticInt? (s : State) (field : String) : Option Int64 :=
  (s.heap.static? field).bind Value.int?

end State

end BytecodeChecker
