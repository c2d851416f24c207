import BytecodeChecker.Choice
import BytecodeChecker.State

/-! Violations of properties, with the decisions that lead to them. -/
namespace BytecodeChecker

inductive Failure where
  | uncaughtException (thread : ThreadId) (className : String) (message : Option String)
  | deadlock (blocked : List ThreadId)
  | checkFailed (check : String) (predicate : String)
  | property (name : String) (message : String)
  deriving DecidableEq, Repr

namespace Failure

def label : Failure → String
  | uncaughtException .. => "uncaught exception"
  | deadlock _ => "deadlock"
  | checkFailed .. => "check failed"
  | property .. => "property violated"

def text : Failure → String
  | uncaughtException t className message =>
    "uncaught " ++ className ++ " in " ++ t.text
      ++ (match message with | some m => ": " ++ m | none => "")
  | deadlock blocked =>
    "deadlock: " ++ ", ".intercalate (blocked.map ThreadId.text) ++ " blocked"
  | checkFailed check predicate => "check '" ++ check ++ "' failed: " ++ predicate
  | property name message => name ++ ": " ++ message

end Failure

structure TraceStep where
  generator : String
  kind : ChoiceKind
  index : Nat
  choice : String
  thread : ThreadId
  state : State
  deriving DecidableEq, Repr

structure Trace where
  steps : List TraceStep
  final : State
  deriving DecidableEq, Repr

namespace Trace

def choices (t : Trace) : List Nat := t.steps.map (·.index)

def stepLine (number : Nat) (s : TraceStep) : String :=
  "#" ++ toString number ++ " " ++ s.kind.text ++ " " ++ s.generator ++ ": choice "
    ++ toString s.index ++ " = " ++ s.choice ++ ", running " ++ s.thread.text ++ "\n"

def render (p : Program) (t : Trace) : String :=
  String.join (t.steps.zipIdx.map fun (s, i) => stepLine i s) ++ "final state:\n"
    ++ t.final.render p

end Trace

structure Violation where
  failure : Failure
  trace : Trace
  deriving DecidableEq, Repr

def Violation.text (v : Violation) : String :=
  v.failure.text ++ " (after " ++ toString v.trace.steps.length ++ " choices)"

end BytecodeChecker
