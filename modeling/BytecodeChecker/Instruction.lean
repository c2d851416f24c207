import BytecodeChecker.Value

/-! Stack instructions. The type is shared by models, where branch targets, fields and callees are
written as the author wrote them, and by programs, where they are resolved. -/
namespace BytecodeChecker

inductive Cond where
  | eq | ne | lt | ge | gt | le
  deriving DecidableEq, Repr

namespace Cond

def all : List Cond := [eq, ne, lt, ge, gt, le]

def holds : Cond → Int64 → Bool
  | eq, n => n == 0
  | ne, n => n != 0
  | lt, n => n < 0
  | ge, n => 0 ≤ n
  | gt, n => 0 < n
  | le, n => n ≤ 0

end Cond

inductive Kind where
  | long | reference
  deriving DecidableEq, Repr

inductive Arith where
  | add | sub | mul | div | rem
  deriving DecidableEq, Repr

/-- One instruction. `branchNull true` jumps on the null reference and `branchNull false` on any
other one; `ret none` returns no value. -/
inductive Instruction (Label Field Callee : Type) where
  | nop
  | pushNull
  | pushString (text : String)
  | pushLong (n : Int64)
  | load (kind : Kind) (slot : UInt16)
  | store (kind : Kind) (slot : UInt16)
  | pop
  | dup
  | swap
  | arith (op : Arith)
  | negate
  | compare
  | branch (cond : Cond) (target : Label)
  | branchNull (onNull : Bool) (target : Label)
  | goto (target : Label)
  | ret (kind : Option Kind)
  | getStatic (field : Field)
  | putStatic (field : Field)
  | getField (field : Field)
  | putField (field : Field)
  | invokeStatic (callee : Callee)
  | new (className : String)
  | throw
  | monitorEnter
  | monitorExit
  deriving DecidableEq, Repr

namespace Instruction

variable {Label Field Callee : Type}

def mnemonic : Instruction Label Field Callee → String
  | nop => "nop"
  | pushNull => "aconst_null"
  | pushString _ => "ldc"
  | pushLong _ => "ldc2_w"
  | load .long _ => "lload"
  | load .reference _ => "aload"
  | store .long _ => "lstore"
  | store .reference _ => "astore"
  | pop => "pop"
  | dup => "dup"
  | swap => "swap"
  | arith .add => "ladd"
  | arith .sub => "lsub"
  | arith .mul => "lmul"
  | arith .div => "ldiv"
  | arith .rem => "lrem"
  | negate => "lneg"
  | compare => "lcmp"
  | branch .eq _ => "ifeq"
  | branch .ne _ => "ifne"
  | branch .lt _ => "iflt"
  | branch .ge _ => "ifge"
  | branch .gt _ => "ifgt"
  | branch .le _ => "ifle"
  | branchNull true _ => "ifnull"
  | branchNull false _ => "ifnonnull"
  | goto _ => "goto"
  | ret (some .long) => "lreturn"
  | ret (some .reference) => "areturn"
  | ret none => "return"
  | getStatic _ => "getstatic"
  | putStatic _ => "putstatic"
  | getField _ => "getfield"
  | putField _ => "putfield"
  | invokeStatic _ => "invokestatic"
  | new _ => "new"
  | throw => "athrow"
  | monitorEnter => "monitorenter"
  | monitorExit => "monitorexit"

def opcode : Instruction Label Field Callee → UInt8
  | nop => 0x00
  | pushNull => 0x01
  | pushString _ => 0x12
  | pushLong _ => 0x14
  | load .long _ => 0x16
  | load .reference _ => 0x19
  | store .long _ => 0x37
  | store .reference _ => 0x3a
  | pop => 0x57
  | dup => 0x59
  | swap => 0x5f
  | arith .add => 0x61
  | arith .sub => 0x65
  | arith .mul => 0x69
  | arith .div => 0x6d
  | arith .rem => 0x71
  | negate => 0x75
  | compare => 0x94
  | branch .eq _ => 0x99
  | branch .ne _ => 0x9a
  | branch .lt _ => 0x9b
  | branch .ge _ => 0x9c
  | branch .gt _ => 0x9d
  | branch .le _ => 0x9e
  | goto _ => 0xa7
  | ret (some .long) => 0xad
  | ret (some .reference) => 0xb0
  | ret none => 0xb1
  | getStatic _ => 0xb2
  | putStatic _ => 0xb3
  | getField _ => 0xb4
  | putField _ => 0xb5
  | invokeStatic _ => 0xb8
  | new _ => 0xbb
  | throw => 0xbf
  | monitorEnter => 0xc2
  | monitorExit => 0xc3
  | branchNull true _ => 0xc6
  | branchNull false _ => 0xc7

/-- Whether other threads can observe the instruction, so that a thread switch may be offered
before it. -/
def isSchedulingRelevant : Instruction Label Field Callee → Bool
  | getStatic _ | putStatic _ | getField _ | putField _ | monitorEnter | monitorExit => true
  | _ => false

def fallsThrough : Instruction Label Field Callee → Bool
  | goto _ | ret _ | throw => false
  | _ => true

def branchTarget? : Instruction Label Field Callee → Option Label
  | branch _ target | branchNull _ target | goto target => some target
  | _ => none

def slot? : Instruction Label Field Callee → Option UInt16
  | load _ slot | store _ slot => some slot
  | _ => none

def field? : Instruction Label Field Callee → Option Field
  | getStatic f | putStatic f | getField f | putField f => some f
  | _ => none

def callee? : Instruction Label Field Callee → Option Callee
  | invokeStatic c => some c
  | _ => none

def resolve {Label' Field' Callee' : Type} {m : Type → Type} [Monad m] (label : Label → m Label')
    (field : Field → m Field') (callee : Callee → m Callee') :
    Instruction Label Field Callee → m (Instruction Label' Field' Callee')
  | nop => pure nop
  | pushNull => pure pushNull
  | pushString s => pure (pushString s)
  | pushLong n => pure (pushLong n)
  | load k i => pure (load k i)
  | store k i => pure (store k i)
  | pop => pure pop
  | dup => pure dup
  | swap => pure swap
  | arith op => pure (arith op)
  | negate => pure negate
  | compare => pure compare
  | branch c t => return branch c (← label t)
  | branchNull b t => return branchNull b (← label t)
  | goto t => return goto (← label t)
  | ret k => pure (ret k)
  | getStatic f => return getStatic (← field f)
  | putStatic f => return putStatic (← field f)
  | getField f => return getField (← field f)
  | putField f => return putField (← field f)
  | invokeStatic c => return invokeStatic (← callee c)
  | new c => pure (new c)
  | throw => pure throw
  | monitorEnter => pure monitorEnter
  | monitorExit => pure monitorExit

def text (label : Label → String) (field : Field → String) (callee : Callee → String)
    (i : Instruction Label Field Callee) : String :=
  match i with
  | pushString s => i.mnemonic ++ " \"" ++ s ++ "\""
  | pushLong n => i.mnemonic ++ " " ++ toString n.toInt
  | load _ slot | store _ slot => i.mnemonic ++ " " ++ toString slot.toNat
  | branch _ t | branchNull _ t | goto t => i.mnemonic ++ " " ++ label t
  | getStatic f | putStatic f | getField f | putField f => i.mnemonic ++ " " ++ field f
  | invokeStatic c => i.mnemonic ++ " " ++ callee c
  | new c => i.mnemonic ++ " " ++ c
  | _ => i.mnemonic

end Instruction

end BytecodeChecker
