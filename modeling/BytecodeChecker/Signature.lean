import BytecodeChecker.Value

/-! Method signatures, written `Class.name(PARAMETERS)RESULT`. The parameters are type descriptors
one after the other, and the result is a descriptor or `V` for none. -/
namespace BytecodeChecker

inductive Primitive where
  | long | int | boolean | byte | char | short
  deriving DecidableEq, Repr

def Primitive.code : Primitive → Char
  | long => 'J'
  | int => 'I'
  | boolean => 'Z'
  | byte => 'B'
  | char => 'C'
  | short => 'S'

def Primitive.ofCode? : Char → Option Primitive
  | 'J' => some long
  | 'I' => some int
  | 'Z' => some boolean
  | 'B' => some byte
  | 'C' => some char
  | 'S' => some short
  | _ => none

inductive TypeDescriptor where
  | primitive (p : Primitive)
  | reference (className : String)
  | array (element : TypeDescriptor)
  deriving DecidableEq, Repr

namespace TypeDescriptor

def defaultValue : TypeDescriptor → Value
  | primitive _ => .int 0
  | reference _ => .null
  | array _ => .null

def chars : TypeDescriptor → List Char
  | primitive p => [p.code]
  | reference c => 'L' :: (c.toList ++ [';'])
  | array t => '[' :: t.chars

def read? : List Char → Option (TypeDescriptor × List Char)
  | [] => none
  | 'L' :: rest =>
    match rest.dropWhile (· != ';') with
    | [] => none
    | _ :: after => some (reference (String.ofList (rest.takeWhile (· != ';'))), after)
  | '[' :: rest => (read? rest).map fun (t, after) => (array t, after)
  | c :: rest => (Primitive.ofCode? c).map fun p => (primitive p, rest)

def ofChars? (cs : List Char) : Option TypeDescriptor :=
  match read? cs with
  | some (t, []) => some t
  | _ => none

def ofString? (s : String) : Option TypeDescriptor := ofChars? s.toList

theorem readShortens {cs rest : List Char} {t : TypeDescriptor}
    (h : read? cs = some (t, rest)) : rest.length < cs.length := by
  fun_induction read? cs generalizing t rest with
  | case1 => simp at h
  | case2 _ _ => simp at h
  | case3 body first after found =>
    have tail : (first :: after).length ≤ body.length := by
      rw [← found]
      exact (List.dropWhile_sublist _).length_le
    simp only [Option.some.injEq, Prod.mk.injEq] at h
    obtain ⟨-, rfl⟩ := h
    simp only [List.length_cons] at tail ⊢
    omega
  | case4 body ih =>
    obtain ⟨⟨u, after⟩, found, same⟩ := Option.map_eq_some_iff.1 h
    simp only [Prod.mk.injEq] at same
    obtain ⟨-, rfl⟩ := same
    have shorter := ih found
    simp only [List.length_cons]
    omega
  | case5 c body _ _ =>
    obtain ⟨p, -, same⟩ := Option.map_eq_some_iff.1 h
    simp only [Prod.mk.injEq] at same
    obtain ⟨-, rfl⟩ := same
    simp

def readAll? (cs : List Char) : Option (List TypeDescriptor) :=
  if cs = [] then some [] else
    match found : read? cs with
    | none => none
    | some (t, rest) =>
      have : rest.length < cs.length := readShortens found
      (readAll? rest).map (t :: ·)
  termination_by cs.length

end TypeDescriptor

structure Signature where
  className : String
  name : String
  params : List TypeDescriptor
  result : Option TypeDescriptor
  deriving DecidableEq, Repr

namespace Signature

def splitLastDot? (cs : List Char) : Option (List Char × List Char) :=
  match cs.reverse.dropWhile (· != '.') with
  | [] => none
  | _ :: front => some (front.reverse, (cs.reverse.takeWhile (· != '.')).reverse)

def resultOfChars? (cs : List Char) : Option (Option TypeDescriptor) :=
  if cs = ['V'] then some none else (TypeDescriptor.ofChars? cs).map some

def ofChars? (cs : List Char) : Option Signature :=
  let qualified := cs.takeWhile (· != '(')
  match cs.dropWhile (· != '(') with
  | [] => none
  | _ :: afterOpen =>
    if qualified.contains ')' then none else
    match afterOpen.dropWhile (· != ')') with
    | [] => none
    | _ :: afterClose => do
      let (className, name) ← splitLastDot? qualified
      if className.isEmpty || name.isEmpty then none
      let params ← TypeDescriptor.readAll? (afterOpen.takeWhile (· != ')'))
      let result ← resultOfChars? afterClose
      some ⟨String.ofList className, String.ofList name, params, result⟩

def ofString? (s : String) : Option Signature := ofChars? s.toList

def chars (s : Signature) : List Char :=
  s.className.toList ++ '.' :: s.name.toList ++ '(' :: s.params.flatMap TypeDescriptor.chars
    ++ ')' :: (match s.result with | none => ['V'] | some t => t.chars)

def text (s : Signature) : String := String.ofList s.chars

def argCount (s : Signature) : Nat := s.params.length

def returnsValue (s : Signature) : Bool := s.result.isSome

def defaultReturn (s : Signature) : Option Value := s.result.map TypeDescriptor.defaultValue

end Signature

end BytecodeChecker
