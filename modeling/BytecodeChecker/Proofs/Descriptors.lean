import Mathlib.Data.List.TakeWhile
import BytecodeChecker.Program.Load

/-! How types and fields are written. A descriptor is read off the front of a text exactly where it is
written there, and a field operand is a class and a name with a dot between them, and a type if it has one
behind a colon. -/
namespace BytecodeChecker

theorem passesMark {c : Char} {cs : List Char} (free : c ∉ cs) : ∀ d ∈ cs, (d != c) = true := by
  intro d member
  have other : d ≠ c := fun same => free (same ▸ member)
  simpa using other

theorem spanMark {c : Char} {cs : List Char} (free : c ∉ cs) (rest : List Char) :
    (cs ++ c :: rest).takeWhile (· != c) = cs ∧ (cs ++ c :: rest).dropWhile (· != c) = c :: rest := by
  constructor
  · rw [List.takeWhile_append_of_pos (passesMark free)]
    simp
  · rw [List.dropWhile_append_of_pos (passesMark free)]
    simp

theorem spanFree {c : Char} {cs : List Char} (free : c ∉ cs) :
    cs.takeWhile (· != c) = cs ∧ cs.dropWhile (· != c) = [] := by
  constructor
  · rw [List.takeWhile_eq_self_iff]
    exact passesMark free
  · rw [List.dropWhile_eq_nil_iff]
    exact passesMark free

theorem spanFront (c : Char) (cs : List Char) : c ∉ cs.takeWhile (· != c) := by
  intro member
  simpa using List.all_eq_true.mp (List.all_takeWhile (p := (· != c)) (l := cs)) c member

theorem spanParts {c d : Char} {cs rest : List Char} (h : cs.dropWhile (· != c) = d :: rest) :
    d = c ∧ cs = cs.takeWhile (· != c) ++ c :: rest := by
  have first : d = c := by
    have stopped := List.head?_dropWhile_not (· != c) cs
    simpa [h] using stopped
  subst first
  exact ⟨rfl, by rw [← h, List.takeWhile_append_dropWhile]⟩

namespace TypeDescriptor

def Plain : TypeDescriptor → Prop
  | primitive _ => True
  | reference className => ';' ∉ className.toList
  | array element => element.Plain

theorem readWritten {t : TypeDescriptor} (plain : t.Plain) (rest : List Char) :
    read? (t.chars ++ rest) = some (t, rest) := by
  induction t with
  | primitive p => cases p <;> rfl
  | reference className =>
    obtain ⟨taken, dropped⟩ := spanMark plain rest
    simp only [chars, List.cons_append, List.append_assoc, List.nil_append, read?]
    rw [dropped, taken, String.ofList_toList]
  | array element ih => simp only [chars, List.cons_append, read?, ih plain, Option.map_some]

theorem writtenRead {cs rest : List Char} {t : TypeDescriptor} (h : read? cs = some (t, rest)) :
    t.Plain ∧ cs = t.chars ++ rest := by
  fun_induction read? cs generalizing t rest with
  | case1 => cases h
  | case2 _ _ => cases h
  | case3 body first after found =>
    obtain ⟨rfl, whole⟩ := spanParts found
    cases h
    refine ⟨by simpa [Plain] using spanFront ';' body, ?_⟩
    rw [chars, String.toList_ofList]
    simpa using whole
  | case4 body ih =>
    obtain ⟨⟨element, after⟩, found, same⟩ := Option.map_eq_some_iff.mp h
    cases same
    obtain ⟨plain, rfl⟩ := ih found
    exact ⟨plain, rfl⟩
  | case5 c body _ _ =>
    obtain ⟨p, code, same⟩ := Option.map_eq_some_iff.mp h
    cases same
    refine ⟨trivial, ?_⟩
    unfold Primitive.ofCode? at code
    split at code <;> cases code <;> rfl

theorem ofCharsIff {cs : List Char} {t : TypeDescriptor} :
    ofChars? cs = some t ↔ t.Plain ∧ cs = t.chars := by
  unfold ofChars?
  constructor
  · intro h
    split at h
    · rename_i found
      cases h
      simpa using writtenRead found
    · cases h
  · rintro ⟨plain, rfl⟩
    have found := readWritten plain []
    rw [List.append_nil] at found
    rw [found]

end TypeDescriptor

theorem Signature.splitLastDotIff {cs front back : List Char} :
    splitLastDot? cs = some (front, back) ↔ '.' ∉ back ∧ cs = front ++ '.' :: back := by
  unfold splitLastDot?
  constructor
  · intro h
    split at h
    · cases h
    · rename_i first rest found
      obtain ⟨rfl, whole⟩ := spanParts found
      cases h
      refine ⟨by simpa using spanFront '.' cs.reverse, ?_⟩
      have forward := congrArg List.reverse whole
      simpa using forward
  · rintro ⟨free, rfl⟩
    have reverseFree : '.' ∉ back.reverse := by simpa using free
    obtain ⟨taken, dropped⟩ := spanMark reverseFree front.reverse
    have reversed : (front ++ '.' :: back).reverse = back.reverse ++ '.' :: front.reverse := by simp
    rw [reversed, dropped, taken]
    simp

namespace Load

/- A field operand as it is written, and what it stands for: without a type the field starts with zero. -/
inductive Names (text : String) : FieldRef → Prop where
  | untyped {className field : List Char} (owned : className ≠ []) (named : field ≠ []) (last : '.' ∉ field)
      (apart : ':' ∉ className ++ '.' :: field) (written : text.toList = className ++ '.' :: field) :
      Names text ⟨text, .int 0⟩
  | typed {className field : List Char} {type : TypeDescriptor} (owned : className ≠ []) (named : field ≠ [])
      (last : '.' ∉ field) (apart : ':' ∉ className ++ '.' :: field) (plain : type.Plain)
      (written : text.toList = className ++ '.' :: field ++ ':' :: type.chars) :
      Names text ⟨String.ofList (className ++ '.' :: field), type.defaultValue⟩

theorem fieldRefIff {text : String} {field : FieldRef} : fieldRef text = .ok field ↔ Names text field := by
  constructor
  · intro h
    unfold fieldRef at h
    dsimp only at h
    split at h
    · cases h
    · rename_i className name split
      obtain ⟨last, qualified⟩ := Signature.splitLastDotIff.mp split
      have apart := spanFront ':' text.toList
      split at h
      · cases h
      · rename_i filled
        simp only [Bool.or_eq_true, List.isEmpty_iff, not_or] at filled
        split at h
        · rename_i whole
          cases h
          have all : text.toList.takeWhile (· != ':') = text.toList := by
            have parts := List.takeWhile_append_dropWhile (p := (· != ':')) (l := text.toList)
            rwa [whole, List.append_nil] at parts
          rw [all] at qualified apart ⊢
          rw [String.ofList_toList]
          exact .untyped filled.1 filled.2 last (qualified ▸ apart) qualified
        · rename_i colon type cut
          obtain ⟨rfl, whole⟩ := spanParts cut
          split at h
          · cases h
          · rename_i t read
            cases h
            obtain ⟨plain, rfl⟩ := TypeDescriptor.ofCharsIff.mp read
            rw [qualified] at apart whole ⊢
            exact .typed filled.1 filled.2 last apart plain whole
  · intro h
    cases h with
    | @untyped className name owned named last apart written =>
      obtain ⟨taken, dropped⟩ := spanFree apart
      have split : Signature.splitLastDot? (className ++ '.' :: name) = some (className, name) :=
        Signature.splitLastDotIff.mpr ⟨last, rfl⟩
      simp only [fieldRef, written, taken, dropped]
      rw [split]
      simp [owned, named, ← written]
    | @typed className name type owned named last apart plain written =>
      obtain ⟨taken, dropped⟩ := spanMark apart type.chars
      have split : Signature.splitLastDot? (className ++ '.' :: name) = some (className, name) :=
        Signature.splitLastDotIff.mpr ⟨last, rfl⟩
      have read := TypeDescriptor.ofCharsIff.mpr ⟨plain, rfl⟩
      simp only [fieldRef, written, taken, dropped]
      rw [split]
      simp [owned, named, read]

end Load

end BytecodeChecker
