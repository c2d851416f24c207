import Mathlib.Data.List.Forall2
import BytecodeChecker.Proofs.Descriptors

/-! The grammar of signatures. A text is read as a signature exactly if it is `Class.name(PARAMETERS)RESULT`
with parts of their own grammar; it is so in one way only, and nothing of it is lost. -/
namespace BytecodeChecker

namespace TypeDescriptor

inductive Written : TypeDescriptor → List Char → Prop where
  | primitive (p : Primitive) : Written (.primitive p) [p.code]
  | reference {className : List Char} (whole : ';' ∉ className) :
      Written (.reference (String.ofList className)) ('L' :: (className ++ [';']))
  | array {t : TypeDescriptor} {cs : List Char} (element : Written t cs) : Written (.array t) ('[' :: cs)

theorem writtenIff {t : TypeDescriptor} {cs : List Char} : Written t cs ↔ t.Plain ∧ cs = t.chars := by
  constructor
  · intro h
    induction h with
    | primitive p => exact ⟨trivial, rfl⟩
    | reference whole => exact ⟨by rwa [Plain, String.toList_ofList], by rw [chars, String.toList_ofList]⟩
    | array _ ih =>
      obtain ⟨plain, rfl⟩ := ih
      exact ⟨plain, rfl⟩
  · rintro ⟨plain, rfl⟩
    induction t with
    | primitive p => exact .primitive p
    | reference className =>
      have written := Written.reference plain
      rwa [String.ofList_toList] at written
    | array element ih => exact .array (ih plain)

theorem readAllIff {cs : List Char} {ts : List TypeDescriptor} :
    readAll? cs = some ts ↔ (∀ t ∈ ts, t.Plain) ∧ cs = ts.flatMap chars := by
  constructor
  · intro h
    fun_induction readAll? cs generalizing ts with
    | case1 =>
      cases h
      simp
    | case2 => cases h
    | case3 cs some t rest found shorter ih =>
      obtain ⟨others, read, same⟩ := Option.map_eq_some_iff.mp h
      cases same
      obtain ⟨plain, rfl⟩ := writtenRead found
      obtain ⟨plains, rfl⟩ := ih read
      exact ⟨List.forall_mem_cons.mpr ⟨plain, plains⟩, rfl⟩
  · rintro ⟨plain, rfl⟩
    induction ts with
    | nil => simp [readAll?]
    | cons t rest ih =>
      obtain ⟨first, others⟩ := List.forall_mem_cons.mp plain
      have found := readWritten first (rest.flatMap chars)
      have some : t.chars ++ rest.flatMap chars ≠ [] := by
        intro none
        rw [none] at found
        cases found
      rw [List.flatMap_cons, readAll?, if_neg some]
      split
      · rename_i missed
        rw [found] at missed
        cases missed
      · rename_i u after read
        rw [found] at read
        cases read
        rw [ih others, Option.map_some]

end TypeDescriptor

namespace Signature

inductive Returns : Option TypeDescriptor → List Char → Prop where
  | nothing : Returns none ['V']
  | value {t : TypeDescriptor} {cs : List Char} (written : t.Written cs) : Returns (some t) cs

theorem returnsIff {cs : List Char} {result : Option TypeDescriptor} :
    resultOfChars? cs = some result ↔ Returns result cs := by
  unfold resultOfChars?
  constructor
  · intro h
    split at h
    · rename_i void
      cases h
      exact void ▸ .nothing
    · obtain ⟨t, read, same⟩ := Option.map_eq_some_iff.mp h
      cases same
      exact .value (TypeDescriptor.writtenIff.mpr (TypeDescriptor.ofCharsIff.mp read))
  · intro h
    cases h with
    | nothing => rfl
    | value written =>
      have read := TypeDescriptor.ofCharsIff.mpr (TypeDescriptor.writtenIff.mp written)
      have other : cs ≠ ['V'] := by
        intro void
        rw [void] at read
        cases read
      rw [if_neg other, read, Option.map_some]

/- A text that its marks cut into class, name, parameters and result. A class name may have dots, and what
stands between the parentheses or behind them may have almost anything. -/
structure Cut (cs className name params result : List Char) : Prop where
  whole : cs = className ++ '.' :: name ++ '(' :: params ++ ')' :: result
  owned : className ≠ []
  named : name ≠ []
  last : '.' ∉ name
  classMarks : '(' ∉ className ∧ ')' ∉ className
  nameMarks : '(' ∉ name ∧ ')' ∉ name
  closed : ')' ∉ params

theorem Cut.read {cs className name params result : List Char} (cut : Cut cs className name params result) :
    ofChars? cs = (TypeDescriptor.readAll? params).bind fun types =>
      (resultOfChars? result).bind fun returned =>
        some ⟨String.ofList className, String.ofList name, types, returned⟩ := by
  have opened : '(' ∉ className ++ '.' :: name := by simp [cut.classMarks.1, cut.nameMarks.1]
  have unclosed : (className ++ '.' :: name).contains ')' = false := by
    simp [cut.classMarks.2, cut.nameMarks.2]
  have filled : (className.isEmpty || name.isEmpty) = false := by simp [cut.owned, cut.named]
  have halves : splitLastDot? (className ++ '.' :: name) = some (className, name) :=
    splitLastDotIff.mpr ⟨cut.last, rfl⟩
  have whole : cs = (className ++ '.' :: name) ++ '(' :: (params ++ ')' :: result) := by
    rw [cut.whole, List.append_assoc (className ++ '.' :: name), List.cons_append]
  -- each mark is the first of its kind where it is looked for, whatever the class names behind it have
  obtain ⟨takenOpen, droppedOpen⟩ := spanMark opened (params ++ ')' :: result)
  obtain ⟨takenClose, droppedClose⟩ := spanMark cut.closed result
  rw [ofChars?, whole, takenOpen, droppedOpen]
  dsimp only
  rw [unclosed, takenClose, droppedClose, halves]
  simp only [Bool.false_eq_true, if_false, bind, Option.bind_some, filled]

theorem readCut {cs : List Char} {s : Signature} (h : ofChars? cs = some s) :
    ∃ className name params result, Cut cs className name params result := by
  unfold ofChars? at h
  dsimp only at h
  split at h
  · cases h
  · rename_i first afterOpen opened
    obtain ⟨rfl, outer⟩ := spanParts opened
    split at h
    · cases h
    · rename_i unclosed
      split at h
      · cases h
      · rename_i second afterClose closed
        obtain ⟨rfl, inner⟩ := spanParts closed
        obtain ⟨⟨className, name⟩, halves, h⟩ := Option.bind_eq_some_iff.mp h
        obtain ⟨last, qualified⟩ := splitLastDotIff.mp halves
        have free := spanFront '(' cs
        have whole : cs = className ++ '.' :: name ++ '(' :: afterOpen.takeWhile (· != ')') ++ ')' :: afterClose := by
          rw [List.append_assoc, List.cons_append, ← inner, ← qualified, ← outer]
        dsimp only at h
        split at h
        · cases h
        · rename_i filled
          rw [qualified] at free unclosed
          simp only [List.contains_eq_mem, List.mem_append, List.mem_cons, decide_eq_true_eq, not_or] at free unclosed
          simp only [Bool.or_eq_true, List.isEmpty_iff, not_or] at filled
          exact ⟨className, name, _, afterClose, whole, filled.1, filled.2, last, ⟨free.1, unclosed.1⟩,
            ⟨free.2.2, unclosed.2.2⟩, spanFront ')' afterOpen⟩

@[ext] structure Parts where
  className : List Char
  name : List Char
  params : List (List Char)
  result : List Char

structure Parts.Spell (p : Parts) (text : String) : Prop extends
    Cut text.toList p.className p.name p.params.flatten p.result where
  types : ∀ param ∈ p.params, ∃ t, TypeDescriptor.Written t param
  returned : p.result = ['V'] ∨ ∃ t, TypeDescriptor.Written t p.result

structure Parts.Mean (p : Parts) (s : Signature) : Prop where
  className : s.className.toList = p.className
  name : s.name.toList = p.name
  params : List.Forall₂ TypeDescriptor.Written s.params p.params
  result : Returns s.result p.result

namespace Parts

variable {p q : Parts} {s : Signature} {text : String}

theorem Spell.means (spell : p.Spell text) : ∃ s, p.Mean s := by
  obtain ⟨params, written⟩ : ∃ params, List.Forall₂ TypeDescriptor.Written params p.params := by
    have each := spell.types
    generalize p.params = texts at each
    induction texts with
    | nil => exact ⟨[], .nil⟩
    | cons first rest ih =>
      obtain ⟨t, here⟩ := each first (.head _)
      obtain ⟨others, later⟩ := ih fun param member => each param (.tail _ member)
      exact ⟨t :: others, .cons here later⟩
  obtain ⟨result, returns⟩ : ∃ result, Returns result p.result := by
    rcases spell.returned with void | ⟨t, written⟩
    · exact ⟨none, void ▸ .nothing⟩
    · exact ⟨some t, .value written⟩
  exact ⟨⟨String.ofList p.className, String.ofList p.name, params, result⟩, String.toList_ofList,
    String.toList_ofList, written, returns⟩

theorem paramsWritten {ts : List TypeDescriptor} {texts : List (List Char)} :
    List.Forall₂ TypeDescriptor.Written ts texts ↔ (∀ t ∈ ts, t.Plain) ∧ texts = ts.map TypeDescriptor.chars := by
  constructor
  · intro written
    induction written with
    | nil => simp
    | cons here _ ih =>
      obtain ⟨plain, rfl⟩ := TypeDescriptor.writtenIff.mp here
      obtain ⟨plains, rfl⟩ := ih
      exact ⟨List.forall_mem_cons.mpr ⟨plain, plains⟩, rfl⟩
  · rintro ⟨plain, rfl⟩
    induction ts with
    | nil => exact .nil
    | cons t rest ih =>
      obtain ⟨first, others⟩ := List.forall_mem_cons.mp plain
      exact .cons (TypeDescriptor.writtenIff.mpr ⟨first, rfl⟩) (ih others)

theorem paramsFlat {ts : List TypeDescriptor} {texts : List (List Char)}
    (written : List.Forall₂ TypeDescriptor.Written ts texts) : texts.flatten = ts.flatMap TypeDescriptor.chars := by
  rw [(paramsWritten.mp written).2, List.flatMap_def]

theorem resultUnique {result : Option TypeDescriptor} {cs ds : List Char} (left : Returns result cs)
    (right : Returns result ds) : cs = ds := by
  cases left with
  | nothing =>
    cases right with
    | nothing => rfl
  | value first =>
    cases right with
    | value second =>
      rw [(TypeDescriptor.writtenIff.mp first).2, (TypeDescriptor.writtenIff.mp second).2]

theorem Mean.unique (left : p.Mean s) (right : q.Mean s) : p = q := by
  apply Parts.ext
  · rw [← left.className, right.className]
  · rw [← left.name, right.name]
  · rw [(paramsWritten.mp left.params).2, (paramsWritten.mp right.params).2]
  · exact resultUnique left.result right.result

theorem charsReturning {cs : List Char} (returns : Returns s.result cs) : s.chars =
    s.className.toList ++ '.' :: s.name.toList ++ '(' :: s.params.flatMap TypeDescriptor.chars ++ ')' :: cs := by
  obtain ⟨className, name, params, result⟩ := s
  cases returns with
  | nothing => rfl
  | value written =>
    rw [(TypeDescriptor.writtenIff.mp written).2]
    rfl

theorem Mean.printed (mean : p.Mean s) (spell : p.Spell text) : s.text = text := by
  have whole := charsReturning mean.result
  rw [mean.className, mean.name, ← paramsFlat mean.params, ← spell.whole] at whole
  rw [Signature.text, whole, String.ofList_toList]

theorem Mean.read (mean : p.Mean s) (spell : p.Spell text) : ofString? text = some s := by
  have params : TypeDescriptor.readAll? p.params.flatten = some s.params :=
    TypeDescriptor.readAllIff.mpr ⟨(paramsWritten.mp mean.params).1, paramsFlat mean.params⟩
  rw [ofString?, spell.toCut.read, params, returnsIff.mpr mean.result, ← mean.className, ← mean.name,
    String.ofList_toList, String.ofList_toList]
  rfl

theorem readSpelled (h : ofString? text = some s) : ∃ p : Parts, p.Spell text ∧ p.Mean s := by
  obtain ⟨className, name, params, result, cut⟩ := readCut h
  rw [ofString?, cut.read] at h
  obtain ⟨types, read, h⟩ := Option.bind_eq_some_iff.mp h
  obtain ⟨returned, found, same⟩ := Option.bind_eq_some_iff.mp h
  cases same
  obtain ⟨plain, rfl⟩ := TypeDescriptor.readAllIff.mp read
  have returns := returnsIff.mp found
  have written := paramsWritten.mpr ⟨plain, rfl⟩
  refine ⟨⟨className, name, types.map TypeDescriptor.chars, result⟩, ⟨?_, ?_, ?_⟩,
    String.toList_ofList, String.toList_ofList, written, returns⟩
  · rwa [← List.flatMap_def]
  · intro param member
    obtain ⟨t, listed, same⟩ := List.mem_map.mp member
    exact ⟨t, TypeDescriptor.writtenIff.mpr ⟨plain t listed, same.symm⟩⟩
  · cases returns with
    | nothing => exact .inl rfl
    | value written => exact .inr ⟨_, written⟩

end Parts

theorem signatureGrammar (text : String) :
    ((∃ s, ofString? text = some s) ↔ ∃ parts : Parts, parts.Spell text) ∧
    ∀ parts : Parts, parts.Spell text →
      (∀ others : Parts, others.Spell text → others = parts) ∧
      ∃ s, ofString? text = some s ∧ parts.Mean s ∧ s.text = text := by
  constructor
  · constructor
    · intro found
      obtain ⟨s, h⟩ := found
      obtain ⟨parts, spell, _⟩ := Parts.readSpelled h
      exact ⟨parts, spell⟩
    · intro found
      obtain ⟨parts, spell⟩ := found
      obtain ⟨s, mean⟩ := spell.means
      exact ⟨s, mean.read spell⟩
  · intro parts spell
    obtain ⟨s, mean⟩ := spell.means
    have read := mean.read spell
    constructor
    · intro others spelled
      obtain ⟨s', mean'⟩ := spelled.means
      have same := mean'.read spelled
      rw [read] at same
      cases same
      exact mean'.unique mean
    · exact ⟨s, read, mean, mean.printed spell⟩

def crowded : Parts := ⟨"a.B".toList, "f".toList, ["L(.;".toList, "[[J".toList], "[L[);".toList⟩

theorem crowdedRead : crowded.Spell "a.B.f(L(.;[[J)[L[);" ∧
    (∀ others : Parts, others.Spell "a.B.f(L(.;[[J)[L[);" → others = crowded) ∧
    ∃ s, ofString? "a.B.f(L(.;[[J)[L[);" = some s ∧ crowded.Mean s ∧ s.text = "a.B.f(L(.;[[J)[L[);" := by
  have spell : crowded.Spell "a.B.f(L(.;[[J)[L[);" := by
    constructor
    · exact ⟨by decide, by decide, by decide, by decide, by decide, by decide, by decide⟩
    · intro param member
      rcases List.mem_pair.mp member with rfl | rfl
      · exact ⟨_, .reference (by decide : ';' ∉ ['(', '.'])⟩
      · exact ⟨_, .array (.array (.primitive .long))⟩
    · exact .inr ⟨_, .array (.reference (by decide : ';' ∉ ['[', ')']))⟩
  exact ⟨spell, (signatureGrammar _).2 crowded spell⟩

end Signature

end BytecodeChecker
