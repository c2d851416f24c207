import Mathlib.Algebra.Group.Int.Defs
import Mathlib.Algebra.Group.Nat.Defs
import BytecodeChecker.Choice

/-! Ranges of integers. A decision over a range is like one over the list of its integers, however its cursor is
moved, although it never lists them. Nothing overflows when sizes and indices are kept in 64 bits and the
integers are computed in 128 bits. -/
namespace BytecodeChecker

structure Lists (lo hi : Int64) (ns : List Int64) : Prop where
  increasing : ns.Pairwise (· < ·)
  members : ∀ n, n ∈ ns ↔ lo ≤ n ∧ n ≤ hi

namespace Choices

variable {lo hi : Int64} {i : Nat}

theorem rangeFits (inside : i < rangeSize lo hi) : (Int64.ofInt (lo.toInt + i)).toInt = lo.toInt + i := by
  have least := lo.le_toInt
  have most := hi.toInt_lt
  unfold rangeSize at inside
  exact Int64.toInt_ofInt_of_le (by omega) (by omega)

def span (lo hi : Int64) : List Int64 :=
  (List.range (rangeSize lo hi)).map fun (i : Nat) => Int64.ofInt (lo.toInt + i)

theorem spanLength : (span lo hi).length = rangeSize lo hi := by rw [span, List.length_map, List.length_range]

theorem spanAt (i : Nat) :
    (span lo hi)[i]? = if i < rangeSize lo hi then some (Int64.ofInt (lo.toInt + i)) else none := by
  rw [span, List.getElem?_map]
  split
  · rename_i inside
    rw [List.getElem?_range inside, Option.map_some]
  · rename_i outside
    rw [List.getElem?_eq_none (by rw [List.length_range]; omega), Option.map_none]

theorem spanLists (lo hi : Int64) : Lists lo hi (span lo hi) where
  increasing := by
    refine List.pairwise_map.mpr (List.pairwise_iff_getElem.mpr fun i j before inside less => ?_)
    rw [List.length_range] at before inside
    simp only [List.getElem_range]
    rw [Int64.lt_iff_toInt_lt, rangeFits before, rangeFits inside]
    omega
  members n := by
    simp only [span, List.mem_map, List.mem_range, Int64.le_iff_toInt_le]
    constructor
    · rintro ⟨i, inside, rfl⟩
      rw [rangeFits inside]
      unfold rangeSize at inside
      omega
    · rintro ⟨above, below⟩
      refine ⟨(n.toInt - lo.toInt).toNat, by unfold rangeSize; omega, ?_⟩
      have back : lo.toInt + (n.toInt - lo.toInt).toNat = n.toInt := by omega
      rw [back, Int64.ofInt_toInt]

theorem rangeGet (i : Nat) : (range lo hi).get? i = (values ((span lo hi).map .int)).get? i := by
  rw [get?, get?, List.getElem?_map, spanAt]
  split <;> rfl

end Choices

namespace Generator

inductive Operation where
  | advance
  | select (i : UInt64)
  | look (i : UInt64)

inductive Answer where
  | moved (done : Bool)
  | choice (found : Option Choice)

structure View where
  total : Nat
  cursor : Option Nat
  choice : Option Choice
  value : Option Value
  more : Bool

def view (g : Generator) : View := ⟨g.total, g.cursor, g.chosen?, g.chosenValue?, g.hasMore⟩

def operate (g : Generator) : Operation → Generator × Answer
  | .advance => (g.advance?.getD g, .moved g.advance?.isSome)
  | .select i => ((g.select? i.toNat).getD g, .moved (g.select? i.toNat).isSome)
  | .look i => (g, .choice (g.choices.get? i.toNat))

def session (g : Generator) : List Operation → List (Answer × View)
  | [] => []
  | op :: rest => ((g.operate op).2, (g.operate op).1.view) :: session (g.operate op).1 rest

structure Alike (g h : Generator) : Prop where
  cursor : g.cursor = h.cursor
  total : g.total = h.total
  choices : ∀ i, g.choices.get? i = h.choices.get? i

variable {g h : Generator}

theorem Alike.hasMore (alike : Alike g h) : g.hasMore = h.hasMore := by
  rw [Generator.hasMore, Generator.hasMore, nextIndex, nextIndex, alike.cursor, alike.total]

theorem Alike.view (alike : Alike g h) : g.view = h.view := by
  have chosen : g.chosen? = h.chosen? := by
    rw [chosen?, chosen?, alike.cursor]
    cases h.cursor with
    | none => rfl
    | some i => exact alike.choices i
  simp only [Generator.view, chosenValue?, chosen, alike.cursor, alike.total, alike.hasMore]

theorem Alike.moved (alike : Alike g h) (cursor : Option Nat) :
    Alike { g with cursor } { h with cursor } := ⟨rfl, alike.total, alike.choices⟩

theorem Alike.operate (alike : Alike g h) (op : Operation) :
    (g.operate op).2 = (h.operate op).2 ∧ Alike (g.operate op).1 (h.operate op).1 := by
  cases op with
  | advance =>
    have next : g.nextIndex = h.nextIndex := by simp only [nextIndex, alike.cursor]
    simp only [Generator.operate, advance?, alike.hasMore, next]
    split
    · exact ⟨rfl, alike.moved _⟩
    · exact ⟨rfl, alike⟩
  | select i =>
    simp only [Generator.operate, select?, alike.total]
    split
    · exact ⟨rfl, alike.moved _⟩
    · exact ⟨rfl, alike⟩
  | look i => exact ⟨congrArg Answer.choice (alike.choices _), alike⟩

theorem Alike.session (alike : Alike g h) (ops : List Operation) : g.session ops = h.session ops := by
  induction ops generalizing g h with
  | nil => rfl
  | cons op rest ih =>
    obtain ⟨answer, after⟩ := alike.operate op
    simp only [Generator.session, answer, after.view, ih after]

def drain : Nat → Generator → List (Option Value) × Generator
  | 0, g => ([], g)
  | n + 1, g =>
    match g.advance? with
    | none => ([], g)
    | some next => (next.chosenValue? :: (drain n next).1, (drain n next).2)

theorem drainLists {vs : List Value} (listed : ∀ i, g.choices.get? i = vs[i]?.map .value)
    (total : g.total = vs.length) {fuel : Nat} (enough : vs.length ≤ g.nextIndex + fuel) :
    g.drain fuel = ((vs.drop g.nextIndex).map some,
      if g.nextIndex < vs.length then { g with cursor := some (vs.length - 1) } else g) := by
  induction fuel generalizing g with
  | zero =>
    have reached : vs.length ≤ g.nextIndex := enough
    rw [List.drop_eq_nil_of_le reached, if_neg (Nat.not_lt.mpr reached)]
    rfl
  | succ fuel ih =>
    by_cases more : g.nextIndex < vs.length
    · let next : Generator := { g with cursor := some g.nextIndex }
      have went : g.advance? = some next := if_pos (by simpa [hasMore, total] using more)
      have value : next.chosenValue? = some vs[g.nextIndex] := by
        change (g.choices.get? g.nextIndex).bind _ = _
        rw [listed, List.getElem?_eq_getElem more]
        rfl
      have rest := ih (g := next) listed total (by change _ ≤ g.nextIndex + 1 + fuel; omega)
      have after : next.nextIndex = g.nextIndex + 1 := rfl
      simp only [drain, went, value, rest, after, if_pos more, List.drop_eq_getElem_cons more, List.map_cons]
      split
      · rfl
      · rename_i last
        have same : vs.length - 1 = g.nextIndex := by omega
        rw [same]
    · have ended : g.advance? = none := if_neg (by simpa [hasMore, total] using more)
      simp only [drain, ended, if_neg more, List.drop_eq_nil_of_le (Nat.le_of_not_lt more), List.map_nil]

end Generator

/- Signed words of 128 bits. A sum or difference that does not fit is absent. -/
abbrev Wide := BitVec 128

namespace Wide

def ofLong (n : Int64) : Wide := n.toBitVec.signExtend 128

def ofIndex (i : UInt64) : Wide := i.toBitVec.setWidth 128

def add? (a b : Wide) : Option Wide := if a.saddOverflow b then none else some (a + b)

def sub? (a b : Wide) : Option Wide := if a.ssubOverflow b then none else some (a - b)

def toLong? (a : Wide) : Option Int64 :=
  if -2 ^ 63 ≤ a.toInt ∧ a.toInt < 2 ^ 63 then some (Int64.ofBitVec (a.setWidth 64)) else none

def toIndex? (a : Wide) : Option UInt64 :=
  if 0 ≤ a.toInt ∧ a.toInt < 2 ^ 64 then some (UInt64.ofBitVec (a.setWidth 64)) else none

variable {a b : Wide}

theorem ofLongInt (n : Int64) : (ofLong n).toInt = n.toInt :=
  BitVec.toInt_signExtend_of_le (by decide)

theorem ofIndexInt (i : UInt64) : (ofIndex i).toInt = i.toNat := by
  have small := i.toNat_lt
  rw [ofIndex, BitVec.toInt_setWidth]
  exact Int.bmod_eq_of_le (by change _ ≤ (i.toNat : Int); omega) (by change (i.toNat : Int) < _; omega)

theorem addFits (least : -2 ^ 127 ≤ a.toInt + b.toInt) (most : a.toInt + b.toInt < 2 ^ 127) :
    ∃ c, a.add? b = some c ∧ c.toInt = a.toInt + b.toInt := by
  have fits : ¬ a.saddOverflow b = true := by
    simp only [BitVec.saddOverflow, Bool.or_eq_true, decide_eq_true_eq]
    omega
  exact ⟨a + b, if_neg fits, BitVec.toInt_add_of_not_saddOverflow fits⟩

theorem subFits (least : -2 ^ 127 ≤ a.toInt - b.toInt) (most : a.toInt - b.toInt < 2 ^ 127) :
    ∃ c, a.sub? b = some c ∧ c.toInt = a.toInt - b.toInt := by
  have fits : ¬ a.ssubOverflow b = true := by
    simp only [BitVec.ssubOverflow, Bool.or_eq_true, decide_eq_true_eq]
    omega
  exact ⟨a - b, if_neg fits, BitVec.toInt_sub_of_not_ssubOverflow fits⟩

theorem toLongFits (least : -2 ^ 63 ≤ a.toInt) (most : a.toInt < 2 ^ 63) :
    ∃ n, a.toLong? = some n ∧ n.toInt = a.toInt := by
  refine ⟨_, if_pos ⟨least, most⟩, ?_⟩
  rw [Int64.toInt_ofBitVec, BitVec.toInt_setWidth, Int.bmod_def]
  rw [BitVec.toInt_eq_toNat_cond] at least most ⊢
  split at least <;> omega

theorem toIndexFits (least : 0 ≤ a.toInt) (most : a.toInt < 2 ^ 64) :
    ∃ i, a.toIndex? = some i ∧ (i.toNat : Int) = a.toInt := by
  refine ⟨_, if_pos ⟨least, most⟩, ?_⟩
  rw [UInt64.toNat_ofBitVec, BitVec.toNat_setWidth]
  rw [BitVec.toInt_eq_toNat_cond] at least most ⊢
  split at least <;> omega

end Wide

def nextWord? (i : UInt64) : Option UInt64 := if i.toNat + 1 < UInt64.size then some (i + 1) else none

/- A range with a cursor in machine words. Whatever is computed from it is absent if something overflows. -/
structure WordRange where
  lo : Int64
  hi : Int64
  total : UInt64
  cursor : Option UInt64

namespace WordRange

def make (lo hi : Int64) : Option (Option WordRange) :=
  if hi < lo then some (some ⟨lo, hi, 0, none⟩)
  else do
    let difference ← (Wide.ofLong hi).sub? (Wide.ofLong lo)
    let size ← difference.add? 1
    return size.toIndex?.map fun total => ⟨lo, hi, total, none⟩

def valueAt (r : WordRange) (i : UInt64) : Option (Option Value) := do
  let v ← (Wide.ofLong r.lo).add? (Wide.ofIndex i)
  return (v.toLong?.filter (· ≤ r.hi)).map .int

def chosenValue (r : WordRange) : Option (Option Value) :=
  match r.cursor with
  | none => some none
  | some i => r.valueAt i

def nextIndex (r : WordRange) : Option UInt64 :=
  match r.cursor with
  | none => some 0
  | some i => nextWord? i

def hasMore (r : WordRange) : Option Bool := r.nextIndex.map (· < r.total)

def select (r : WordRange) (i : UInt64) : WordRange × Bool :=
  if i < r.total then ({ r with cursor := some i }, true) else (r, false)

def advance (r : WordRange) : Option (WordRange × Bool) := do
  if ← r.hasMore then return r.select (← r.nextIndex) else return (r, false)

def view (r : WordRange) : Option Generator.View := do
  let value ← r.chosenValue
  let more ← r.hasMore
  return ⟨r.total.toNat, r.cursor.map UInt64.toNat, value.map .value, value, more⟩

def operate (r : WordRange) : Generator.Operation → Option (WordRange × Generator.Answer)
  | .advance => r.advance.map fun moved => (moved.1, .moved moved.2)
  | .select i => some ((r.select i).1, .moved (r.select i).2)
  | .look i => (r.valueAt i).map fun value => (r, .choice (value.map .value))

def session (r : WordRange) : List Generator.Operation → Option (List (Generator.Answer × Generator.View))
  | [] => some []
  | op :: rest => do
    let done ← r.operate op
    let seen ← done.1.view
    let later ← session done.1 rest
    return (done.2, seen) :: later

structure Denotes (r : WordRange) (g : Generator) : Prop where
  choices : g.choices = .range r.lo r.hi
  total : r.total.toNat = g.total
  cursor : r.cursor.map UInt64.toNat = g.cursor
  inside : ∀ i ∈ r.cursor, i.toNat < g.total

variable {r : WordRange} {g : Generator}

theorem Denotes.small (denotes : Denotes r g) : g.total < UInt64.size := denotes.total ▸ r.total.toNat_lt

theorem Denotes.valueAt (denotes : Denotes r g) (i : UInt64) :
    ∃ value, r.valueAt i = some value ∧ g.choices.get? i.toNat = value.map .value := by
  have loLeast := r.lo.le_toInt
  have hiMost := r.hi.toInt_lt
  have loMost := r.lo.toInt_lt
  have small := i.toNat_lt
  have sum : (Wide.ofLong r.lo).toInt + (Wide.ofIndex i).toInt = r.lo.toInt + i.toNat := by
    rw [Wide.ofLongInt, Wide.ofIndexInt]
  obtain ⟨v, added, exact_⟩ := Wide.addFits (a := .ofLong r.lo) (b := .ofIndex i) (by omega) (by omega)
  refine ⟨_, by rw [WordRange.valueAt, added]; rfl, ?_⟩
  rw [denotes.choices, Choices.get?, Choices.rangeSize]
  by_cases fits : v.toInt < 2 ^ 63
  · obtain ⟨n, converted, same⟩ := Wide.toLongFits (by omega) fits
    have number : n = Int64.ofInt (r.lo.toInt + i.toNat) := by
      rw [← sum, ← exact_, ← same, Int64.ofInt_toInt]
    rw [converted, Option.filter_some]
    by_cases within : n ≤ r.hi
    · have order := Int64.le_iff_toInt_le.mp within
      rw [if_pos (by omega), if_pos (by simpa using within), number]
      rfl
    · have order : ¬ n.toInt ≤ r.hi.toInt := fun le => within (Int64.le_iff_toInt_le.mpr le)
      rw [if_neg (by omega), if_neg (by simpa using within)]
      rfl
  · have refused : v.toLong? = none := if_neg fun both => fits both.2
    rw [if_neg (by omega), refused]
    rfl

theorem Denotes.nextIndex (denotes : Denotes r g) :
    ∃ next, r.nextIndex = some next ∧ next.toNat = g.nextIndex := by
  unfold WordRange.nextIndex Generator.nextIndex
  rw [← denotes.cursor]
  cases cursor : r.cursor with
  | none => exact ⟨0, rfl, rfl⟩
  | some i =>
    have inside := denotes.inside i cursor
    have small : i.toNat + 1 < UInt64.size := Nat.lt_of_le_of_lt inside denotes.small
    refine ⟨i + 1, if_pos small, ?_⟩
    rw [UInt64.toNat_add]
    exact Nat.mod_eq_of_lt small

theorem Denotes.hasMore (denotes : Denotes r g) : r.hasMore = some g.hasMore := by
  obtain ⟨next, ran, same⟩ := denotes.nextIndex
  rw [WordRange.hasMore, ran, Generator.hasMore, ← same, ← denotes.total]
  exact congrArg some (decide_eq_decide.mpr UInt64.lt_iff_toNat_lt)

theorem Denotes.view (denotes : Denotes r g) : r.view = some g.view := by
  have chosen : ∃ value, r.chosenValue = some value ∧ g.chosen? = value.map .value := by
    unfold WordRange.chosenValue Generator.chosen?
    rw [← denotes.cursor]
    cases r.cursor with
    | none => exact ⟨none, rfl, rfl⟩
    | some i => exact denotes.valueAt i
  obtain ⟨value, ran, same⟩ := chosen
  have only : g.chosenValue? = value := by
    rw [Generator.chosenValue?, same]
    cases value <;> rfl
  simp only [WordRange.view, ran, denotes.hasMore, Generator.view, same, only, denotes.total, denotes.cursor]
  rfl

theorem Denotes.moved (denotes : Denotes r g) {i : UInt64} (inside : i.toNat < g.total) :
    Denotes { r with cursor := some i } { g with cursor := some i.toNat } :=
  ⟨denotes.choices, denotes.total, rfl, fun j same => by cases same; exact inside⟩

theorem Denotes.select (denotes : Denotes r g) (i : UInt64) :
    (r.select i).2 = (g.select? i.toNat).isSome ∧ Denotes (r.select i).1 ((g.select? i.toNat).getD g) := by
  simp only [WordRange.select, Generator.select?, UInt64.lt_iff_toNat_lt, denotes.total]
  split
  · rename_i inside
    exact ⟨rfl, denotes.moved inside⟩
  · exact ⟨rfl, denotes⟩

theorem Denotes.advance (denotes : Denotes r g) :
    ∃ r', r.advance = some (r', g.advance?.isSome) ∧ Denotes r' (g.advance?.getD g) := by
  obtain ⟨next, ran, same⟩ := denotes.nextIndex
  unfold WordRange.advance
  rw [denotes.hasMore, ran]
  cases more : g.hasMore with
  | false =>
    have ended : g.advance? = none := if_neg (by simp [more])
    rw [ended]
    exact ⟨r, rfl, denotes⟩
  | true =>
    have inside : g.nextIndex < g.total := of_decide_eq_true more
    have went : g.advance? = g.select? next.toNat := by
      rw [Generator.advance?, Generator.select?, if_pos more, same, if_pos inside]
    obtain ⟨answer, after⟩ := denotes.select next
    rw [went]
    exact ⟨_, congrArg (fun done => some ((r.select next).1, done)) answer, after⟩

theorem Denotes.operate (denotes : Denotes r g) (op : Generator.Operation) :
    ∃ r', r.operate op = some (r', (g.operate op).2) ∧ Denotes r' (g.operate op).1 := by
  cases op with
  | advance =>
    obtain ⟨r', ran, after⟩ := denotes.advance
    exact ⟨r', by rw [WordRange.operate, ran]; rfl, after⟩
  | select i =>
    obtain ⟨answer, after⟩ := denotes.select i
    exact ⟨_, by rw [WordRange.operate, answer]; rfl, after⟩
  | look i =>
    obtain ⟨value, ran, same⟩ := denotes.valueAt i
    exact ⟨r, by rw [WordRange.operate, ran, Generator.operate, same]; rfl, denotes⟩

theorem Denotes.session (denotes : Denotes r g) (ops : List Generator.Operation) :
    r.session ops = some (g.session ops) := by
  induction ops generalizing r g with
  | nil => rfl
  | cons op rest ih =>
    obtain ⟨r', ran, after⟩ := denotes.operate op
    simp only [WordRange.session, ran, Generator.session]
    change (r'.view.bind fun seen => (r'.session rest).bind fun later => _) = _
    rw [after.view, ih after]
    rfl

variable {lo hi : Int64}

theorem makeSize (order : lo ≤ hi) : ∃ size : Wide, size.toInt = hi.toInt - lo.toInt + 1 ∧
    make lo hi = some (size.toIndex?.map fun total => ⟨lo, hi, total, none⟩) := by
  have ofLo := Wide.ofLongInt lo
  have ofHi := Wide.ofLongInt hi
  have one : (1 : Wide).toInt = 1 := by decide
  have least := lo.le_toInt
  have most := hi.toInt_lt
  have above := Int64.le_iff_toInt_le.mp order
  obtain ⟨difference, subtracted, known⟩ := Wide.subFits (a := .ofLong hi) (b := .ofLong lo) (by omega) (by omega)
  obtain ⟨size, added, known'⟩ := Wide.addFits (a := difference) (b := 1) (by omega) (by omega)
  refine ⟨size, by omega, ?_⟩
  rw [make, if_neg (Int64.not_lt.mpr order), subtracted]
  change (difference.add? 1).bind _ = _
  rw [added]
  rfl

theorem makeRefuses (large : ¬ Choices.rangeSize lo hi < UInt64.size) : make lo hi = some none := by
  have size : UInt64.size = 2 ^ 64 := rfl
  unfold Choices.rangeSize at large
  have order : lo ≤ hi := Int64.le_iff_toInt_le.mpr (by omega)
  obtain ⟨wide, known, made⟩ := makeSize order
  have none : wide.toIndex? = none := if_neg (by omega)
  rw [made, none, Option.map_none]

theorem makeDenotes (id : String) (fits : Choices.rangeSize lo hi < UInt64.size) :
    ∃ r, make lo hi = some (some r) ∧ Denotes r ⟨id, .range lo hi, none⟩ := by
  by_cases empty : hi < lo
  · have order := Int64.lt_iff_toInt_lt.mp empty
    have size : (0 : UInt64).toNat = Choices.rangeSize lo hi := by
      unfold Choices.rangeSize
      change 0 = _
      omega
    exact ⟨_, if_pos empty, rfl, size, rfl, fun i none => by cases none⟩
  · have order := Int64.not_lt.mp empty
    have above := Int64.le_iff_toInt_le.mp order
    have whole : UInt64.size = 2 ^ 64 := rfl
    unfold Choices.rangeSize at fits
    obtain ⟨wide, known, made⟩ := makeSize order
    obtain ⟨total, converted, same⟩ := wide.toIndexFits (by omega) (by omega)
    have size : total.toNat = Choices.rangeSize lo hi := by
      unfold Choices.rangeSize
      omega
    rw [converted] at made
    exact ⟨_, made, rfl, size, rfl, fun i none => by cases none⟩

end WordRange

namespace Generator

variable {id : String} {lo hi : Int64} {g : Generator}

theorem rangeRefused : ofRange? id lo hi = none ↔ ¬ Choices.rangeSize lo hi < UInt64.size := by
  unfold ofRange?
  split
  · rename_i fits
    exact ⟨fun none => (by cases none), fun large => absurd fits large⟩
  · rename_i large
    exact ⟨fun _ => large, fun _ => rfl⟩

theorem rangeMade (h : ofRange? id lo hi = some g) :
    Choices.rangeSize lo hi < UInt64.size ∧ g = ⟨id, .range lo hi, none⟩ := by
  unfold ofRange? at h
  split at h
  · rename_i fits
    exact ⟨fits, (Option.some.inj h).symm⟩
  · cases h

theorem rangeAlike : Alike ⟨id, .range lo hi, none⟩ (ofValues id ((Choices.span lo hi).map .int)) where
  cursor := rfl
  total := by simp [total, ofValues, Choices.total, Choices.spanLength]
  choices := Choices.rangeGet

theorem rangeDrains {fuel : Nat} (enough : Choices.rangeSize lo hi ≤ fuel) :
    (drain fuel ⟨id, .range lo hi, none⟩).1 = (Choices.span lo hi).map (fun n => some (.int n)) ∧
    (drain fuel ⟨id, .range lo hi, none⟩).2.advance? = none ∧
    (drain fuel ⟨id, .range lo hi, none⟩).2.cursor =
      if Choices.rangeSize lo hi = 0 then none else some (Choices.rangeSize lo hi - 1) := by
  have length : ((Choices.span lo hi).map Value.int).length = Choices.rangeSize lo hi := by
    rw [List.length_map, Choices.spanLength]
  have all : ((Choices.span lo hi).map Value.int).length ≤ nextIndex ⟨id, .range lo hi, none⟩ + fuel := by
    rw [length]
    exact Nat.le_trans enough (Nat.le_add_left _ _)
  have drained := drainLists (g := ⟨id, .range lo hi, none⟩) Choices.rangeGet length.symm all
  have first : nextIndex ⟨id, .range lo hi, none⟩ = 0 := rfl
  rw [first, length, List.drop_zero, List.map_map] at drained
  rw [drained]
  refine ⟨rfl, ?_⟩
  by_cases empty : Choices.rangeSize lo hi = 0
  · rw [if_neg (by omega), if_pos empty]
    exact ⟨if_neg (by simp [hasMore, nextIndex, total, Choices.total, empty]), rfl⟩
  · rw [if_pos (by omega), if_neg empty]
    refine ⟨if_neg ?_, rfl⟩
    change ¬ decide (Choices.rangeSize lo hi - 1 + 1 < Choices.rangeSize lo hi) = true
    rw [decide_eq_true_eq]
    omega

theorem rangeActsAsList (id : String) (lo hi : Int64) :
    (ofRange? id lo hi = none ↔ 2 ^ 64 - 1 < hi.toInt - lo.toInt + 1) ∧
    (ofRange? id lo hi = none → WordRange.make lo hi = some none) ∧
    ∃ ns, Lists lo hi ns ∧ ∀ g, ofRange? id lo hi = some g →
      (g.total : Int) = max 0 (hi.toInt - lo.toInt + 1) ∧
      (∀ ops, g.view = (ofValues id (ns.map .int)).view ∧
        g.session ops = (ofValues id (ns.map .int)).session ops) ∧
      (∀ fuel, g.total ≤ fuel → (g.drain fuel).1 = ns.map (fun n => some (.int n)) ∧
        (g.drain fuel).2.advance? = none ∧
        (g.drain fuel).2.cursor = if g.total = 0 then none else some (g.total - 1)) ∧
      ∃ r, WordRange.make lo hi = some (some r) ∧
        ∀ ops, r.view = some g.view ∧ r.session ops = some (g.session ops) := by
  refine ⟨?_, fun refused => WordRange.makeRefuses (rangeRefused.mp refused),
    Choices.span lo hi, Choices.spanLists lo hi, fun g made => ?_⟩
  · have whole : UInt64.size = 2 ^ 64 := rfl
    rw [rangeRefused, Choices.rangeSize]
    omega
  · obtain ⟨fits, rfl⟩ := rangeMade made
    obtain ⟨r, built, denotes⟩ := WordRange.makeDenotes id fits
    refine ⟨?_, fun ops => ⟨rangeAlike.view, rangeAlike.session ops⟩, fun fuel enough => rangeDrains enough,
      r, built, fun ops => ⟨denotes.view, denotes.session ops⟩⟩
    change ((Choices.rangeSize lo hi : Nat) : Int) = _
    rw [Choices.rangeSize]
    omega

theorem widestActsAsList : ∃ ns g, Lists Int64.minValue (Int64.maxValue - 1) ns ∧
    ofRange? "wide" Int64.minValue (Int64.maxValue - 1) = some g ∧ g.total = 2 ^ 64 - 1 ∧
    ((ofValues "wide" (ns.map .int)).session [.select (.ofNat (2 ^ 64 - 2)), .advance]).map
        (fun seen => (seen.2.cursor, seen.2.value, seen.2.more)) =
      [(some (2 ^ 64 - 2), some (.int (Int64.maxValue - 1)), false),
        (some (2 ^ 64 - 2), some (.int (Int64.maxValue - 1)), false)] := by
  obtain ⟨_, _, ns, lists, acts⟩ := rangeActsAsList "wide" Int64.minValue (Int64.maxValue - 1)
  have fits : Choices.rangeSize Int64.minValue (Int64.maxValue - 1) < UInt64.size := by decide +kernel
  have made : ofRange? "wide" Int64.minValue (Int64.maxValue - 1) = some _ := if_pos fits
  obtain ⟨_, same, _⟩ := acts _ made
  refine ⟨ns, _, lists, made, by decide +kernel, ?_⟩
  rw [← (same _).2]
  decide +kernel

end Generator

end BytecodeChecker
