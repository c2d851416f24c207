import BytecodeChecker.Model.Builder
import BytecodeChecker.Proofs.Violations

/-! Listing the completed paths by replays. The lists of choices that are still to be tried are the
roots of what a search has still to visit, so that the two go through the same paths in one order. -/
namespace BytecodeChecker

def Choices.Clear (a b : List Nat) : Prop := ∀ tail, a ++ tail < b

def Visit.completedPath? (v : Visit) : Option CompletedPath := v.completed?.map (⟨v.choices, ·⟩)

namespace Explorer

variable {e : Explorer} {fuel : Nat} {visits : List Visit} {m : Memory} {report : Report}

theorem Blind.chosenInside (blind : e.Blind) {path before : Path} {s s' : State} {g : Generator}
    {k : Nat} {tail : List Nat} (starts : e.Starts fuel path s)
    (came : e.Reaches fuel before s' (.choice g))
    (grows : path.indices = before.indices ++ k :: tail) : k < g.total := by
  induction starts generalizing tail with
  | initial => simp at grows
  | @next path s t s'' f f' m start ends chosen goesOn ih =>
    obtain ⟨inside, rfl⟩ := Generator.selected chosen
    rw [Path.indicesPush, Option.getD_some] at grows
    rcases List.eq_nil_or_concat' tail with rfl | ⟨tail, last, rfl⟩
    · obtain ⟨same, index⟩ := List.append_inj' grows rfl
      cases index
      obtain ⟨_, _, ended⟩ := blind.reachesUnique came ⟨_, start, ends⟩ same.symm
      cases ended
      exact inside
    · have longer : path.indices ++ [m] = (before.indices ++ k :: tail) ++ [last] := by
        rw [grows]
        simp
      exact ih (List.append_inj' longer rfl).1

namespace Exhausted

variable (exhausted : e.Exhausted fuel visits m report)
include exhausted

theorem visitSettled (unmatched : e.config.stateMatching = false) (ok : report.verdict = .ok)
    (complete : report.stats.truncated = 0) {v : Visit} (member : v ∈ visits) :
    v.ending = .finished .completed ∨ ∃ g, v.ending = .choice g ∧ v.expanded = true := by
  have uncut := exhausted.uncut complete member
  cases ending : v.ending with
  | choice g =>
    refine .inr ⟨g, rfl, ?_⟩
    cases expanded : v.expanded with
    | true => rfl
    | false =>
      rcases exhausted.tally.leaves v member expanded g ending with deep | ⟨matching, _⟩
      · simp [cut, ending, deep] at uncut
      · exact absurd (unmatched.symm.trans matching) Bool.false_ne_true
  | finished finish =>
    cases finish with
    | completed => exact .inl rfl
    | stepLimit => simp [cut, ending] at uncut
    | violated failure =>
      have found : v.violation? = some ⟨failure, v.path.trace v.state⟩ :=
        Visit.violationIff.mpr ⟨ending, rfl⟩
      have listed : ⟨failure, v.path.trace v.state⟩ ∈ report.violations := by
        rw [exhausted.violationsVisited, List.mem_reverse]
        exact List.mem_filterMap.mpr ⟨v, member, found⟩
      have verdict := exhausted.verdict
      rw [ok] at verdict
      split at verdict
      · rename_i empty
        rw [List.isEmpty_iff.mp empty] at listed
        cases listed
      · cases verdict

theorem visitDescends (blind : e.Blind) {v w : Visit} (left : v ∈ visits) (right : w ∈ visits)
    {k : Nat} {tail : List Nat} (grows : v.choices = w.choices ++ k :: tail) :
    ∃ g, w.ending = .choice g ∧ k < g.total := by
  have log := exhausted.explored
  obtain ⟨u, member, expanded, same⟩ := log.ancestor (log.grown v left) grows
  obtain ⟨_, g, ending⟩ := exhausted.tally.expands u member expanded
  have came := log.reached u member
  obtain ⟨_, _, ends⟩ := blind.reachesUnique (log.reached w right) came same.symm
  obtain ⟨start, starts, _⟩ := log.reached v left
  rw [ending] at came ends
  rw [← same] at grows
  exact ⟨g, ends, blind.chosenInside starts came grows⟩

end Exhausted

/- What is left of a search, the next visit first, and the lists of choices that lead there. -/
structure Remains (rest : List Visit) (work : List (List Nat)) : Prop where
  clear : work.Pairwise Choices.Clear
  known : ∀ choices ∈ work, ∃ v ∈ rest, v.choices = choices
  rooted : ∀ v ∈ rest, ∃ choices ∈ work, ∃ tail, v.choices = choices ++ tail

theorem Remains.next {v : Visit} {rest : List Visit} {work : List (List Nat)}
    (remains : Remains (v :: rest) work) (first : ∀ w ∈ rest, v.choices < w.choices) :
    ∃ more, work = v.choices :: more := by
  have least : ∀ choices ∈ work, v.choices ≤ choices := by
    intro choices member
    obtain ⟨w, found, rfl⟩ := remains.known choices member
    rcases List.mem_cons.mp found with rfl | later
    · exact le_rfl
    · exact le_of_lt (first w later)
  -- the root of the next visit is no later than it, and it is the least of all
  obtain ⟨choices, member, tail, same⟩ := remains.rooted v (.head rest)
  have root : choices = v.choices := by
    refine le_antisymm ?_ (least choices member)
    rw [same]
    exact Choices.prefixLe
  subst root
  cases work with
  | nil => cases member
  | cons head more =>
    rcases List.mem_cons.mp member with rfl | later
    · exact ⟨more, rfl⟩
    · have less := (List.pairwise_cons.mp remains.clear).1 _ later []
      rw [List.append_nil] at less
      exact absurd (least head (.head more)) (not_le_of_gt less)

section Step

variable (exhausted : e.Exhausted fuel visits m report) {done rest : List Visit} {v : Visit}
  (whole : visits.reverse = done ++ v :: rest)
include exhausted whole

theorem Exhausted.visitsBehind : v ∈ visits ∧ (∀ w ∈ rest, w ∈ visits ∧ v.choices < w.choices) ∧
    ∀ w ∈ visits, v.choices < w.choices → w ∈ rest := by
  have sorted : (done ++ v :: rest).Pairwise fun early late => early.choices < late.choices := by
    rw [← whole]
    exact List.pairwise_reverse.mpr exhausted.explored.sorted
  obtain ⟨_, onward, across⟩ := List.pairwise_append.mp sorted
  have first := (List.pairwise_cons.mp onward).1
  have listed : ∀ w, w ∈ visits ↔ w ∈ done ++ v :: rest := by
    intro w
    rw [← whole, List.mem_reverse]
  refine ⟨(listed v).mpr (by simp), fun w later => ⟨(listed w).mpr (by simp [later]), first w later⟩, ?_⟩
  intro w member less
  rcases List.mem_append.mp ((listed w).mp member) with early | here
  · exact absurd (across w early v (.head rest)) (lt_asymm less)
  · rcases List.mem_cons.mp here with rfl | later
    · exact absurd less (lt_irrefl _)
    · exact later

variable {work : List (List Nat)} (blind : e.Blind)
  (remains : Remains (v :: rest) (v.choices :: work))
include blind remains

theorem Exhausted.remainsBehind : (∀ choices ∈ work, ∃ w ∈ rest, w.choices = choices) ∧
    ∀ w ∈ rest, (∃ choices ∈ work, ∃ tail, w.choices = choices ++ tail) ∨
      ∃ g k tail, v.ending = .choice g ∧ k < g.total ∧ w.choices = v.choices ++ k :: tail := by
  obtain ⟨here, behind, _⟩ := exhausted.visitsBehind whole
  constructor
  · intro choices member
    obtain ⟨w, found, same⟩ := remains.known choices (.tail _ member)
    rcases List.mem_cons.mp found with rfl | later
    · have less := (List.pairwise_cons.mp remains.clear).1 choices member []
      rw [List.append_nil, same] at less
      exact absurd less (lt_irrefl _)
    · exact ⟨w, later, same⟩
  · intro w later
    obtain ⟨choices, found, tail, same⟩ := remains.rooted w (.tail v later)
    rcases List.mem_cons.mp found with rfl | left
    · cases tail with
      | nil =>
        have less := (behind w later).2
        rw [same, List.append_nil] at less
        exact absurd less (lt_irrefl _)
      | cons k tail =>
        obtain ⟨g, ending, inside⟩ := exhausted.visitDescends blind (behind w later).1 here same
        exact .inr ⟨g, k, tail, ending, inside, same⟩
    · exact .inl ⟨choices, left, tail, same⟩

theorem Exhausted.remainsCompleted (ending : v.ending = .finished .completed) :
    Remains rest work := by
  obtain ⟨known, rooted⟩ := exhausted.remainsBehind whole blind remains
  refine ⟨(List.pairwise_cons.mp remains.clear).2, known, ?_⟩
  intro w later
  rcases rooted w later with left | ⟨g, _, _, choice, _⟩
  · exact left
  · rw [ending] at choice
    cases choice

theorem Exhausted.remainsExpanded {g : Generator} (ending : v.ending = .choice g)
    (expanded : v.expanded = true) :
    Remains rest ((List.range g.total).map (fun i => v.choices ++ [i]) ++ work) := by
  obtain ⟨here, _, reaches⟩ := exhausted.visitsBehind whole
  obtain ⟨known, rooted⟩ := exhausted.remainsBehind whole blind remains
  obtain ⟨clear, clear'⟩ := List.pairwise_cons.mp remains.clear
  refine ⟨List.pairwise_append.mpr ⟨?_, clear', ?_⟩, ?_, ?_⟩
  · refine List.pairwise_map.mpr (List.pairwise_lt_range.imp ?_)
    intro i j less tail
    rw [List.append_assoc]
    exact Choices.branchLess less
  · intro child member choices left tail
    obtain ⟨i, _, rfl⟩ := List.mem_map.mp member
    rw [List.append_assoc]
    exact clear choices left _
  · intro choices member
    rcases List.mem_append.mp member with child | left
    · obtain ⟨i, inside, rfl⟩ := List.mem_map.mp child
      rcases exhausted.explored.children v here expanded g ending i (List.mem_range.mp inside) with
        ⟨w, found, same⟩ | ⟨_, next, _⟩
      · refine ⟨w, reaches w found ?_, same⟩
        rw [same]
        exact Choices.ancestorLess
      · cases next
    · exact known choices left
  · intro w later
    rcases rooted w later with ⟨choices, left, onward⟩ | ⟨f, k, tail, choice, inside, same⟩
    · exact ⟨choices, List.mem_append_right _ left, onward⟩
    · rw [ending] at choice
      cases choice
      refine ⟨v.choices ++ [k], List.mem_append_left _ ?_, tail, by simp [same]⟩
      exact List.mem_map.mpr ⟨k, List.mem_range.mpr inside, rfl⟩

end Step

section Run

variable (blind : e.Blind) (unmatched : e.config.stateMatching = false) (ok : report.verdict = .ok)
  (complete : report.stats.truncated = 0) (exhausted : e.Exhausted fuel visits m report)
  {more : Nat} (enough : fuel ≤ more)
include blind unmatched ok complete exhausted enough

/- By induction on what is left to visit: there is one replay for each visit. -/
theorem Exhausted.enumerateRuns {done rest : List Visit} {work : List (List Nat)}
    (whole : visits.reverse = done ++ rest) (remains : Remains rest work) (limit budget : Nat)
    (found : List CompletedPath) :
    e.enumerateFrom more limit budget work found = some
      (if rest.length ≤ budget then .ok (found.reverse ++ rest.filterMap Visit.completedPath?)
        else .error (.tooMany limit)) := by
  induction rest generalizing done work budget found with
  | nil =>
    cases work with
    | nil => simp [enumerateFrom]
    | cons choices work =>
      obtain ⟨v, member, _⟩ := remains.known choices (.head work)
      cases member
  | cons v rest ih =>
    obtain ⟨here, behind, _⟩ := exhausted.visitsBehind whole
    obtain ⟨work, rfl⟩ := remains.next fun w later => (behind w later).2
    cases budget with
    | zero => simp [enumerateFrom]
    | succ budget =>
      obtain ⟨memory, _, replayed⟩ :=
        blind.replayReached (exhausted.explored.reached v here) enough []
      rw [List.append_nil] at replayed
      have shown : follow e more v.path.depth [] ⟨memory, v.state, .ok v.ending⟩ =
          some (memory, .ok ⟨v.state, pathEnd v.ending, memory.path.trace v.state⟩) := by
        rw [follow]
      have onward : visits.reverse = (done ++ [v]) ++ rest := by simp [whole]
      unfold enumerateFrom
      rw [Visit.choices, replayed, shown]
      rcases exhausted.visitSettled unmatched ok complete here with ending | ⟨g, ending, expanded⟩
      · have path : v.completedPath? = some ⟨v.choices, v.state⟩ := by
          simp [Visit.completedPath?, Visit.completed?, ending]
        simp only [ending, pathEnd]
        rw [ih onward (exhausted.remainsCompleted whole blind remains ending)]
        simp [path, Visit.choices]
      · have path : v.completedPath? = none := by
          simp [Visit.completedPath?, Visit.completed?, ending]
        simp only [ending, pathEnd]
        have next := exhausted.remainsExpanded whole blind remains ending expanded
        rw [Visit.choices] at next
        rw [ih onward next]
        simp [path]

theorem Exhausted.enumerateAll (limit : Nat) : e.enumerate more limit = some
    (if visits.length ≤ limit then .ok (visits.reverse.filterMap Visit.completedPath?)
      else .error (.tooMany limit)) := by
  have start : Remains visits.reverse [[]] := by
    refine ⟨List.pairwise_singleton _ _, ?_, fun v _ => ⟨[], .head [], v.choices, rfl⟩⟩
    intro choices member
    cases List.mem_singleton.mp member
    rcases exhausted.explored.root with ⟨v, found, empty⟩ | next
    · exact ⟨v, List.mem_reverse.mpr found, empty⟩
    · cases next
  have whole : visits.reverse = [] ++ visits.reverse := rfl
  have run := exhausted.enumerateRuns blind unmatched ok complete enough whole start limit limit []
  simpa [enumerate] using run

end Run

theorem Exhausted.listedStates (exhausted : e.Exhausted fuel visits m report) :
    (visits.reverse.filterMap Visit.completedPath?).map (·.state) = m.completedStates ∧
      ((visits.reverse.filterMap Visit.completedPath?).map (·.choices)).Pairwise (· < ·) := by
  constructor
  · rw [exhausted.tally.completed, ← List.filterMap_reverse, List.map_filterMap]
    congr 1
    funext v
    cases found : v.completed? <;> simp [Visit.completedPath?, found]
  · rw [List.pairwise_map, List.pairwise_filterMap, List.pairwise_reverse]
    refine exhausted.explored.sorted.imp ?_
    intro late early less p found q found'
    obtain ⟨_, _, rfl⟩ := Option.map_eq_some_iff.mp found
    obtain ⟨_, _, rfl⟩ := Option.map_eq_some_iff.mp found'
    exact less

theorem enumerationListsCompleted {model : Model} {states : List State}
    (accepted : ofModel model .default = .ok e)
    (unasked : Builtin.isCompletelyCoveredSymbol ∉ Load.callees model.methods)
    (searched : model.completedStates .default fuel = some (.ok (report, states)))
    (ok : report.verdict = .ok) (complete : report.stats.truncated = 0) {more : Nat}
    (enough : fuel ≤ more) :
    (∀ limit, report.stats.states ≤ limit → ∃ found, e.enumerate more limit = some (.ok found) ∧
      found.map (·.state) = states ∧ (found.map (·.choices)).Pairwise (· < ·)) ∧
    ∀ limit < report.stats.states, ∃ error, e.enumerate more limit = some (.error error) := by
  have blind : e.Blind := modelBlind accepted unasked e.properties
  have unmatched : e.config.stateMatching = false := by
    rw [(modelSource accepted).config]
    rfl
  obtain ⟨m, checked, rfl⟩ : ∃ m, e.check fuel = some (m, .ok report) ∧ m.completedStates = states := by
    unfold Model.completedStates at searched
    rw [accepted] at searched
    obtain ⟨⟨m, result⟩, checked, kept⟩ := Option.map_eq_some_iff.mp searched
    cases result with
    | error error => cases kept
    | ok report' =>
      cases kept
      exact ⟨m, checked, rfl⟩
  obtain ⟨visits, exhausted⟩ := blind.okExhausts checked ok
  have all := exhausted.enumerateAll blind unmatched ok complete enough
  have count : report.stats.states = visits.length := by
    rw [exhausted.stats]
    exact exhausted.tally.states
  constructor
  · intro limit most
    rw [count] at most
    refine ⟨_, ?_, exhausted.listedStates⟩
    rw [all, if_pos most]
  · intro limit less
    rw [count] at less
    exact ⟨_, by rw [all, if_neg (Nat.not_le_of_lt less)]⟩

def twoWriters : Model :=
  ((Model.start "two writers" "Pair.main()V").withMethod "Pair.main()V" 0
    [.pushLong 1, .putStatic "Pair.x", .ret none]).withThread "Pair.other()V"
    [.pushLong 2, .putStatic "Pair.x", .ret none]

theorem twoWritersListed : ∃ e, ofModel twoWriters .default = .ok e ∧
    (∃ found, e.enumerate 20 5 = some (.ok found) ∧ found.length = 3 ∧
      (found.map (·.choices)).Pairwise (· < ·)) ∧
    ∃ error, e.enumerate 20 4 = some (.error error) := by
  have run : ((twoWriters.completedStates .default 20).bind Except.toOption).map (fun searched =>
      (searched.1.verdict, searched.1.stats.states, searched.1.stats.truncated,
        searched.2.length)) = some (.ok, 5, 0, 3) := by
    decide +kernel
  obtain ⟨⟨report, states⟩, searched, counted⟩ := Option.map_eq_some_iff.mp run
  obtain ⟨result, searched, ended⟩ := Option.bind_eq_some_iff.mp searched
  cases result with
  | error error => cases ended
  | ok outcome =>
    cases Option.some.inj ended
    simp only [Prod.mk.injEq] at counted
    obtain ⟨ok, visited, complete, length⟩ := counted
    cases accepted : ofModel twoWriters .default with
    | error error =>
      simp [Model.completedStates, accepted] at searched
    | ok e =>
      obtain ⟨whole, short⟩ := enumerationListsCompleted accepted (by decide) searched ok complete
        (Nat.le_refl 20)
      obtain ⟨found, listed, same, sorted⟩ := whole 5 (by omega)
      refine ⟨e, rfl, ⟨found, listed, ?_, sorted⟩, short 4 (by omega)⟩
      rw [← length, ← same, List.length_map]

end Explorer

end BytecodeChecker
