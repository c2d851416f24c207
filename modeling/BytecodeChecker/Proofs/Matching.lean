import Mathlib.Data.List.Permutation
import BytecodeChecker.Proofs.Decisions
import BytecodeChecker.Proofs.Worklist

/-! Matching of states. Two paths that stand at decisions with the same machine, the same running
thread and the same place in the event tree have the same future, so that a search may leave the
second one out. -/
namespace BytecodeChecker

def State.withoutDepth (s : State) : State := { s with depth := 0 }

def Violation.outcome (v : Violation) : Failure × State := (v.failure, v.trace.final.withoutDepth)

def Visit.Finishes (visits : List Visit) (finish : Finish) (s : State) : Prop :=
  ∃ v ∈ visits, v.ending = .finished finish ∧ v.state.withoutDepth = s

theorem Visit.completedIff {v : Visit} {s : State} :
    v.completed? = some s ↔ v.ending = .finished .completed ∧ v.state = s := by
  unfold completed?
  constructor
  · intro h
    split at h
    · rename_i ending
      exact ⟨ending, Option.some.inj h⟩
    · cases h
  · rintro ⟨ending, rfl⟩
    rw [ending]

namespace Explorer

variable {e : Explorer} {fuel : Nat}

def matching (e : Explorer) (matching : Bool) : Explorer :=
  { e with config := { e.config with stateMatching := matching } }

theorem matchingMove (b : Bool) (memory : Memory) (p : Progress) :
    (e.matching b).move memory p = e.move memory p := rfl

theorem matchingTransition (b : Bool) (memory : Memory) (p : Progress) :
    (e.matching b).transition memory fuel p = e.transition memory fuel p :=
  transitionSame (matchingMove b memory) fuel p

theorem matchingTransits {b : Bool} {path : Path} {s s' : State} {ending : Ending} :
    (e.matching b).Transits fuel path s s' ending ↔ e.Transits fuel path s s' ending := by
  unfold Transits advance
  simp only [matchingTransition]
  rfl

theorem matchingStarts {b : Bool} {path : Path} {s : State} :
    (e.matching b).Starts fuel path s ↔ e.Starts fuel path s := by
  constructor
  · intro h
    induction h with
    | initial => exact .initial
    | next _ ends chosen goesOn ih => exact .next ih (matchingTransits.mp ends) chosen goesOn
  · intro h
    induction h with
    | initial => exact .initial
    | next _ ends chosen goesOn ih => exact .next ih (matchingTransits.mpr ends) chosen goesOn

theorem matchingReaches {b : Bool} {path : Path} {s : State} {ending : Ending} :
    (e.matching b).Reaches fuel path s ending ↔ e.Reaches fuel path s ending := by
  unfold Reaches
  simp only [matchingStarts, matchingTransits]

theorem matchingBlind (b : Bool) (blind : e.Blind) : (e.matching b).Blind :=
  ⟨⟨blind.standard.peers, blind.standard.guests, blind.standard.tree⟩, blind.calls⟩

theorem startsPush {path : Path} {g : Generator} {s s' : State}
    (starts : e.Starts fuel (path.push g s) s') : applied (path.push g s) s = .ok s' := by
  generalize same : path.push g s = longer at starts
  cases starts with
  | initial => cases congrArg Path.entries same
  | next before ends chosen goesOn =>
    have entries := congrArg Path.entries same
    simp only [Path.push, List.cons.injEq, Entry.mk.injEq] at entries
    obtain ⟨⟨_, rfl, _⟩, _⟩ := entries
    exact goesOn

theorem Blind.childPath (blind : e.Blind) {more : Nat} {path before : Path} {s t : State}
    {g : Generator} {i : Nat} (starts : e.Starts fuel path s)
    (came : e.Reaches more before t (.choice g)) (grows : path.indices = before.indices ++ [i]) :
    i < g.total ∧ path = before.push { g with cursor := some i } t := by
  cases starts with
  | initial => simp at grows
  | next start ends chosen goesOn =>
    obtain ⟨inside, rfl⟩ := Generator.selected chosen
    rw [Path.indicesPush] at grows
    obtain ⟨same, index⟩ := List.append_inj' grows rfl
    cases index
    obtain ⟨rfl, rfl, ended⟩ := blind.reachesUnique ⟨_, start, ends⟩ came same
    cases ended
    exact ⟨inside, rfl⟩

theorem appliedAlike {p q : Path} {g : Generator} {s t s' t' : State}
    (machine : s.toMachine = t.toMachine) (current : s.current = t.current)
    (left : applied (p.push g s) s = .ok s') (right : applied (q.push g t) t = .ok t') :
    s'.toMachine = t'.toMachine ∧ s'.current = t'.current := by
  unfold applied applyChoice at left right
  simp only [Path.lastPush] at left right
  cases chosen : g.chosen? with
  | none => simp [chosen] at left
  | some choice =>
    simp only [chosen] at left right
    rw [machine, current] at left
    split at left
    · cases left
    · split at right
      · cases right
      · cases left
        cases right
        exact ⟨rfl, rfl⟩

theorem pushAlike {p q : Path} (event : p.lastEvent? = q.lastEvent?) (g : Generator) (s t : State) :
    (p.push g s).Alike (q.push g t) := by
  refine ⟨rfl, ?_⟩
  rw [lastOfPush, lastOfPush]
  split
  · rfl
  · exact event

theorem pushPosition {p q : Path} (same : p.eventPosition = q.eventPosition) (g : Generator)
    (s t : State) : (p.push g s).eventPosition = (q.push g t).eventPosition := by
  unfold Path.eventPosition Path.push Path.reached Entry.next
  dsimp only
  split
  · rfl
  · exact same

theorem judgeNothing (plain : e.properties = []) (s : State) (raw : Ending) :
    e.judge s raw = raw := by
  have none : e.brokenProperty? s = none := by simp [brokenProperty?, plain]
  unfold judge
  rw [none]
  split <;> rfl

section Future

variable (blind : e.Blind) {more : Nat} {p q : Path} {s t : State}
  (same : s.key p.eventPosition = t.key q.eventPosition)
include blind same

theorem Blind.eventSame {s' t' : State} (left : e.Starts fuel p s') (right : e.Starts more q t') :
    p.lastEvent? = q.lastEvent? :=
  positionTells blind.standard (blind.startsScripted left) (blind.startsScripted right)
    (congrArg State.Key.position same)

theorem Blind.choiceSame {g f : Generator} (left : e.Reaches fuel p s (.choice g))
    (right : e.Reaches more q t (.choice f)) : g = f := by
  obtain ⟨_, starts, ends⟩ := left
  obtain ⟨_, starts', ends'⟩ := right
  exact decidesUnique blind.standard (blind.eventSame same starts starts')
    (congrArg State.Key.machine same) (congrArg State.Key.current same)
    (transitsDecides blind.standard ends) (transitsDecides blind.standard ends')

theorem Blind.futureSame (plain : e.properties = []) {g g' : Generator} {s' t' : State}
    {ending ending' : Ending} (left : e.Reaches fuel p s (.choice g))
    (right : e.Reaches more q t (.choice g)) (left' : e.Reaches fuel (p.push g' s) s' ending)
    (right' : e.Reaches more (q.push g' t) t' ending') :
    s'.key (p.push g' s).eventPosition = t'.key (q.push g' t).eventPosition ∧
      ending = ending' := by
  obtain ⟨start, starts, ends⟩ := reachesMore left' (Nat.le_max_left fuel more)
  obtain ⟨start', starts', ends'⟩ := reachesMore right' (Nat.le_max_right fuel more)
  obtain ⟨_, before, _⟩ := left
  obtain ⟨_, before', _⟩ := right
  obtain ⟨machine, current⟩ := appliedAlike (congrArg State.Key.machine same)
    (congrArg State.Key.current same) (startsPush starts) (startsPush starts')
  have paths := pushAlike (blind.eventSame same before before') g' s t
  obtain ⟨memory, _, pathLeft, ranLeft⟩ := ends
  obtain ⟨memory', _, pathRight, ranRight⟩ := ends'
  obtain ⟨p', raw, advanceLeft⟩ := advanced ranLeft
  obtain ⟨q', raw', advanceRight⟩ := advanced ranRight
  rw [← pathLeft, ← pathRight] at paths
  obtain ⟨q'', again, alike⟩ := transitionAlike blind.standard paths blind.calls
    (p := ⟨start, 0, []⟩) (q := ⟨start', 0, []⟩) ⟨machine, current, rfl⟩
    (blind.startsWithin starts) advanceLeft.ran
  cases Option.some.inj (again.symm.trans advanceRight.ran)
  have endings : ending = ending' := by
    rw [← advanceLeft.judged, ← advanceRight.judged, judgeNothing plain, judgeNothing plain]
  refine ⟨?_, endings⟩
  unfold State.key
  rw [pushPosition (congrArg State.Key.position same) g' s t, ← advanceLeft.state,
    ← advanceRight.state, alike.machine, alike.current]

end Future

section Visits

variable (blind : e.Blind) (plain : e.properties = []) {visits : List Visit} {m : Memory}
  {report : Report} (matched : (e.matching true).Exhausted fuel visits m report)
  (complete : report.stats.truncated = 0)
include blind matched complete

theorem Blind.visitExpanded {v : Visit} (member : v ∈ visits) : ∃ w ∈ visits, w.key = v.key ∧
    w.ending = v.ending ∧ ∀ g, v.ending = .choice g → w.expanded = true := by
  cases expanded : v.expanded with
  | true => exact ⟨v, member, rfl, rfl, fun _ _ => expanded⟩
  | false =>
    cases ending : v.ending with
    | finished finish => exact ⟨v, member, rfl, ending, nofun⟩
    | choice g =>
      rcases matched.tally.leaves v member expanded g ending with deep | ⟨_, w, found, put, same⟩
      · exact absurd (by simp [cut, ending, deep]) (matched.uncut complete member)
      · obtain ⟨_, f, choice⟩ := matched.tally.expands w found put
        have left := matchingReaches.mp (matched.explored.reached w found)
        have right := matchingReaches.mp (matched.explored.reached v member)
        rw [choice] at left
        rw [ending] at right
        exact ⟨w, found, same, by rw [choice, blind.choiceSame same left right], fun _ _ => put⟩

include plain

/- By induction on the choices: where a path leads, a visit of the matching search leads too. -/
theorem Blind.visitCovered {more : Nat} {path : Path} {s : State} {ending : Ending}
    (reached : e.Reaches more path s ending) : ∃ w ∈ visits, w.key = s.key path.eventPosition ∧
      w.ending = ending ∧ ∀ g, ending = .choice g → w.expanded = true := by
  obtain ⟨start, starts, ends⟩ := reached
  induction starts generalizing s ending with
  | initial =>
    rcases matched.explored.root with ⟨v, member, empty⟩ | next
    · obtain ⟨here, rfl, rfl⟩ := blind.reachesUnique
        (matchingReaches.mp (matched.explored.reached v member)) ⟨_, .initial, ends⟩ empty
      obtain ⟨w, found, same, covered⟩ := blind.visitExpanded matched complete member
      refine ⟨w, found, ?_, covered⟩
      rw [same, Visit.key, here]
    · cases next
  | @next path s t s'' g g' i before ended chosen goesOn ih =>
    obtain ⟨w, member, same, ending', expanded⟩ := ih ended
    obtain ⟨inside, rfl⟩ := Generator.selected chosen
    rcases matched.explored.children w member (expanded g rfl) g ending' i inside with
      ⟨v, found, grown⟩ | ⟨_, next, _⟩
    · have came := matchingReaches.mp (matched.explored.reached w member)
      rw [ending'] at came
      have reached := matchingReaches.mp (matched.explored.reached v found)
      obtain ⟨_, here⟩ := blind.childPath reached.choose_spec.1 came grown
      rw [here] at reached
      obtain ⟨key, same'⟩ := blind.futureSame same plain came ⟨_, before, ended⟩ reached
        ⟨_, .next before ended chosen goesOn, ends⟩
      obtain ⟨u, listed, onto, covered⟩ := blind.visitExpanded matched complete found
      rw [same'] at covered
      exact ⟨u, listed, by rw [onto, Visit.key, here, key], covered⟩
    · cases next

end Visits

theorem modelMatching {model : Model} {config : Config} {matched plain : Explorer}
    (accepted : ofModel model { config with stateMatching := true } = .ok matched)
    (accepted' : ofModel model { config with stateMatching := false } = .ok plain) :
    matched = plain.matching true ∧ plain = plain.matching false := by
  obtain ⟨p, hp, h⟩ := Load.bindOk.mp accepted
  obtain ⟨r, hr, h⟩ := Load.bindOk.mp h
  obtain ⟨p', hp', h'⟩ := Load.bindOk.mp accepted'
  obtain ⟨r', hr', h'⟩ := Load.bindOk.mp h'
  cases hp.symm.trans hp'
  cases hr.symm.trans hr'
  cases made h
  cases made h'
  exact ⟨rfl, rfl⟩

theorem Exhausted.completedListed {visits : List Visit} {m : Memory} {report : Report}
    (exhausted : e.Exhausted fuel visits m report) (s : State) :
    s ∈ m.completedStates.map State.withoutDepth ↔ Visit.Finishes visits .completed s := by
  rw [exhausted.tally.completed]
  simp only [List.mem_map, List.mem_reverse, List.mem_filterMap]
  constructor
  · rintro ⟨t, ⟨v, member, found⟩, rfl⟩
    obtain ⟨ending, rfl⟩ := Visit.completedIff.mp found
    exact ⟨v, member, ending, rfl⟩
  · rintro ⟨v, member, ending, rfl⟩
    exact ⟨v.state, ⟨v, member, Visit.completedIff.mpr ⟨ending, rfl⟩⟩, rfl⟩

theorem Exhausted.violationsListed {visits : List Visit} {m : Memory} {report : Report}
    (exhausted : e.Exhausted fuel visits m report) (failure : Failure) (s : State) :
    (failure, s) ∈ report.violations.map Violation.outcome ↔
      Visit.Finishes visits (.violated failure) s := by
  rw [exhausted.violationsVisited]
  simp only [List.mem_map, List.mem_reverse, List.mem_filterMap]
  constructor
  · rintro ⟨violation, ⟨v, member, found⟩, same⟩
    obtain ⟨ending, trace⟩ := Visit.violationIff.mp found
    cases same
    exact ⟨v, member, ending, by rw [trace]; rfl⟩
  · rintro ⟨v, member, ending, rfl⟩
    exact ⟨⟨failure, v.path.trace v.state⟩,
      ⟨v, member, Visit.violationIff.mpr ⟨ending, rfl⟩⟩, rfl⟩

section Both

variable {visits visits' : List Visit} {m m' : Memory} {report report' : Report} {more : Nat}
  (blind : e.Blind) (matched : (e.matching true).Exhausted fuel visits m report)
  (plain : (e.matching false).Exhausted more visits' m' report')
include blind matched plain

theorem Exhausted.visitsPlain {v : Visit} (member : v ∈ visits) :
    ∃ w ∈ visits', w.path = v.path ∧ w.state = v.state ∧ w.ending = v.ending := by
  have reached := matchingReaches.mp (matched.explored.reached v member)
  refine plain.visitsReached (matchingBlind false blind) rfl (matchingReaches.mpr reached) ?_
  have admitted := matched.visitAdmitted member
  unfold Config.Admits at admitted
  rwa [Visit.choices, Path.indicesLength] at admitted

theorem Exhausted.fewerVisits : visits.length ≤ visits'.length := by
  have distinct : (visits.map Visit.choices).Nodup :=
    List.pairwise_map.mpr (matched.explored.sorted.imp fun less => (ne_of_lt less).symm)
  have among : visits.map Visit.choices ⊆ visits'.map Visit.choices := by
    intro choices listed
    obtain ⟨v, member, rfl⟩ := List.mem_map.mp listed
    obtain ⟨w, found, same, _⟩ := matched.visitsPlain blind plain member
    exact List.mem_map.mpr ⟨w, found, congrArg Path.indices same⟩
  simpa using (distinct.subperm among).length_le

theorem Exhausted.finishesSame (unwatched : e.properties = [])
    (complete : report.stats.truncated = 0) (finish : Finish) (s : State) :
    Visit.Finishes visits finish s ↔ Visit.Finishes visits' finish s := by
  constructor
  · rintro ⟨v, member, ending, rfl⟩
    obtain ⟨w, found, _, state, ending'⟩ := matched.visitsPlain blind plain member
    exact ⟨w, found, ending'.trans ending, by rw [state]⟩
  · rintro ⟨v, member, ending, rfl⟩
    have reached := matchingReaches.mp (plain.explored.reached v member)
    obtain ⟨w, found, key, ending', _⟩ := blind.visitCovered unwatched matched complete reached
    refine ⟨w, found, ending'.trans ending, stateEq ?_ ?_ rfl⟩
    · exact congrArg State.Key.machine key
    · exact congrArg State.Key.current key

end Both

theorem matchingKeepsOutcomes {model : Model} {config : Config} {matched plain : Explorer}
    {m m' : Memory} {report report' : Report} {more : Nat}
    (accepted : ofModel model { config with stateMatching := true } = .ok matched)
    (accepted' : ofModel model { config with stateMatching := false } = .ok plain)
    (unasked : Builtin.isCompletelyCoveredSymbol ∉ Load.callees model.methods)
    (all : config.stopOnFirstViolation = false) (unbounded : config.maxStates = 0)
    (checked : matched.check fuel = some (m, .ok report))
    (checked' : plain.check more = some (m', .ok report'))
    (complete : report.stats.truncated = 0) :
    (∀ s, s ∈ m.completedStates.map State.withoutDepth ↔
      s ∈ m'.completedStates.map State.withoutDepth) ∧
    (∀ outcome, outcome ∈ report.violations.map Violation.outcome ↔
      outcome ∈ report'.violations.map Violation.outcome) ∧
    report.stats.states ≤ report'.stats.states := by
  have unwatched := (modelSource accepted').properties
  have blind : plain.Blind := modelBlind accepted' unasked plain.properties
  have settings := (modelSource accepted').config
  obtain ⟨rfl, same⟩ := modelMatching accepted accepted'
  rw [same] at checked'
  have all' : plain.config.stopOnFirstViolation = false := by rw [settings]; exact all
  have unbounded' : plain.Unbounded := (modelSource accepted').unmetered.unbounded (settings ▸ unbounded)
  obtain ⟨visits, full⟩ := (matchingBlind true blind).checkExhausts all' unbounded' checked
  obtain ⟨visits', full'⟩ := (matchingBlind false blind).checkExhausts all' unbounded' checked'
  refine ⟨?_, ?_, ?_⟩
  · intro s
    rw [full.completedListed, full'.completedListed]
    exact full.finishesSame blind full' unwatched complete .completed s
  · rintro ⟨failure, s⟩
    rw [full.violationsListed, full'.violationsListed]
    exact full.finishesSame blind full' unwatched complete (.violated failure) s
  · rw [full.stats, full'.stats, full.tally.states, full'.tally.states]
    exact full.fewerVisits blind full'

def readers : Model :=
  ((Model.start "readers" "Pair.main()V").withMethod "Pair.main()V" 0
    [.getStatic "Pair.x", .getStatic "Pair.x", .getStatic "Pair.x", .ret none]).withThread
    "Pair.other()V" [.getStatic "Pair.x", .getStatic "Pair.x", .ret none]

theorem readersMatched : ∃ matched plain m m' report report',
    ofModel readers { exhaustive with stateMatching := true } = .ok matched ∧
    ofModel readers { exhaustive with stateMatching := false } = .ok plain ∧
    matched.check 40 = some (m, .ok report) ∧ plain.check 40 = some (m', .ok report') ∧
    report.stats.states < report'.stats.states ∧
    ∀ s, s ∈ m.completedStates.map State.withoutDepth ↔
      s ∈ m'.completedStates.map State.withoutDepth := by
  obtain ⟨matched, m, report, accepted, checked, passed⟩ := checkRun readers
    { exhaustive with stateMatching := true } (fun e => e) 40
    (fun _ _ r => r.stats.states == 17 && r.stats.truncated == 0) (by cbv)
  obtain ⟨plain, m', report', accepted', checked', passed'⟩ := checkRun readers
    { exhaustive with stateMatching := false } (fun e => e) 40 (fun _ _ r => r.stats.states == 19)
    (by decide +kernel)
  simp only [Bool.and_eq_true, beq_iff_eq] at passed passed'
  obtain ⟨completed, _, _⟩ := matchingKeepsOutcomes accepted accepted' (by decide) rfl rfl checked
    checked' passed.2
  exact ⟨matched, plain, m, m', report, report', accepted, accepted', checked, checked', by omega,
    completed⟩

end Explorer

end BytecodeChecker
