import Mathlib.Data.Set.Card
import BytecodeChecker.Model.Builder
import BytecodeChecker.Proofs.Frontier

/-! What an exhaustive search reports: the violations of all paths that are not too long, each once
and in the order of the choices, and the number of paths that a bound cut. -/
namespace BytecodeChecker

def Config.Admits (c : Config) (choices : List Nat) : Prop :=
  c.maxDepth = 0 ∨ choices.length ≤ c.maxDepth

theorem Visit.violationIff {v : Visit} {violation : Violation} : v.violation? = some violation ↔
    v.ending = .finished (.violated violation.failure) ∧ violation.trace = v.path.trace v.state := by
  obtain ⟨failure, trace⟩ := violation
  unfold violation?
  constructor
  · intro h
    split at h
    · rename_i ending
      cases Option.some.inj h
      exact ⟨ending, rfl⟩
    · cases h
  · rintro ⟨ending, rfl⟩
    rw [ending]

namespace Explorer

variable {e : Explorer} {fuel : Nat} {visits : List Visit} {m : Memory} {report : Report}

def CutAtDepth (e : Explorer) : Set (List Nat) :=
  {choices | 0 < e.config.maxDepth ∧ choices.length = e.config.maxDepth ∧
    ∃ s generator total, e.Replays choices s (.pending generator total)}

def CutInside (e : Explorer) : Set (List Nat) :=
  {choices | e.config.Admits choices ∧ ∃ s, e.Replays choices s (.finished .stepLimit)}

def leftDeep (e : Explorer) (v : Visit) : Bool :=
  match v.ending with
  | .choice _ => e.TooDeep v.path
  | .finished _ => false

def stepsOut (v : Visit) : Bool :=
  match v.ending with
  | .finished .stepLimit => true
  | _ => false

theorem cutParts (visits : List Visit) :
    visits.countP e.cut = visits.countP e.leftDeep + visits.countP stepsOut := by
  induction visits with
  | nil => rfl
  | cons v rest ih =>
    obtain ⟨path, state, ending, expanded⟩ := v
    simp only [List.countP_cons, ih]
    cases ending with
    | choice g =>
      by_cases deep : e.TooDeep path <;> simp [cut, leftDeep, stepsOut, deep]
      omega
    | finished finish =>
      cases finish <;> simp [cut, leftDeep, stepsOut]; omega

theorem Explored.countChoices {next : Option (List Nat)} (log : e.Explored fuel visits next)
    (kind : Visit → Bool) {listed : Set (List Nat)}
    (same : ∀ choices, choices ∈ listed ↔ ∃ v ∈ visits, kind v = true ∧ v.choices = choices) :
    listed.encard = visits.countP kind := by
  have distinct : ((visits.filter kind).map Visit.choices).Nodup := by
    refine List.pairwise_map.mpr (List.Pairwise.filter kind ?_)
    exact log.sorted.imp fun less => (ne_of_lt less).symm
  have all : listed = ((visits.filter kind).map Visit.choices).toFinset := by
    ext choices
    simp [same, and_assoc]
  rw [all, Set.encard_coe_eq_coe_finsetCard, List.toFinset_card_of_nodup distinct, List.length_map,
    List.countP_eq_length_filter]

namespace Exhausted

variable (exhausted : e.Exhausted fuel visits m report)
include exhausted

theorem visitAdmitted {v : Visit} (member : v ∈ visits) : e.config.Admits v.choices := by
  rcases Nat.eq_zero_or_pos e.config.maxDepth with free | bounded
  · exact .inl free
  · exact .inr (exhausted.visitDepth member bounded)

theorem violationsVisited : report.violations = (visits.filterMap Visit.violation?).reverse := by
  rw [← exhausted.tally.violations, List.reverse_reverse]

theorem violationsSorted :
    report.violations.Pairwise fun v w => v.trace.choices < w.trace.choices := by
  rw [exhausted.violationsVisited, List.pairwise_reverse, List.pairwise_filterMap]
  refine exhausted.explored.sorted.imp ?_
  intro late early less v found w found'
  rw [(Visit.violationIff.mp found).2, (Visit.violationIff.mp found').2, Path.traceChoices,
    Path.traceChoices]
  exact less

variable (blind : e.Blind) (unmatched : e.config.stateMatching = false)
include blind unmatched

theorem replaysVisited {choices : List Nat} {s : State} {stop : PathEnd} :
    e.config.Admits choices ∧ e.Replays choices s stop ↔
      ∃ v ∈ visits, v.choices = choices ∧ v.state = s ∧ pathEnd v.ending = stop := by
  rw [blind.replaysIff]
  constructor
  · rintro ⟨admitted, more, path, ending, reached, rfl, rfl⟩
    unfold Config.Admits at admitted
    rw [path.indicesLength] at admitted
    obtain ⟨v, member, rfl, rfl, rfl⟩ := exhausted.visitsReached blind unmatched reached admitted
    exact ⟨v, member, rfl, rfl, rfl⟩
  · rintro ⟨v, member, rfl, rfl, rfl⟩
    exact ⟨exhausted.visitAdmitted member, fuel, v.path, v.ending,
      exhausted.explored.reached v member, rfl, rfl⟩

theorem violationReplayed {choices : List Nat} {failure : Failure} {s : State} :
    e.config.Admits choices ∧ e.Replays choices s (.finished (.violated failure)) ↔
      ∃ v ∈ report.violations, v.failure = failure ∧ v.trace.choices = choices ∧ v.trace.final = s := by
  rw [exhausted.replaysVisited blind unmatched, exhausted.violationsVisited]
  constructor
  · rintro ⟨v, member, rfl, rfl, stop⟩
    cases ending : v.ending with
    | choice g =>
      rw [ending] at stop
      cases stop
    | finished finish =>
      rw [ending] at stop
      cases stop
      refine ⟨⟨failure, v.path.trace v.state⟩, ?_, rfl, v.path.traceChoices v.state, rfl⟩
      rw [List.mem_reverse, List.mem_filterMap]
      exact ⟨v, member, Visit.violationIff.mpr ⟨ending, rfl⟩⟩
  · rintro ⟨violation, listed, rfl, rfl, rfl⟩
    rw [List.mem_reverse, List.mem_filterMap] at listed
    obtain ⟨v, member, found⟩ := listed
    obtain ⟨ending, trace⟩ := Visit.violationIff.mp found
    refine ⟨v, member, ?_, ?_, ?_⟩
    · rw [trace, Path.traceChoices]
      rfl
    · rw [trace]
      rfl
    · rw [ending]
      rfl

/- A decision is cut at the greatest depth only, since none below it is put on the path. -/
theorem leftDeepIff (choices : List Nat) :
    choices ∈ e.CutAtDepth ↔ ∃ v ∈ visits, e.leftDeep v = true ∧ v.choices = choices := by
  constructor
  · rintro ⟨bounded, length, s, generator, total, replays⟩
    obtain ⟨v, member, rfl, rfl, stop⟩ :=
      (exhausted.replaysVisited blind unmatched).mp ⟨.inr (Nat.le_of_eq length), replays⟩
    refine ⟨v, member, ?_, rfl⟩
    have deep : e.TooDeep v.path := ⟨bounded, by rw [← v.path.indicesLength]; exact Nat.le_of_eq length.symm⟩
    unfold leftDeep
    cases ending : v.ending with
    | choice g => simpa using deep
    | finished finish =>
      rw [ending] at stop
      cases stop
  · rintro ⟨v, member, deep, rfl⟩
    unfold leftDeep at deep
    split at deep
    · rename_i g ending
      obtain ⟨bounded, far⟩ := of_decide_eq_true deep
      have near := exhausted.visitDepth member bounded
      have length : v.choices.length = v.path.depth := v.path.indicesLength
      obtain ⟨_, replays⟩ :=
        (exhausted.replaysVisited blind unmatched).mpr ⟨v, member, rfl, rfl, rfl⟩
      rw [ending] at replays
      exact ⟨bounded, by omega, _, _, _, replays⟩
    · cases deep

theorem stepsOutIff (choices : List Nat) :
    choices ∈ e.CutInside ↔ ∃ v ∈ visits, stepsOut v = true ∧ v.choices = choices := by
  constructor
  · rintro ⟨admitted, s, replays⟩
    obtain ⟨v, member, rfl, rfl, stop⟩ :=
      (exhausted.replaysVisited blind unmatched).mp ⟨admitted, replays⟩
    refine ⟨v, member, ?_, rfl⟩
    unfold stepsOut
    cases ending : v.ending with
    | choice g =>
      rw [ending] at stop
      cases stop
    | finished finish =>
      rw [ending] at stop
      cases stop
      rfl
  · rintro ⟨v, member, out, rfl⟩
    unfold stepsOut at out
    split at out
    · rename_i ending
      obtain ⟨admitted, replays⟩ :=
        (exhausted.replaysVisited blind unmatched).mpr ⟨v, member, rfl, rfl, rfl⟩
      rw [ending] at replays
      exact ⟨admitted, _, replays⟩
    · cases out

theorem cutCount : e.CutAtDepth.encard + e.CutInside.encard = report.stats.truncated := by
  have deep := exhausted.explored.countChoices e.leftDeep (exhausted.leftDeepIff blind unmatched)
  have inside := exhausted.explored.countChoices stepsOut (exhausted.stepsOutIff blind unmatched)
  rw [deep, inside, exhausted.stats, exhausted.tally.truncated, cutParts]
  rfl

end Exhausted

theorem checkReportsReplays {model : Model} {config : Config}
    (accepted : ofModel model config = .ok e)
    (unasked : Builtin.isCompletelyCoveredSymbol ∉ Load.callees model.methods)
    (properties : List Property) (all : config.stopOnFirstViolation = false)
    (unmatched : config.stateMatching = false) (unbounded : config.maxStates = 0)
    (checked : (e.watching properties).check fuel = some (m, .ok report)) :
    (∀ choices failure s, config.Admits choices ∧
        (e.watching properties).Replays choices s (.finished (.violated failure)) ↔
      ∃ v ∈ report.violations, v.failure = failure ∧ v.trace.choices = choices ∧
        v.trace.final = s) ∧
    (report.violations.Pairwise fun v w => v.trace.choices < w.trace.choices) ∧
    (e.watching properties).CutAtDepth.encard + (e.watching properties).CutInside.encard =
      report.stats.truncated := by
  have same : (e.watching properties).config = config := (modelSource accepted).config
  have blind := modelBlind accepted unasked properties
  rw [← same] at all unmatched unbounded ⊢
  have unmetered : (e.watching properties).Unmetered := (modelSource accepted).unmetered
  obtain ⟨visits, exhausted⟩ := blind.checkExhausts all (unmetered.unbounded unbounded) checked
  refine ⟨?_, exhausted.violationsSorted, exhausted.cutCount blind unmatched⟩
  intro choices failure s
  exact exhausted.violationReplayed blind unmatched

theorem searchRun (model : Model) (config : Config)
    (search : Explorer → Option (Memory × Except CheckError Report)) (test : Explorer → Memory → Report → Bool)
    (h : ((ofModel model config).toOption.bind fun e =>
      (search e).bind fun run => run.2.toOption.map (test e run.1)) = some true) :
    ∃ e m report, ofModel model config = .ok e ∧ search e = some (m, .ok report) ∧ test e m report = true := by
  obtain ⟨e, made, h⟩ := Option.bind_eq_some_iff.mp h
  obtain ⟨⟨m, result⟩, ran, h⟩ := Option.bind_eq_some_iff.mp h
  obtain ⟨report, ended, passed⟩ := Option.map_eq_some_iff.mp h
  cases built : ofModel model config with
  | error error => simp [built, Except.toOption] at made
  | ok e' =>
    cases result with
    | error error => simp [Except.toOption] at ended
    | ok report' =>
      simp only [built, Except.toOption, Option.some.injEq] at made ended
      subst made ended
      exact ⟨e', m, report', rfl, ran, passed⟩

theorem checkRun (model : Model) (config : Config) (view : Explorer → Explorer) (fuel : Nat)
    (test : Explorer → Memory → Report → Bool)
    (h : ((ofModel model config).toOption.bind fun e =>
      ((view e).check fuel).bind fun run => run.2.toOption.map (test e run.1)) = some true) :
    ∃ e m report, ofModel model config = .ok e ∧
      (view e).check fuel = some (m, .ok report) ∧ test e m report = true :=
  searchRun model config (fun e => (view e).check fuel) test h

def exhaustive : Config := { Config.default with stopOnFirstViolation := false }

def race : Model :=
  ((Model.start "race" "Race.main()V").withMethod "Race.main()V" 0
    [.getStatic "Race.x", .branch .eq 4, .pushNull, .throw, .ret none]).withThread "Race.write()V"
    [.pushLong 1, .putStatic "Race.x", .ret none]

def unwritten : Property := ⟨"unwritten", fun s => s.staticInt? "Race.x" != some 1⟩

def oneDecision : Config := { Config.default with stopOnFirstViolation := false, maxDepth := 1 }

theorem raceReports :
    ∃ e m report, ofModel race oneDecision = .ok e ∧
      (e.watching [unwritten]).check 20 = some (m, .ok report) ∧
      report.violations.map (·.trace.choices) = [[0]] ∧
      (∃ s failure, (e.watching [unwritten]).Replays [0] s (.finished (.violated failure))) ∧
      (e.watching [unwritten]).CutAtDepth.encard + (e.watching [unwritten]).CutInside.encard = 1 := by
  obtain ⟨e, m, report, accepted, checked, passed⟩ := checkRun race oneDecision
    (·.watching [unwritten]) 20 (fun _ _ r =>
      r.violations.map (·.trace.choices) == [[0]] && r.stats.truncated == 1) (by decide +kernel)
  simp only [Bool.and_eq_true, beq_iff_eq] at passed
  obtain ⟨found, _, cut⟩ := checkReportsReplays accepted (by decide) [unwritten] rfl rfl rfl checked
  refine ⟨e, m, report, accepted, checked, passed.1, ?_, by rw [cut, passed.2]; rfl⟩
  have listed : [0] ∈ report.violations.map (·.trace.choices) := by simp [passed.1]
  obtain ⟨v, member, here⟩ := List.mem_map.mp listed
  exact ⟨v.trace.final, v.failure, ((found [0] v.failure v.trace.final).mpr
    ⟨v, member, rfl, here, rfl⟩).2⟩

end Explorer

end BytecodeChecker
