import BytecodeChecker.Proofs.Cutoff
import BytecodeChecker.Proofs.Faults
import BytecodeChecker.Proofs.Itinerary

/-! The limit on the number of states. It is compared with the number of transitions before the search looks for
a choice that is left. A search that makes as many transitions as the limit allows is reported as cut, whether or
not there was anything left to cut. -/
namespace BytecodeChecker.Explorer

inductive Traverses (e : Explorer) : Nat → Turn → Prop where
  | start : Traverses e 0
      (.goOn ⟨Memory.empty.note (.started e.program.name), []⟩ (State.initial e.program))
  | next {n fuel : Nat} {search : Search} {s s' : State} {memory : Memory} {ending : Ending}
      (before : Traverses e n (.goOn search s))
      (ran : e.advance fuel search.memory s = some ⟨memory, s', .ok ending⟩) :
      Traverses e (n + 1) (e.turn s' ending { search with memory })

def Performs (e : Explorer) (n : Nat) : Prop := ∃ turn, e.Traverses n turn

def Exceeds (e : Explorer) (n : Nat) : Prop := ∃ search s, e.Traverses n (.goOn search s)

def Yields (e : Explorer) (report : Report) : Prop := ∃ fuel m, e.check fuel = some (m, .ok report)

variable {e : Explorer} {n k : Nat} {m : Memory} {search : Search} {s : State} {turn : Turn} {report : Report}

theorem traversesUnique {turn' : Turn} (left : e.Traverses n turn) (right : e.Traverses n turn') : turn = turn' := by
  induction left generalizing turn' with
  | start =>
    cases right
    rfl
  | @next n fuel search s s' memory ending before ran ih =>
    cases right with
    | @next _ fuel' _ _ _ _ _ before' ran' =>
      cases ih before'
      have same := (advanceMore ran (Nat.le_max_left fuel fuel')).symm.trans
        (advanceMore ran' (Nat.le_max_right fuel fuel'))
      cases Option.some.inj same
      rfl

theorem Performs.exceeds (performs : e.Performs (n + 1)) : e.Exceeds n := by
  obtain ⟨turn, traverses⟩ := performs
  cases traverses with
  | next before ran => exact ⟨_, _, before⟩

theorem Performs.fewer (performs : e.Performs k) (fewer : n ≤ k) : e.Performs n := by
  induction k with
  | zero => rwa [Nat.le_zero.mp fewer]
  | succ k ih =>
    rcases Nat.le_succ_iff.mp fewer with less | rfl
    · obtain ⟨search, s, traverses⟩ := performs.exceeds
      exact ih ⟨_, traverses⟩ less
    · exact performs

theorem Traverses.last {result : Except CheckError Report} (stopped : e.Traverses n (.stop m result))
    (performs : e.Performs k) : k ≤ n := by
  by_contra more
  obtain ⟨search, s, goesOn⟩ := (performs.fewer (Nat.lt_of_not_le more)).exceeds
  cases traversesUnique stopped goesOn

theorem Traverses.exceeds {result : Except CheckError Report} (stopped : e.Traverses n (.stop m result)) :
    e.Exceeds k ↔ k < n := by
  constructor
  · rintro ⟨search, s, goesOn⟩
    refine Nat.lt_of_le_of_ne (stopped.last ⟨_, goesOn⟩) fun same => ?_
    subst same
    cases traversesUnique stopped goesOn
  · intro less
    exact Performs.exceeds (Performs.fewer ⟨_, stopped⟩ less)

def resume (e : Explorer) (fuel turns : Nat) : Turn → Option (Memory × Except CheckError Report)
  | .goOn search s => e.explore fuel turns search s
  | .stop m result => some (m, result)

theorem traversesResume (traverses : e.Traverses n turn) :
    ∃ least, ∀ fuel, least ≤ fuel → ∀ turns, e.explore fuel (n + turns)
      ⟨Memory.empty.note (.started e.program.name), []⟩ (State.initial e.program) = e.resume fuel turns turn := by
  induction traverses with
  | start => exact ⟨0, fun fuel _ turns => by rw [Nat.zero_add]; rfl⟩
  | @next n fuel search s s' memory ending before ran ih =>
    obtain ⟨least, resumes⟩ := ih
    refine ⟨max least fuel, fun more enough turns => ?_⟩
    rw [Nat.add_right_comm, Nat.add_assoc, resumes more (by omega) (turns + 1)]
    have ran' := advanceMore ran (Nat.le_trans (Nat.le_max_right least fuel) enough)
    cases went : e.turn s' ending { search with memory } with
    | goOn search' s'' => exact exploreOnward ran' went turns
    | stop m result => exact exploreStops ran' went turns

theorem traversesYields (traverses : e.Traverses n (.stop m (.ok report))) : e.Yields report := by
  obtain ⟨least, resumes⟩ := traversesResume traverses
  have enough : least ≤ n + least := Nat.le_add_left _ _
  exact ⟨n + least, m, resumes (n + least) enough least⟩

theorem exploreTraverses {fuel turns : Nat} (before : e.Traverses n (.goOn search s))
    (h : e.explore fuel turns search s = some (m, .ok report)) : ∃ k, e.Traverses k (.stop m (.ok report)) := by
  induction turns generalizing n search s with
  | zero => cases h
  | succ turns ih =>
    obtain ⟨memory, s', ending, ran, rest⟩ := exploreTurns h
    have after := Traverses.next before ran
    rcases rest with ⟨search', s'', went, later⟩ | stopped
    · rw [went] at after
      exact ih after later
    · rw [stopped] at after
      exact ⟨n + 1, after⟩

theorem Yields.traverses (yields : e.Yields report) : ∃ n m, e.Traverses n (.stop m (.ok report)) := by
  obtain ⟨fuel, m, ran⟩ := yields
  obtain ⟨n, traverses⟩ := exploreTraverses .start ran
  exact ⟨n, m, traverses⟩

theorem yieldsUnique {report' : Report} (left : e.Yields report) (right : e.Yields report') : report = report' := by
  obtain ⟨n, m, stopped⟩ := left.traverses
  obtain ⟨n', m', stopped'⟩ := right.traverses
  have same := Nat.le_antisymm (stopped'.last ⟨_, stopped⟩) (stopped.last ⟨_, stopped'⟩)
  subst same
  cases traversesUnique stopped stopped'
  rfl

section Counted

variable (standard : e.Standard)
include standard

theorem traversesTold (traverses : e.Traverses n (.goOn search s)) :
    search.Told ∧ search.memory.rounds.length = n := by
  generalize same : Turn.goOn search s = turn at traverses
  induction traverses generalizing search s with
  | start =>
    cases same
    exact ⟨⟨rfl, rfl⟩, rfl⟩
  | @next n fuel earlier _ s' memory ending before ran ih =>
    obtain ⟨told, length⟩ := ih rfl
    have rounds := congrArg List.length (transitionRounds standard ran)
    have turned := turned (e := e) s' ending { earlier with memory }
    rw [← same] at turned
    obtain ⟨told', kept⟩ := turnOnward (transitionTold standard told ran) turned
    exact ⟨told', by rw [kept, rounds, List.length_append, length]; rfl⟩

theorem traversesRelates (traverses : e.Traverses n (.stop m (.ok report))) :
    e.Relates m report ∧ report.stats.states = n := by
  generalize same : Turn.stop m (.ok report) = turn at traverses
  cases traverses with
  | start => cases same
  | @next n fuel earlier _ s' memory ending before ran =>
    obtain ⟨told, length⟩ := traversesTold standard before
    have rounds := congrArg List.length (transitionRounds standard ran)
    have turned := turned (e := e) s' ending { earlier with memory }
    rw [← same] at turned
    obtain ⟨relates, kept⟩ := turnStopped (transitionTold standard told ran) turned
    exact ⟨relates, by rw [relates.states, kept, rounds, List.length_append, length]; rfl⟩

theorem traversesStarts (traverses : e.Traverses n (.goOn search s)) :
    ∃ fuel, e.Starts fuel search.memory.path s := by
  generalize same : Turn.goOn search s = turn at traverses
  induction traverses generalizing search s with
  | start =>
    cases same
    exact ⟨0, .initial⟩
  | @next n fuel _ _ _ _ _ before ran ih =>
    obtain ⟨fuel', starts⟩ := ih rfl
    have ran' := advanceMore ran (Nat.le_max_left fuel fuel')
    exact ⟨_, turnStarts standard (startsMore starts (Nat.le_max_right fuel fuel')) ran' same.symm⟩

end Counted

theorem traversesReports (loaded : e.Loaded) (traverses : e.Traverses n turn) :
    (∃ search s, turn = .goOn search s) ∨ ∃ m report, turn = .stop m (.ok report) := by
  cases traverses with
  | start => exact .inl ⟨_, _, rfl⟩
  | @next n fuel search s s' memory ending before ran =>
    cases went : e.turn s' ending { search with memory } with
    | goOn search' s'' => exact .inl ⟨_, _, rfl⟩
    | stop m result =>
      cases result with
      | ok report => exact .inr ⟨_, _, rfl⟩
      | error error =>
        obtain ⟨fuel', starts⟩ := traversesStarts loaded.standard before
        have ran' := advanceMore ran (Nat.le_max_left fuel fuel')
        obtain ⟨path, snapshot, forks, failed⟩ := turnFails loaded.standard
          (startsMore starts (Nat.le_max_right fuel fuel')) ran' went
        obtain ⟨s, goesOn⟩ := forksFollowed loaded forks
        cases failed.symm.trans goesOn

section Cut

variable (standard : e.Standard) (unmetered : e.Unmetered) (all : e.config.stopOnFirstViolation = false)
  (unbounded : e.config.maxStates = 0)
include standard unmetered all unbounded

section Turn

variable {fuel : Nat} {s' : State} {memory : Memory} {ending : Ending} (before : e.Traverses n (.goOn search s))
  (ran : e.advance fuel search.memory s = some ⟨memory, s', .ok ending⟩)
include before ran

theorem limitedTurn (below : n + 1 < k) :
    (e.limited k false).turn s' ending { search with memory } = e.turn s' ending { search with memory } := by
  have standard' : (e.limited k false).Standard := limitedStandard standard
  have ran' : (e.limited k false).advance fuel search.memory s = some ⟨memory, s', .ok ending⟩ :=
    (limitedAdvance search.memory s).trans ran
  obtain ⟨told, length⟩ := traversesTold standard before
  have goesOn := turnUnhalted standard' unmetered told ran'
  rw [limitedSettle, transitionRounds standard ran] at goesOn
  rw [turnUnhalted standard unmetered told ran (by simp [Round.halt?, all, unbounded])]
  apply goesOn
  simp [Round.halt?, limited, length, below]

omit all unbounded in
theorem limitedTurnCut : (e.limited (n + 1) false).turn s' ending { search with memory } =
    conclude { e.settle s' ending { search with memory } with
      memory := (e.settle s' ending { search with memory }).memory.note (.bound .states) } .stateLimit := by
  have standard' : (e.limited (n + 1) false).Standard := limitedStandard standard
  have ran' : (e.limited (n + 1) false).advance fuel search.memory s = some ⟨memory, s', .ok ending⟩ :=
    (limitedAdvance search.memory s).trans ran
  obtain ⟨told, length⟩ := traversesTold standard before
  rw [turnRounds standard' unmetered told ran', limitedSettle, transitionRounds standard ran]
  simp [limited, length]

end Turn

theorem limitedTraverses (below : n < k) : (e.limited k false).Traverses n turn ↔ e.Traverses n turn := by
  induction n generalizing turn with
  | zero =>
    constructor
    · rintro ⟨⟩
      exact .start
    · rintro ⟨⟩
      exact .start
  | succ n ih =>
    have earlier (turn : Turn) : (e.limited k false).Traverses n turn ↔ e.Traverses n turn := ih (by omega)
    constructor
    · intro traverses
      cases traverses with
      | next before ran =>
        have before := (earlier _).mp before
        have ran := (limitedAdvance _ _).symm.trans ran
        rw [limitedTurn standard unmetered all unbounded before ran below]
        exact .next before ran
    · intro traverses
      cases traverses with
      | next before ran =>
        rw [← limitedTurn standard unmetered all unbounded before ran below]
        exact .next ((earlier _).mpr before) ((limitedAdvance _ _).trans ran)

theorem limitedCut (traverses : e.Traverses (n + 1) turn) :
    ∃ m report, (e.limited (n + 1) false).Traverses (n + 1) (.stop m (.ok report)) ∧
      report.verdict = .stateLimit ∧
      ∀ m' full, turn = .stop m' (.ok full) → report = { full with verdict := .stateLimit } := by
  cases traverses with
  | @next _ fuel search s s' memory ending before ran =>
    have before' := (limitedTraverses standard unmetered all unbounded (Nat.lt_succ_self n)).mpr before
    have cut := Traverses.next before' ((limitedAdvance _ _).trans ran)
    rw [limitedTurnCut standard unmetered before ran] at cut
    refine ⟨_, _, cut, rfl, fun m' full stopped => ?_⟩
    have turned := turned (e := e) s' ending { search with memory }
    rw [stopped] at turned
    cases turned with
    | violated first => exact absurd (all.symm.trans first) Bool.false_ne_true
    | bounded made exceeds => cases (unmetered.unbounded unbounded _).symm.trans exceeds
    | done went => rw [(backtrackEnds went).2.1]; rfl

theorem limitedPerforms : (e.limited (n + 1) false).Performs (n + 1) ↔ e.Performs (n + 1) := by
  constructor
  · rintro ⟨turn, traverses⟩
    cases traverses with
    | next before ran =>
      have before := (limitedTraverses standard unmetered all unbounded (Nat.lt_succ_self n)).mp before
      exact ⟨_, .next before ((limitedAdvance _ _).symm.trans ran)⟩
  · rintro ⟨turn, traverses⟩
    obtain ⟨m, report, cut, _⟩ := limitedCut standard unmetered all unbounded traverses
    exact ⟨_, cut⟩

theorem limitedYields (below : report.stats.states < k) : (e.limited k false).Yields report ↔ e.Yields report := by
  have standard' : (e.limited k false).Standard := limitedStandard standard
  constructor
  · intro yields
    obtain ⟨n, m, stopped⟩ := yields.traverses
    rw [(traversesRelates standard' stopped).2] at below
    exact traversesYields ((limitedTraverses standard unmetered all unbounded below).mp stopped)
  · intro yields
    obtain ⟨n, m, stopped⟩ := yields.traverses
    rw [(traversesRelates standard stopped).2] at below
    exact traversesYields ((limitedTraverses standard unmetered all unbounded below).mpr stopped)

theorem limitedReached (bounded : 0 < k) :
    (∃ report, (e.limited k false).Yields report ∧ report.verdict = .stateLimit) ↔ e.Performs k := by
  obtain ⟨n, rfl⟩ := Nat.exists_eq_add_one.mpr bounded
  constructor
  · rintro ⟨report, yields, verdict⟩
    obtain ⟨done, m, stopped⟩ := yields.traverses
    rcases Nat.lt_or_ge done (n + 1) with below | reached
    · have stopped := (limitedTraverses standard unmetered all unbounded below).mp stopped
      have whole := (traversesRelates standard stopped).1.verdict all (unmetered.unbounded unbounded)
      rw [verdict] at whole
      split at whole <;> cases whole
    · exact (limitedPerforms standard unmetered all unbounded).mp (Performs.fewer ⟨_, stopped⟩ reached)
  · rintro ⟨turn, traverses⟩
    obtain ⟨m, report, cut, verdict, _⟩ := limitedCut standard unmetered all unbounded traverses
    exact ⟨report, traversesYields cut, verdict⟩

theorem limitedBelow (bounded : 0 < k) (yields : (e.limited k false).Yields report)
    (other : report.verdict ≠ .stateLimit) : report.stats.states < k := by
  obtain ⟨n, rfl⟩ := Nat.exists_eq_add_one.mpr bounded
  have standard' : (e.limited (n + 1) false).Standard := limitedStandard standard
  obtain ⟨done, m, stopped⟩ := yields.traverses
  rw [(traversesRelates standard' stopped).2]
  by_contra reached
  have performs : e.Performs (n + 1) :=
    (limitedPerforms standard unmetered all unbounded).mp (Performs.fewer ⟨_, stopped⟩ (Nat.le_of_not_lt reached))
  obtain ⟨turn, traverses⟩ := performs
  obtain ⟨m', cut, ends, verdict, _⟩ := limitedCut standard unmetered all unbounded traverses
  cases yieldsUnique yields (traversesYields ends)
  exact other verdict

end Cut

/- A limit is reported by the searches that make as many transitions as it allows. Except where the whole search
ends with just these, that is to say that something was left to do. A search that ends before is not affected. -/
theorem stateLimitReported {model : Model} {config : Config} (accepted : ofModel model config = .ok e)
    (properties : List Property) (all : config.stopOnFirstViolation = false) (unbounded : config.maxStates = 0)
    (bounded : 0 < k) : ∃ e', ofModel model { config with maxStates := k } = .ok e' ∧
    (∀ report report', (e'.watching properties).Yields report → (e'.watching properties).Yields report' →
      report = report') ∧
    ((∃ report, (e'.watching properties).Yields report ∧ report.verdict = .stateLimit) ↔
      (e.watching properties).Performs k) ∧
    ((∀ report, (e.watching properties).Yields report → report.stats.states ≠ k) →
      ((∃ report, (e'.watching properties).Yields report ∧ report.verdict = .stateLimit) ↔
        (e.watching properties).Exceeds k)) ∧
    (∀ report, (e.watching properties).Yields report →
      ((e.watching properties).Exceeds k ↔ k < report.stats.states) ∧
      (report.stats.states < k → (e'.watching properties).Yields report) ∧
      (report.stats.states = k → (e'.watching properties).Yields { report with verdict := .stateLimit })) ∧
    ∀ report, (e'.watching properties).Yields report → report.verdict ≠ .stateLimit →
      (e.watching properties).Yields report ∧ report.stats.states < k := by
  have loaded := modelLoaded accepted properties
  have unmetered : (e.watching properties).Unmetered := (modelSource accepted).unmetered
  cases (modelSource accepted).config
  have same : (e.watching properties).limited k false =
      { e with config := { e.config with maxStates := k } }.watching properties := by
    rw [← all]
    rfl
  have reached := limitedReached loaded.standard unmetered all unbounded bounded
  have fits (report : Report) (below : report.stats.states < k) :
      ((e.watching properties).limited k false).Yields report ↔ (e.watching properties).Yields report :=
    limitedYields loaded.standard unmetered all unbounded below
  refine ⟨_, modelConfigured accepted _, ?_⟩
  rw [← same]
  refine ⟨fun _ _ => yieldsUnique, reached, fun inexact => reached.trans ⟨?_, ?_⟩, ?_, ?_⟩
  · rintro ⟨turn, traverses⟩
    rcases traversesReports loaded traverses with ⟨search, s, rfl⟩ | ⟨m, report, rfl⟩
    · exact ⟨search, s, traverses⟩
    · have count := (traversesRelates loaded.standard traverses).2
      exact absurd count (inexact report (traversesYields traverses))
  · rintro ⟨search, s, goesOn⟩
    exact ⟨_, goesOn⟩
  · intro report yields
    obtain ⟨n, m, stopped⟩ := yields.traverses
    have count := (traversesRelates loaded.standard stopped).2
    refine ⟨by rw [count]; exact stopped.exceeds, fun below => (fits report below).mpr yields, fun reached => ?_⟩
    obtain ⟨j, rfl⟩ := Nat.exists_eq_add_one.mpr bounded
    rw [← count, reached] at stopped
    obtain ⟨m', cut, ends, _, whole⟩ := limitedCut loaded.standard unmetered all unbounded stopped
    rw [← whole m report rfl]
    exact traversesYields ends
  · intro report yields other
    have below := limitedBelow loaded.standard unmetered all unbounded bounded yields other
    exact ⟨(fits report below).mp yields, below⟩

theorem pollingLimited : ∃ e report, ofModel polling exhaustive = .ok e ∧ (e.watching []).Yields report ∧
    report.verdict = .violations ∧ report.stats.states = 19 ∧ (e.watching []).Exceeds 18 ∧
    (∃ e' report', ofModel polling { exhaustive with maxStates := 18 } = .ok e' ∧
      (e'.watching []).Yields report' ∧ report'.verdict = .stateLimit) ∧
    ∃ e', ofModel polling { exhaustive with maxStates := 20 } = .ok e' ∧ (e'.watching []).Yields report := by
  obtain ⟨e, m, report, accepted, checked, passed⟩ := checkRun polling exhaustive (·.watching []) 40
    (fun _ _ r => r.stats.states == 19 && r.verdict == .violations) (by decide +kernel)
  simp only [Bool.and_eq_true, beq_iff_eq] at passed
  obtain ⟨states, verdict⟩ := passed
  have yields : (e.watching []).Yields report := ⟨40, m, checked⟩
  obtain ⟨e', made', _, reached, _, whole, _⟩ := stateLimitReported accepted [] rfl rfl (k := 18) (by decide)
  obtain ⟨e'', made'', _, _, _, fits, _⟩ := stateLimitReported accepted [] rfl rfl (k := 20) (by decide)
  have exceeds := (whole report yields).1.mpr (by omega)
  obtain ⟨search, s, goesOn⟩ := exceeds
  obtain ⟨report', cut, limit⟩ := reached.mpr ⟨_, goesOn⟩
  exact ⟨e, report, accepted, yields, verdict, states, ⟨search, s, goesOn⟩, ⟨e', report', made', cut, limit⟩,
    e'', made'', (fits report yields).2.1 (by omega)⟩

def flipping : Model :=
  (Model.start "flipping" "Flip.main()V").withMethod "Flip.main()V" 0
    [.invokeStatic Builtin.getBooleanSymbol, .pop, .ret none]

/- With a limit of three nothing is cut, and the limit is reported all the same. -/
theorem flippingLimited : ∃ e e' report report', ofModel flipping exhaustive = .ok e ∧
    ofModel flipping { exhaustive with maxStates := 3 } = .ok e' ∧
    (e.watching []).Yields report ∧ report.verdict = .ok ∧ report.stats.states = 3 ∧
    ¬ (e.watching []).Exceeds 3 ∧ (e'.watching []).Yields report' ∧ report'.verdict = .stateLimit ∧
    report'.stats = report.stats := by
  obtain ⟨e, m, report, accepted, checked, passed⟩ := checkRun flipping exhaustive (·.watching []) 20
    (fun _ _ r => r.verdict == .ok && r.stats == ⟨3, 1, 2, 0, 1, 0⟩) (by decide +kernel)
  obtain ⟨e', m', report', accepted', checked', passed'⟩ := checkRun flipping
    { exhaustive with maxStates := 3 } (·.watching []) 20
    (fun _ _ r => r.verdict == .stateLimit && r.stats == ⟨3, 1, 2, 0, 1, 0⟩) (by decide +kernel)
  simp only [Bool.and_eq_true, beq_iff_eq] at passed passed'
  have yields : (e.watching []).Yields report := ⟨20, m, checked⟩
  obtain ⟨n, last, stopped⟩ := yields.traverses
  have count := (traversesRelates (modelLoaded accepted []).standard stopped).2
  rw [passed.2] at count
  refine ⟨e, e', report, report', accepted, accepted', yields, passed.1, by rw [passed.2], ?_, ⟨20, m', checked'⟩,
    passed'.1, by rw [passed.2, passed'.2]⟩
  rw [stopped.exceeds, ← count]
  exact Nat.lt_irrefl 3

end BytecodeChecker.Explorer
