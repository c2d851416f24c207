import Mathlib.Data.List.Permutation
import BytecodeChecker.Proofs.Cutoff

/-! The clock and the meter of a search. They decide where the search stops and nothing else: stopped by one of
them it reports what it reports with a limit on its states, and not stopped it is the search without them. Either way
its statistics account for every transition. -/
namespace BytecodeChecker.Explorer

variable {e : Explorer} {fuel turns : Nat} {search : Search} {s s' : State} {memory m : Memory} {ending : Ending}
  {report : Report}

section Metered

variable {meters : Nat → Reading}

theorem meteredStandard (standard : e.Standard) : (e.metered meters).Standard :=
  ⟨standard.peers, standard.guests, standard.tree⟩

theorem meteredAdvance (memory : Memory) (s : State) :
    (e.metered meters).advance fuel memory s = e.advance fuel memory s := by
  have moves (p : Progress) : (e.metered meters).move memory p = e.move memory p := rfl
  unfold advance
  rw [transitionSame moves]
  rfl

theorem meteredSettle (s : State) (ending : Ending) (search : Search) :
    (e.metered meters).settle s ending search = e.settle s ending search := by
  rcases ending with g | (_ | _ | failure) <;> rfl

end Metered

theorem settleStates (s : State) (ending : Ending) (search : Search) :
    (e.settle s ending search).memory.stats.states = search.memory.stats.states := by
  obtain ⟨m, violations⟩ := search
  rcases ending with g | (_ | _ | failure)
  · change (e.register g s m).stats.states = m.stats.states
    unfold register
    dsimp only
    split
    · rfl
    · split
      · rfl
      · split
        · split <;> rfl
        · rfl
  all_goals rfl

theorem exceededCases {c : Config} {states : Nat} {reading : Reading} {bound : Bound}
    (exceeds : c.exceeded? states reading = some bound) :
    bound = .states ∧ (0 < c.maxStates ∧ c.maxStates ≤ states) ∨ bound = .time ∨ bound = .memory := by
  unfold Config.exceeded? at exceeds
  split at exceeds
  · rename_i limit
    exact .inl ⟨(Option.some.inj exceeds).symm, limit⟩
  · split at exceeds
    · exact .inr (.inl (Option.some.inj exceeds).symm)
    · split at exceeds
      · exact .inr (.inr (Option.some.inj exceeds).symm)
      · cases exceeds

theorem exceededNone {c : Config} {states : Nat} {reading : Reading} (fits : c.exceeded? states reading = none) :
    ¬ (0 < c.maxStates ∧ c.maxStates ≤ states) := by
  unfold Config.exceeded? at fits
  split at fits
  · cases fits
  · assumption

theorem turnDecided (s : State) (ending : Ending) (search : Search) : e.turn s ending search =
    if (Visit.violation? ⟨search.memory.path, s, ending, false⟩).isSome && e.config.stopOnFirstViolation then
      conclude (e.settle s ending search) .violations
    else
      match e.config.exceeded? search.memory.stats.states (e.meters search.memory.stats.states) with
      | some bound => conclude { e.settle s ending search with
          memory := (e.settle s ending search).memory.note (.bound bound) }
          ((e.meters search.memory.stats.states).verdict bound)
      | none => proceed (e.settle s ending search) := by
  rw [← settleStates (e := e) s ending search]
  rcases ending with g | (_ | _ | failure) <;> rfl

theorem meteredTurn {meters other : Nat → Reading} (s : State) (ending : Ending) (search : Search)
    (same : meters search.memory.stats.states = other search.memory.stats.states) :
    (e.metered meters).turn s ending search = (e.metered other).turn s ending search := by
  rw [turnDecided (e := e.metered meters), turnDecided (e := e.metered other)]
  have reads : (e.metered meters).meters search.memory.stats.states =
      (e.metered other).meters search.memory.stats.states := same
  rw [reads, meteredSettle, meteredSettle]
  rfl

theorem turnStates {search' : Search} (went : e.turn s ending search = .goOn search' s') :
    search'.memory.stats.states = search.memory.stats.states := by
  have turned := turned (e := e) s ending search
  rw [went] at turned
  cases turned with
  | onward back =>
    obtain ⟨branch, back⟩ := backtrackGoes back
    rw [back.stats]
    exact settleStates s ending search

theorem advanceStates (ran : e.advance fuel search.memory s = some ⟨memory, s', .ok ending⟩) :
    memory.stats.states = search.memory.stats.states + 1 := by
  obtain ⟨_, _, parts⟩ := advanced ran
  rw [parts.stats]

theorem exploreAhead {meters other : Nat → Reading}
    (same : ∀ n, search.memory.stats.states < n → meters n = other n) :
    (e.metered meters).explore fuel turns search s = (e.metered other).explore fuel turns search s := by
  induction turns generalizing search s with
  | zero => rfl
  | succ turns ih =>
    unfold explore
    rw [meteredAdvance, meteredAdvance]
    cases ran : e.advance fuel search.memory s with
    | none => rfl
    | some advance =>
      obtain ⟨memory, s', result⟩ := advance
      cases result with
      | error error => rfl
      | ok ending =>
        have more := advanceStates ran
        dsimp only
        rw [meteredTurn s' ending { search with memory } (same _ (Nat.lt_of_lt_of_eq (Nat.lt_succ_self _) more.symm))]
        cases went : (e.metered other).turn s' ending { search with memory } with
        | goOn search' s'' =>
          have kept : search'.memory.stats.states = memory.stats.states := turnStates went
          exact ih fun n later => same n (by omega)
        | stop m result => rfl

section Live

variable {σ : Type} {read : Nat → StateM σ Reading} {world world' : σ} {reading : Reading}
  (ran : e.advance fuel search.memory s = some ⟨memory, s', .ok ending⟩)
  (looked : (read memory.stats.states).run world = (reading, world'))
include ran looked

theorem readingOnward {search' : Search} {s'' : State}
    (went : (e.metered fun _ => reading).turn s' ending { search with memory } = .goOn search' s'') :
    (e.exploreReading read fuel (turns + 1) search s).run world =
      (e.exploreReading read fuel turns search' s'').run world' := by
  rw [exploreReading, ran]
  dsimp only
  rw [StateT.run_bind, looked]
  dsimp only [bind]
  rw [went]

theorem readingStops {result : Except CheckError Report}
    (went : (e.metered fun _ => reading).turn s' ending { search with memory } = .stop m result) :
    (e.exploreReading read fuel (turns + 1) search s).run world = (some (m, result), world') := by
  rw [exploreReading, ran]
  dsimp only
  rw [StateT.run_bind, looked]
  dsimp only [bind]
  rw [went]
  rfl

end Live

/- A search comes to each number of transitions once. So whatever the clock and the meter do, their readings might
have been known before. -/
theorem exploreReadingMetered {σ : Type} (read : Nat → StateM σ Reading) (world : σ) :
    ∃ meters, ((e.exploreReading read fuel turns search s).run world).1 =
      (e.metered meters).explore fuel turns search s := by
  induction turns generalizing search s world with
  | zero => exact ⟨fun _ => .idle, rfl⟩
  | succ turns ih =>
    cases ran : e.advance fuel search.memory s with
    | none =>
      refine ⟨fun _ => .idle, ?_⟩
      rw [exploreReading, explore, meteredAdvance, ran]
      rfl
    | some advance =>
      obtain ⟨memory, s', result⟩ := advance
      cases result with
      | error error =>
        refine ⟨fun _ => .idle, ?_⟩
        rw [exploreReading, explore, meteredAdvance, ran]
        rfl
      | ok ending =>
        have ran' (meters : Nat → Reading) : (e.metered meters).advance fuel search.memory s =
            some ⟨memory, s', .ok ending⟩ := (meteredAdvance search.memory s).trans ran
        cases looked : (read memory.stats.states).run world with
        | mk reading world' =>
          cases went : (e.metered fun _ => reading).turn s' ending { search with memory } with
          | stop m result =>
            refine ⟨fun _ => reading, ?_⟩
            rw [readingStops ran looked went, exploreStops (ran' _) went]
          | goOn search' s'' =>
            obtain ⟨meters, same⟩ := @ih search' s'' world'
            -- the reading of now is put in the place of the one that nobody looks at later
            let known (n : Nat) : Reading := if n = memory.stats.states then reading else meters n
            have now : known memory.stats.states = reading := if_pos rfl
            have went' := (meteredTurn s' ending { search with memory } now).trans went
            have kept : search'.memory.stats.states = memory.stats.states := turnStates went
            refine ⟨known, ?_⟩
            rw [readingOnward ran looked went, same, exploreOnward (ran' _) went']
            exact exploreAhead fun n later => (if_neg (by omega)).symm

def counted (e : Explorer) (limit : Nat) : Explorer :=
  (e.metered fun _ => .idle).limited limit e.config.stopOnFirstViolation

theorem countedExceeded (limit states : Nat) :
    (e.counted limit).config.exceeded? states ((e.counted limit).meters states) =
      if 0 < limit ∧ limit ≤ states then some .states else none :=
  Unmetered.exceeded (fun _ => rfl) states

theorem countedSettle (limit : Nat) (s : State) (ending : Ending) (search : Search) :
    (e.counted limit).settle s ending search = e.settle s ending search :=
  (limitedSettle s ending search).trans (meteredSettle s ending search)

theorem turnCounted (s : State) (ending : Ending) (search : Search) (some : 0 < search.memory.stats.states) :
    ((e.counted e.config.maxStates).turn s ending search = e.turn s ending search ∧
      ∀ search' s', e.turn s ending search = .goOn search' s' → ∀ limit, search.memory.stats.states < limit →
        (e.counted limit).turn s ending search = e.turn s ending search) ∨
    ∃ bound, (bound = .time ∨ bound = .memory) ∧
      e.turn s ending search = conclude { e.settle s ending search with
        memory := (e.settle s ending search).memory.note (.bound bound) }
        ((e.meters search.memory.stats.states).verdict bound) ∧
      (e.counted search.memory.stats.states).turn s ending search = conclude { e.settle s ending search with
        memory := (e.settle s ending search).memory.note (.bound .states) } .stateLimit := by
  have other (limit : Nat) := turnDecided (e := e.counted limit) s ending search
  simp only [countedSettle, countedExceeded] at other
  rw [turnDecided (e := e) s ending search]
  by_cases first : ((Visit.violation? ⟨search.memory.path, s, ending, false⟩).isSome &&
      e.config.stopOnFirstViolation) = true
  · rw [if_pos first]
    exact .inl ⟨(other _).trans (if_pos first), fun _ _ goesOn => by cases goesOn⟩
  · rw [if_neg first]
    have decided (limit : Nat) := (other limit).trans (if_neg first)
    cases exceeded : e.config.exceeded? search.memory.stats.states (e.meters search.memory.stats.states) with
    | none =>
      have goesOn (limit : Nat) (below : ¬ (0 < limit ∧ limit ≤ search.memory.stats.states)) :
          (e.counted limit).turn s ending search = proceed (e.settle s ending search) := by
        rw [decided, if_neg below]
      exact .inl ⟨goesOn _ (exceededNone exceeded), fun _ _ _ limit more => goesOn limit (by omega)⟩
    | some bound =>
      rcases exceededCases exceeded with ⟨rfl, limit⟩ | kind
      · refine .inl ⟨?_, fun _ _ goesOn => by cases goesOn⟩
        rw [decided, if_pos limit]
        rfl
      · refine .inr ⟨bound, kind, rfl, ?_⟩
        rw [decided, if_pos ⟨some, Nat.le_refl _⟩]
        rfl

theorem exploreLonger (standard : e.Standard) (told : search.Told)
    (h : e.explore fuel turns search s = some (m, .ok report)) :
    search.memory.stats.states < report.stats.states := by
  cases turns with
  | zero => cases h
  | succ turns =>
    obtain ⟨memory, s', ending, ran, rest⟩ := exploreTurns h
    have settled := transitionTold standard told ran
    have one := (transitionEnds standard ran).states
    have turned := turned (e := e) s' ending { search with memory }
    rw [settled.states] at one
    rcases rest with ⟨search', s'', went, later⟩ | stopped
    · obtain ⟨told', same⟩ := turnOnward settled (went ▸ turned)
      obtain ⟨relates, within⟩ := exploreRelates standard told' later
      have most := within.length_le
      rw [same] at most
      rw [relates.states]
      omega
    · obtain ⟨relates, same⟩ := turnStopped settled (stopped ▸ turned)
      rw [relates.states, same]
      omega

/- By induction on the transitions: up to the last one, the search with readings and the one that counts go in
step. -/
theorem exploreCounted (standard : e.Standard) (told : search.Told)
    (h : e.explore fuel turns search s = some (m, .ok report)) :
    (e.counted e.config.maxStates).explore fuel turns search s = some (m, .ok report) ∨
    ∃ bound m', (bound = .time ∨ bound = .memory) ∧
      report.verdict = (e.meters report.stats.states).verdict bound ∧
      (e.counted report.stats.states).explore fuel turns search s =
        some (m', .ok { report with verdict := .stateLimit }) := by
  induction turns generalizing search s with
  | zero => cases h
  | succ turns ih =>
    obtain ⟨memory, s', ending, ran, rest⟩ := exploreTurns h
    have ran' (limit : Nat) : (e.counted limit).advance fuel search.memory s = some ⟨memory, s', .ok ending⟩ :=
      (limitedAdvance search.memory s).trans ((meteredAdvance search.memory s).trans ran)
    have settled := transitionTold standard told ran
    have states : (e.settle s' ending { search with memory }).memory.stats.states = memory.stats.states :=
      settleStates s' ending { search with memory }
    have some : 0 < memory.stats.states := by
      rw [← states, (transitionEnds standard ran).states]
      exact Nat.succ_pos _
    rcases turnCounted (e := e) s' ending { search with memory } some with
      ⟨same, later⟩ | ⟨bound, kind, cut, counts⟩
    · rcases rest with ⟨search', s'', went, onward⟩ | stopped
      · obtain ⟨told', kept⟩ := turnOnward settled (went ▸ turned (e := e) s' ending { search with memory })
        have more := exploreLonger standard told' onward
        rw [told'.states, kept, ← settled.states, states] at more
        rcases ih told' onward with whole | ⟨bound, m', kind, verdict, cut⟩
        · exact .inl ((exploreOnward (ran' _) (same.trans went) turns).trans whole)
        · have goesOn := (later search' s'' went _ more).trans went
          exact .inr ⟨bound, m', kind, verdict, (exploreOnward (ran' _) goesOn turns).trans cut⟩
      · exact .inl (exploreStops (ran' _) (same.trans stopped) turns)
    · rcases rest with ⟨search', s'', went, _⟩ | stopped
      · cases cut.symm.trans went
      · cases cut.symm.trans stopped
        have ends := exploreStops (ran' _) counts turns
        exact .inr ⟨bound, _, kind, congrArg (fun n => (e.meters n).verdict bound) states.symm,
          (congrArg (fun n => (e.counted n).explore fuel (turns + 1) search s) states).trans ends⟩

/- The search as it is and with a clock and a meter that are looked at on the way. -/
inductive Searches (e : Explorer) (fuel : Nat) : Memory × Except CheckError Report → Prop where
  | unread {result : Memory × Except CheckError Report} (checked : e.check fuel = some result) :
      Searches e fuel result
  | reading {σ : Type} {read : Nat → StateM σ Reading} {world : σ} {result : Memory × Except CheckError Report}
      (checked : ((e.checkReading read fuel).run world).1 = some result) : Searches e fuel result

theorem Searches.metered {result : Memory × Except CheckError Report} (searched : e.Searches fuel result) :
    ∃ meters, (e.metered meters).check fuel = some result := by
  cases searched with
  | unread checked => exact ⟨e.meters, checked⟩
  | reading checked =>
    obtain ⟨meters, same⟩ := exploreReadingMetered _ _
    exact ⟨meters, same.symm.trans checked⟩

theorem checkCounted {model : Model} {config : Config} (accepted : ofModel model config = .ok e)
    (properties : List Property) (meters : Nat → Reading)
    (checked : ((e.watching properties).metered meters).check fuel = some (m, .ok report)) :
    (e.watching properties).check fuel = some (m, .ok report) ∨
    (report.verdict = .timeLimit ∨ ∃ megabytes, report.verdict = .memoryLimit megabytes) ∧
    ∃ e' m', ofModel model { config with maxStates := report.stats.states } = .ok e' ∧
      (e'.watching properties).check fuel = some (m', .ok { report with verdict := .stateLimit }) := by
  have source := modelSource accepted
  cases source.config
  have standard : ((e.watching properties).metered meters).Standard := meteredStandard
    ⟨source.standard.peers, source.standard.guests, source.standard.tree⟩
  have told : Search.Told ⟨Memory.empty.note (.started e.program.name), []⟩ := ⟨rfl, rfl⟩
  have idle : e.meters = fun _ => .idle := funext source.unmetered
  have same (limit : Nat) : ((e.watching properties).metered meters).counted limit =
      { e with config := { e.config with maxStates := limit } }.watching properties := by
    unfold counted limited metered watching
    rw [idle]
  rcases exploreCounted standard told checked with whole | ⟨bound, m', kind, verdict, cut⟩
  · rw [same] at whole
    exact .inl whole
  · rw [same] at cut
    refine .inr ⟨?_, _, m', modelConfigured accepted _, cut⟩
    rcases kind with rfl | rfl
    · exact .inl verdict
    · exact .inr ⟨_, verdict⟩

theorem statisticsAddUp {model : Model} {config : Config} (accepted : ofModel model config = .ok e)
    (properties : List Property) (searched : (e.watching properties).Searches fuel (m, .ok report)) :
    report.stats.states = report.stats.paths + report.stats.truncated + report.stats.revisited +
      report.violations.length + m.registered.length ∧
    m.depths.length = report.stats.states ∧
    report.stats.maxDepth ∈ m.depths ∧ (∀ depth ∈ m.depths, depth ≤ report.stats.maxDepth) ∧
    (0 < config.maxDepth → report.stats.maxDepth ≤ config.maxDepth) ∧
    (report.verdict = .ok ∨ report.verdict = .violations ∧ config.stopOnFirstViolation = false →
      report.stats.states = 1 + (m.registered.map Generator.total).sum ∧
        report.stats.backtracks = (m.registered.map fun g => g.total - 1).sum) ∧
    ((e.watching properties).check fuel = some (m, .ok report) ∨
      (report.verdict = .timeLimit ∨ ∃ megabytes, report.verdict = .memoryLimit megabytes) ∧
      ∃ e' m', ofModel model { config with maxStates := report.stats.states } = .ok e' ∧
        (e'.watching properties).check fuel = some (m', .ok { report with verdict := .stateLimit })) := by
  obtain ⟨meters, checked⟩ := searched.metered
  have source := modelSource accepted
  have standard : ((e.watching properties).metered meters).Standard := meteredStandard
    ⟨source.standard.peers, source.standard.guests, source.standard.tree⟩
  have same : ((e.watching properties).metered meters).config = config := source.config
  have booked := checkBooked standard checked
  refine ⟨booked.outcomes, booked.depths, booked.deepest.1, booked.deepest.2, ?_, ?_,
    checkCounted accepted properties meters checked⟩
  · rw [← same]
    exact booked.shallow
  · rw [← same]
    exact booked.exhausted

def narrow : Config :=
  { Config.default with stopOnFirstViolation := false, stateMatching := true, maxDepth := 4, maxTransitionSteps := 5 }

def hurried : Config := { exhaustive with maxTimeSecs := 1 }

def ticking (_ : Nat) : StateM Nat Reading := fun now => (⟨now, none, none⟩, now + 100000000)

/- Of 17 transitions two complete a path, four are cut, one comes to a known state, two find a violation,
and eight come to decisions with 16 choices in all. If each takes a tenth of a second, eleven of them are made until
a second has gone by. -/
theorem pollingAddsUp :
    (∃ e m report, ofModel polling narrow = .ok e ∧
      (e.watching []).check 40 = some (m, .ok report) ∧ report.stats = ⟨17, 4, 2, 4, 8, 1⟩ ∧
      report.violations.length = 2 ∧ m.registered.length = 8 ∧ 4 ∈ m.depths ∧ (∀ depth ∈ m.depths, depth ≤ 4) ∧
      (m.registered.map Generator.total).sum = 16 ∧ (m.registered.map fun g => g.total - 1).sum = 8) ∧
    ∃ e m report, ofModel polling hurried = .ok e ∧
      (((e.watching []).checkReading ticking 40).run 0).1 = some (m, .ok report) ∧ report.verdict = .timeLimit ∧
      11 = report.stats.paths + report.stats.truncated + report.stats.revisited + report.violations.length +
        m.registered.length := by
  constructor
  · obtain ⟨e, m, report, accepted, checked, passed⟩ := checkRun polling narrow (·.watching []) 40 (fun _ _ r =>
      r.stats == ⟨17, 4, 2, 4, 8, 1⟩ && r.violations.length == 2 && r.verdict == .violations) (by cbv)
    simp only [Bool.and_eq_true, beq_iff_eq] at passed
    obtain ⟨⟨stats, violations⟩, verdict⟩ := passed
    obtain ⟨outcomes, _, attained, deepest, _, exhausted, _⟩ := statisticsAddUp accepted [] (.unread checked)
    obtain ⟨followed, returned⟩ := exhausted (.inr ⟨verdict, rfl⟩)
    rw [stats] at outcomes attained deepest followed returned
    dsimp only at outcomes followed returned
    exact ⟨e, m, report, accepted, checked, stats, violations, by omega, attained, deepest, by omega, returned.symm⟩
  · obtain ⟨e, m, report, accepted, checked, passed⟩ := searchRun polling hurried
      (fun e => (((e.watching []).checkReading ticking 40).run 0).1)
      (fun _ _ r => r.stats.states == 11 && r.verdict == .timeLimit) (by decide +kernel)
    simp only [Bool.and_eq_true, beq_iff_eq] at passed
    obtain ⟨states, verdict⟩ := passed
    have outcomes := (statisticsAddUp accepted [] (.reading checked)).1
    rw [states] at outcomes
    exact ⟨e, m, report, accepted, checked, verdict, outcomes⟩

end BytecodeChecker.Explorer
