import BytecodeChecker.Proofs.Statistics

/-! Searches that stop early. A bound on the number of states, or stopping at the first violation, ends a
search after one of its transitions; up to there it does what it would have done without. -/
namespace BytecodeChecker

structure Round where
  state : State
  depth : Nat
  violation : Option Violation

namespace Notice

def rounds : List Notice → List Round
  | [] => []
  | .advanced s depth :: earlier => ⟨s, depth, none⟩ :: rounds earlier
  | .violated v :: earlier => (rounds earlier).modifyHead fun r => { r with violation := some v }
  | _ :: earlier => rounds earlier

theorem roundsQuiet (more : List Notice) (quiet : ∀ n ∈ more, (∀ s depth, n ≠ .advanced s depth) ∧
    ∀ v, n ≠ .violated v) (earlier : List Notice) : rounds (more ++ earlier) = rounds earlier := by
  induction more with
  | nil => rfl
  | cons n more ih =>
    obtain ⟨here, later⟩ := List.forall_mem_cons.mp quiet
    cases n with
    | advanced s depth => exact absurd rfl (here.1 s depth)
    | violated v => exact absurd rfl (here.2 v)
    | _ => exact ih later

end Notice

def Memory.rounds (m : Memory) : List Round := (Notice.rounds m.notices).reverse

structure Search.Told (search : Search) : Prop where
  states : search.memory.stats.states = search.memory.rounds.length
  violations : search.violations.reverse = search.memory.rounds.filterMap Round.violation

namespace Round

def halt? (limit : Nat) (first : Bool) (rounds : List Round) : Option Verdict :=
  if (rounds.getLast?.bind violation).isSome && first then some .violations
  else if 0 < limit ∧ limit ≤ rounds.length then some .stateLimit
  else none

/- The search of the `whole` transitions ends after `n` of them: no earlier, and only where it has to. -/
structure Halts (limit : Nat) (first : Bool) (whole : List Round) (verdict : Verdict) (done n : Nat)
    (last : Verdict) : Prop where
  later : done < n
  inside : n ≤ whole.length
  earlier : ∀ j, done < j → j < n → halt? limit first (whole.take j) = none
  goesOn : halt? limit first (whole.take n) = none → n = whole.length
  verdict : last = (halt? limit first (whole.take n)).getD verdict

variable {whole : List Round} {verdict last : Verdict} {n : Nat}

section Step

variable {limit done : Nat} {first : Bool} {settled : List Round} (taken : whole.take (done + 1) = settled)
include taken

theorem Halts.here (inside : done < whole.length) (halted : halt? limit first settled = some last) :
    Halts limit first whole verdict done (done + 1) last := by
  refine ⟨Nat.lt_succ_self _, inside, fun j behind before => by omega, ?_, ?_⟩
  · rw [taken, halted]
    exact fun none => by cases none
  · rw [taken, halted]
    rfl

theorem Halts.onward (unhalted : halt? limit first settled = none)
    (halts : Halts limit first whole verdict (done + 1) n last) : Halts limit first whole verdict done n last := by
  refine ⟨Nat.lt_of_succ_lt halts.later, halts.inside, fun j behind before => ?_, halts.goesOn, halts.verdict⟩
  rcases Nat.eq_or_lt_of_le behind with here | further
  · rw [← here, taken]
    exact unhalted
  · exact halts.earlier j further before

theorem Halts.finish (all : whole.length = done + 1) (unhalted : halt? limit first settled = none) :
    Halts limit first whole verdict done (done + 1) verdict := by
  refine ⟨Nat.lt_succ_self _, Nat.le_of_eq all.symm, fun j behind before => by omega, fun _ => all.symm, ?_⟩
  rw [taken, unhalted]
  rfl

end Step

theorem Halts.limited {limit : Nat} (bounded : 0 < limit) (halts : Halts limit false whole verdict 0 n last) :
    n = min limit whole.length := by
  have reaches (j : Nat) (inside : j ≤ whole.length) : halt? limit false (whole.take j) = none ↔ j < limit := by
    simp [halt?, bounded, Nat.min_eq_left inside]
  have inside := halts.inside
  have most : n ≤ limit := by
    by_contra more
    have early := halts.earlier limit bounded (by omega)
    rw [reaches limit (by omega)] at early
    omega
  rcases Nat.lt_or_ge n limit with less | reached
  · have all := halts.goesOn ((reaches n inside).mpr less)
    omega
  · omega

def untilViolation (rounds : List Round) : List Round :=
  rounds.take (rounds.findIdx (·.violation.isSome) + 1)

theorem untilViolationFound (rounds : List Round) :
    (untilViolation rounds).filterMap violation = (rounds.filterMap violation).take 1 := by
  unfold untilViolation
  induction rounds with
  | nil => rfl
  | cons r rest ih =>
    cases found : r.violation with
    | none => simpa [List.findIdx_cons, found] using ih
    | some v => simp [List.findIdx_cons, found]

theorem haltFirst {j : Nat} (inside : j < whole.length) :
    halt? 0 true (whole.take (j + 1)) = if whole[j].violation.isSome then some .violations else none := by
  simp [halt?, List.getLast?_take, inside]

theorem Halts.first (halts : Halts 0 true whole verdict 0 n last) : whole.take n = untilViolation whole := by
  obtain ⟨j, rfl⟩ := Nat.exists_eq_add_one.mpr halts.later
  have inside : j < whole.length := halts.inside
  have most : j ≤ whole.findIdx (·.violation.isSome) := by
    by_contra more
    have found : whole.findIdx (·.violation.isSome) < whole.length := by omega
    have early := halts.earlier (whole.findIdx (·.violation.isSome) + 1) (by omega) (by omega)
    have violated : whole[whole.findIdx (·.violation.isSome)].violation.isSome = true :=
      List.findIdx_getElem (w := found)
    rw [haltFirst found, if_pos violated] at early
    cases early
  rcases Nat.lt_or_eq_of_le most with before | same
  · -- no violation up to here, so this is the end of the search
    have clear := List.not_of_lt_findIdx before
    have all := halts.goesOn (by rw [haltFirst inside, clear]; rfl)
    rw [untilViolation, List.take_of_length_le (by omega), List.take_of_length_le (by omega)]
  · rw [same, untilViolation]

theorem Halts.firstVerdict (halts : Halts 0 true whole verdict 0 n last)
    (full : verdict = if (whole.filterMap violation).isEmpty then .ok else .violations) : last = verdict := by
  obtain ⟨j, rfl⟩ := Nat.exists_eq_add_one.mpr halts.later
  have inside : j < whole.length := halts.inside
  rw [halts.verdict, haltFirst inside]
  split
  · rename_i found
    obtain ⟨v, found⟩ := Option.isSome_iff_exists.mp found
    have member : v ∈ whole.filterMap violation :=
      List.mem_filterMap.mpr ⟨whole[j], List.getElem_mem inside, found⟩
    rw [full, if_neg]
    · rfl
    · rw [List.isEmpty_iff]
      exact List.ne_nil_of_mem member
  · rfl

end Round

namespace Explorer

variable {e : Explorer} {fuel : Nat} {search : Search} {s s' : State}

section Told

variable {memory : Memory} {ending : Ending}

theorem settledRounds (s : State) (ending : Ending) (search : Search) {r : Round} {earlier : List Round}
    (last : Notice.rounds search.memory.notices = r :: earlier) (clear : r.violation = none) :
    Notice.rounds (e.settle s ending search).memory.notices =
      { r with violation := Visit.violation? ⟨search.memory.path, s, ending, false⟩ } :: earlier := by
  obtain ⟨m, violations⟩ := search
  have same : r = { r with violation := none } := by rw [← clear]
  cases ending with
  | choice g =>
    have kept : Notice.rounds (e.register g s m).notices = Notice.rounds m.notices := by
      unfold register
      dsimp only
      split
      · rfl
      · split
        · rfl
        · split
          · split <;> rfl
          · rfl
    exact (kept.trans last).trans (congrArg (· :: earlier) same)
  | finished finish =>
    cases finish with
    | completed => exact last.trans (congrArg (· :: earlier) same)
    | stepLimit => exact last.trans (congrArg (· :: earlier) same)
    | violated failure => exact congrArg (List.modifyHead _) last

theorem transitionRounds (standard : e.Standard)
    (ran : e.advance fuel search.memory s = some ⟨memory, s', .ok ending⟩) :
    (e.settle s' ending { search with memory }).memory.rounds = search.memory.rounds ++
      [⟨s', search.memory.path.depth, Visit.violation? ⟨search.memory.path, s', ending, false⟩⟩] := by
  obtain ⟨p, raw, advance⟩ := advanced ran
  obtain ⟨more, same, inner⟩ :=
    (transitionSound standard e.program.callsAny (Machine.withinAny _) advance.ran).1.notices
  have quiet := Notice.roundsQuiet more (fun n member => by cases inner n member <;> simp)
    search.memory.notices
  have last : Notice.rounds memory.notices =
      ⟨s', search.memory.path.depth, none⟩ :: Notice.rounds search.memory.notices := by
    rw [advance.notices, same, List.append_nil, ← quiet]
    rfl
  unfold Memory.rounds
  rw [settledRounds s' ending { search with memory } last rfl, List.reverse_cons, advance.path]

theorem transitionTold (standard : e.Standard) (told : search.Told)
    (ran : e.advance fuel search.memory s = some ⟨memory, s', .ok ending⟩) :
    (e.settle s' ending { search with memory }).Told := by
  obtain ⟨expanded, accounts⟩ := settleAccounts standard ran
  have rounds := transitionRounds standard ran
  refine ⟨?_, ?_⟩
  · rw [accounts.states, rounds, told.states, List.length_append, List.length_singleton]
  · rw [accounts.violations, rounds, List.reverse_append, told.violations, List.filterMap_append]
    change _ ++ (Visit.violation? ⟨search.memory.path, s', ending, false⟩).toList.reverse = _
    cases Visit.violation? ⟨search.memory.path, s', ending, false⟩ <;> rfl

theorem GoesBack.rounds {m m' : Memory} {branch : Path.Branch} (back : GoesBack m m' branch) :
    m'.rounds = m.rounds := by
  obtain ⟨more, same, kind⟩ := back.notices
  unfold Memory.rounds
  rw [same, Notice.roundsQuiet more]
  intro n member
  obtain ⟨s, depth, rfl⟩ := kind n member
  simp

structure Relates (e : Explorer) (m : Memory) (report : Report) : Prop where
  states : report.stats.states = m.rounds.length
  violations : report.violations = m.rounds.filterMap Round.violation
  verdict : e.config.stopOnFirstViolation = false → e.Unbounded →
    report.verdict = if report.violations.isEmpty then .ok else .violations

theorem turnOnward {settled search' : Search} (told : settled.Told) (turned : e.Turned settled (.goOn search' s)) :
    search'.Told ∧ search'.memory.rounds = settled.memory.rounds := by
  cases turned with
  | onward went =>
    obtain ⟨branch, back⟩ := backtrackGoes went
    refine ⟨⟨?_, ?_⟩, back.rounds⟩
    · rw [back.stats, back.rounds]
      exact told.states
    · rw [back.rounds]
      exact told.violations

theorem turnStopped {settled : Search} {m : Memory} {report : Report} (told : settled.Told)
    (turned : e.Turned settled (.stop m (.ok report))) :
    e.Relates m report ∧ m.rounds = settled.memory.rounds := by
  cases turned with
  | violated first =>
    refine ⟨⟨told.states, told.violations, fun all _ => ?_⟩, rfl⟩
    exact absurd (all.symm.trans first) Bool.false_ne_true
  | bounded made exceeds =>
    refine ⟨⟨told.states, told.violations, fun _ unbounded => ?_⟩, rfl⟩
    cases (unbounded _).symm.trans exceeds
  | @done memory went =>
    obtain ⟨_, stats, notices⟩ := backtrackEnds went
    have same : memory.rounds = settled.memory.rounds := by rw [Memory.rounds, notices, Memory.rounds]
    have kept : (memory.note .finished).rounds = settled.memory.rounds := same
    refine ⟨⟨?_, ?_, fun _ _ => ?_⟩, kept⟩
    · rw [kept, ← told.states, ← stats]
    · rw [kept, ← told.violations]
    · simp

theorem exploreRelates (standard : e.Standard) {turns : Nat} {m : Memory} {report : Report}
    (told : search.Told) (h : e.explore fuel turns search s = some (m, .ok report)) :
    e.Relates m report ∧ search.memory.rounds <+: m.rounds := by
  induction turns generalizing search s with
  | zero => cases h
  | succ turns ih =>
    obtain ⟨memory, s', ending, ran, rest⟩ := exploreTurns h
    have settled := transitionTold standard told ran
    have more : search.memory.rounds <+: (e.settle s' ending { search with memory }).memory.rounds := by
      rw [transitionRounds standard ran]
      exact List.prefix_append _ _
    have turned := turned (e := e) s' ending { search with memory }
    rcases rest with ⟨search', s'', went, later⟩ | stopped
    · rw [went] at turned
      obtain ⟨told', same⟩ := turnOnward settled turned
      obtain ⟨relates, within⟩ := ih told' later
      exact ⟨relates, more.trans (same ▸ within)⟩
    · rw [stopped] at turned
      obtain ⟨relates, same⟩ := turnStopped settled turned
      exact ⟨relates, same ▸ more⟩

end Told

def limited (e : Explorer) (limit : Nat) (first : Bool) : Explorer :=
  { e with config := { e.config with maxStates := limit, stopOnFirstViolation := first } }

section Limited

variable {limit : Nat} {first : Bool}

theorem limitedStandard (standard : e.Standard) : (e.limited limit first).Standard :=
  ⟨standard.peers, standard.guests, standard.tree⟩

theorem limitedMove (memory : Memory) (p : Progress) :
    (e.limited limit first).move memory p = e.move memory p := rfl

theorem limitedAdvance (memory : Memory) (s : State) :
    (e.limited limit first).advance fuel memory s = e.advance fuel memory s := by
  unfold advance
  rw [transitionSame (limitedMove memory)]
  rfl

theorem limitedSettle (s : State) (ending : Ending) (search : Search) :
    (e.limited limit first).settle s ending search = e.settle s ending search := by
  rcases ending with g | (_ | _ | failure) <;> rfl

end Limited

def proceed (settled : Search) : Turn :=
  match backtrack settled.memory with
  | (memory, .error error) => .stop memory (.error error)
  | (memory, .ok (some s)) => .goOn { settled with memory } s
  | (memory, .ok none) =>
    conclude { settled with memory } (if settled.violations.isEmpty then .ok else .violations)

section Turn

variable {memory : Memory} {ending : Ending} (standard : e.Standard) (unmetered : e.Unmetered)
  (told : search.Told) (ran : e.advance fuel search.memory s = some ⟨memory, s', .ok ending⟩)
include standard unmetered told ran

theorem turnRounds : e.turn s' ending { search with memory } =
    if ((e.settle s' ending { search with memory }).memory.rounds.getLast?.bind Round.violation).isSome &&
      e.config.stopOnFirstViolation then conclude (e.settle s' ending { search with memory }) .violations
    else if 0 < e.config.maxStates ∧
      e.config.maxStates ≤ (e.settle s' ending { search with memory }).memory.rounds.length then
      conclude { e.settle s' ending { search with memory } with
        memory := (e.settle s' ending { search with memory }).memory.note (.bound .states) } .stateLimit
    else proceed (e.settle s' ending { search with memory }) := by
  rw [← (transitionTold standard told ran).states]
  have last : (e.settle s' ending { search with memory }).memory.rounds.getLast?.bind Round.violation =
      Visit.violation? ⟨search.memory.path, s', ending, false⟩ := by
    rw [transitionRounds standard ran]
    simp
  rw [last]
  unfold turn
  dsimp only
  rw [unmetered.exceeded, unmetered]
  by_cases limit : 0 < e.config.maxStates ∧
      e.config.maxStates ≤ (e.settle s' ending { search with memory }).memory.stats.states
  · simp only [if_pos limit]
    rcases ending with g | (_ | _ | failure) <;> rfl
  · simp only [if_neg limit]
    rcases ending with g | (_ | _ | failure) <;> rfl

theorem turnUnhalted (goesOn : Round.halt? e.config.maxStates e.config.stopOnFirstViolation
    (e.settle s' ending { search with memory }).memory.rounds = none) :
    e.turn s' ending { search with memory } = proceed (e.settle s' ending { search with memory }) := by
  rw [turnRounds standard unmetered told ran]
  unfold Round.halt? at goesOn
  split at goesOn
  · cases goesOn
  · rename_i unviolated
    split at goesOn
    · cases goesOn
    · rename_i unbounded
      rw [if_neg unviolated, if_neg unbounded]

theorem turnHalted (verdict : Verdict) (halted : Round.halt? e.config.maxStates e.config.stopOnFirstViolation
    (e.settle s' ending { search with memory }).memory.rounds = some verdict) :
    ∃ m violations stats, e.turn s' ending { search with memory } = .stop m (.ok ⟨verdict, violations, stats⟩) ∧
      m.rounds = (e.settle s' ending { search with memory }).memory.rounds := by
  rw [turnRounds standard unmetered told ran]
  unfold Round.halt? at halted
  split at halted
  · rename_i violated
    cases Option.some.inj halted
    rw [if_pos violated]
    exact ⟨_, _, _, rfl, rfl⟩
  · rename_i unviolated
    split at halted
    · rename_i bounded
      cases Option.some.inj halted
      rw [if_neg unviolated, if_pos bounded]
      exact ⟨_, _, _, rfl, rfl⟩
    · cases halted

end Turn

theorem exploreHalts (standard : e.Standard) (unmetered : e.Unmetered)
    (all : e.config.stopOnFirstViolation = false) (unbounded : e.config.maxStates = 0) (limit : Nat) (first : Bool) {turns : Nat} {m : Memory}
    {report : Report} (told : search.Told) (h : e.explore fuel turns search s = some (m, .ok report)) :
    ∃ m' report' n, (e.limited limit first).explore fuel turns search s = some (m', .ok report') ∧
      m'.rounds = m.rounds.take n ∧
      Round.Halts limit first m.rounds report.verdict search.memory.rounds.length n report'.verdict := by
  induction turns generalizing search s with
  | zero => cases h
  | succ turns ih =>
    obtain ⟨memory, s', ending, ran, rest⟩ := exploreTurns h
    have standard' : (e.limited limit first).Standard := limitedStandard standard
    have ran' : (e.limited limit first).advance fuel search.memory s = some ⟨memory, s', .ok ending⟩ :=
      (limitedAdvance search.memory s).trans ran
    have full := turnUnhalted standard unmetered told ran (by simp [Round.halt?, all, unbounded])
    have goesOn := turnUnhalted standard' unmetered told ran'
    have stops := turnHalted standard' unmetered told ran'
    rw [limitedSettle] at goesOn stops
    rw [← full] at goesOn
    have settled := transitionTold standard told ran
    have one := congrArg List.length (transitionRounds standard ran)
    have turned := turned (e := e) s' ending { search with memory }
    generalize e.settle s' ending { search with memory } = after at *
    rw [List.length_append, List.length_singleton] at one
    have within : after.memory.rounds <+: m.rounds := by
      rcases rest with ⟨search', s'', went, later⟩ | stopped
      · obtain ⟨told', same⟩ := turnOnward settled (went ▸ turned)
        exact same ▸ (exploreRelates standard told' later).2
      · exact (turnStopped settled (stopped ▸ turned)).2 ▸ List.prefix_rfl
    have taken : m.rounds.take (search.memory.rounds.length + 1) = after.memory.rounds := by
      rw [← one]
      exact (List.prefix_iff_eq_take.mp within).symm
    cases halted : Round.halt? limit first after.memory.rounds with
    | some verdict =>
      obtain ⟨m', violations, stats, stopped, same⟩ := stops verdict halted
      have inside : search.memory.rounds.length < m.rounds.length := Nat.lt_of_lt_of_eq (Nat.lt_succ_self _) one.symm |>.trans_le within.length_le
      exact ⟨m', _, _, exploreStops ran' stopped turns, same.trans taken.symm, .here taken inside halted⟩
    | none =>
      rcases rest with ⟨search', s'', went, later⟩ | stopped
      · obtain ⟨told', same⟩ := turnOnward settled (went ▸ turned)
        obtain ⟨m', report', n, ran'', rounds, halts⟩ := ih told' later
        rw [same, one] at halts
        have onward := exploreOnward ran' ((goesOn halted).trans went) turns
        exact ⟨m', report', n, onward.trans ran'', rounds, .onward taken halted halts⟩
      · have same := (turnStopped settled (stopped ▸ turned)).2
        refine ⟨m, report, _, exploreStops ran' ((goesOn halted).trans stopped) turns, same.trans taken.symm, ?_⟩
        exact .finish taken (same ▸ one) halted

theorem checkHalts (standard : e.Standard) (unmetered : e.Unmetered)
    (all : e.config.stopOnFirstViolation = false) (unbounded : e.config.maxStates = 0) (limit : Nat) (first : Bool) {m : Memory} {report : Report}
    (h : e.check fuel = some (m, .ok report)) :
    e.Relates m report ∧ ∃ m' report' n, (e.limited limit first).check fuel = some (m', .ok report') ∧
      (e.limited limit first).Relates m' report' ∧ m'.rounds = m.rounds.take n ∧
      Round.Halts limit first m.rounds report.verdict 0 n report'.verdict := by
  have told : Search.Told ⟨Memory.empty.note (.started e.program.name), []⟩ := ⟨rfl, rfl⟩
  have standard' : (e.limited limit first).Standard := limitedStandard standard
  obtain ⟨m', report', n, ran, rounds, halts⟩ := exploreHalts standard unmetered all unbounded limit first told h
  exact ⟨(exploreRelates standard told h).1, m', report', n, ran, (exploreRelates standard' told ran).1, rounds, halts⟩

theorem modelConfigured {model : Model} {config : Config} (accepted : ofModel model config = .ok e)
    (other : Config) : ofModel model other = .ok { e with config := other } := by
  obtain ⟨p, loaded, accepted⟩ := Load.bindOk.mp accepted
  obtain ⟨r, bound, accepted⟩ := Load.bindOk.mp accepted
  refine Load.bindOk.mpr ⟨p, loaded, Load.bindOk.mpr ⟨r, bound, ?_⟩⟩
  cases made accepted
  unfold make at accepted ⊢
  dsimp only at accepted ⊢
  split at accepted
  · cases accepted
  · rfl

theorem cutoffKeepsPrefix {model : Model} {config : Config} (accepted : ofModel model config = .ok e)
    (properties : List Property) (all : config.stopOnFirstViolation = false) (unbounded : config.maxStates = 0)
    {m : Memory} {report : Report} (checked : (e.watching properties).check fuel = some (m, .ok report)) :
    (report.stats.states = m.rounds.length ∧ report.violations = m.rounds.filterMap Round.violation) ∧
    (∀ k, 0 < k → ∃ e' m' report', ofModel model { config with maxStates := k } = .ok e' ∧
      (e'.watching properties).check fuel = some (m', .ok report') ∧
      report'.stats.states = min k report.stats.states ∧
      m'.rounds = m.rounds.take (min k report.stats.states) ∧
      report'.violations = m'.rounds.filterMap Round.violation) ∧
    ∃ e' m' report', ofModel model { config with stopOnFirstViolation := true } = .ok e' ∧
      (e'.watching properties).check fuel = some (m', .ok report') ∧
      m'.rounds = Round.untilViolation m.rounds ∧ report'.stats.states = m'.rounds.length ∧
      report'.violations = report.violations.take 1 ∧
      report'.verdict = if report.violations.isEmpty then .ok else .violations := by
  have source := modelSource accepted
  cases source.config
  have standard : (e.watching properties).Standard :=
    ⟨source.standard.peers, source.standard.guests, source.standard.tree⟩
  have unmetered : (e.watching properties).Unmetered := source.unmetered
  have halts (limit : Nat) (first : Bool) := checkHalts standard unmetered all unbounded limit first checked
  have relates := (halts 0 false).1
  refine ⟨⟨relates.states, relates.violations⟩, fun k bounded => ?_, ?_⟩
  · obtain ⟨_, m', report', n, ran, relates', rounds, halts⟩ := halts k false
    have same : (e.watching properties).limited k false =
        { e with config := { e.config with maxStates := k } }.watching properties := by
      rw [← all]
      rfl
    have cut := halts.limited bounded
    rw [← relates.states] at cut
    refine ⟨_, m', report', modelConfigured accepted _, same ▸ ran, ?_, by rw [rounds, cut], relates'.violations⟩
    rw [relates'.states, rounds, List.length_take, cut, relates.states]
    omega
  · obtain ⟨_, m', report', n, ran, relates', rounds, halts⟩ := halts 0 true
    have same : (e.watching properties).limited 0 true =
        { e with config := { e.config with stopOnFirstViolation := true } }.watching properties := by
      rw [← unbounded]
      rfl
    have start := rounds.trans halts.first
    have full := relates.verdict all (unmetered.unbounded unbounded)
    refine ⟨_, m', report', modelConfigured accepted _, same ▸ ran, start, relates'.states, ?_, ?_⟩
    · rw [relates'.violations, start, Round.untilViolationFound, relates.violations]
    · rw [← full]
      exact halts.firstVerdict (relates.violations ▸ full)

def polling : Model :=
  ((Model.start "polling" "P.main()V").withMethod "P.main()V" 0
    [.getStatic "P.x", .getStatic "P.x", .branch .eq 5, .pushNull, .throw, .ret none]).withThread "P.other()V"
    [.getStatic "P.x", .getStatic "P.x", .pushLong 1, .putStatic "P.x", .ret none]

theorem pollingCutOff : ∃ e m report, ofModel polling exhaustive = .ok e ∧
    (e.watching []).check 40 = some (m, .ok report) ∧ report.stats.states = 19 ∧ report.violations.length = 4 ∧
    (∃ e' m' report', ofModel polling { exhaustive with maxStates := 15 } = .ok e' ∧
      (e'.watching []).check 40 = some (m', .ok report') ∧ report'.stats.states = 15 ∧
      m'.rounds = m.rounds.take 15 ∧ report'.violations.length = 2) ∧
    ∃ e' m' report', ofModel polling { exhaustive with stopOnFirstViolation := true } = .ok e' ∧
      (e'.watching []).check 40 = some (m', .ok report') ∧ m'.rounds = m.rounds.take 8 ∧
      report'.violations = report.violations.take 1 ∧ report'.verdict = .violations := by
  obtain ⟨e, m, report, accepted, checked, passed⟩ := checkRun polling exhaustive (·.watching []) 40
    (fun _ m r => r.stats.states == 19 && r.violations.length == 4 &&
      ((m.rounds.take 15).filterMap Round.violation).length == 2 &&
      m.rounds.findIdx (·.violation.isSome) == 7) (by decide +kernel)
  simp only [Bool.and_eq_true, beq_iff_eq] at passed
  obtain ⟨⟨⟨states, violations⟩, early⟩, eighth⟩ := passed
  obtain ⟨_, bounded, first⟩ := cutoffKeepsPrefix accepted [] rfl rfl checked
  obtain ⟨e', m', report', made, ran, count, rounds, found⟩ := bounded 15 (by decide)
  rw [states] at count rounds
  refine ⟨e, m, report, accepted, checked, states, violations, ⟨e', m', report', made, ran, count, rounds, ?_⟩, ?_⟩
  · rw [found, rounds]
    exact early
  · obtain ⟨e', m', report', made, ran, rounds, _, found, verdict⟩ := first
    rw [Round.untilViolation, eighth] at rounds
    have some : report.violations.isEmpty = false := by
      cases empty : report.violations with
      | nil => rw [empty] at violations; cases violations
      | cons v rest => rfl
    rw [some] at verdict
    exact ⟨e', m', report', made, ran, rounds, found, verdict⟩

end Explorer

end BytecodeChecker
