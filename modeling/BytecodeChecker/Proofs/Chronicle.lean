import BytecodeChecker.Proofs.History
import BytecodeChecker.Proofs.Preemption
import BytecodeChecker.Proofs.StepBound

/-! Runs told move by move, with everything that went before. The states that occur are those that a
chronicle comes to; a replay keeps one of its own, in the memories that it has on the way. Whatever is
reported of the end of a path is said of a state that the path comes to. -/
namespace BytecodeChecker

structure Point where
  memory : Memory
  progress : Progress

namespace Point

def state (a : Point) : State := a.progress.state

def path (a : Point) : Path := a.memory.path

end Point

namespace Explorer

variable {e : Explorer} {fuel : Nat} {past : List Point} {now : Point}

def moveAt (e : Explorer) (a : Point) : Move := e.move a.memory a.progress

inductive Chronicle (e : Explorer) : List Point → Point → Prop where
  | begins {memory : Memory} (empty : memory.path = Path.empty) :
      Chronicle e [] ⟨memory, ⟨State.initial e.program, 0, []⟩⟩
  | moves {past : List Point} {memory : Memory} {p q : Progress} (before : Chronicle e past ⟨memory, p⟩)
      (moved : e.move memory p = .goOn q) : Chronicle e (⟨memory, p⟩ :: past) ⟨memory, q⟩
  | chooses {past : List Point} {memory memory' : Memory} {p q : Progress} {g g' : Generator} {i : Nat}
      {s : State} (before : Chronicle e past ⟨memory, p⟩)
      (stopped : e.move memory p = .stop q (.ok (.choice g)))
      (judged : e.judge q.state (.choice g) = .choice g) (chosen : g.select? i = some g')
      (path : memory'.path = memory.path.push g' q.state)
      (goesOn : applied memory'.path q.state = .ok s) :
      Chronicle e (⟨memory, p⟩ :: past) ⟨memory', ⟨s, 0, []⟩⟩

inductive Chronicled (e : Explorer) : List Point → State → Prop where
  | passing {past : List Point} {now : Point} (way : e.Chronicle past now) : Chronicled e past now.state
  | ending {past : List Point} {now : Point} {q : Progress} {ending : Ending} (way : e.Chronicle past now)
      (stopped : e.moveAt now = .stop q (.ok ending)) : Chronicled e (now :: past) q.state

theorem goesOnOutcome {memory : Memory} {p q : Progress} (moved : e.move memory p = .goOn q) :
    (e.moveAt ⟨memory, p⟩).outcome? = some (q, none) := by
  rw [moveAt, moved]
  rfl

theorem stopsOutcome {memory : Memory} {p q : Progress} {ending : Ending}
    (stopped : e.move memory p = .stop q (.ok ending)) :
    (e.moveAt ⟨memory, p⟩).outcome? = some (q, some ending) := by
  rw [moveAt, stopped]
  rfl

theorem Chronicled.holds (inv : List Point → State → Prop) (begins : inv [] (State.initial e.program))
    (moves : ∀ past now q ending?, e.Chronicle past now → inv past now.state →
      (e.moveAt now).outcome? = some (q, ending?) → inv (now :: past) q.state)
    (chooses : ∀ past path s s', inv past s → applied path s = .ok s' → inv past s') {s : State}
    (h : e.Chronicled past s) : inv past s := by
  have along : ∀ {past now}, e.Chronicle past now → inv past now.state := by
    intro past now way
    induction way with
    | begins empty => exact begins
    | moves before moved ih =>
      exact moves _ _ _ none before ih (goesOnOutcome moved)
    | @chooses past memory memory' p q g g' i s before stopped judged chosen path goesOn ih =>
      exact chooses _ _ q.state s (moves _ _ q (some (.choice g)) before ih (stopsOutcome stopped)) goesOn
  cases h with
  | passing way => exact along way
  | ending way stopped => exact moves _ _ _ _ way (along way) (by rw [stopped]; rfl)

theorem Chronicle.started (way : e.Chronicle past now) :
    ∃ fuel s n, e.Starts fuel now.path s ∧ e.Moves now.memory n ⟨s, 0, []⟩ now.progress := by
  induction way with
  | @begins memory empty =>
    refine ⟨0, State.initial e.program, 0, ?_, .none _⟩
    rw [Point.path, empty]
    exact .initial
  | moves before moved ih =>
    obtain ⟨fuel, s, n, starts, way⟩ := ih
    exact ⟨fuel, s, n + 1, starts, way.snoc moved⟩
  | @chooses past memory memory' p q g g' i s before stopped judged chosen path goesOn ih =>
    obtain ⟨fuel, start, n, starts, way⟩ := ih
    have ran := movesTransition way stopped (Nat.lt_succ_self n)
    obtain ⟨after, _, advance⟩ := advanceRan (transitionMore ran (Nat.le_max_right fuel (n + 1)))
    rw [judged] at advance
    have begun := startsMore starts (Nat.le_max_left fuel (n + 1))
    refine ⟨max fuel (n + 1), s, 0, ?_, .none _⟩
    rw [path] at goesOn
    rw [Point.path, path]
    exact .next begun ⟨memory, after, rfl, advance⟩ chosen goesOn

theorem Chronicle.suffix {a : Point} {earlier : List Point} (way : e.Chronicle past now)
    (ends : a :: earlier <:+ now :: past) : e.Chronicle earlier a := by
  induction way with
  | begins empty =>
    rcases List.suffix_cons_iff.mp ends with same | none
    · cases same
      exact .begins empty
    · cases List.suffix_nil.mp none
  | moves before moved ih =>
    rcases List.suffix_cons_iff.mp ends with same | inside
    · cases same
      exact before.moves moved
    · exact ih inside
  | chooses before stopped judged chosen path goesOn ih =>
    rcases List.suffix_cons_iff.mp ends with same | inside
    · cases same
      exact before.chooses stopped judged chosen path goesOn
    · exact ih inside

theorem Chronicle.made {a : Point} (way : e.Chronicle past now) (member : a ∈ past) :
    ∃ q ending?, (e.moveAt a).outcome? = some (q, ending?) := by
  induction way with
  | begins empty => cases member
  | moves before moved ih =>
    rcases List.mem_cons.mp member with rfl | early
    · exact ⟨_, none, goesOnOutcome moved⟩
    · exact ih early
  | @chooses past memory memory' p q g g' i s before stopped judged chosen path goesOn ih =>
    rcases List.mem_cons.mp member with rfl | early
    · exact ⟨q, some (.choice g), stopsOutcome stopped⟩
    · exact ih early

theorem Chronicle.passes (way : e.Chronicle past now) : e.Passes now.path now.progress := by
  obtain ⟨fuel, s, n, starts, moves⟩ := way.started
  exact ⟨fuel, s, now.memory, n, starts, rfl, moves⟩

theorem Chronicle.along {memory : Memory} {n : Nat} {p q : Progress} (way : e.Chronicle past ⟨memory, p⟩)
    (moves : e.Moves memory n p q) :
    ∃ more, e.Chronicle (more ++ past) ⟨memory, q⟩ ∧ ∀ a ∈ more, a.memory = memory := by
  induction moves generalizing past with
  | none p => exact ⟨[], way, nofun⟩
  | @next n p r q moved rest ih =>
    obtain ⟨more, onward, same⟩ := ih (way.moves moved)
    refine ⟨more ++ [⟨memory, p⟩], by rw [List.append_assoc]; exact onward, fun a member => ?_⟩
    rcases List.mem_append.mp member with late | first
    · exact same a late
    · cases List.mem_singleton.mp first
      rfl

theorem Starts.chronicle {path : Path} {s : State} (starts : e.Starts fuel path s) {memory : Memory}
    (same : memory.path = path) : ∃ past, e.Chronicle past ⟨memory, ⟨s, 0, []⟩⟩ := by
  induction starts generalizing memory with
  | initial => exact ⟨[], .begins same⟩
  | @next path s s' s'' g g' i before ends chosen goesOn ih =>
    obtain ⟨own, own', rfl, ran⟩ := ends
    obtain ⟨q, raw, advance⟩ := advanced ran
    obtain ⟨n, r, _, moves, stopped⟩ := transitionMoves advance.ran
    cases judgedChoice advance.judged
    obtain ⟨past, way⟩ := ih rfl
    obtain ⟨more, onward, _⟩ := way.along moves
    have judged := advance.judged
    rw [← advance.state] at judged goesOn same
    exact ⟨_, onward.chooses stopped judged chosen same (by rw [same]; exact goesOn)⟩

theorem occursChronicled {s : State} : e.Occurs s ↔ ∃ past, e.Chronicled past s := by
  constructor
  · intro occurs
    cases occurs with
    | passing passes =>
      obtain ⟨fuel, start, memory, n, starts, same, moves⟩ := passes
      obtain ⟨past, way⟩ := starts.chronicle same
      obtain ⟨more, onward, _⟩ := way.along moves
      exact ⟨_, .passing onward⟩
    | ending reached =>
      obtain ⟨start, starts, memory, memory', same, ran⟩ := reached
      obtain ⟨q, raw, advance⟩ := advanced ran
      obtain ⟨n, last, _, moves, stopped⟩ := transitionMoves advance.ran
      obtain ⟨past, way⟩ := starts.chronicle same
      obtain ⟨more, onward, _⟩ := way.along moves
      rw [← advance.state]
      exact ⟨_, .ending onward stopped⟩
  · rintro ⟨past, chronicled⟩
    cases chronicled with
    | passing way => exact .passing way.passes
    | @ending past now q ending way stopped =>
      obtain ⟨fuel, s, n, starts, moves⟩ := way.started
      have ran := movesTransition moves stopped (Nat.lt_succ_self n)
      obtain ⟨after, _, advance⟩ := advanceRan (transitionMore ran (Nat.le_max_right fuel (n + 1)))
      exact .ending ⟨s, startsMore starts (Nat.le_max_left fuel (n + 1)), now.memory, after, rfl, advance⟩

/- The memory covers what lies on the path and no more, and so it was at the points before. All that was
noted was told by the moves at the points, but for the ends of the transitions. -/
structure Faithful (e : Explorer) (memory : Memory) (points : List Point) : Prop where
  coverage : memory.coverage = memory.path.covered
  throughout : ∀ a ∈ points, a.memory.coverage = a.path.covered
  told : ∀ n ∈ memory.notices, (∃ s depth, n = .advanced s depth) ∨
    ∃ a ∈ points, n ∈ (e.moveAt a).progress.notices

structure Records (e : Explorer) (m : Memory) (s : State) (ending : Ending) (now : Point)
    (past : List Point) : Prop where
  way : e.Chronicle past now
  stopped : ∃ q raw, e.moveAt now = .stop q (.ok raw) ∧ q.state = s ∧ e.judge s raw = ending
  path : m.path = now.path
  faithful : e.Faithful m (now :: past)

theorem advanceRecords {memory m : Memory} {s s' : State} {ending : Ending}
    (way : e.Chronicle past ⟨memory, ⟨s, 0, []⟩⟩) (faithful : e.Faithful memory past)
    (h : e.advance fuel memory s = some ⟨m, s', .ok ending⟩) :
    ∃ now past', e.Records m s' ending now past' ∧ m.path = memory.path := by
  obtain ⟨q, raw, advance⟩ := advanced h
  obtain ⟨n, r, _, moves, stopped⟩ := transitionMoves advance.ran
  obtain ⟨more, onward, same⟩ := way.along moves
  refine ⟨⟨memory, r⟩, more ++ past,
    ⟨onward, ⟨q, raw, stopped, advance.state, advance.judged⟩, advance.path, ?_⟩, advance.path⟩
  refine ⟨?_, fun a member => ?_, fun n member => ?_⟩
  · rw [advanceCoverage h, advance.path]
    exact faithful.coverage
  · rcases List.mem_cons.mp member with rfl | member
    · exact faithful.coverage
    · rcases List.mem_append.mp member with late | early
      · rw [Point.path, same a late]
        exact faithful.coverage
      · exact faithful.throughout a early
  · rw [advance.notices] at member
    rcases List.mem_cons.mp member with rfl | member
    · exact .inl ⟨_, _, rfl⟩
    · rcases List.mem_append.mp member with late | early
      · refine .inr ⟨_, .head _, ?_⟩
        rw [moveAt, stopped]
        exact late
      · refine (faithful.told n early).imp_right fun ⟨a, inside, told⟩ => ⟨a, .tail _ ?_, told⟩
        exact List.mem_append_right more inside

theorem takeRecords {m m' : Memory} {s s' : State} {g g' : Generator} {i : Nat} {ending : Ending}
    (records : e.Records m s (.choice g) now past) (chosen : g.select? i = some g')
    (h : e.take fuel m s g' = some ⟨m', s', .ok ending⟩) :
    ∃ now' past', e.Records m' s' ending now' past' ∧ m'.path = m.path.push g' s := by
  obtain ⟨q, raw, stopped, rfl, judged⟩ := records.stopped
  cases judgedChoice judged
  have result := applyChoiceResult { m with path := m.path.push g' q.state } q.state
  obtain ⟨keeps, _, _, notices⟩ := applyChoiceKeeps { m with path := m.path.push g' q.state } q.state
  have covers := applyChoiceCovers (m := { m with path := m.path.push g' q.state }) (Path.lastPush _ _ _) q.state
  unfold take at h
  cases went : applyChoice { m with path := m.path.push g' q.state } q.state with
  | mk after onward =>
    rw [went] at h result keeps notices covers
    cases onward with
    | error error => cases h
    | ok s'' =>
      have path : after.path = now.memory.path.push g' q.state := by
        rw [keeps, ← Point.path, ← records.path]
      have goesOn : applied after.path q.state = .ok s'' := by
        rw [keeps]
        exact result.symm
      have faithful : e.Faithful after (now :: past) := by
        refine ⟨?_, records.faithful.throughout, ?_⟩
        · rw [covers, records.faithful.coverage, keeps, Path.coveredPush]
        · rw [notices]
          exact records.faithful.told
      obtain ⟨now', past', records', same⟩ :=
        advanceRecords (records.way.chooses stopped judged chosen path goesOn) faithful h
      exact ⟨now', past', records', same.trans keeps⟩

theorem replayRecords {choices : List Nat} {m : Memory} {r : Replayed}
    (h : e.replay fuel choices = some (m, .ok r)) :
    ∃ ending now past, e.Records m r.state ending now past ∧ r.stop = pathEnd ending ∧
      m.path.indices = choices ∧ r.trace = m.path.trace r.state := by
  have follows : ∀ {choices : List Nat} {step : Nat} {memory : Memory} {s : State} {ending : Ending}
      {now : Point} {past : List Point}, e.Records memory s ending now past →
      e.follow fuel step choices ⟨memory, s, .ok ending⟩ = some (m, .ok r) →
      ∃ ending now past, e.Records m r.state ending now past ∧ r.stop = pathEnd ending ∧
        m.path.indices = memory.path.indices ++ choices ∧ r.trace = m.path.trace r.state := by
    intro choices
    induction choices with
    | nil =>
      intro step memory s ending now past records h
      simp only [follow, Option.some.injEq, Prod.mk.injEq, Except.ok.injEq] at h
      obtain ⟨rfl, rfl⟩ := h
      exact ⟨ending, now, past, records, rfl, by simp, rfl⟩
    | cons i rest ih =>
      intro step memory s ending now past records h
      cases ending with
      | finished finish => simp [follow] at h
      | choice g =>
        cases chosen : g.select? i with
        | none => simp [follow, chosen] at h
        | some g' =>
          cases took : e.take fuel memory s g' with
          | none => simp [follow, chosen, took] at h
          | some next =>
            simp only [follow, chosen, took] at h
            obtain ⟨memory', s', result⟩ := next
            cases result with
            | error error => simp [follow] at h
            | ok ending' =>
              obtain ⟨now', past', records', path⟩ := takeRecords records chosen took
              obtain ⟨last, now, past, far, stop, listed, trace⟩ := ih records' h
              refine ⟨last, now, past, far, stop, ?_, trace⟩
              obtain ⟨_, rfl⟩ := Generator.selected chosen
              rw [listed, path]
              simp
  obtain ⟨⟨memory, s, result⟩, begun, h⟩ := Option.bind_eq_some_iff.mp h
  cases result with
  | error error => simp [follow] at h
  | ok ending =>
    obtain ⟨now, past, records, path⟩ := advanceRecords (.begins rfl)
      ⟨rfl, List.forall_mem_nil _, List.forall_mem_nil _⟩ begun
    obtain ⟨last, now, past, far, stop, listed, trace⟩ := follows records h
    rw [path] at listed
    exact ⟨last, now, past, far, stop, listed, trace⟩

def endOf? : Simulated → Option (Finish × State)
  | .completed _ trace => some (.completed, trace.final)
  | .stepLimit _ _ => none
  | .violated v => some (.violated v.failure, v.trace.final)

inductive Reports (e : Explorer) (fuel : Nat) : Finish → State → Prop where
  | completed {m : Memory} {report : Report} {s : State} (checked : e.check fuel = some (m, .ok report))
      (listed : s ∈ m.completedStates) : Reports e fuel .completed s
  | violated {m : Memory} {report : Report} {v : Violation} (checked : e.check fuel = some (m, .ok report))
      (listed : v ∈ report.violations) : Reports e fuel (.violated v.failure) v.trace.final
  | replayed {choices : List Nat} {m : Memory} {r : Replayed} {finish : Finish}
      (followed : e.replay fuel choices = some (m, .ok r)) (stop : r.stop = .finished finish) :
      Reports e fuel finish r.state
  | simulated {pick : Nat → Nat → Nat} {maxSteps : Nat} {m : Memory} {way : Simulated} {finish : Finish}
      {s : State} (walked : e.simulate fuel pick maxSteps = some (m, .ok way))
      (ended : endOf? way = some (finish, s)) : Reports e fuel finish s

/- The choices that come up are never empty, so that a walk ends only where its path does. -/
theorem simulateReaches (standard : e.Standard) {pick : Nat → Nat → Nat} {maxSteps : Nat} {m : Memory}
    {way : Simulated} {finish : Finish} {s : State}
    (h : e.simulate fuel pick maxSteps = some (m, .ok way)) (ended : endOf? way = some (finish, s)) :
    ∃ path, e.Reaches fuel path s (.finished finish) := by
  have settled : ∀ {remaining steps : Nat} {m' : Memory} {s' : State} {done : Finish},
      e.walk fuel pick remaining steps ⟨m', s', .ok (.finished done)⟩ = some (m, .ok way) →
      done = finish ∧ s' = s := by
    intro remaining steps m' s' done h
    cases done <;> cases remaining <;>
      simp only [walk, Option.some.injEq, Prod.mk.injEq, Except.ok.injEq] at h <;>
      obtain ⟨_, rfl⟩ := h <;> cases ended <;> exact ⟨rfl, rfl⟩
  have walks : ∀ {remaining steps : Nat} {a : Advance}, e.Stands fuel a →
      e.walk fuel pick remaining steps a = some (m, .ok way) →
      ∃ path, e.Reaches fuel path s (.finished finish) := by
    intro remaining
    induction remaining with
    | zero =>
      rintro steps ⟨m', s', result⟩ stands h
      cases result with
      | error error => simp [walk] at h
      | ok ending =>
        cases ending with
        | finished done =>
          obtain ⟨rfl, rfl⟩ := settled h
          exact ⟨_, stands⟩
        | choice g =>
          simp only [walk, Option.some.injEq, Prod.mk.injEq, Except.ok.injEq] at h
          obtain ⟨rfl, rfl⟩ := h
          cases ended
    | succ remaining ih =>
      rintro steps ⟨m', s', result⟩ stands h
      cases result with
      | error error => simp [walk] at h
      | ok ending =>
        cases ending with
        | finished done =>
          obtain ⟨rfl, rfl⟩ := settled h
          exact ⟨_, stands⟩
        | choice g =>
          obtain ⟨start, starts, ends⟩ := stands
          have inside := Nat.mod_lt (pick steps g.total) (transitsFresh standard ends).total
          have chosen : g.select? (pick steps g.total % g.total) =
              some { g with cursor := some (pick steps g.total % g.total) } := if_pos inside
          cases took : e.take fuel m' s' { g with cursor := some (pick steps g.total % g.total) } with
          | none => simp [walk, chosen, took] at h
          | some next =>
            simp only [walk, chosen, took] at h
            exact ih (takeStands ⟨start, starts, ends⟩ chosen took) h
  obtain ⟨a, begun, h⟩ := Option.bind_eq_some_iff.mp h
  exact walks (beginStands begun) h

theorem Makes.reaches (standard : e.Standard) {n : Nat} {search : Search} {start s : State} {ending : Ending}
    (makes : e.Makes fuel n search start s ending) : e.Reaches fuel search.memory.path s ending := by
  obtain ⟨memory, ran⟩ := makes.ran
  exact ⟨start, (positionTraced standard makes.position).starts, search.memory, memory, rfl, ran⟩

theorem reportsReached (standard : e.Standard) {finish : Finish} {s : State}
    (reports : e.Reports fuel finish s) : ∃ path, e.Reaches fuel path s (.finished finish) := by
  cases reports with
  | completed checked listed =>
    obtain ⟨n, search, start, makes⟩ := (exploreRecounts standard (n := 0) rfl checked).completed s listed
    exact ⟨_, makes.reaches standard⟩
  | violated checked listed =>
    obtain ⟨n, search, start, makes, _⟩ := (exploreRecounts standard (n := 0) rfl checked).violated _ listed
    exact ⟨_, makes.reaches standard⟩
  | @replayed choices m r finish followed stop =>
    obtain ⟨⟨memory, start, result⟩, begun, h⟩ := Option.bind_eq_some_iff.mp followed
    cases result with
    | error error => simp [follow] at h
    | ok ending =>
      obtain ⟨path, ending', reached, _, same, _⟩ := Blind.followReaches (beginStands begun) h
      rw [stop] at same
      cases ending' with
      | choice g => cases same
      | finished finish' =>
        cases same
        exact ⟨path, reached⟩
  | simulated walked ended => exact simulateReaches standard walked ended

theorem okSome {ε α : Type} {x : Except ε α} {a : α} (h : x.toOption = some a) : x = .ok a := by
  cases x with
  | error error => cases h
  | ok a' => rw [Option.some.inj h]

theorem replayRun (model : Model) (config : Config) (view : Explorer → Explorer) (fuel : Nat)
    (choices : List Nat) (test : Explorer → Memory → Replayed → Bool)
    (h : ((ofModel model config).toOption.bind fun e =>
      ((view e).replay fuel choices).bind fun run => run.2.toOption.map (test e run.1)) = some true) :
    ∃ e m r, ofModel model config = .ok e ∧ (view e).replay fuel choices = some (m, .ok r) ∧
      test e m r = true := by
  obtain ⟨e, made, h⟩ := Option.bind_eq_some_iff.mp h
  obtain ⟨⟨m, result⟩, ran, h⟩ := Option.bind_eq_some_iff.mp h
  obtain ⟨r, ended, passed⟩ := Option.map_eq_some_iff.mp h
  have ended : result = .ok r := okSome ended
  exact ⟨e, m, r, okSome made, by rw [ran, ended], passed⟩

end Explorer

end BytecodeChecker
