import BytecodeChecker.Proofs.Descent

/-! Itineraries: the choices that lead a run from one place to another. A replay goes by the one that it is
given and a simulation makes up its own, so that each ends where the other would. What a path has passed is
what the replays of its beginnings come to. -/
namespace BytecodeChecker

theorem Path.traceAt {path below : Path} {g : Generator} {s : State}
    (older : (below.push g s).entries <:+ path.entries) (final : State) :
    (path.trace final).steps[below.depth]? = some (Entry.mk g s (reached below.entries)).traceStep := by
  obtain ⟨newer, same⟩ := older
  have depth : below.depth = below.entries.reverse.length := by simp [below.depth_eq]
  have listed : path.entries.reverse =
      below.entries.reverse ++ ⟨g, s, reached below.entries⟩ :: newer.reverse := by
    rw [← same]
    simp [push]
  simp only [trace, List.getElem?_map, listed, depth, List.getElem?_append_right (Nat.le_refl _), Nat.sub_self,
    List.getElem?_cons_zero, Option.map_some]

namespace Simulated

def trace : Simulated → Trace
  | completed _ trace => trace
  | stepLimit _ trace => trace
  | violated violation => violation.trace

/- Where the path of a simulation with a bound on its decisions stands. A path is completed also where there
is nothing to choose, and it is cut where a transition is or where the bound is used up. -/
def Agrees (maxSteps : Nat) : Simulated → PathEnd → Prop
  | completed steps trace, stop =>
    steps = trace.steps.length ∧ (stop = .finished .completed ∨ ∃ id, stop = .pending id 0)
  | stepLimit steps trace, stop =>
    steps = trace.steps.length ∧
      (stop = .finished .stepLimit ∨ (∃ id total, stop = .pending id total) ∧ trace.steps.length = maxSteps)
  | violated violation, stop => stop = .finished (.violated violation.failure)

end Simulated

namespace Explorer

variable {e : Explorer} {fuel : Nat}

inductive Leads (e : Explorer) (fuel : Nat) : Advance → List Nat → Advance → Prop where
  | here (a : Advance) : Leads e fuel a [] a
  | next {m : Memory} {s : State} {g g' : Generator} {i : Nat} {rest : List Nat} {a b : Advance}
      (chosen : g.select? i = some g') (took : e.take fuel m s g' = some a) (onward : Leads e fuel a rest b) :
      Leads e fuel ⟨m, s, .ok (.choice g)⟩ (i :: rest) b

theorem advancePath {memory : Memory} {s : State} {a : Advance} (h : e.advance fuel memory s = some a) :
    a.memory.path = memory.path := by
  unfold advance at h
  obtain ⟨⟨p, result⟩, _, made⟩ := Option.map_eq_some_iff.mp h
  cases result <;> cases made <;> rfl

theorem takePath {m : Memory} {s : State} {g : Generator} {a : Advance} (h : e.take fuel m s g = some a) :
    a.memory.path = m.path.push g s := by
  have keeps := (applyChoiceKeeps { m with path := m.path.push g s } s).1
  unfold take at h
  cases went : applyChoice { m with path := m.path.push g s } s with
  | mk after result =>
    rw [went] at h keeps
    cases result with
    | error error =>
      cases Option.some.inj h
      exact keeps
    | ok s' => exact (advancePath h).trans keeps

theorem advanceMore {memory : Memory} {s : State} {a : Advance} (h : e.advance fuel memory s = some a)
    {more : Nat} (enough : fuel ≤ more) : e.advance more memory s = some a := by
  unfold advance at h ⊢
  obtain ⟨r, ran, made⟩ := Option.map_eq_some_iff.mp h
  rw [transitionMore ran enough, Option.map_some, made]

theorem takeMore {m : Memory} {s : State} {g : Generator} {a : Advance} (h : e.take fuel m s g = some a)
    {more : Nat} (enough : fuel ≤ more) : e.take more m s g = some a := by
  unfold take at h ⊢
  cases went : applyChoice { m with path := m.path.push g s } s with
  | mk after result =>
    rw [went] at h
    cases result with
    | error error => exact h
    | ok s' => exact advanceMore h enough

namespace Leads

variable {a b : Advance} {cs : List Nat}

theorem more (way : e.Leads fuel a cs b) {more : Nat} (enough : fuel ≤ more) : e.Leads more a cs b := by
  induction way with
  | here a => exact .here a
  | next chosen took onward ih => exact .next chosen (takeMore took enough) ih

theorem stands (way : e.Leads fuel a cs b) (begins : e.Stands fuel a) : e.Stands fuel b := by
  induction way with
  | here a => exact begins
  | next chosen took onward ih => exact ih (takeStands begins chosen took)

theorem indices (way : e.Leads fuel a cs b) :
    b.memory.path.indices = a.memory.path.indices ++ cs := by
  induction way with
  | here a => simp
  | next chosen took onward ih =>
    obtain ⟨_, rfl⟩ := Generator.selected chosen
    rw [ih, takePath took]
    simp

theorem older (way : e.Leads fuel a cs b) : a.memory.path.entries <:+ b.memory.path.entries := by
  induction way with
  | here a => exact List.suffix_refl _
  | @next m s g g' i rest a b chosen took onward ih =>
    rw [takePath took] at ih
    exact (List.suffix_cons _ _).trans ih

theorem split {xs ys : List Nat} (way : e.Leads fuel a (xs ++ ys) b) :
    ∃ c, e.Leads fuel a xs c ∧ e.Leads fuel c ys b := by
  induction xs generalizing a with
  | nil => exact ⟨a, .here a, way⟩
  | cons i xs ih =>
    cases way with
    | next chosen took onward =>
      obtain ⟨c, before, after⟩ := ih onward
      exact ⟨c, .next chosen took before, after⟩

theorem followed (way : e.Leads fuel a cs b) (step : Nat) (rest : List Nat) :
    e.follow fuel step (cs ++ rest) a = e.follow fuel (step + cs.length) rest b := by
  induction way generalizing step with
  | here a => rfl
  | @next m s g g' i later a b chosen took onward ih =>
    have count : step + 1 + later.length = step + (i :: later).length := by
      simp only [List.length_cons]
      omega
    rw [List.cons_append, follow, chosen]
    simp only [took]
    rw [ih (step + 1), count]

theorem replayed (begun : e.begin fuel = some a) (way : e.Leads fuel a cs b) (rest : List Nat) :
    e.replay fuel (cs ++ rest) = e.follow fuel cs.length rest b := by
  unfold replay
  rw [begun, Option.bind_some, way.followed 0 rest, Nat.zero_add]

end Leads

theorem followLeads {step : Nat} {cs : List Nat} {a : Advance} {m : Memory} {r : Replayed}
    (h : e.follow fuel step cs a = some (m, .ok r)) :
    ∃ ending, e.Leads fuel a cs ⟨m, r.state, .ok ending⟩ ∧ r.stop = pathEnd ending ∧
      r.trace = m.path.trace r.state := by
  induction cs generalizing step a with
  | nil =>
    obtain ⟨memory, s, result⟩ := a
    cases result with
    | error error => simp [follow] at h
    | ok ending =>
      simp only [follow, Option.some.injEq, Prod.mk.injEq, Except.ok.injEq] at h
      obtain ⟨rfl, rfl⟩ := h
      exact ⟨ending, .here _, rfl, rfl⟩
  | cons i rest ih =>
    obtain ⟨memory, s, result⟩ := a
    cases result with
    | error error => simp [follow] at h
    | ok ending =>
      cases ending with
      | finished finish => simp [follow] at h
      | choice g =>
        cases chosen : g.select? i with
        | none => simp [follow, chosen] at h
        | some g' =>
          cases took : e.take fuel memory s g' with
          | none => simp [follow, chosen, took] at h
          | some next =>
            simp only [follow, chosen, took] at h
            obtain ⟨ending, onward, ends⟩ := ih h
            exact ⟨ending, .next chosen took onward, ends⟩

theorem replayLeads {cs : List Nat} {m : Memory} {r : Replayed} (h : e.replay fuel cs = some (m, .ok r)) :
    ∃ a ending, e.begin fuel = some a ∧ e.Leads fuel a cs ⟨m, r.state, .ok ending⟩ ∧
      r.stop = pathEnd ending ∧ r.trace = m.path.trace r.state ∧ m.path.indices = cs := by
  obtain ⟨a, begun, h⟩ := Option.bind_eq_some_iff.mp h
  obtain ⟨ending, way, stop, trace⟩ := followLeads h
  have listed := way.indices
  rw [advancePath begun] at listed
  exact ⟨a, ending, begun, way, stop, trace, listed⟩

theorem traceLength (path : Path) (s : State) : (path.trace s).steps.length = path.depth := by
  simp [Path.trace, path.depth_eq]

theorem walkEnded {pick : Nat → Nat → Nat} {remaining steps : Nat} {memory m : Memory} {s : State}
    {finish : Finish} {way : Simulated} (counted : steps = memory.path.depth) (maxSteps : Nat)
    (h : e.walk fuel pick remaining steps ⟨memory, s, .ok (.finished finish)⟩ = some (m, .ok way)) :
    m = memory ∧ way.trace = memory.path.trace s ∧ way.Agrees maxSteps (.finished finish) := by
  have length := counted.trans (traceLength memory.path s).symm
  cases finish <;> simp only [walk, Option.some.injEq, Prod.mk.injEq, Except.ok.injEq] at h <;>
    obtain ⟨rfl, rfl⟩ := h
  · exact ⟨rfl, rfl, length, .inl rfl⟩
  · exact ⟨rfl, rfl, length, .inl rfl⟩
  · exact ⟨rfl, rfl, rfl⟩

theorem walkLeads {pick : Nat → Nat → Nat} {remaining steps : Nat} {a : Advance} {m : Memory} {way : Simulated}
    (counted : steps = a.memory.path.depth) (h : e.walk fuel pick remaining steps a = some (m, .ok way)) :
    ∃ cs s ending, e.Leads fuel a cs ⟨m, s, .ok ending⟩ ∧ cs.length ≤ remaining ∧
      way.trace = m.path.trace s ∧ way.Agrees (a.memory.path.depth + remaining) (pathEnd ending) := by
  induction remaining generalizing steps a with
  | zero =>
    obtain ⟨memory, s, result⟩ := a
    cases result with
    | error error => simp [walk] at h
    | ok ending =>
      cases ending with
      | finished finish =>
        obtain ⟨rfl, trace, agrees⟩ := walkEnded counted memory.path.depth h
        exact ⟨[], s, _, .here _, Nat.le_refl 0, trace, agrees⟩
      | choice g =>
        simp only [walk, Option.some.injEq, Prod.mk.injEq, Except.ok.injEq] at h
        obtain ⟨rfl, rfl⟩ := h
        have length := traceLength memory.path s
        exact ⟨[], s, .choice g, .here _, Nat.le_refl 0, rfl, counted.trans length.symm,
          .inr ⟨⟨g.id, g.total, rfl⟩, length⟩⟩
  | succ remaining ih =>
    obtain ⟨memory, s, result⟩ := a
    cases result with
    | error error => simp [walk] at h
    | ok ending =>
      cases ending with
      | finished finish =>
        obtain ⟨rfl, trace, agrees⟩ := walkEnded counted (memory.path.depth + (remaining + 1)) h
        exact ⟨[], s, _, .here _, Nat.zero_le _, trace, agrees⟩
      | choice g =>
        cases chosen : g.select? (pick steps g.total % g.total) with
        | none =>
          -- Only where there is nothing to choose is a picked index not one of the choices.
          simp only [walk, chosen, Option.some.injEq, Prod.mk.injEq, Except.ok.injEq] at h
          obtain ⟨rfl, rfl⟩ := h
          have nothing : g.total = 0 := by
            refine Nat.eq_zero_of_not_pos fun some => ?_
            simp [Generator.select?, Nat.mod_lt _ some] at chosen
          refine ⟨[], s, .choice g, .here _, Nat.zero_le _, rfl, ?_, .inr ⟨g.id, ?_⟩⟩
          · exact counted.trans (traceLength memory.path s).symm
          · rw [pathEnd, nothing]
        | some g' =>
          cases took : e.take fuel memory s g' with
          | none => simp [walk, chosen, took] at h
          | some next =>
            simp only [walk, chosen, took] at h
            have deeper : next.memory.path.depth = memory.path.depth + 1 := by
              rw [takePath took]
              rfl
            obtain ⟨cs, s', ending, onward, short, trace, agrees⟩ := ih (by rw [deeper, counted]) h
            refine ⟨_ :: cs, s', ending, .next chosen took onward, Nat.succ_le_succ short, trace, ?_⟩
            rwa [deeper, Nat.add_right_comm, Nat.add_assoc] at agrees

theorem simulationReplays {pick : Nat → Nat → Nat} {maxSteps : Nat} {m : Memory} {way : Simulated}
    (h : e.simulate fuel pick maxSteps = some (m, .ok way)) :
    way.trace.steps.length ≤ maxSteps ∧
    ∃ r, e.replay fuel way.trace.choices = some (m, .ok r) ∧ r.state = way.trace.final ∧
      r.trace = way.trace ∧ way.Agrees maxSteps r.stop := by
  obtain ⟨a, begun, h⟩ := Option.bind_eq_some_iff.mp h
  have origin : a.memory.path = Path.empty := advancePath begun
  obtain ⟨cs, s, ending, leads, short, trace, agrees⟩ := walkLeads (by rw [origin]; rfl) h
  have listed := leads.indices
  rw [origin, Path.indicesEmpty, List.nil_append] at listed
  have choices : way.trace.choices = cs := by rw [trace, Path.traceChoices, listed]
  have replayed := leads.replayed begun []
  rw [List.append_nil, follow, ← choices] at replayed
  refine ⟨?_, _, replayed, by rw [trace]; rfl, trace.symm, ?_⟩
  · rw [← listed, Path.indicesLength] at short
    rwa [trace, traceLength]
  · have none : a.memory.path.depth = 0 := by rw [origin]; rfl
    rwa [none, Nat.zero_add] at agrees

def pickLast (_ total : Nat) : Nat := total - 1

theorem raceSimulated : ∃ e m v r, ofModel race Config.default = .ok e ∧
    e.simulate 20 pickLast 2 = some (m, .ok (.violated v)) ∧ v.trace.choices = [1, 1] ∧
    e.replay 20 [1, 1] = some (m, .ok r) ∧ r.stop = .finished (.violated v.failure) ∧
    r.state = v.trace.final := by
  have ran : ((ofModel race Config.default).toOption.bind fun e =>
      (e.simulate 20 pickLast 2).bind fun run => run.2.toOption.map fun way =>
        (endOf? way).any (·.1 != .completed) && way.trace.choices == [1, 1]) = some true := by
    decide +kernel
  obtain ⟨e, made, ran⟩ := Option.bind_eq_some_iff.mp ran
  obtain ⟨⟨m, result⟩, walked, ran⟩ := Option.bind_eq_some_iff.mp ran
  obtain ⟨way, ended, passed⟩ := Option.map_eq_some_iff.mp ran
  have ended : result = .ok way := okSome ended
  rw [ended] at walked
  simp only [Bool.and_eq_true, beq_iff_eq] at passed
  obtain ⟨_, r, replayed, state, _, stop⟩ := simulationReplays walked
  rw [passed.2] at replayed
  cases way with
  | completed steps trace => simp [endOf?] at passed
  | stepLimit steps trace => simp [endOf?] at passed
  | violated v => exact ⟨e, m, v, r, okSome made, walked, passed.2, replayed, stop, state⟩

theorem Leads.walked {a b : Advance} {cs : List Nat} (leads : e.Leads fuel a cs b) {ending : Ending}
    (ends : b.result = .ok ending) (before : List Nat) :
    ∃ way, e.walk fuel (fun step _ => (before ++ cs)[step]?.getD 0) cs.length before.length a =
      some (b.memory, .ok way) ∧ way.trace = b.memory.path.trace b.state := by
  induction leads generalizing before with
  | here a =>
    obtain ⟨memory, s, result⟩ := a
    cases ends
    cases ending with
    | choice g => exact ⟨_, rfl, rfl⟩
    | finished finish => cases finish <;> exact ⟨_, rfl, rfl⟩
  | @next m s g g' i rest a b chosen took onward ih =>
    obtain ⟨way, walked, trace⟩ := ih ends (before ++ [i])
    refine ⟨way, ?_, trace⟩
    have picked : (before ++ i :: rest)[before.length]?.getD 0 % g.total = i := by
      simp [Nat.mod_eq_of_lt (Generator.selected chosen).1]
    rw [List.length_cons, walk, picked, chosen]
    simp only [took]
    simpa using walked

theorem replaySimulated {cs : List Nat} {m : Memory} {r : Replayed} (h : e.replay fuel cs = some (m, .ok r)) :
    ∃ pick way, e.simulate fuel pick cs.length = some (m, .ok way) ∧ way.trace = r.trace := by
  obtain ⟨a, ending, begun, leads, _, trace, _⟩ := replayLeads h
  obtain ⟨way, walked, same⟩ := leads.walked rfl []
  refine ⟨fun step _ => cs[step]?.getD 0, way, ?_, same.trans trace.symm⟩
  unfold simulate
  rw [begun]
  exact walked

theorem Reaches.depth (standard : e.Standard) {path : Path} {s : State} {ending : Ending}
    (reached : e.Reaches fuel path s ending) : s.depth = path.depth := by
  obtain ⟨start, starts, ends⟩ := reached
  rw [(transitsWithin standard e.program.callsAny (Machine.withinAny _) ends).2]
  cases starts with
  | initial => rfl
  | next before ends' chosen goesOn =>
    obtain ⟨_, _, _, rfl⟩ := appliedState goesOn
    rfl

theorem Leads.passed {a b : Advance} {cs : List Nat} (way : e.Leads fuel a cs b) {k i : Nat}
    (chosen : cs[k]? = some i) :
    ∃ m s g, e.Leads fuel a (cs.take k) ⟨m, s, .ok (.choice g)⟩ ∧ i < g.total ∧
      (m.path.push { g with cursor := some i } s).entries <:+ b.memory.path.entries := by
  obtain ⟨inside, same⟩ := List.getElem?_eq_some_iff.mp chosen
  have parts : cs = cs.take k ++ i :: cs.drop (k + 1) := by
    rw [← same, List.getElem_cons_drop, List.take_append_drop]
  rw [parts] at way
  obtain ⟨c, before, after⟩ := way.split
  cases after with
  | next selected took onward =>
    obtain ⟨below, rfl⟩ := Generator.selected selected
    have older := onward.older
    rw [takePath took] at older
    exact ⟨_, _, _, before, below, older⟩

theorem divergesIff (loaded : e.Loaded) {m : Memory} {s : State} {ending : Ending}
    (stands : e.Stands fuel ⟨m, s, .ok ending⟩) (step i : Nat) :
    (∃ m' cause, e.follow fuel step [i] ⟨m, s, .ok ending⟩ = some (m', .error (.replayDiverged step cause))) ↔
      ∀ id total, pathEnd ending = .pending id total → total ≤ i := by
  cases ending with
  | finished finish => exact ⟨fun _ _ _ pending => (by cases pending), fun _ => ⟨m, .pathEnded finish, rfl⟩⟩
  | choice g =>
    have total : (∀ id total, pathEnd (.choice g) = .pending id total → total ≤ i) ↔ g.total ≤ i := by
      simp [pathEnd]
    rw [total]
    constructor
    · rintro ⟨m', cause, failed⟩
      refine Nat.le_of_not_lt fun inside => ?_
      have chosen : g.select? i = some { g with cursor := some i } := if_pos inside
      cases took : e.take fuel m s { g with cursor := some i } with
      | none => simp [follow, chosen, took] at failed
      | some next =>
        simp only [follow, chosen, took] at failed
        have stands' := takeStands stands chosen took
        obtain ⟨m'', s'', result⟩ := next
        cases result with
        | ok ending' => simp [follow] at failed
        | error error =>
          simp only [follow, Option.some.injEq, Prod.mk.injEq, Except.error.injEq] at failed
          obtain ⟨fault, machine, _⟩ := failsOfOperands loaded stands'
          cases machine.symm.trans failed.2
    · intro outside
      have missing : g.select? i = none := if_neg (Nat.not_lt.mpr outside)
      exact ⟨m, _, by rw [follow, missing]⟩

/- The beginnings of a path that was replayed are replayed to the decisions that it tells of, and what it
goes on with is one of the choices that it stands at, or else nothing. -/
theorem replayCoherent {model : Model} {config : Config} (accepted : ofModel model config = .ok e)
    (properties : List Property) {cs : List Nat} {m : Memory} {r : Replayed}
    (h : (e.watching properties).replay fuel cs = some (m, .ok r)) :
    r.trace.choices = cs ∧ r.state.depth = cs.length ∧
    (∀ k i, cs[k]? = some i → ∃ m' r' step total,
      (e.watching properties).replay fuel (cs.take k) = some (m', .ok r') ∧ r.trace.steps[k]? = some step ∧
      r'.stop = .pending step.generator total ∧ i < total ∧ r'.state = step.state) ∧
    ∀ i more, fuel ≤ more →
      ((∃ m' cause, (e.watching properties).replay more (cs ++ [i]) =
        some (m', .error (.replayDiverged cs.length cause))) ↔
      ∀ id total, r.stop = .pending id total → total ≤ i) := by
  have loaded := modelLoaded accepted properties
  obtain ⟨a, ending, begun, way, stop, trace, listed⟩ := replayLeads h
  have reached := way.stands (beginStands begun)
  refine ⟨by rw [trace, Path.traceChoices, listed], ?_, ?_, ?_⟩
  · rw [← listed, Path.indicesLength]
    exact Reaches.depth loaded.standard reached
  · intro k i chosen
    obtain ⟨m', s', g, before, inside, older⟩ := way.passed chosen
    have replayed := before.replayed begun []
    rw [List.append_nil, follow] at replayed
    have depth : m'.path.depth = k := by
      have early := before.indices
      rw [advancePath begun] at early
      have length := congrArg List.length early
      have short : k < cs.length := (List.getElem?_eq_some_iff.mp chosen).1
      simp only [Path.indicesLength] at length
      rw [length]
      change (cs.take k).length = k
      rw [List.length_take, Nat.min_eq_left (Nat.le_of_lt short)]
    have told := Path.traceAt older r.state
    rw [depth, ← trace] at told
    exact ⟨m', _, _, g.total, replayed, told, rfl, inside, rfl⟩
  · intro i more enough
    have later := (way.more enough).replayed (advanceMore begun enough) [i]
    rw [later, stop]
    exact divergesIff loaded ((way.more enough).stands (beginStands (advanceMore begun enough))) cs.length i

theorem touringCoherent : ∃ e m r m' r' step m'' cause, ofModel touring Config.default = .ok e ∧
    (e.watching []).replay 40 [0] = some (m, .ok r) ∧ r.stop = .pending "processNextEvent" 2 ∧
    r.trace.choices = [0] ∧ r.state.depth = 1 ∧
    (e.watching []).replay 40 [] = some (m', .ok r') ∧ r.trace.steps[0]? = some step ∧
    r'.state = step.state ∧
    (e.watching []).replay 40 [0, 2] = some (m'', .error (.replayDiverged 1 cause)) := by
  obtain ⟨e, m, r, accepted, replayed, passed⟩ := replayRun touring Config.default (·.watching []) 40 [0]
    (fun _ _ r => r.stop == .pending "processNextEvent" 2) (by decide +kernel)
  simp only [beq_iff_eq] at passed
  obtain ⟨choices, depth, before, diverges⟩ := replayCoherent accepted [] replayed
  obtain ⟨m', r', step, total, earlier, told, _, _, state⟩ := before 0 0 rfl
  obtain ⟨m'', cause, failed⟩ := (diverges 2 40 (Nat.le_refl 40)).mpr fun id total pending => by
    rw [passed] at pending
    cases pending
    decide
  exact ⟨e, m, r, m', r', step, m'', cause, accepted, replayed, passed, choices, depth, earlier, told, state, failed⟩

end Explorer

end BytecodeChecker
