import BytecodeChecker.Proofs.Frontier

/-! The course of a run, move by move. A transition is a number of moves that go on and one that stops
it. A search, a replay or a simulation fails because a move fails, or the choice that it goes on with. -/
namespace BytecodeChecker.Explorer

variable {e : Explorer} {fuel : Nat} {memory : Memory} {path : Path} {p q r : Progress} {s s' : State}

theorem transitionMoves {result : Except CheckError Ending}
    (h : e.transition memory fuel p = some (q, result)) :
    ∃ n r, n < fuel ∧ e.Moves memory n p r ∧ e.move memory r = .stop q result := by
  induction fuel generalizing p with
  | zero => cases h
  | succ fuel ih =>
    unfold transition at h
    cases moved : e.move memory p with
    | goOn next =>
      rw [moved] at h
      obtain ⟨n, r, less, moves, stopped⟩ := ih h
      exact ⟨n + 1, r, by omega, .next moved moves, stopped⟩
    | stop last ended =>
      rw [moved] at h
      cases Option.some.inj h
      exact ⟨0, p, by omega, .none p, moved⟩

theorem movesTransition {n : Nat} {result : Except CheckError Ending} (moves : e.Moves memory n p r)
    (stopped : e.move memory r = .stop q result) (enough : n < fuel) :
    e.transition memory fuel p = some (q, result) := by
  induction moves generalizing fuel with
  | none p =>
    cases fuel with
    | zero => omega
    | succ fuel => rw [transition, stopped]
  | next moved rest ih =>
    cases fuel with
    | zero => omega
    | succ fuel =>
      rw [transition, moved]
      exact ih stopped (by omega)

theorem transitionNone : e.transition memory fuel p = none ↔ ∃ q, e.Moves memory fuel p q := by
  constructor
  · intro h
    induction fuel generalizing p with
    | zero => exact ⟨p, .none p⟩
    | succ fuel ih =>
      unfold transition at h
      cases moved : e.move memory p with
      | goOn next =>
        rw [moved] at h
        obtain ⟨q, moves⟩ := ih h
        exact ⟨q, .next moved moves⟩
      | stop last ended =>
        rw [moved] at h
        cases h
  · rintro ⟨q, moves⟩
    induction moves with
    | none p => rfl
    | next moved rest ih =>
      rw [transition, moved]
      exact ih

def Passes (e : Explorer) (path : Path) (q : Progress) : Prop :=
  ∃ fuel s memory n, e.Starts fuel path s ∧ memory.path = path ∧ e.Moves memory n ⟨s, 0, []⟩ q

inductive Occurs (e : Explorer) : State → Prop where
  | passing {path : Path} {p : Progress} (passes : e.Passes path p) : Occurs e p.state
  | ending {fuel : Nat} {path : Path} {s : State} {ending : Ending}
      (reached : e.Reaches fuel path s ending) : Occurs e s

inductive Fails (e : Explorer) (error : CheckError) : Prop where
  | moving {memory : Memory} {p q : Progress} (passes : e.Passes memory.path p)
      (failed : e.move memory p = .stop q (.error error))
  | choosing {fuel : Nat} {path : Path} {snapshot : State} (forks : e.Forks fuel path snapshot)
      (failed : applied path snapshot = .error error)

theorem Passes.holds (inv : Path → Progress → Prop) (begins : inv Path.empty ⟨State.initial e.program, 0, []⟩)
    (moves : ∀ memory p q, inv memory.path p → e.move memory p = .goOn q → inv memory.path q)
    (chooses : ∀ memory p q g g' i s, inv memory.path p → e.move memory p = .stop q (.ok (.choice g)) →
      g.select? i = some g' → applied (memory.path.push g' q.state) q.state = .ok s →
      inv (memory.path.push g' q.state) ⟨s, 0, []⟩)
    (passes : e.Passes path q) : inv path q := by
  have along : ∀ {memory : Memory} {n : Nat} {p q : Progress}, e.Moves memory n p q →
      inv memory.path p → inv memory.path q := by
    intro memory n p q way
    induction way with
    | none p => exact id
    | next moved rest ih => exact fun here => ih (moves _ _ _ here moved)
  have starts : ∀ {fuel : Nat} {path : Path} {s : State}, e.Starts fuel path s → inv path ⟨s, 0, []⟩ := by
    intro fuel path s start
    induction start with
    | initial => exact begins
    | next before ends chosen goesOn ih =>
      obtain ⟨memory, memory', rfl, ran⟩ := ends
      obtain ⟨p, raw, advance⟩ := advanced ran
      obtain ⟨n, r, _, way, stopped⟩ := transitionMoves advance.ran
      rw [judgedChoice advance.judged] at stopped
      rw [← advance.state] at goesOn ⊢
      exact chooses memory r p _ _ _ _ (along way ih) stopped chosen goesOn
  obtain ⟨fuel, s, memory, n, start, rfl, way⟩ := passes
  exact along way (starts start)

theorem Reaches.lastMove {ending : Ending} (reached : e.Reaches fuel path s ending) :
    ∃ memory p q raw, memory.path = path ∧ e.Passes path p ∧ e.move memory p = .stop q (.ok raw) ∧
      q.state = s ∧ e.judge s raw = ending := by
  obtain ⟨start, starts, memory, memory', same, ran⟩ := reached
  obtain ⟨q, raw, advance⟩ := advanced ran
  obtain ⟨n, p, _, way, stopped⟩ := transitionMoves advance.ran
  exact ⟨memory, p, q, raw, same, ⟨fuel, start, memory, n, starts, same, way⟩, stopped, advance.state,
    advance.judged⟩

theorem advanceFails {after : Memory} {error : CheckError} (starts : e.Starts fuel memory.path s)
    (h : e.advance fuel memory s = some ⟨after, s', .error error⟩) : e.Fails error := by
  unfold advance at h
  obtain ⟨⟨q, result⟩, ran, h⟩ := Option.map_eq_some_iff.mp h
  cases result with
  | ok raw => cases h
  | error error' =>
    cases h
    obtain ⟨n, p, _, way, stopped⟩ := transitionMoves ran
    exact .moving ⟨fuel, s, memory, n, starts, rfl, way⟩ stopped

theorem backtrackFails {m m' : Memory} {branch : Path.Branch} {snapshot : State} {error : CheckError}
    (found : m.path.nextBranch? = some branch) (fork : e.Forks fuel branch.path snapshot)
    (h : backtrack m = (m', .error error)) : applied branch.path snapshot = .error error := by
  obtain ⟨top, last, rfl⟩ := forkLast fork
  obtain ⟨path, again⟩ := branch
  simp only [backtrack, found, last] at h
  have result := applyChoiceResult { m with path } top.snapshot
  cases went : applyChoice { m with path } top.snapshot with
  | mk after onward =>
    rw [went] at h result
    cases onward with
    | error error' =>
      cases h
      exact result.symm
    | ok s =>
      dsimp only at h
      split at h <;> cases h

section Search

variable (standard : e.Standard) {search : Search} {ending : Ending}
include standard

theorem turnStarts {search' : Search} {s'' : State} (starts : e.Starts fuel search.memory.path s)
    (ran : e.advance fuel search.memory s = some ⟨memory, s', .ok ending⟩)
    (h : e.turn s' ending { search with memory } = .goOn search' s'') :
    e.Starts fuel search'.memory.path s'' := by
  obtain ⟨expanded, accounts⟩ := settleAccounts standard ran
  have turned := turned (e := e) s' ending { search with memory }
  rw [h] at turned
  cases turned with
  | onward went =>
    cases found : (e.settle s' ending { search with memory }).memory.path.nextBranch? with
    | none =>
      simp only [backtrack, found] at went
      cases went
    | some branch =>
      obtain ⟨snapshot, fork⟩ :=
        (followsFork ⟨s, starts, _, _, rfl, ran⟩ accounts.follows standard found).1
      obtain ⟨_, _, same, starts', back⟩ := backtrackForks found fork went
      cases Option.some.inj same
      rwa [back.path]

theorem turnFails {m : Memory} {error : CheckError} (starts : e.Starts fuel search.memory.path s)
    (ran : e.advance fuel search.memory s = some ⟨memory, s', .ok ending⟩)
    (h : e.turn s' ending { search with memory } = .stop m (.error error)) :
    ∃ path snapshot, e.Forks fuel path snapshot ∧ applied path snapshot = .error error := by
  obtain ⟨expanded, accounts⟩ := settleAccounts standard ran
  have turned := turned (e := e) s' ending { search with memory }
  rw [h] at turned
  cases turned with
  | failed went =>
    cases found : (e.settle s' ending { search with memory }).memory.path.nextBranch? with
    | none =>
      simp only [backtrack, found] at went
      cases went
    | some branch =>
      obtain ⟨snapshot, fork⟩ :=
        (followsFork ⟨s, starts, _, _, rfl, ran⟩ accounts.follows standard found).1
      exact ⟨_, _, fork, backtrackFails found fork went⟩

theorem exploreFails {turns : Nat} {m : Memory} {error : CheckError}
    (starts : e.Starts fuel search.memory.path s)
    (h : e.explore fuel turns search s = some (m, .error error)) : e.Fails error := by
  induction turns generalizing search s with
  | zero => cases h
  | succ turns ih =>
    unfold explore at h
    split at h
    · cases h
    · rename_i ran
      cases h
      exact advanceFails starts ran
    · rename_i ran
      split at h
      · rename_i went
        exact ih (turnStarts standard starts ran went) h
      · rename_i went
        cases Option.some.inj h
        obtain ⟨path, snapshot, fork, failed⟩ := turnFails standard starts ran went
        exact .choosing fork failed

theorem checkFails {m : Memory} {error : CheckError} (h : e.check fuel = some (m, .error error)) :
    e.Fails error :=
  exploreFails standard .initial h

end Search

def Stands (e : Explorer) (fuel : Nat) (a : Advance) : Prop :=
  match a.result with
  | .ok ending => e.Reaches fuel a.memory.path a.state ending
  | .error error => e.Fails error

theorem advanceStands {a : Advance} (starts : e.Starts fuel memory.path s)
    (h : e.advance fuel memory s = some a) : e.Stands fuel a := by
  obtain ⟨after, s', result⟩ := a
  cases result with
  | error error => exact advanceFails starts h
  | ok ending =>
    obtain ⟨p, raw, advance⟩ := advanced h
    change e.Reaches fuel after.path s' ending
    rw [advance.path]
    exact ⟨s, starts, memory, after, rfl, h⟩

theorem takeStands {m : Memory} {g g' : Generator} {i : Nat} {a : Advance}
    (reached : e.Reaches fuel m.path s (.choice g)) (chosen : g.select? i = some g')
    (h : e.take fuel m s g' = some a) : e.Stands fuel a := by
  obtain ⟨start, before, ends⟩ := reached
  have result := applyChoiceResult { m with path := m.path.push g' s } s
  have keeps := (applyChoiceKeeps { m with path := m.path.push g' s } s).1
  unfold take at h
  cases went : applyChoice { m with path := m.path.push g' s } s with
  | mk after onward =>
    rw [went] at h result keeps
    cases onward with
    | error error =>
      cases Option.some.inj h
      exact .choosing (.at before ends chosen) result.symm
    | ok s'' =>
      refine advanceStands ?_ h
      rw [keeps]
      exact .next before ends chosen result.symm

theorem beginStands {a : Advance} (h : e.begin fuel = some a) : e.Stands fuel a :=
  advanceStands .initial h

theorem replayFails {choices : List Nat} {m : Memory} {error : CheckError}
    (h : e.replay fuel choices = some (m, .error error)) :
    e.Fails error ∨ ∃ step cause, error = .replayDiverged step cause := by
  have follows : ∀ {choices : List Nat} {step : Nat} {a : Advance}, e.Stands fuel a →
      e.follow fuel step choices a = some (m, .error error) →
      e.Fails error ∨ ∃ step cause, error = .replayDiverged step cause := by
    intro choices
    induction choices with
    | nil =>
      rintro step ⟨m', s', result⟩ stands h
      cases result with
      | error error' =>
        simp only [follow, Option.some.injEq, Prod.mk.injEq, Except.error.injEq] at h
        exact .inl (h.2 ▸ stands)
      | ok ending => simp [follow] at h
    | cons i rest ih =>
      rintro step ⟨m', s', result⟩ stands h
      cases result with
      | error error' =>
        simp only [follow, Option.some.injEq, Prod.mk.injEq, Except.error.injEq] at h
        exact .inl (h.2 ▸ stands)
      | ok ending =>
        cases ending with
        | finished finish =>
          simp only [follow, Option.some.injEq, Prod.mk.injEq, Except.error.injEq] at h
          exact .inr ⟨_, _, h.2.symm⟩
        | choice g =>
          cases chosen : g.select? i with
          | none =>
            simp only [follow, chosen, Option.some.injEq, Prod.mk.injEq, Except.error.injEq] at h
            exact .inr ⟨_, _, h.2.symm⟩
          | some g' =>
            cases took : e.take fuel m' s' g' with
            | none => simp [follow, chosen, took] at h
            | some next =>
              simp only [follow, chosen, took] at h
              exact ih (takeStands stands chosen took) h
  obtain ⟨a, begun, h⟩ := Option.bind_eq_some_iff.mp h
  exact follows (beginStands begun) h

theorem simulateFails {pick : Nat → Nat → Nat} {maxSteps : Nat} {m : Memory} {error : CheckError}
    (h : e.simulate fuel pick maxSteps = some (m, .error error)) : e.Fails error := by
  have walks : ∀ {remaining steps : Nat} {a : Advance}, e.Stands fuel a →
      e.walk fuel pick remaining steps a = some (m, .error error) → e.Fails error := by
    intro remaining
    induction remaining with
    | zero =>
      rintro steps ⟨m', s', result⟩ stands h
      match result with
      | .error error' =>
        simp only [walk, Option.some.injEq, Prod.mk.injEq, Except.error.injEq] at h
        exact h.2 ▸ stands
      | .ok (.finished .completed) => simp [walk] at h
      | .ok (.finished .stepLimit) => simp [walk] at h
      | .ok (.finished (.violated failure)) => simp [walk] at h
      | .ok (.choice g) => simp [walk] at h
    | succ remaining ih =>
      rintro steps ⟨m', s', result⟩ stands h
      match result with
      | .error error' =>
        simp only [walk, Option.some.injEq, Prod.mk.injEq, Except.error.injEq] at h
        exact h.2 ▸ stands
      | .ok (.finished .completed) => simp [walk] at h
      | .ok (.finished .stepLimit) => simp [walk] at h
      | .ok (.finished (.violated failure)) => simp [walk] at h
      | .ok (.choice g) =>
        cases chosen : g.select? (pick steps g.total % g.total) with
        | none => simp [walk, chosen] at h
        | some g' =>
          cases took : e.take fuel m' s' g' with
          | none => simp [walk, chosen, took] at h
          | some next =>
            simp only [walk, chosen, took] at h
            exact ih (takeStands stands chosen took) h
  obtain ⟨a, begun, h⟩ := Option.bind_eq_some_iff.mp h
  exact walks (beginStands begun) h

end BytecodeChecker.Explorer
