import BytecodeChecker.Model.Builder
import BytecodeChecker.Proofs.Violations

/-! What a search remembers beyond its path. The coverage is not forgotten when the search goes back, so
that a path may be told of events that lie on other paths. Where nothing of that is noticed, a replay of
the path repeats it. -/
namespace BytecodeChecker

def Entry.cover (entry : Entry) (c : Coverage) : Coverage :=
  match entry.generator.chosenNode? with
  | some node => c.visit node
  | none => c

def Path.covered (path : Path) : Coverage := path.entries.foldr Entry.cover Coverage.empty

theorem Path.coveredPush (path : Path) (g : Generator) (s : State) :
    (path.push g s).covered = Entry.cover ⟨g, s, Path.reached path.entries⟩ path.covered := rfl

theorem Path.branchParts {path : Path} {branch : Path.Branch} (h : path.nextBranch? = some branch) :
    ∃ front top below g, path.entries = front ++ top :: below ∧ top.generator.advance? = some g ∧
      branch.path.entries = { top with generator := g } :: below := by
  have parts : ∀ (entries : List Entry) (depth : Nat) (length : depth = entries.length)
      (placed : Path.Placed entries), Path.branchFrom? entries depth length placed = some branch →
      ∃ front top below g, entries = front ++ top :: below ∧ top.generator.advance? = some g ∧
        branch.path.entries = { top with generator := g } :: below := by
    intro entries
    induction entries with
    | nil => exact nofun
    | cons top below ih =>
      intro depth length placed h
      unfold Path.branchFrom? at h
      split at h
      · rename_i g more
        cases Option.some.inj h
        exact ⟨[], top, below, g, rfl, more, rfl⟩
      · obtain ⟨front, next, rest, g, same, more, after⟩ := ih _ _ _ h
        exact ⟨top :: front, next, rest, g, by rw [same]; rfl, more, after⟩
  exact parts path.entries path.depth path.depth_eq path.placed h

namespace Explorer

variable {e : Explorer} {fuel : Nat}

theorem applyChoiceCovers {m : Memory} {top : Entry} (last : m.path.last? = some top) (s : State) :
    (applyChoice m s).1.coverage = top.cover m.coverage := by
  unfold applyChoice Entry.cover Generator.chosenNode?
  rw [last]
  dsimp only
  cases top.generator.chosen? with
  | none => rfl
  | some choice => cases choice <;> dsimp only <;> split <;> rfl

theorem advanceCoverage {memory memory' : Memory} {s s' : State} {result : Except CheckError Ending}
    (h : e.advance fuel memory s = some ⟨memory', s', result⟩) : memory'.coverage = memory.coverage := by
  unfold advance at h
  obtain ⟨⟨p, raw⟩, _, h⟩ := Option.map_eq_some_iff.mp h
  cases raw <;> cases h <;> rfl

def onward? (e : Explorer) (fuel : Nat) (search : Search) (s : State) : Option (Search × State) :=
  match e.advance fuel search.memory s with
  | some ⟨memory, s', .ok ending⟩ =>
    match e.turn s' ending { search with memory } with
    | .goOn search' s'' => some (search', s'')
    | .stop .. => none
  | _ => none

def position? (e : Explorer) (fuel : Nat) : Nat → Option (Search × State)
  | 0 => some (⟨Memory.empty.note (.started e.program.name), []⟩, State.initial e.program)
  | n + 1 => (e.position? fuel n).bind fun here => e.onward? fuel here.1 here.2

structure Makes (e : Explorer) (fuel n : Nat) (search : Search) (start s : State) (ending : Ending) :
    Prop where
  position : e.position? fuel n = some (search, start)
  ran : ∃ memory, e.advance fuel search.memory start = some ⟨memory, s, .ok ending⟩

inductive Proceeds (e : Explorer) (fuel : Nat) (search : Search) (s : State) (search' : Search)
    (s'' : State) : Prop where
  | turned {memory : Memory} {s' : State} {ending : Ending} {expanded : Bool} {branch : Path.Branch}
      {top : Entry} (ran : e.advance fuel search.memory s = some ⟨memory, s', .ok ending⟩)
      (accounts : e.Accounts search (e.settle s' ending { search with memory })
        ⟨search.memory.path, s', ending, expanded⟩)
      (found : (e.settle s' ending { search with memory }).memory.path.nextBranch? = some branch)
      (last : branch.path.last? = some top)
      (back : Backtracks (e.settle s' ending { search with memory }).memory branch.path top
        search'.memory s'')
      (violations : search'.violations = (e.settle s' ending { search with memory }).violations)

theorem positionProceeds (standard : e.Standard) {n : Nat} {search' : Search} {s'' : State}
    (h : e.position? fuel (n + 1) = some (search', s'')) :
    ∃ search s, e.position? fuel n = some (search, s) ∧ e.Proceeds fuel search s search' s'' := by
  obtain ⟨⟨search, s⟩, here, onward⟩ := Option.bind_eq_some_iff.mp h
  refine ⟨search, s, here, ?_⟩
  unfold onward? at onward
  split at onward
  · rename_i memory s' ending ran
    split at onward
    · rename_i went
      cases Option.some.inj onward
      obtain ⟨expanded, accounts⟩ := settleAccounts standard ran
      have turned := turned (e := e) s' ending { search with memory }
      rw [went] at turned
      cases turned with
      | onward back =>
        cases found : (e.settle s' ending { search with memory }).memory.path.nextBranch? with
        | none =>
          simp only [backtrack, found] at back
          cases back
        | some branch =>
          obtain ⟨front, top, below, g, _, _, same⟩ := Path.branchParts found
          have last : branch.path.last? = some { top with generator := g } := congrArg List.head? same
          obtain ⟨t, same, back⟩ := backtrackFollows found last back
          cases Option.some.inj same
          exact .turned ran accounts found last back rfl
    · cases onward
  · cases onward

inductive Traced (e : Explorer) (fuel : Nat) (made : Memory → State → Prop) : Path → State → Prop where
  | initial : Traced e fuel made Path.empty (State.initial e.program)
  | next {memory memory' : Memory} {s s' s'' : State} {g g' : Generator} {i : Nat}
      (before : Traced e fuel made memory.path s) (here : made memory s)
      (ran : e.advance fuel memory s = some ⟨memory', s', .ok (.choice g)⟩)
      (chosen : g.select? i = some g') (goesOn : applied (memory.path.push g' s') s' = .ok s'') :
      Traced e fuel made (memory.path.push g' s') s''

namespace Traced

variable {made : Memory → State → Prop} {path : Path} {s : State}

theorem mono {made' : Memory → State → Prop} (more : ∀ memory s, made memory s → made' memory s)
    (traced : e.Traced fuel made path s) : e.Traced fuel made' path s := by
  induction traced with
  | initial => exact .initial
  | next before here ran chosen goesOn ih => exact .next ih (more _ _ here) ran chosen goesOn

theorem branches (traced : e.Traced fuel made path s) {branch : Path.Branch}
    (h : path.nextBranch? = some branch) :
    ∃ top, branch.path.last? = some top ∧
      ∀ s'', applied branch.path top.snapshot = .ok s'' → e.Traced fuel made branch.path s'' := by
  induction traced with
  | initial => cases h
  | @next memory memory' s s' s'' g g' i before here ran chosen goesOn ih =>
    obtain ⟨_, rfl⟩ := Generator.selected chosen
    rw [Path.nextBranchPush, Generator.advanceSelected] at h
    cases more : g.select? (i + 1) with
    | none =>
      rw [more] at h
      exact ih h
    | some g' =>
      rw [more] at h
      cases Option.some.inj h
      exact ⟨_, Path.lastPush _ _ _, fun _ onward => .next before here ran more onward⟩

theorem follows (standard : e.Standard) {memory memory' : Memory} {s' : State} {ending : Ending}
    {expanded : Bool} (traced : e.Traced fuel made memory.path s) (here : made memory s)
    (ran : e.advance fuel memory s = some ⟨memory', s', .ok ending⟩)
    (follows : Follows ⟨memory.path, s', ending, expanded⟩ path) {branch : Path.Branch}
    (h : path.nextBranch? = some branch) :
    ∃ top, branch.path.last? = some top ∧
      ∀ s'', applied branch.path top.snapshot = .ok s'' → e.Traced fuel made branch.path s'' := by
  cases follows with
  | left left => exact traced.branches h
  | expanded expanded ends =>
    cases ends
    have fresh := transitsFresh standard ⟨memory, memory', rfl, ran⟩
    have chosen : Generator.select? _ 0 = some _ := if_pos fresh.total
    rw [Path.nextBranchPush, fresh.advanced, chosen] at h
    cases Option.some.inj h
    exact ⟨_, Path.lastPush _ _ _, fun _ onward => .next traced here ran chosen onward⟩

end Traced

def Made (e : Explorer) (fuel n : Nat) (memory : Memory) (s : State) : Prop :=
  ∃ k search, k ≤ n ∧ e.position? fuel k = some (search, s) ∧ search.memory = memory

theorem positionTraced (standard : e.Standard) {n : Nat} {search : Search} {s : State}
    (h : e.position? fuel n = some (search, s)) :
    e.Traced fuel (e.Made fuel n) search.memory.path s := by
  induction n generalizing search s with
  | zero =>
    cases Option.some.inj h
    exact .initial
  | succ n ih =>
    obtain ⟨search', s', here, ran, accounts, found, last, back, _⟩ := positionProceeds standard h
    have traced : e.Traced fuel (e.Made fuel (n + 1)) search'.memory.path s' :=
      (ih here).mono fun _ _ ⟨k, other, le, rest⟩ => ⟨k, other, by omega, rest⟩
    have made : e.Made fuel (n + 1) search'.memory s' := ⟨n, search', by omega, here, rfl⟩
    obtain ⟨top, last', onward⟩ := traced.follows standard made ran accounts.follows found
    cases Option.some.inj (last.symm.trans last')
    rw [back.path]
    exact onward _ back.goesOn

/- Whatever was asked on the way along a path, up to the transition of the search with the number, was
answered as the choices on the way alone would have it. -/
def Consistent (e : Explorer) (fuel n : Nat) (path : Path) : Prop :=
  ∀ k search start, k ≤ n → e.position? fuel k = some (search, start) →
    search.memory.path.indices <+: path.indices →
    ∀ j q, e.Moves search.memory j ⟨start, 0, []⟩ q → e.Inquires q →
      e.Answers search.memory.coverage search.memory.path.covered

theorem advanceAnswered (standard : e.Standard) {memory memory' other : Memory} {s s' : State}
    {ending : Ending} (ran : e.advance fuel memory s = some ⟨memory', s', .ok ending⟩)
    (path : other.path = memory.path)
    (answers : ∀ n q, e.Moves memory n ⟨s, 0, []⟩ q → e.Inquires q →
      e.Answers memory.coverage other.coverage) :
    ∃ other', other'.path = memory.path ∧ other'.coverage = other.coverage ∧
      e.advance fuel other s = some ⟨other', s', .ok ending⟩ := by
  obtain ⟨p, raw, advance⟩ := advanced ran
  have paths : memory.path.Alike other.path := by
    rw [path]
    exact .refl _
  obtain ⟨q, again, alike⟩ := transitionAnswered standard paths (p := ⟨s, 0, []⟩) (q := ⟨s, 0, []⟩)
    ⟨rfl, rfl, rfl⟩ answers advance.ran
  have sound {memory : Memory} {r : Progress} (ran : e.transition memory fuel ⟨s, 0, []⟩ = some (r, .ok raw)) :=
    (transitionSound standard e.program.callsAny (Machine.withinAny s.toMachine) ran).1
  have states : q.state = s' := by
    rw [← advance.state]
    exact (stateEq alike.machine alike.current
      ((sound advance.ran).depth.trans (sound again).depth.symm)).symm
  obtain ⟨other', kept, after⟩ := advanceRan again
  rw [states, advance.judged] at after
  exact ⟨other', kept.trans path, advanceCoverage after, after⟩

theorem Traced.replayed (standard : e.Standard) {made : Memory → State → Prop} {path : Path} {s : State}
    (traced : e.Traced fuel made path s)
    (answers : ∀ memory s, made memory s → memory.path.indices <+: path.indices →
      ∀ j q, e.Moves memory j ⟨s, 0, []⟩ q → e.Inquires q → e.Answers memory.coverage memory.path.covered) :
    ∃ memory, memory.path = path ∧ memory.coverage = path.covered ∧ ∀ rest,
      e.replay fuel (path.indices ++ rest) =
        (e.advance fuel memory s).bind (e.follow fuel path.depth rest) := by
  induction traced with
  | initial => exact ⟨Memory.empty, rfl, rfl, fun rest => rfl⟩
  | @next memory memory' s s' s'' g g' i before here ran chosen goesOn ih =>
    obtain ⟨_, same⟩ := Generator.selected chosen
    have listed : (memory.path.push g' s').indices = memory.path.indices ++ [i] := by
      rw [Path.indicesPush, same]
      rfl
    have early : memory.path.indices <+: (memory.path.push g' s').indices := by
      rw [listed]
      exact List.prefix_append _ _
    obtain ⟨own, path, coverage, far⟩ := ih fun memory s made inside =>
      answers memory s made (inside.trans early)
    have alike := answers memory s here early
    rw [← coverage] at alike
    obtain ⟨own', path', coverage', again⟩ := advanceAnswered standard ran path alike
    obtain ⟨keeps, _⟩ := applyChoiceKeeps { own' with path := own'.path.push g' s' } s'
    have covers := applyChoiceCovers (m := { own' with path := own'.path.push g' s' })
      (Path.lastPush _ _ _) s'
    rw [← path'] at goesOn
    refine ⟨_, keeps.trans (congrArg (·.push g' s') path'), ?_, fun rest => ?_⟩
    · rw [covers, path', coverage', coverage, Path.coveredPush]
    · have step := far (i :: rest)
      rw [again, Option.bind_some, follow, chosen] at step
      rw [listed, List.append_assoc, List.singleton_append, step]
      dsimp only
      rw [takeAdvances goesOn]
      cases e.advance fuel _ s'' <;> rfl

theorem Makes.replayed (standard : e.Standard) {n : Nat} {search : Search} {start s : State}
    {ending : Ending} (makes : e.Makes fuel n search start s ending)
    (consistent : e.Consistent fuel n search.memory.path) :
    ∃ m, e.replay fuel search.memory.path.indices =
      some (m, .ok ⟨s, pathEnd ending, search.memory.path.trace s⟩) := by
  obtain ⟨memory, path, coverage, far⟩ := (positionTraced standard makes.position).replayed standard
    fun memory s made inside => by
      obtain ⟨k, other, le, here, rfl⟩ := made
      exact consistent k other s le here inside
  have answers := consistent n search start (Nat.le_refl n) makes.position (List.prefix_refl _)
  rw [← coverage] at answers
  obtain ⟨_, ran⟩ := makes.ran
  obtain ⟨m, kept, _, again⟩ := advanceAnswered standard ran path answers
  refine ⟨m, ?_⟩
  rw [← List.append_nil search.memory.path.indices, far, again, Option.bind_some, follow, kept]

structure Recounts (e : Explorer) (fuel : Nat) (m : Memory) (violations : List Violation) : Prop where
  completed : ∀ s ∈ m.completedStates, ∃ n search start,
    e.Makes fuel n search start s (.finished .completed)
  violated : ∀ v ∈ violations, ∃ n search start,
    e.Makes fuel n search start v.trace.final (.finished (.violated v.failure)) ∧
    v.trace = search.memory.path.trace v.trace.final

theorem Recounts.add {n : Nat} {search after : Search} {start s : State} {ending : Ending}
    {expanded : Bool} (recounts : e.Recounts fuel search.memory search.violations)
    (makes : e.Makes fuel n search start s ending)
    (accounts : e.Accounts search after ⟨search.memory.path, s, ending, expanded⟩) :
    e.Recounts fuel after.memory after.violations where
  completed := by
    intro t member
    rw [accounts.completed, List.mem_append, Option.mem_toList] at member
    rcases member with early | now
    · exact recounts.completed t early
    · unfold Visit.completed? at now
      split at now
      · rename_i ends
        cases now
        cases ends
        exact ⟨n, search, start, makes⟩
      · cases now
  violated := by
    intro v member
    rw [accounts.violations, List.mem_append, Option.mem_toList] at member
    rcases member with now | early
    · unfold Visit.violation? at now
      split at now
      · rename_i failure ends
        cases now
        cases ends
        exact ⟨n, search, start, makes, rfl⟩
      · cases now
    · exact recounts.violated v early

theorem positionRecounts (standard : e.Standard) {n : Nat} {search : Search} {s : State}
    (h : e.position? fuel n = some (search, s)) : e.Recounts fuel search.memory search.violations := by
  induction n generalizing search s with
  | zero =>
    cases Option.some.inj h
    exact ⟨nofun, nofun⟩
  | succ n ih =>
    obtain ⟨search', s', here, ran, accounts, _, _, back, violations⟩ := positionProceeds standard h
    have recounts := (ih here).add ⟨here, _, ran⟩ accounts
    rw [violations]
    exact ⟨by rw [back.completed]; exact recounts.completed, recounts.violated⟩

theorem backtrackEnds {m m' : Memory} (h : backtrack m = (m', .ok none)) :
    m.path.nextBranch? = none ∧ m'.stats = m.stats ∧ m'.notices = m.notices := by
  cases found : m.path.nextBranch? with
  | none =>
    simp only [backtrack, found] at h
    cases h
    exact ⟨rfl, rfl, rfl⟩
  | some branch =>
    obtain ⟨front, top, below, g, _, _, same⟩ := Path.branchParts found
    obtain ⟨s, none, _⟩ := backtrackFollows found (congrArg List.head? same) h
    cases none

theorem turnRecounts (standard : e.Standard) {n : Nat} {search : Search} {memory m : Memory}
    {start s : State} {ending : Ending} {report : Report}
    (here : e.position? fuel n = some (search, start))
    (ran : e.advance fuel search.memory start = some ⟨memory, s, .ok ending⟩)
    (h : e.turn s ending { search with memory } = .stop m (.ok report)) :
    e.Recounts fuel m report.violations := by
  obtain ⟨expanded, accounts⟩ := settleAccounts standard ran
  have recounts := (positionRecounts standard here).add ⟨here, _, ran⟩ accounts
  have listed {m : Memory} (same : m.completedStates =
      (e.settle s ending { search with memory }).memory.completedStates) :
      e.Recounts fuel m (e.settle s ending { search with memory }).violations.reverse :=
    ⟨by rw [same]; exact recounts.completed,
      fun v member => recounts.violated v (List.mem_reverse.mp member)⟩
  have turned := turned (e := e) s ending { search with memory }
  rw [h] at turned
  cases turned with
  | violated first => exact listed (Memory.completedOther _ (by simp))
  | bounded bound =>
    exact listed ((Memory.completedOther _ (by simp)).trans (Memory.completedOther _ (by simp)))
  | done went =>
    refine listed ((Memory.completedOther _ (by simp)).trans ?_)
    obtain ⟨_, _, notices⟩ := backtrackEnds went
    unfold Memory.completedStates
    rw [notices]

/- By induction on the turns: a search only stops after a transition of its own. -/
theorem exploreRecounts (standard : e.Standard) {turns n : Nat} {search : Search} {s : State} {m : Memory}
    {report : Report} (here : e.position? fuel n = some (search, s))
    (h : e.explore fuel turns search s = some (m, .ok report)) : e.Recounts fuel m report.violations := by
  induction turns generalizing n search s with
  | zero => cases h
  | succ turns ih =>
    obtain ⟨memory, s', ending, ran, rest⟩ := exploreTurns h
    rcases rest with ⟨search', s'', went, later⟩ | stopped
    · refine ih (n := n + 1) ?_ later
      rw [position?, here, Option.bind_some, onward?, ran]
      dsimp only
      rw [went]
    · exact turnRecounts standard here ran stopped

end Explorer

def Coverage.Within (c c' : Coverage) : Prop := ∀ id, c.contains id = true → c'.contains id = true

namespace Coverage.Within

variable {c c' : Coverage}

theorem incomplete (within : c.Within c') {tree : EventTree} (h : c'.isComplete tree = false) :
    c.isComplete tree = false := by
  rw [← Bool.not_eq_true, isComplete, beq_iff_eq, uncovered, List.countP_eq_zero] at h ⊢
  exact fun all => h fun id leaf missing => all id leaf (by
    have known := mt (within id)
    simp_all)

theorem cover (within : c.Within c') (entry : Entry) : (entry.cover c).Within (entry.cover c') := by
  unfold Entry.cover
  split
  · intro id known
    simp only [contains, visit, Std.TreeSet.contains_insert, Bool.or_eq_true] at known ⊢
    exact known.imp_right (within id)
  · exact within

theorem covered (c : Coverage) (entry : Entry) : c.Within (entry.cover c) := by
  unfold Entry.cover
  split
  · intro id known
    simp only [contains, visit, Std.TreeSet.contains_insert, Bool.or_eq_true]
    exact .inr known
  · exact fun _ known => known

theorem trans {c'' : Coverage} (left : c.Within c') (right : c'.Within c'') : c.Within c'' :=
  fun id known => right id (left id known)

theorem suffix {entries below : List Entry} (older : below <:+ entries) :
    (below.foldr Entry.cover c).Within (entries.foldr Entry.cover c) := by
  obtain ⟨front, rfl⟩ := older
  induction front with
  | nil => exact fun _ known => known
  | cons first front ih => exact ih.trans (covered _ first)

end Coverage.Within

namespace Explorer

variable {e : Explorer} {fuel : Nat}

theorem settleCoverage (s : State) (ending : Ending) (search : Search) :
    (e.settle s ending search).memory.coverage = search.memory.coverage := by
  rcases ending with g | (_ | _ | failure)
  · show (e.register g s search.memory).coverage = _
    unfold register
    split
    · rfl
    · split
      · rfl
      · split
        · dsimp only
          split <;> rfl
        · rfl
  all_goals rfl

theorem Proceeds.coverage {search search' : Search} {s s'' : State}
    (h : e.Proceeds fuel search s search' s'') : ∃ top, search'.memory.path.last? = some top ∧
      search'.memory.coverage = top.cover search.memory.coverage := by
  obtain ⟨ran, _, _, last, back, _⟩ := h
  refine ⟨_, by rw [back.path]; exact last, back.coverage.trans ((applyChoiceCovers last _).trans ?_)⟩
  exact congrArg (Entry.cover _) ((settleCoverage ..).trans (advanceCoverage ran))

theorem Proceeds.below {search search' : Search} {s s'' : State} (h : e.Proceeds fuel search s search' s'') :
    ∃ top below, search'.memory.path.entries = top :: below ∧ below <:+ search.memory.path.entries := by
  obtain ⟨_, accounts, found, _, back, _⟩ := h
  obtain ⟨front, top, below, g, parts, _, same⟩ := Path.branchParts found
  refine ⟨_, below, by rw [back.path]; exact same, ?_⟩
  have follows := accounts.follows
  generalize (e.settle _ _ _).memory.path = path at parts follows
  cases follows with
  | left left =>
    dsimp only at parts
    exact ⟨front ++ [top], by rw [parts]; simp⟩
  | expanded expanded ending =>
    cases front with
    | nil =>
      obtain ⟨_, rfl⟩ := List.cons.inj parts
      exact List.suffix_refl _
    | cons first front =>
      obtain ⟨_, rest⟩ := List.cons.inj parts
      exact ⟨front ++ [top], by rw [rest]; simp⟩

theorem positionCovers (standard : e.Standard) {n : Nat} {search : Search} {s : State}
    (h : e.position? fuel n = some (search, s)) : search.memory.path.covered.Within search.memory.coverage := by
  induction n generalizing search s with
  | zero =>
    cases Option.some.inj h
    exact fun _ known => known
  | succ n ih =>
    obtain ⟨search', s', here, proceeds⟩ := positionProceeds standard h
    obtain ⟨top, last, grows⟩ := proceeds.coverage
    obtain ⟨first, below, entries, older⟩ := proceeds.below
    have same : first = top := by
      rw [Path.last?, entries] at last
      exact Option.some.inj last
    rw [Path.covered, entries, grows, same]
    exact Coverage.Within.cover ((Coverage.Within.suffix older).trans (ih here)) top

theorem positionGrows (standard : e.Standard) {k n : Nat} (le : k ≤ n) {search search' : Search} {s s' : State}
    (early : e.position? fuel k = some (search, s)) (late : e.position? fuel n = some (search', s')) :
    search.memory.coverage.Within search'.memory.coverage := by
  induction n, le using Nat.le_induction generalizing search' s' with
  | base =>
    cases early.symm.trans late
    exact fun _ known => known
  | succ n le ih =>
    obtain ⟨before, t, here, proceeds⟩ := positionProceeds standard late
    obtain ⟨top, _, grows⟩ := proceeds.coverage
    rw [grows]
    exact (ih here).trans (Coverage.Within.covered _ top)

theorem incompleteConsistent (standard : e.Standard) {n : Nat} {search : Search} {s : State}
    (here : e.position? fuel n = some (search, s))
    (incomplete : ∀ tree, e.registry.tree = some tree → search.memory.coverage.isComplete tree = false)
    (path : Path) : e.Consistent fuel n path := by
  intro k other start le early _ _ _ _ _ tree found
  have before := (positionGrows standard le early here).incomplete (incomplete tree found)
  rw [before, (positionCovers standard early).incomplete before]

theorem Traced.starts {made : Memory → State → Prop} {path : Path} {s : State}
    (traced : e.Traced fuel made path s) : e.Starts fuel path s := by
  induction traced with
  | initial => exact .initial
  | next before here ran chosen goesOn ih => exact .next ih ⟨_, _, rfl, ran⟩ chosen goesOn

theorem Blind.consistent (blind : e.Blind) (n : Nat) (path : Path) : e.Consistent fuel n path := by
  intro k search start _ here _ j q moves asks
  have within := blind.startsWithin (positionTraced blind.standard here).starts
  exact absurd asks (withinUnasked (movesWithin blind.standard blind.calls moves within))

theorem replayRepeatsSearch {model : Model} {config : Config} (accepted : ofModel model config = .ok e)
    (properties : List Property) {m : Memory} {report : Report}
    (checked : (e.watching properties).check fuel = some (m, .ok report)) :
    (∀ s ∈ m.completedStates, ∃ n search start,
      (e.watching properties).Makes fuel n search start s (.finished .completed)) ∧
    (∀ v ∈ report.violations, ∃ n search start,
      (e.watching properties).Makes fuel n search start v.trace.final (.finished (.violated v.failure)) ∧
      v.trace = search.memory.path.trace v.trace.final) ∧
    (∀ n search start s finish, (e.watching properties).Makes fuel n search start s (.finished finish) →
      (e.watching properties).Consistent fuel n search.memory.path →
      ∃ m', (e.watching properties).replay fuel search.memory.path.indices =
        some (m', .ok ⟨s, .finished finish, search.memory.path.trace s⟩)) ∧
    (∀ n search start, (e.watching properties).position? fuel n = some (search, start) →
      (∀ tree, e.registry.tree = some tree → search.memory.coverage.isComplete tree = false) →
      ∀ path, (e.watching properties).Consistent fuel n path) ∧
    (Builtin.isCompletelyCoveredSymbol ∉ Load.callees model.methods →
      ∀ n path, (e.watching properties).Consistent fuel n path) := by
  have source := (modelSource accepted).standard
  have standard : (e.watching properties).Standard := ⟨source.peers, source.guests, source.tree⟩
  have recounts := exploreRecounts standard (n := 0) rfl checked
  refine ⟨recounts.completed, recounts.violated, ?_, ?_, ?_⟩
  · intro n search start s finish makes consistent
    exact makes.replayed standard consistent
  · intro n search start here incomplete path
    exact incompleteConsistent standard here incomplete path
  · intro unasked n path
    exact (modelBlind accepted unasked properties).consistent n path

def lastCovered : Model :=
  { (Model.start "last covered" "Last.main()V").withMethod "Last.main()V" 0
      [.invokeStatic Builtin.processNextEventSymbol, .pop, .invokeStatic Builtin.isCompletelyCoveredSymbol,
        .branch .eq 6, .pushNull, .throw, .ret none] with
    events := some (.alternatives [.event (.normal "a" []), .event (.normal "b" []), .event (.normal "c" [])]) }

theorem lastCoveredRepeats : ∃ e m report search start s m', ofModel lastCovered exhaustive = .ok e ∧
    (e.watching []).check 20 = some (m, .ok report) ∧
    (e.watching []).Makes 20 2 search start s (.finished .completed) ∧
    search.memory.path.indices = [1] ∧ (e.watching []).replay 20 [1] =
      some (m', .ok ⟨s, .finished .completed, search.memory.path.trace s⟩) := by
  obtain ⟨e, m, report, accepted, checked, passed⟩ := checkRun lastCovered exhaustive (·.watching []) 20
    (fun e _ _ => ((e.watching []).position? 20 2).any fun here =>
      here.1.memory.path.indices == [1] &&
      e.registry.tree.all (fun tree => here.1.memory.coverage.isComplete tree == false) &&
      ((e.watching []).advance 20 here.1.memory here.2).any fun a =>
        a.result.toOption.map pathEnd == some (.finished .completed)) (by decide +kernel)
  obtain ⟨_, _, replays, unaware, _⟩ := replayRepeatsSearch accepted [] checked
  cases here : (e.watching []).position? 20 2 with
  | none => simp [here] at passed
  | some position =>
    obtain ⟨search, start⟩ := position
    simp only [here, Option.any_some, Bool.and_eq_true, beq_iff_eq, Option.all_eq_true] at passed
    obtain ⟨⟨path, incomplete⟩, ends⟩ := passed
    have consistent := unaware 2 search start here (fun tree found => incomplete tree found) search.memory.path
    cases ran : (e.watching []).advance 20 search.memory start with
    | none => simp [ran] at ends
    | some a =>
      obtain ⟨memory, s, result⟩ := a
      rw [ran] at ends
      rcases result with _ | (_ | finish)
      · cases ends
      · cases ends
      · simp only [Option.any_some, Except.toOption, Option.map_some, pathEnd, beq_iff_eq,
          Option.some.injEq, PathEnd.finished.injEq] at ends
        have makes : (e.watching []).Makes 20 2 search start s (.finished .completed) :=
          ⟨here, memory, by rw [ran, ends]⟩
        obtain ⟨m', replayed⟩ := replays 2 search start s .completed makes consistent
        rw [path] at replayed
        exact ⟨e, m, report, search, start, s, m', accepted, checked, makes, path, replayed⟩

/- A replay of the third path does not know that it is the last one: the search reports a violation,
and the replay completes. -/
theorem lastCoveredDiffers : ∃ e m report, ofModel lastCovered exhaustive = .ok e ∧
    e.check 20 = some (m, .ok report) ∧ ∃ v ∈ report.violations, v.trace.choices = [2] ∧ ∃ m' r,
      e.replay 20 [2] = some (m', .ok r) ∧ r.stop = .finished .completed ∧ r.state ≠ v.trace.final := by
  obtain ⟨e, m, report, accepted, checked, passed⟩ := checkRun lastCovered exhaustive id 20
    (fun e _ report => report.violations.any fun v => v.trace.choices == [2] &&
      (e.replay 20 [2]).any fun run => run.2.toOption.any fun r =>
        r.stop == .finished .completed && r.state != v.trace.final) (by decide +kernel)
  obtain ⟨v, member, passed⟩ := List.any_eq_true.mp passed
  rw [Bool.and_eq_true, beq_iff_eq] at passed
  refine ⟨e, m, report, accepted, checked, v, member, passed.1, ?_⟩
  cases replayed : e.replay 20 [2] with
  | none => simp [replayed] at passed
  | some run =>
    obtain ⟨m', result⟩ := run
    cases result with
    | error error => simp [replayed, Except.toOption] at passed
    | ok r =>
      simp only [replayed, Option.any_some, Except.toOption, Bool.and_eq_true, beq_iff_eq, bne_iff_ne] at passed
      exact ⟨m', r, rfl, passed.2⟩

end Explorer

end BytecodeChecker
