import BytecodeChecker.Proofs.History

/-! The statistics of a search. Each transition ends in one of the ways that are counted, or puts a
decision on the path. Each choice of such a decision is followed by one transition, and each choice but
the first by going back to the decision. -/
namespace BytecodeChecker

namespace Generator

def left (g : Generator) : Nat := g.total - g.nextIndex

def returns (g : Generator) : Nat := g.total - 1 - g.cursor.getD 0

variable {g g' : Generator}

theorem Fresh.left (fresh : g.Fresh) : g.left = g.total := by
  simp [Generator.left, nextIndex, fresh.cursor]

theorem Fresh.returns (fresh : g.Fresh) : g.returns = g.total - 1 := by
  simp [Generator.returns, fresh.cursor]

theorem exhausted (h : g.advance? = none) : g.left = 0 ∧ g.returns = 0 := by
  have last : ¬ g.nextIndex < g.total := by
    intro more
    simp [advance?, hasMore, more] at h
  unfold left returns
  cases cursor : g.cursor with
  | none =>
    simp only [nextIndex, cursor] at last ⊢
    simp only [Option.getD_none]
    omega
  | some i =>
    simp only [nextIndex, cursor] at last ⊢
    simp only [Option.getD_some]
    omega

theorem advances (h : g.advance? = some g') :
    g.left = g'.left + 1 ∧ g.returns = g'.returns + g.cursor.isSome.toNat := by
  unfold advance? hasMore at h
  split at h
  · rename_i more
    cases Option.some.inj h
    have inside : g.nextIndex < g.choices.total := of_decide_eq_true more
    unfold left returns total
    cases cursor : g.cursor with
    | none =>
      simp only [nextIndex, cursor] at inside ⊢
      simp
      omega
    | some i =>
      simp only [nextIndex, cursor] at inside ⊢
      simp
      omega
  · cases h

end Generator

namespace Path

theorem pushInduction {holds : Path → Prop} (empty : holds Path.empty)
    (push : ∀ p g s, holds p → holds (p.push g s)) (p : Path) : holds p := by
  obtain ⟨entries, depth, length, placed⟩ := p
  induction entries generalizing depth with
  | nil =>
    subst length
    exact empty
  | cons top below ih =>
    obtain ⟨g, s, place⟩ := top
    obtain ⟨same, older⟩ := placed
    dsimp only at same
    subst same length
    exact push _ g s (ih below.length rfl older)

def left (p : Path) : Nat := (p.generators.map Generator.left).sum

def returns (p : Path) : Nat := (p.generators.map Generator.returns).sum

variable {p : Path}

theorem leftPush (p : Path) (g : Generator) (s : State) : (p.push g s).left = g.left + p.left := by
  simp [left, generators, push]

theorem returnsPush (p : Path) (g : Generator) (s : State) :
    (p.push g s).returns = g.returns + p.returns := by
  simp [returns, generators, push]

theorem branchFollows {branch : Branch} (h : p.nextBranch? = some branch) :
    p.left = branch.path.left + 1 ∧ p.returns = branch.path.returns + branch.again.toNat ∧
      branch.path.depth ≤ p.depth := by
  induction p using pushInduction with
  | empty => cases h
  | push p g s ih =>
    rw [nextBranchPush] at h
    rw [leftPush, returnsPush]
    cases more : g.advance? with
    | some g' =>
      rw [more] at h
      cases Option.some.inj h
      obtain ⟨one, again⟩ := Generator.advances more
      dsimp only
      rw [leftPush, returnsPush, one, again]
      exact ⟨by omega, by omega, Nat.le_refl _⟩
    | none =>
      rw [more] at h
      obtain ⟨none, never⟩ := Generator.exhausted more
      obtain ⟨one, again, depth⟩ := ih h
      rw [none, never, one, again]
      exact ⟨by omega, by omega, depth.trans (Nat.le_succ _)⟩

theorem branchless (h : p.nextBranch? = none) : p.left = 0 ∧ p.returns = 0 := by
  induction p using pushInduction with
  | empty => exact ⟨rfl, rfl⟩
  | push p g s ih =>
    rw [nextBranchPush] at h
    cases more : g.advance? with
    | some g' =>
      rw [more] at h
      cases h
    | none =>
      rw [more] at h
      obtain ⟨none, never⟩ := Generator.exhausted more
      obtain ⟨below, behind⟩ := ih h
      rw [leftPush, returnsPush, none, never, below, behind]
      exact ⟨rfl, rfl⟩

end Path

namespace Memory

def registered (m : Memory) : List Generator :=
  m.notices.filterMap fun
    | .registered g _ => some g
    | _ => none

def depths (m : Memory) : List Nat :=
  m.notices.filterMap fun
    | .advanced _ depth => some depth
    | _ => none

def Uncounted (n : Notice) : Prop := (∀ g s, n ≠ .registered g s) ∧ ∀ s depth, n ≠ .advanced s depth

theorem uncountedKeeps (m m' : Memory) (more : List Notice) (same : m'.notices = more ++ m.notices)
    (uncounted : ∀ n ∈ more, Uncounted n) : m'.registered = m.registered ∧ m'.depths = m.depths := by
  unfold registered depths
  rw [same, List.filterMap_append, List.filterMap_append, List.append_left_eq_self,
    List.append_left_eq_self, List.filterMap_eq_nil_iff, List.filterMap_eq_nil_iff]
  constructor
  · intro n member
    cases n with
    | registered g s => exact absurd rfl ((uncounted _ member).1 g s)
    | _ => rfl
  · intro n member
    cases n with
    | advanced s depth => exact absurd rfl ((uncounted _ member).2 s depth)
    | _ => rfl

end Memory

def Search.outcomes (search : Search) : Nat :=
  search.memory.stats.paths + search.memory.stats.truncated + search.memory.stats.revisited +
    search.violations.length + search.memory.registered.length

namespace Explorer

variable {e : Explorer} {fuel : Nat} {search : Search} {s s' : State}

inductive Decided (e : Explorer) (before after : Memory) : Prop where
  | stays (path : after.path = before.path) (registered : after.registered = before.registered)
  | grows {g : Generator} {s : State} (fresh : g.Fresh) (shallow : ¬ e.TooDeep before.path)
      (path : after.path = before.path.push g s) (registered : after.registered = g :: before.registered)

structure Counted (e : Explorer) (before after : Search) : Prop where
  outcomes : after.outcomes = before.outcomes + 1
  states : after.memory.stats.states = before.memory.stats.states
  maxDepth : after.memory.stats.maxDepth = before.memory.stats.maxDepth
  backtracks : after.memory.stats.backtracks = before.memory.stats.backtracks
  depths : after.memory.depths = before.memory.depths
  decided : e.Decided before.memory after.memory

theorem staysCounted {before after : Search} (states : after.memory.stats.states = before.memory.stats.states)
    (maxDepth : after.memory.stats.maxDepth = before.memory.stats.maxDepth)
    (backtracks : after.memory.stats.backtracks = before.memory.stats.backtracks)
    (path : after.memory.path = before.memory.path)
    (registered : after.memory.registered = before.memory.registered)
    (depths : after.memory.depths = before.memory.depths)
    (one : after.memory.stats.paths + after.memory.stats.truncated + after.memory.stats.revisited +
      after.violations.length = before.memory.stats.paths + before.memory.stats.truncated +
      before.memory.stats.revisited + before.violations.length + 1) : e.Counted before after := by
  refine ⟨?_, states, maxDepth, backtracks, depths, .stays path registered⟩
  unfold Search.outcomes
  rw [registered]
  omega

theorem registerCounted {g : Generator} (fresh : g.Fresh) {m after : Memory} {expanded : Bool}
    (put : e.Registers g s m after expanded) (violations : List Violation) :
    e.Counted ⟨m, violations⟩ ⟨after, violations⟩ := by
  cases put with
  | tooDeep deep =>
    refine staysCounted rfl rfl rfl rfl rfl rfl ?_
    dsimp only [Memory.truncate, Memory.note]
    omega
  | seen shallow matching seen =>
    refine staysCounted rfl rfl rfl rfl rfl rfl ?_
    dsimp only [Memory.countRevisit]
    omega
  | unseen shallow => exact ⟨rfl, rfl, rfl, rfl, rfl, .grows fresh shallow rfl rfl⟩
  | plain shallow unmatched => exact ⟨rfl, rfl, rfl, rfl, rfl, .grows fresh shallow rfl rfl⟩

theorem settleCounted (s : State) {ending : Ending} (fresh : ∀ g, ending = .choice g → g.Fresh)
    (search : Search) : e.Counted search (e.settle s ending search) := by
  obtain ⟨m, violations⟩ := search
  cases ending with
  | choice g =>
    obtain ⟨expanded, put⟩ := registers (e := e) (fresh g rfl).total s m
    exact registerCounted (fresh g rfl) put violations
  | finished finish =>
    cases finish with
    | completed =>
      refine staysCounted rfl rfl rfl rfl rfl rfl ?_
      dsimp only [settle, Memory.countPath, Memory.note]
      omega
    | stepLimit =>
      refine staysCounted rfl rfl rfl rfl rfl rfl ?_
      dsimp only [settle, Memory.truncate, Memory.note]
      omega
    | violated failure =>
      refine staysCounted rfl rfl rfl rfl rfl rfl ?_
      dsimp only [settle, Memory.note, List.length_cons]
      omega

structure Ends (e : Explorer) (before after : Search) : Prop where
  outcomes : after.outcomes = before.outcomes + 1
  states : after.memory.stats.states = before.memory.stats.states + 1
  maxDepth : after.memory.stats.maxDepth = max before.memory.stats.maxDepth before.memory.path.depth
  backtracks : after.memory.stats.backtracks = before.memory.stats.backtracks
  depths : after.memory.depths = before.memory.path.depth :: before.memory.depths
  decided : e.Decided before.memory after.memory

theorem advancedCounts (standard : e.Standard) {memory memory' : Memory} {ending raw : Ending} {p : Progress}
    (h : Advanced e fuel memory s memory' s' ending p raw) :
    memory'.registered = memory.registered ∧ memory'.depths = memory.path.depth :: memory.depths := by
  obtain ⟨more, same, inner⟩ :=
    (transitionSound standard e.program.callsAny (Machine.withinAny _) h.ran).1.notices
  have quiet := Memory.uncountedKeeps memory { memory' with notices := p.notices ++ memory.notices } more
    (by rw [same]; simp) fun n member => by cases inner n member <;> simp [Memory.Uncounted]
  have noted : memory' = { memory' with notices := p.notices ++ memory.notices }.note
      (.advanced s' memory.path.depth) := by
    rw [Memory.note, ← h.notices]
  rw [noted]
  exact ⟨quiet.1, congrArg (memory.path.depth :: ·) quiet.2⟩

theorem transitionEnds (standard : e.Standard) {memory : Memory} {ending : Ending}
    (ran : e.advance fuel search.memory s = some ⟨memory, s', .ok ending⟩) :
    e.Ends search (e.settle s' ending { search with memory }) := by
  obtain ⟨p, raw, advance⟩ := advanced ran
  obtain ⟨registered, depths⟩ := advancedCounts standard advance
  have fresh : ∀ g, ending = .choice g → g.Fresh := by
    intro g choice
    rw [choice] at ran
    exact transitsFresh standard ⟨_, _, rfl, ran⟩
  have counted := settleCounted (e := e) s' fresh { search with memory }
  refine ⟨?_, ?_, ?_, ?_, counted.depths.trans depths, ?_⟩
  · rw [counted.outcomes]
    unfold Search.outcomes
    rw [registered, advance.stats]
  · rw [counted.states, advance.stats]
  · rw [counted.maxDepth, advance.stats]
  · rw [counted.backtracks, advance.stats]
  · cases counted.decided with
    | stays path same => exact .stays (path.trans advance.path) (same.trans registered)
    | grows fresh shallow path more =>
      rw [advance.path] at shallow path
      rw [registered] at more
      exact .grows fresh shallow path more

structure GoesBack (m m' : Memory) (branch : Path.Branch) : Prop where
  found : m.path.nextBranch? = some branch
  path : m'.path = branch.path
  stats : m'.stats = { m.stats with backtracks := m.stats.backtracks + branch.again.toNat }
  notices : ∃ more, m'.notices = more ++ m.notices ∧ ∀ n ∈ more, ∃ s depth, n = .backtracked s depth

theorem backtrackGoes {m m' : Memory} {s : State} (h : backtrack m = (m', .ok (some s))) :
    ∃ branch, GoesBack m m' branch := by
  cases found : m.path.nextBranch? with
  | none =>
    simp only [backtrack, found] at h
    cases h
  | some branch =>
    obtain ⟨path, again⟩ := branch
    refine ⟨⟨path, again⟩, ?_⟩
    simp only [backtrack, found] at h
    split at h
    · cases h
    · rename_i top last
      obtain ⟨kept, _, stats, notices⟩ := applyChoiceKeeps { m with path } top.snapshot
      cases went : applyChoice { m with path } top.snapshot with
      | mk after onward =>
        rw [went] at h kept stats notices
        cases onward with
        | error error => cases h
        | ok s' =>
          dsimp only at h
          cases again with
          | true =>
            cases h
            refine ⟨found, kept, by rw [Memory.note, stats]; rfl, [.backtracked s path.depth], ?_, by simp⟩
            exact congrArg (.backtracked s path.depth :: ·) notices
          | false =>
            cases h
            exact ⟨found, kept, stats, [], notices, by simp⟩

theorem GoesBack.counts {m m' : Memory} {branch : Path.Branch} (back : GoesBack m m' branch) :
    m'.registered = m.registered ∧ m'.depths = m.depths := by
  obtain ⟨more, same, kind⟩ := back.notices
  refine Memory.uncountedKeeps m m' more same fun n member => ?_
  obtain ⟨s, depth, rfl⟩ := kind n member
  simp [Memory.Uncounted]

/- The books of a search, with a transition that is still to be made or without one. -/
structure Balanced (e : Explorer) (pending : Nat) (search : Search) : Prop where
  outcomes : search.memory.stats.states = search.outcomes
  depths : search.memory.depths.length = search.memory.stats.states
  deepest : ∀ depth ∈ search.memory.depths, depth ≤ search.memory.stats.maxDepth
  attained : search.memory.stats.maxDepth ∈ 0 :: search.memory.depths
  shallow : 0 < e.config.maxDepth → search.memory.path.depth ≤ e.config.maxDepth ∧
    search.memory.stats.maxDepth ≤ e.config.maxDepth
  followed : search.memory.stats.states + pending + search.memory.path.left =
    1 + (search.memory.registered.map Generator.total).sum
  returned : search.memory.stats.backtracks + search.memory.path.returns =
    (search.memory.registered.map fun g => g.total - 1).sum

theorem Balanced.ends {before after : Search} (balanced : e.Balanced 1 before) (ends : e.Ends before after) :
    e.Balanced 0 after where
  outcomes := by rw [ends.states, ends.outcomes, balanced.outcomes]
  depths := by rw [ends.depths, ends.states, List.length_cons, balanced.depths]
  deepest := by
    rw [ends.depths, ends.maxDepth]
    refine List.forall_mem_cons.mpr ⟨Nat.le_max_right _ _, fun depth member => ?_⟩
    exact (balanced.deepest depth member).trans (Nat.le_max_left _ _)
  attained := by
    rw [ends.depths, ends.maxDepth]
    rcases Nat.le_total before.memory.stats.maxDepth before.memory.path.depth with deeper | same
    · rw [Nat.max_eq_right deeper]
      exact .tail _ (.head _)
    · rw [Nat.max_eq_left same]
      rcases List.mem_cons.mp balanced.attained with zero | member
      · rw [zero]
        exact .head _
      · exact .tail _ (.tail _ member)
  shallow := by
    intro bounded
    obtain ⟨depth, deepest⟩ := balanced.shallow bounded
    rw [ends.maxDepth]
    refine ⟨?_, Nat.max_le.mpr ⟨deepest, depth⟩⟩
    cases ends.decided with
    | stays path registered => rwa [path]
    | grows fresh shallow path registered =>
      rw [path]
      exact Nat.lt_of_not_le fun deep => shallow ⟨bounded, deep⟩
  followed := by
    have followed := balanced.followed
    rw [ends.states]
    cases ends.decided with
    | stays path registered =>
      rw [path, registered]
      exact followed
    | grows fresh shallow path registered =>
      rw [path, registered, Path.leftPush, fresh.left, List.map_cons, List.sum_cons]
      omega
  returned := by
    have returned := balanced.returned
    rw [ends.backtracks]
    cases ends.decided with
    | stays path registered => rwa [path, registered]
    | grows fresh shallow path registered =>
      rw [path, registered, Path.returnsPush, fresh.returns, List.map_cons, List.sum_cons]
      omega

theorem Balanced.goesBack {m m' : Memory} {branch : Path.Branch} {violations : List Violation}
    (balanced : e.Balanced 0 ⟨m, violations⟩) (back : GoesBack m m' branch) :
    e.Balanced 1 ⟨m', violations⟩ where
  outcomes := by
    have outcomes := balanced.outcomes
    unfold Search.outcomes at outcomes ⊢
    dsimp only at outcomes ⊢
    rwa [back.stats, back.counts.1]
  depths := by
    rw [back.stats, back.counts.2]
    exact balanced.depths
  deepest := by
    rw [back.stats, back.counts.2]
    exact balanced.deepest
  attained := by
    rw [back.stats, back.counts.2]
    exact balanced.attained
  shallow := by
    intro bounded
    obtain ⟨depth, deepest⟩ := balanced.shallow bounded
    rw [back.stats, back.path]
    exact ⟨(Path.branchFollows back.found).2.2.trans depth, deepest⟩
  followed := by
    have followed := balanced.followed
    have one := (Path.branchFollows back.found).1
    rw [back.stats, back.path, back.counts.1]
    dsimp only at followed ⊢
    omega
  returned := by
    have returned := balanced.returned
    have again := (Path.branchFollows back.found).2.1
    rw [back.stats, back.path, back.counts.1]
    dsimp only at returned ⊢
    omega

structure Booked (e : Explorer) (m : Memory) (report : Report) : Prop where
  outcomes : report.stats.states = report.stats.paths + report.stats.truncated + report.stats.revisited +
    report.violations.length + m.registered.length
  depths : m.depths.length = report.stats.states
  deepest : report.stats.maxDepth ∈ m.depths ∧ ∀ depth ∈ m.depths, depth ≤ report.stats.maxDepth
  shallow : 0 < e.config.maxDepth → report.stats.maxDepth ≤ e.config.maxDepth
  exhausted : report.verdict = .ok ∨ report.verdict = .violations ∧ e.config.stopOnFirstViolation = false →
    report.stats.states = 1 + (m.registered.map Generator.total).sum ∧
      report.stats.backtracks = (m.registered.map fun g => g.total - 1).sum

theorem Balanced.booked {settled : Search} {m : Memory} {report : Report} (balanced : e.Balanced 0 settled)
    (some : 0 < settled.memory.stats.states) (stats : report.stats = settled.memory.stats)
    (violations : report.violations = settled.violations.reverse)
    (noted : m.registered = settled.memory.registered ∧ m.depths = settled.memory.depths)
    (whole : report.verdict = .ok ∨ report.verdict = .violations ∧ e.config.stopOnFirstViolation = false →
      settled.memory.path.nextBranch? = none) : e.Booked m report := by
  obtain ⟨registered, depths⟩ := noted
  refine ⟨?_, ?_, ?_, fun bounded => ?_, fun verdict => ?_⟩
  · rw [stats, violations, registered, List.length_reverse]
    exact balanced.outcomes
  · rw [stats, depths]
    exact balanced.depths
  · rw [stats, depths]
    refine ⟨?_, balanced.deepest⟩
    rcases List.mem_cons.mp balanced.attained with zero | member
    · -- all transitions ended at the start, and there was one
      obtain ⟨depth, member⟩ := List.length_pos_iff_exists_mem.mp (balanced.depths ▸ some)
      have least := balanced.deepest depth member
      rw [zero] at least ⊢
      rwa [Nat.le_zero.mp least] at member
    · exact member
  · rw [stats]
    exact (balanced.shallow bounded).2
  · obtain ⟨left, returns⟩ := Path.branchless (whole verdict)
    have followed := balanced.followed
    have returned := balanced.returned
    rw [left] at followed
    rw [returns] at returned
    rw [stats, registered]
    exact ⟨followed, returned⟩

theorem turnBooked (standard : e.Standard) (balanced : e.Balanced 1 search) {memory m : Memory}
    {ending : Ending} {report : Report}
    (ran : e.advance fuel search.memory s = some ⟨memory, s', .ok ending⟩)
    (h : e.turn s' ending { search with memory } = .stop m (.ok report)) : e.Booked m report := by
  have ends := transitionEnds standard ran
  have settled := balanced.ends ends
  have some : 0 < (e.settle s' ending { search with memory }).memory.stats.states := by
    rw [ends.states]
    exact Nat.succ_pos _
  have turned := turned (e := e) s' ending { search with memory }
  rw [h] at turned
  cases turned with
  | violated first =>
    refine settled.booked some rfl rfl ⟨rfl, rfl⟩ fun verdict => ?_
    rcases verdict with ok | ⟨_, all⟩
    · cases ok
    · exact absurd (all.symm.trans first) Bool.false_ne_true
  | bounded made exceeds =>
    refine settled.booked some rfl rfl ⟨rfl, rfl⟩ fun verdict => ?_
    rcases verdict with ok | ⟨violated, _⟩
    · exact absurd ok (verdictCut _ _).1
    · exact absurd violated (verdictCut _ _).2
  | done went =>
    obtain ⟨none, stats, notices⟩ := backtrackEnds went
    have noted := Memory.uncountedKeeps _ _ [] notices (by simp)
    exact settled.booked some stats rfl noted fun _ => none

theorem exploreBooked (standard : e.Standard) {turns : Nat} {m : Memory} {report : Report}
    (balanced : e.Balanced 1 search) (h : e.explore fuel turns search s = some (m, .ok report)) :
    e.Booked m report := by
  induction turns generalizing search s with
  | zero => cases h
  | succ turns ih =>
    obtain ⟨memory, s', ending, ran, rest⟩ := exploreTurns h
    rcases rest with ⟨search', s'', went, later⟩ | stopped
    · have turned := turned (e := e) s' ending { search with memory }
      rw [went] at turned
      cases turned with
      | onward back =>
        obtain ⟨branch, back⟩ := backtrackGoes back
        exact ih ((balanced.ends (transitionEnds standard ran)).goesBack back) later
    · exact turnBooked standard balanced ran stopped

theorem checkBooked (standard : e.Standard) {m : Memory} {report : Report}
    (h : e.check fuel = some (m, .ok report)) : e.Booked m report := by
  have start : e.Balanced 1 ⟨Memory.empty.note (.started e.program.name), []⟩ :=
    ⟨rfl, rfl, fun depth member => (by cases member), .head _, fun _ => ⟨Nat.zero_le _, Nat.zero_le _⟩, rfl, rfl⟩
  exact exploreBooked standard start h

end Explorer

end BytecodeChecker
