import Mathlib.Data.List.Induction
import BytecodeChecker.Proofs.Branching
import BytecodeChecker.Enumeration

/-! The frontier of a search. What a search has done is a list of visits, one for each transition, in
the order of the choices; the path on which it goes on is the least one that is not yet visited, and
the statistics, the violations and the completed states are those of the visits. -/
namespace BytecodeChecker

structure Visit where
  path : Path
  state : State
  ending : Ending
  expanded : Bool

namespace Visit

def choices (v : Visit) : List Nat := v.path.indices

def key (v : Visit) : State.Key := v.state.key v.path.eventPosition

def violation? (v : Visit) : Option Violation :=
  match v.ending with
  | .finished (.violated failure) => some ⟨failure, v.path.trace v.state⟩
  | _ => none

def completed? (v : Visit) : Option State :=
  match v.ending with
  | .finished .completed => some v.state
  | _ => none

end Visit

namespace Memory

theorem completedQuiet {m m' : Memory} (more : List Notice) (same : m'.notices = more ++ m.notices)
    (quiet : ∀ n ∈ more, ∀ s, n ≠ .completed s) : m'.completedStates = m.completedStates := by
  unfold completedStates
  rw [same, List.reverse_append, List.filterMap_append, List.append_right_eq_self,
    List.filterMap_eq_nil_iff]
  intro n member
  have other := quiet n (List.mem_reverse.mp member)
  cases n with
  | completed s => exact absurd rfl (other s)
  | _ => rfl

theorem completedOther (m : Memory) {n : Notice} (other : ∀ s, n ≠ .completed s) :
    (m.note n).completedStates = m.completedStates :=
  completedQuiet [n] rfl (by simpa using other)

theorem completedNoted (m : Memory) (s : State) :
    (m.note (.completed s)).completedStates = m.completedStates ++ [s] := by
  simp [completedStates, note]

end Memory

namespace Explorer

def TooDeep (e : Explorer) (path : Path) : Prop :=
  0 < e.config.maxDepth ∧ e.config.maxDepth ≤ path.depth

instance (e : Explorer) (path : Path) : Decidable (e.TooDeep path) := by
  unfold TooDeep
  infer_instance

def cut (e : Explorer) (v : Visit) : Bool :=
  match v.ending with
  | .choice _ => e.TooDeep v.path
  | .finished .stepLimit => true
  | .finished _ => false

structure Accounts (e : Explorer) (before after : Search) (v : Visit) : Prop where
  violations : after.violations = v.violation?.toList ++ before.violations
  states : after.memory.stats.states = before.memory.stats.states + 1
  truncated : after.memory.stats.truncated = before.memory.stats.truncated + (e.cut v).toNat
  completed : after.memory.completedStates =
    before.memory.completedStates ++ v.completed?.toList
  visited : e.config.stateMatching = true → ∀ key, after.memory.visited.contains key =
    (v.expanded && v.key == key || before.memory.visited.contains key)
  expands : v.expanded = true → ¬ e.TooDeep v.path ∧
    ∃ g, v.ending = .choice g ∧ after.memory.path = v.path.push g v.state
  leaves : v.expanded = false → after.memory.path = v.path ∧ ∀ g, v.ending = .choice g →
    e.TooDeep v.path ∨
      e.config.stateMatching = true ∧ before.memory.visited.contains v.key = true

variable {e : Explorer} {fuel : Nat} {search : Search} {s s' : State}

theorem advancedCompleted (standard : e.Standard) {memory : Memory} {ending raw : Ending} {p : Progress}
    (h : Advanced e fuel search.memory s memory s' ending p raw) :
    memory.completedStates = search.memory.completedStates := by
  obtain ⟨more, same, inner⟩ := (transitionSound standard e.program.callsAny
    (Machine.withinAny _) h.ran).1.notices
  refine Memory.completedQuiet (.advanced s' search.memory.path.depth :: more) ?_ ?_
  · rw [h.notices, same]
    simp
  · intro n member s
    rcases List.mem_cons.mp member with rfl | early
    · exact nofun
    · cases inner n early <;> exact nofun

inductive Registers (e : Explorer) (g : Generator) (s : State) (m : Memory) : Memory → Bool → Prop where
  | tooDeep (deep : e.TooDeep m.path) : Registers e g s m (m.truncate .depth) false
  | seen (shallow : ¬ e.TooDeep m.path) (matching : e.config.stateMatching = true)
      (seen : m.visited.contains (s.key m.path.eventPosition) = true) :
      Registers e g s m m.countRevisit false
  | unseen (shallow : ¬ e.TooDeep m.path) :
      Registers e g s m ((m.see (s.key m.path.eventPosition)).push g s) true
  | plain (shallow : ¬ e.TooDeep m.path) (unmatched : e.config.stateMatching = false) :
      Registers e g s m (m.push g s) true

theorem registers {g : Generator} (some : 0 < g.total) (s : State) (m : Memory) :
    ∃ expanded, e.Registers g s m (e.register g s m) expanded := by
  unfold register
  rw [if_neg (Nat.ne_of_gt some)]
  split
  · exact ⟨false, .tooDeep ‹_›⟩
  · split
    · dsimp only
      split
      · exact ⟨false, .seen ‹_› ‹_› ‹_›⟩
      · exact ⟨true, .unseen ‹_›⟩
    · exact ⟨true, .plain ‹_› (Bool.not_eq_true _ ▸ ‹_›)⟩

section Settle

variable {memory : Memory} {ending raw : Ending} {p : Progress}

theorem leaveAccounts {after : Search} (h : Advanced e fuel search.memory s memory s' ending p raw)
    (violations : after.violations =
      (Visit.violation? ⟨search.memory.path, s', ending, false⟩).toList ++ search.violations)
    (states : after.memory.stats.states = memory.stats.states)
    (truncated : after.memory.stats.truncated =
      memory.stats.truncated + (e.cut ⟨search.memory.path, s', ending, false⟩).toNat)
    (completed : after.memory.completedStates = search.memory.completedStates ++
      (Visit.completed? ⟨search.memory.path, s', ending, false⟩).toList)
    (visited : after.memory.visited = memory.visited) (path : after.memory.path = memory.path)
    (left : ∀ g, ending = .choice g → e.TooDeep search.memory.path ∨ e.config.stateMatching = true ∧
      search.memory.visited.contains (s'.key search.memory.path.eventPosition) = true) :
    e.Accounts search after ⟨search.memory.path, s', ending, false⟩ := by
  refine ⟨violations, ?_, ?_, completed, ?_, nofun, fun _ => ⟨path.trans h.path, left⟩⟩
  · rw [states, h.stats]
  · rw [truncated, h.stats]
  · intro _ key
    rw [visited, h.visited, Bool.false_and, Bool.false_or]

theorem expandAccounts {g : Generator} {after : Search}
    (h : Advanced e fuel search.memory s memory s' (.choice g) p raw)
    (shallow : ¬ e.TooDeep search.memory.path) (violations : after.violations = search.violations)
    (stats : after.memory.stats = memory.stats)
    (completed : after.memory.completedStates = search.memory.completedStates)
    (path : after.memory.path = memory.path.push g s')
    (visited : e.config.stateMatching = true → after.memory.visited =
      memory.visited.insert (s'.key search.memory.path.eventPosition)) :
    e.Accounts search after ⟨search.memory.path, s', .choice g, true⟩ := by
  refine ⟨violations, ?_, ?_, ?_, ?_, fun _ => ⟨shallow, g, rfl, ?_⟩, nofun⟩
  · rw [stats, h.stats]
  · rw [stats, h.stats]
    simp [cut, shallow]
  · simpa [Visit.completed?] using completed
  · intro matching key
    rw [visited matching, Std.HashSet.contains_insert, h.visited, Bool.true_and]
    rfl
  · rw [path, h.path]

theorem registerAccounts {g : Generator} {after : Memory} {expanded : Bool}
    (quiet : memory.completedStates = search.memory.completedStates)
    (h : Advanced e fuel search.memory s memory s' (.choice g) p raw)
    (put : e.Registers g s' memory after expanded) :
    e.Accounts search ⟨after, search.violations⟩ ⟨search.memory.path, s', .choice g, expanded⟩ := by
  have path := h.path
  have visited := h.visited
  cases put with
  | tooDeep deep =>
    rw [path] at deep
    refine leaveAccounts h rfl rfl ?_ ?_ rfl rfl fun _ _ => .inl deep
    · simp [Memory.truncate, Memory.note, cut, deep]
    · exact ((Memory.completedOther _ (by simp)).trans quiet).trans (List.append_nil _).symm
  | seen shallow matching seen =>
    rw [path, visited] at seen
    rw [path] at shallow
    refine leaveAccounts h rfl rfl ?_ ?_ rfl rfl fun _ _ => .inr ⟨matching, seen⟩
    · simp [Memory.countRevisit, cut, shallow]
    · exact quiet.trans (List.append_nil _).symm
  | unseen shallow =>
    rw [path] at shallow
    refine expandAccounts h shallow rfl rfl ?_ rfl fun _ => by rw [← path]; rfl
    exact (Memory.completedOther _ (by simp)).trans quiet
  | plain shallow unmatched =>
    rw [path] at shallow
    refine expandAccounts h shallow rfl rfl ?_ rfl fun matching => by simp [unmatched] at matching
    exact (Memory.completedOther _ (by simp)).trans quiet

theorem settleAccounts (standard : e.Standard)
    (ran : e.advance fuel search.memory s = some ⟨memory, s', .ok ending⟩) :
    ∃ expanded, e.Accounts search (e.settle s' ending { search with memory })
      ⟨search.memory.path, s', ending, expanded⟩ := by
  obtain ⟨p, raw, h⟩ := advanced ran
  have quiet := advancedCompleted standard h
  cases ending with
  | choice g =>
    have fresh := transitsFresh standard ⟨_, _, rfl, ran⟩
    obtain ⟨expanded, put⟩ := registers fresh.total s' memory
    exact ⟨expanded, registerAccounts quiet h put⟩
  | finished finish =>
    refine ⟨false, ?_⟩
    cases finish with
    | completed =>
      refine leaveAccounts h rfl rfl rfl ?_ rfl rfl nofun
      rw [← quiet]
      exact Memory.completedNoted memory.countPath s'
    | stepLimit =>
      refine leaveAccounts h rfl rfl rfl ?_ rfl rfl nofun
      exact ((Memory.completedOther _ (by simp)).trans quiet).trans (List.append_nil _).symm
    | violated failure =>
      refine leaveAccounts h ?_ rfl rfl ?_ rfl rfl nofun
      · simp [settle, Visit.violation?, h.path]
      · exact ((Memory.completedOther _ (by simp)).trans quiet).trans (List.append_nil _).symm

end Settle

structure Tally (e : Explorer) (visits : List Visit) (search : Search) : Prop where
  violations : search.violations = visits.filterMap Visit.violation?
  states : search.memory.stats.states = visits.length
  truncated : search.memory.stats.truncated = visits.countP e.cut
  completed : search.memory.completedStates = (visits.filterMap Visit.completed?).reverse
  visited : e.config.stateMatching = true → ∀ key, search.memory.visited.contains key = true ↔
    ∃ v ∈ visits, v.expanded = true ∧ v.key = key
  expands : ∀ v ∈ visits, v.expanded = true → ¬ e.TooDeep v.path ∧ ∃ g, v.ending = .choice g
  leaves : ∀ v ∈ visits, v.expanded = false → ∀ g, v.ending = .choice g → e.TooDeep v.path ∨
    e.config.stateMatching = true ∧ ∃ w ∈ visits, w.expanded = true ∧ w.key = v.key

theorem Tally.add {visits : List Visit} {before after : Search} {v : Visit}
    (tally : e.Tally visits before) (accounts : e.Accounts before after v) :
    e.Tally (v :: visits) after where
  violations := by
    rw [accounts.violations, tally.violations]
    cases found : v.violation? <;> simp [found]
  states := by
    rw [accounts.states, tally.states]
    rfl
  truncated := by
    rw [accounts.truncated, tally.truncated]
    cases found : e.cut v <;> simp [found]
  completed := by
    rw [accounts.completed, tally.completed]
    cases found : v.completed? <;> simp [found]
  visited := by
    intro matching key
    simp [accounts.visited matching, tally.visited matching]
  expands := by
    refine List.forall_mem_cons.mpr ⟨?_, tally.expands⟩
    intro expanded
    obtain ⟨shallow, g, ending, _⟩ := accounts.expands expanded
    exact ⟨shallow, g, ending⟩
  leaves := by
    refine List.forall_mem_cons.mpr ⟨?_, ?_⟩
    · intro left g ending
      rcases (accounts.leaves left).2 g ending with deep | ⟨matching, seen⟩
      · exact .inl deep
      · obtain ⟨w, member, same⟩ := (tally.visited matching _).mp seen
        exact .inr ⟨matching, w, .tail v member, same⟩
    · intro w member left g ending
      rcases tally.leaves w member left g ending with deep | ⟨matching, first, early, same⟩
      · exact .inl deep
      · exact .inr ⟨matching, first, .tail v early, same⟩

def Grown (visits : List Visit) (choices : List Nat) : Prop :=
  ∀ before i, choices = before ++ [i] → ∃ w ∈ visits, w.expanded = true ∧ w.choices = before

theorem Grown.later {visits : List Visit} {choices : List Nat} (grown : Grown visits choices)
    (v : Visit) : Grown (v :: visits) choices := by
  intro before i same
  obtain ⟨w, member, expanded, at_⟩ := grown before i same
  exact ⟨w, .tail v member, expanded, at_⟩

/- The visits stand in the order of their choices before the next path, and what they leave open does
not come before it. -/
structure Explored (e : Explorer) (fuel : Nat) (visits : List Visit) (next : Option (List Nat)) :
    Prop where
  reached : ∀ v ∈ visits, e.Reaches fuel v.path v.state v.ending
  sorted : visits.Pairwise fun late early => early.choices < late.choices
  behind : ∀ v ∈ visits, ∀ choices ∈ next, v.choices < choices
  root : (∃ v ∈ visits, v.choices = []) ∨ next = some []
  grown : ∀ v ∈ visits, Grown visits v.choices
  grows : ∀ choices ∈ next, Grown visits choices
  children : ∀ v ∈ visits, v.expanded = true → ∀ g, v.ending = .choice g → ∀ i < g.total,
    (∃ w ∈ visits, w.choices = v.choices ++ [i]) ∨ ∃ choices ∈ next, choices ≤ v.choices ++ [i]

theorem Explored.ancestor {visits : List Visit} {next : Option (List Nat)} {choices before : List Nat}
    {k : Nat} {tail : List Nat} (log : e.Explored fuel visits next) (grown : Grown visits choices)
    (same : choices = before ++ k :: tail) :
    ∃ w ∈ visits, w.expanded = true ∧ w.choices = before := by
  induction tail using List.reverseRecOn generalizing choices with
  | nil => exact grown before k same
  | append_singleton tail last ih =>
    have longer : choices = (before ++ k :: tail) ++ [last] := by
      rw [same]
      simp
    obtain ⟨w, member, _, here⟩ := grown _ _ longer
    exact ih (log.grown w member) here

inductive Follows (v : Visit) : Path → Prop where
  | expanded {g : Generator} (expanded : v.expanded = true) (ending : v.ending = .choice g) :
      Follows v (v.path.push g v.state)
  | left (left : v.expanded = false) : Follows v v.path

theorem Accounts.follows {before after : Search} {v : Visit} (h : e.Accounts before after v) :
    Follows v after.memory.path := by
  cases found : v.expanded with
  | true =>
    obtain ⟨_, g, ending, path⟩ := h.expands found
    rw [path]
    exact .expanded found ending
  | false =>
    rw [(h.leaves found).1]
    exact .left found

theorem firstBranch (standard : e.Standard) {path : Path} {g : Generator}
    (reached : e.Reaches fuel path s (.choice g)) :
    ∃ branch, (path.push g s).nextBranch? = some branch ∧ e.Forks fuel branch.path s ∧
      branch.path.indices = path.indices ++ [0] := by
  obtain ⟨start, before, ends⟩ := reached
  have fresh := transitsFresh standard ends
  have chosen : Generator.select? g 0 = some _ := if_pos fresh.total
  rw [Path.nextBranchPush, fresh.advanced, chosen]
  exact ⟨_, rfl, .at before ends chosen, Path.indicesPush ..⟩

section Step

variable {visits : List Visit} {v : Visit} {path : Path}
  (reached : e.Reaches fuel v.path v.state v.ending) (follows : Follows v path)
include reached follows

theorem followsFork (standard : e.Standard) {branch : Path.Branch} (h : path.nextBranch? = some branch) :
    (∃ snapshot, e.Forks fuel branch.path snapshot) ∧ v.choices < branch.path.indices := by
  cases follows with
  | expanded expanded ending =>
    rw [ending] at reached
    obtain ⟨_, found, fork, choices⟩ := firstBranch standard reached
    cases found.symm.trans h
    refine ⟨⟨v.state, fork⟩, ?_⟩
    rw [choices]
    exact Choices.ancestorLess
  | left left =>
    obtain ⟨start, before, _⟩ := reached
    have succeeds := nextSucceeds before h
    exact ⟨succeeds.fork, succeedsLess succeeds⟩

variable (blind : e.Blind)
include blind

theorem Blind.followsLeast (log : e.Explored fuel visits (some v.choices)) {w : Visit}
    (member : w ∈ v :: visits) (expanded : w.expanded = true) {g : Generator}
    (ending : w.ending = .choice g) {i : Nat} (inside : i < g.total)
    (later : v.choices < w.choices ++ [i]) :
    ∃ branch, path.nextBranch? = some branch ∧ branch.path.indices ≤ w.choices ++ [i] := by
  cases follows with
  | expanded here last =>
    rw [last] at reached
    obtain ⟨branch, found, _, choices⟩ := firstBranch blind.standard reached
    refine ⟨branch, found, ?_⟩
    rw [choices]
    exact Choices.firstLeast later
  | left left =>
    obtain ⟨start, before, _⟩ := reached
    rcases List.mem_cons.mp member with rfl | early
    · exact absurd (left.symm.trans expanded) Bool.false_ne_true
    · have came := log.reached w early
      rw [ending] at came
      obtain ⟨k, tail, grows, less⟩ := Choices.between (log.behind w early _ rfl) later
      exact blind.branchLeast before came grows less inside

theorem Blind.followsGrows (log : e.Explored fuel visits (some v.choices)) {branch : Path.Branch}
    (h : path.nextBranch? = some branch) : Grown (v :: visits) branch.path.indices := by
  intro before i same
  cases follows with
  | expanded expanded ending =>
    rw [ending] at reached
    obtain ⟨_, found, _, choices⟩ := firstBranch blind.standard reached
    cases found.symm.trans h
    rw [choices] at same
    exact ⟨v, .head visits, expanded, (List.append_inj' same rfl).1⟩
  | left left =>
    obtain ⟨start, starts, _⟩ := reached
    obtain ⟨early, k, tail, here, there⟩ := (nextSucceeds starts h).next
    obtain ⟨w, member, expanded, at_⟩ := log.ancestor (log.grows _ rfl) here
    rw [there] at same
    exact ⟨w, .tail v member, expanded, at_.trans (List.append_inj' same rfl).1⟩

theorem Blind.exploredStep (log : e.Explored fuel visits (some v.choices)) :
    e.Explored fuel (v :: visits) (path.nextBranch?.map (·.path.indices)) where
  reached := List.forall_mem_cons.mpr ⟨reached, log.reached⟩
  sorted := List.pairwise_cons.mpr ⟨fun w member => log.behind w member _ rfl, log.sorted⟩
  behind := by
    intro w member choices next
    obtain ⟨branch, found, rfl⟩ := Option.map_eq_some_iff.mp next
    have less := (followsFork reached follows blind.standard found).2
    rcases List.mem_cons.mp member with rfl | early
    · exact less
    · exact lt_trans (log.behind w early _ rfl) less
  root := by
    refine .inl ?_
    rcases log.root with ⟨w, member, empty⟩ | first
    · exact ⟨w, .tail v member, empty⟩
    · exact ⟨v, .head visits, Option.some.inj first⟩
  grown := List.forall_mem_cons.mpr
    ⟨(log.grows _ rfl).later v, fun w member => (log.grown w member).later v⟩
  grows := by
    intro choices next
    obtain ⟨branch, found, rfl⟩ := Option.map_eq_some_iff.mp next
    exact Blind.followsGrows reached follows blind log found
  children := by
    intro w member expanded g ending i inside
    -- a choice is visited by now or lies behind the last visit
    have order : (∃ u ∈ v :: visits, u.choices = w.choices ++ [i]) ∨
        v.choices < w.choices ++ [i] := by
      rcases List.mem_cons.mp member with rfl | early
      · exact .inr Choices.ancestorLess
      · rcases log.children w early expanded g ending i inside with ⟨u, found, same⟩ | ⟨_, next, le⟩
        · exact .inl ⟨u, .tail v found, same⟩
        · cases Option.some.inj next
          rcases le_iff_eq_or_lt.mp le with same | less
          · exact .inl ⟨v, .head visits, same⟩
          · exact .inr less
    refine order.imp_right fun later => ?_
    obtain ⟨branch, found, le⟩ :=
      Blind.followsLeast reached follows blind log member expanded ending inside later
    exact ⟨_, by rw [found]; rfl, le⟩

end Step

theorem Tally.kept {visits : List Visit} {memory memory' : Memory} {violations : List Violation}
    (tally : e.Tally visits ⟨memory, violations⟩) (states : memory'.stats.states = memory.stats.states)
    (truncated : memory'.stats.truncated = memory.stats.truncated)
    (completed : memory'.completedStates = memory.completedStates)
    (visited : memory'.visited = memory.visited) : e.Tally visits ⟨memory', violations⟩ where
  violations := tally.violations
  states := states.trans tally.states
  truncated := truncated.trans tally.truncated
  completed := completed.trans tally.completed
  visited := by
    intro matching
    rw [visited]
    exact tally.visited matching
  expands := tally.expands
  leaves := tally.leaves

/- How a search goes on along a path: from the state in which the last decision came up, with nothing
forgotten but the path. -/
structure Backtracks (m : Memory) (way : Path) (top : Entry) (m' : Memory) (s : State) : Prop where
  goesOn : applied way top.snapshot = .ok s
  path : m'.path = way
  coverage : m'.coverage = (applyChoice { m with path := way } top.snapshot).1.coverage
  states : m'.stats.states = m.stats.states
  truncated : m'.stats.truncated = m.stats.truncated
  completed : m'.completedStates = m.completedStates
  visited : m'.visited = m.visited

theorem backtrackFollows {m m' : Memory} {branch : Path.Branch} {top : Entry} {s? : Option State}
    (found : m.path.nextBranch? = some branch) (last : branch.path.last? = some top)
    (h : backtrack m = (m', .ok s?)) : ∃ s, s? = some s ∧ Backtracks m branch.path top m' s := by
  obtain ⟨path, again⟩ := branch
  simp only [backtrack, found, last] at h
  have result := applyChoiceResult { m with path } top.snapshot
  obtain ⟨kept, visited, stats, notices⟩ := applyChoiceKeeps { m with path } top.snapshot
  cases went : applyChoice { m with path } top.snapshot with
  | mk after onward =>
    rw [went] at h result kept visited stats notices
    cases onward with
    | error error => cases h
    | ok s =>
      have coverage : after.coverage = (applyChoice { m with path } top.snapshot).1.coverage := by rw [went]
      have completed : after.completedStates = m.completedStates := by
        unfold Memory.completedStates
        rw [notices]
      have states : after.stats.states = m.stats.states := congrArg Statistics.states stats
      have truncated : after.stats.truncated = m.stats.truncated :=
        congrArg Statistics.truncated stats
      dsimp only at h
      split at h
      · cases h
        refine ⟨s, rfl, result.symm, kept, coverage, states, truncated, ?_, visited⟩
        exact (Memory.completedOther _ (by simp)).trans completed
      · cases h
        exact ⟨s, rfl, result.symm, kept, coverage, states, truncated, completed, visited⟩

theorem backtrackForks {m m' : Memory} {branch : Path.Branch} {snapshot : State} {s? : Option State}
    (found : m.path.nextBranch? = some branch) (fork : e.Forks fuel branch.path snapshot)
    (h : backtrack m = (m', .ok s?)) :
    ∃ s top, s? = some s ∧ e.Starts fuel branch.path s ∧ Backtracks m branch.path top m' s := by
  obtain ⟨top, last, rfl⟩ := forkLast fork
  obtain ⟨s, same, back⟩ := backtrackFollows found last h
  exact ⟨s, top, same, forkStarts fork back.goesOn, back⟩

/- A search that was not cut short has visited every path that it left open. -/
structure Exhausted (e : Explorer) (fuel : Nat) (visits : List Visit) (m : Memory)
    (report : Report) : Prop where
  tally : e.Tally visits ⟨m, report.violations.reverse⟩
  explored : e.Explored fuel visits none
  stats : report.stats = m.stats
  verdict : report.verdict = if report.violations.isEmpty then .ok else .violations

theorem verdictCut (reading : Reading) (bound : Bound) :
    reading.verdict bound ≠ .ok ∧ reading.verdict bound ≠ .violations := by
  cases bound <;> exact ⟨nofun, nofun⟩

def Unbounded (e : Explorer) : Prop := ∀ states, e.config.exceeded? states (e.meters states) = none

theorem Unmetered.exceeded (unmetered : e.Unmetered) (states : Nat) :
    e.config.exceeded? states (e.meters states) =
      if 0 < e.config.maxStates ∧ e.config.maxStates ≤ states then some .states else none := by
  have early : ¬ (0 < e.config.maxTimeSecs ∧ e.config.maxTimeSecs * 1000000000 ≤ Reading.idle.nanoseconds) := by
    simp only [Reading.idle]
    omega
  rw [unmetered, Config.exceeded?, if_neg early]
  simp [Reading.idle]

theorem Unmetered.unbounded (unmetered : e.Unmetered) (limitless : e.config.maxStates = 0) : e.Unbounded := by
  intro states
  rw [unmetered.exceeded, if_neg (by omega)]

inductive CutShort (e : Explorer) (report : Report) : Prop where
  | violated (first : e.config.stopOnFirstViolation = true) (verdict : report.verdict = .violations)
  | bounded {states : Nat} {bound : Bound} (exceeds : e.config.exceeded? states (e.meters states) = some bound)
      (verdict : report.verdict = (e.meters states).verdict bound)

inductive Turned (e : Explorer) (settled : Search) : Turn → Prop where
  | violated (first : e.config.stopOnFirstViolation = true) :
      Turned e settled (conclude settled .violations)
  | bounded {states : Nat} {bound : Bound} (made : settled.memory.stats.states = states)
      (exceeds : e.config.exceeded? states (e.meters states) = some bound) : Turned e settled
      (conclude { settled with memory := settled.memory.note (.bound bound) } ((e.meters states).verdict bound))
  | failed {memory : Memory} {error : CheckError}
      (went : backtrack settled.memory = (memory, .error error)) :
      Turned e settled (.stop memory (.error error))
  | onward {memory : Memory} {s : State} (went : backtrack settled.memory = (memory, .ok (some s))) :
      Turned e settled (.goOn { settled with memory } s)
  | done {memory : Memory} (went : backtrack settled.memory = (memory, .ok none)) :
      Turned e settled (conclude { settled with memory }
        (if settled.violations.isEmpty then .ok else .violations))

theorem turnedUnless {settled : Search} {violated : Bool} {t : Turn} (rest : e.Turned settled t) :
    e.Turned settled
      (if violated && e.config.stopOnFirstViolation then conclude settled .violations else t) := by
  split
  · rename_i first
    exact .violated (Bool.and_eq_true_iff.mp first).2
  · exact rest

theorem turned (s : State) (ending : Ending) (search : Search) :
    e.Turned (e.settle s ending search) (e.turn s ending search) := by
  refine turnedUnless ?_
  generalize e.settle s ending search = settled
  split
  · rename_i bound exceeds
    exact .bounded rfl exceeds
  · cases went : backtrack settled.memory with
    | mk memory result =>
      cases result with
      | error error => exact .failed went
      | ok next =>
        cases next with
        | none => exact .done went
        | some s => exact .onward went

theorem exploreTurns {turns : Nat} {m : Memory} {report : Report}
    (h : e.explore fuel (turns + 1) search s = some (m, .ok report)) :
    ∃ memory s' ending, e.advance fuel search.memory s = some ⟨memory, s', .ok ending⟩ ∧
      ((∃ search' s'', e.turn s' ending { search with memory } = .goOn search' s'' ∧
        e.explore fuel turns search' s'' = some (m, .ok report)) ∨
      e.turn s' ending { search with memory } = .stop m (.ok report)) := by
  unfold explore at h
  split at h
  · cases h
  · cases h
  · rename_i memory s' ending ran
    refine ⟨memory, s', ending, ran, ?_⟩
    split at h
    · rename_i search' s'' went
      exact .inl ⟨search', s'', went, h⟩
    · rename_i memory' result went
      cases Option.some.inj h
      exact .inr went

theorem exploreOnward {memory : Memory} {ending : Ending}
    (ran : e.advance fuel search.memory s = some ⟨memory, s', .ok ending⟩)
    {search' : Search} {s'' : State} (went : e.turn s' ending { search with memory } = .goOn search' s'') (turns : Nat) :
    e.explore fuel (turns + 1) search s = e.explore fuel turns search' s'' := by
  rw [explore, ran]
  dsimp only
  rw [went]

theorem exploreStops {memory : Memory} {ending : Ending}
    (ran : e.advance fuel search.memory s = some ⟨memory, s', .ok ending⟩)
    {m : Memory} {result : Except CheckError Report} (went : e.turn s' ending { search with memory } = .stop m result)
    (turns : Nat) : e.explore fuel (turns + 1) search s = some (m, result) := by
  rw [explore, ran]
  dsimp only
  rw [went]

section Turn

variable (blind : e.Blind) {visits : List Visit} (tally : e.Tally visits search)
  (log : e.Explored fuel visits (some search.memory.path.indices))
  (starts : e.Starts fuel search.memory.path s) {memory : Memory} {ending : Ending}
  (ran : e.advance fuel search.memory s = some ⟨memory, s', .ok ending⟩)
include blind tally log starts ran

theorem Blind.turnVisits : ∃ v settled, e.Turned settled (e.turn s' ending { search with memory }) ∧
    e.Tally (v :: visits) settled ∧ Follows v settled.memory.path ∧
    e.Reaches fuel v.path v.state v.ending ∧
    e.Explored fuel (v :: visits) (settled.memory.path.nextBranch?.map (·.path.indices)) := by
  obtain ⟨expanded, accounts⟩ := settleAccounts blind.standard ran
  have reached : e.Reaches fuel search.memory.path s' ending := ⟨s, starts, _, _, rfl, ran⟩
  exact ⟨_, _, turned s' ending { search with memory }, tally.add accounts, accounts.follows, reached,
    Blind.exploredStep reached accounts.follows blind log⟩

theorem Blind.turnGoesOn {search' : Search} {s'' : State}
    (h : e.turn s' ending { search with memory } = .goOn search' s'') :
    ∃ visits', e.Tally visits' search' ∧ e.Starts fuel search'.memory.path s'' ∧
      e.Explored fuel visits' (some search'.memory.path.indices) := by
  obtain ⟨v, settled, turned, tally', follows, reached, log'⟩ := blind.turnVisits tally log starts ran
  rw [h] at turned
  cases turned with
  | onward went =>
    cases found : settled.memory.path.nextBranch? with
    | none =>
      simp only [backtrack, found] at went
      cases went
    | some branch =>
      obtain ⟨snapshot, fork⟩ := (followsFork reached follows blind.standard found).1
      obtain ⟨_, _, same, starts', back⟩ := backtrackForks found fork went
      cases Option.some.inj same
      rw [found] at log'
      refine ⟨v :: visits,
        tally'.kept back.states back.truncated back.completed back.visited, ?_, ?_⟩
      · rwa [back.path]
      · rwa [back.path]

theorem Blind.turnStops {m : Memory} {report : Report}
    (h : e.turn s' ending { search with memory } = .stop m (.ok report)) :
    (∃ visits', e.Exhausted fuel visits' m report) ∨ e.CutShort report := by
  obtain ⟨v, settled, turned, tally', follows, reached, log'⟩ := blind.turnVisits tally log starts ran
  rw [h] at turned
  cases turned with
  | violated first => exact .inr (.violated first rfl)
  | bounded made exceeds => exact .inr (.bounded exceeds rfl)
  | done went =>
    cases found : settled.memory.path.nextBranch? with
    | none =>
      rw [found] at log'
      simp only [backtrack, found] at went
      cases went
      refine .inl ⟨v :: visits, ?_, log', rfl, ?_⟩
      · rw [List.reverse_reverse]
        exact tally'.kept rfl rfl (Memory.completedOther _ (by simp)) rfl
      · simp
    | some branch =>
      obtain ⟨snapshot, fork⟩ := (followsFork reached follows blind.standard found).1
      obtain ⟨_, _, same, _⟩ := backtrackForks found fork went
      cases same

end Turn

/- By induction on the turns: what one of them keeps holds until the search ends. -/
theorem Blind.exploreEnds (blind : e.Blind) {turns : Nat} {visits : List Visit} {m : Memory}
    {report : Report} (tally : e.Tally visits search)
    (log : e.Explored fuel visits (some search.memory.path.indices))
    (starts : e.Starts fuel search.memory.path s)
    (h : e.explore fuel turns search s = some (m, .ok report)) :
    (∃ visits', e.Exhausted fuel visits' m report) ∨ e.CutShort report := by
  induction turns generalizing visits search s with
  | zero => cases h
  | succ turns ih =>
    obtain ⟨memory, s', ending, ran, rest⟩ := exploreTurns h
    rcases rest with ⟨search', s'', went, later⟩ | stopped
    · obtain ⟨visits', tally', starts', log'⟩ := blind.turnGoesOn tally log starts ran went
      exact ih tally' log' starts' later
    · exact blind.turnStops tally log starts ran stopped

theorem Blind.checkEnds (blind : e.Blind) {m : Memory} {report : Report}
    (h : e.check fuel = some (m, .ok report)) :
    (∃ visits, e.Exhausted fuel visits m report) ∨ e.CutShort report := by
  have none : e.Tally [] ⟨Memory.empty.note (.started e.program.name), []⟩ :=
    ⟨rfl, rfl, rfl, rfl, fun _ key => by simp [Memory.note, Memory.empty], nofun, nofun⟩
  have start : e.Explored fuel [] (some []) :=
    ⟨nofun, .nil, nofun, .inr rfl, nofun, fun choices next => by simp [← Option.some.inj next, Grown], nofun⟩
  exact blind.exploreEnds none start .initial h

theorem Blind.checkExhausts (blind : e.Blind) (all : e.config.stopOnFirstViolation = false)
    (unbounded : e.Unbounded) {m : Memory} {report : Report}
    (h : e.check fuel = some (m, .ok report)) : ∃ visits, e.Exhausted fuel visits m report := by
  rcases blind.checkEnds h with exhausted | short
  · exact exhausted
  · cases short with
    | violated first verdict => exact absurd (all.symm.trans first) Bool.false_ne_true
    | bounded exceeds verdict => cases (unbounded _).symm.trans exceeds

theorem Blind.okExhausts (blind : e.Blind) {m : Memory} {report : Report}
    (h : e.check fuel = some (m, .ok report)) (ok : report.verdict = .ok) :
    ∃ visits, e.Exhausted fuel visits m report := by
  rcases blind.checkEnds h with exhausted | short
  · exact exhausted
  · cases short with
    | violated first verdict => exact absurd (ok.symm.trans verdict) nofun
    | bounded exceeds verdict => exact absurd (verdict.symm.trans ok) (verdictCut _ _).1

section Exhausted

variable {visits : List Visit} {m : Memory} {report : Report}
  (exhausted : e.Exhausted fuel visits m report)
include exhausted

theorem Exhausted.uncut (complete : report.stats.truncated = 0) {v : Visit} (member : v ∈ visits) :
    ¬ e.cut v = true := by
  have none := exhausted.tally.truncated
  rw [← exhausted.stats, complete] at none
  exact List.countP_eq_zero.mp none.symm v member

theorem Exhausted.visitDepth {v : Visit} (member : v ∈ visits) (bounded : 0 < e.config.maxDepth) :
    v.choices.length ≤ e.config.maxDepth := by
  rcases List.eq_nil_or_concat' v.choices with empty | ⟨before, i, same⟩
  · simp [empty]
  · obtain ⟨w, found, expanded, here⟩ := exhausted.explored.grown v member before i same
    have shallow := (exhausted.tally.expands w found expanded).1
    have depth : w.path.depth < e.config.maxDepth := Nat.lt_of_not_le fun deep => shallow ⟨bounded, deep⟩
    have length : before.length = w.path.depth := by
      rw [← here]
      exact w.path.indicesLength
    rw [same, List.length_append, length]
    exact depth

theorem Exhausted.visitsShallow (blind : e.Blind) (unmatched : e.config.stateMatching = false)
    {more : Nat} {path : Path} (starts : e.Starts more path s)
    (shallow : ∀ w ∈ visits, ∀ g, w.ending = .choice g → w.path.depth < path.depth → ¬ e.TooDeep w.path) :
    ∃ v ∈ visits, v.choices = path.indices := by
  induction starts with
  | initial =>
    rcases exhausted.explored.root with found | next
    · exact found
    · cases next
  | @next path s t s'' g g' i before ends chosen goesOn ih =>
    have depth : (path.push g' t).depth = path.depth + 1 := rfl
    obtain ⟨w, member, same⟩ := ih fun w member g ending less => shallow w member g ending (by omega)
    obtain ⟨inside', rfl⟩ := Generator.selected chosen
    obtain ⟨at_, _, ending⟩ :=
      blind.reachesUnique (exhausted.explored.reached w member) ⟨_, before, ends⟩ same
    cases expanded : w.expanded with
    | true =>
      rcases exhausted.explored.children w member expanded g ending i inside' with
        ⟨v, found, there⟩ | ⟨_, next, _⟩
      · refine ⟨v, found, ?_⟩
        rw [there, same, Path.indicesPush]
        rfl
      · cases next
    | false =>
      rcases exhausted.tally.leaves w member expanded g ending with deep | ⟨matching, _⟩
      · exact absurd deep (shallow w member g ending (by rw [at_]; omega))
      · rw [unmatched] at matching
        cases matching

theorem Exhausted.visitsAll (blind : e.Blind) (unmatched : e.config.stateMatching = false)
    {more : Nat} {path : Path} (starts : e.Starts more path s)
    (inside : e.config.maxDepth = 0 ∨ path.depth ≤ e.config.maxDepth) :
    ∃ v ∈ visits, v.choices = path.indices := by
  refine exhausted.visitsShallow blind unmatched starts fun w _ _ _ less => ?_
  rintro ⟨bounded, deep⟩
  omega

theorem Exhausted.visitsReached (blind : e.Blind) (unmatched : e.config.stateMatching = false)
    {more : Nat} {path : Path} {ending : Ending} (reached : e.Reaches more path s ending)
    (inside : e.config.maxDepth = 0 ∨ path.depth ≤ e.config.maxDepth) :
    ∃ v ∈ visits, v.path = path ∧ v.state = s ∧ v.ending = ending := by
  obtain ⟨v, member, same⟩ := exhausted.visitsAll blind unmatched reached.choose_spec.1 inside
  exact ⟨v, member, blind.reachesUnique (exhausted.explored.reached v member) reached same⟩

end Exhausted

end Explorer

end BytecodeChecker
