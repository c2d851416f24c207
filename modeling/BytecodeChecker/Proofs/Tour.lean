import BytecodeChecker.Proofs.Cutoff
import BytecodeChecker.Proofs.Denotation
import BytecodeChecker.Proofs.EventLoop
import BytecodeChecker.Proofs.Sharing

/-! The search through an event tree. The program that lets events happen until none is left is led along
every path of the tree, once and in order, and no other way. -/
namespace BytecodeChecker

namespace Path

def events (p : Path) : List Event := p.chosenNodes.filterMap EventNode.event?

theorem eventsOfPush (p : Path) {g : Generator} {node : EventNode} (chosen : g.chosenNode? = some node) (s : State) :
    (p.push g s).events = p.events ++ node.event?.toList := by
  unfold events chosenNodes generators push
  rw [List.map_cons, List.filterMap_cons_some chosen, List.reverse_cons, List.filterMap_append]
  cases event : node.event? <;> simp [event]

end Path

theorem EventNode.subtreeForest (n : EventNode) : n.subtree = n :: forest n.children := by
  cases n
  rfl

theorem EventTree.leafPathless {tree : EventTree} (leaf : tree.root.isLeaf = true) : tree.paths = [] :=
  congrArg EventNode.forestPaths (List.isEmpty_iff.mp leaf)

namespace Explorer

def finishes? (path : Path) : Ending → Option Path
  | .finished .completed => some path
  | _ => none

def finishedAt? (e : Explorer) (fuel n : Nat) : Option Path :=
  (e.position? fuel n).bind fun here =>
    match e.advance fuel here.1.memory here.2 with
    | some ⟨_, _, .ok ending⟩ => finishes? here.1.memory.path ending
    | _ => none

def finishedPaths (e : Explorer) (fuel n : Nat) : List Path := (List.range n).filterMap (e.finishedAt? fuel)

structure Goes (e : Explorer) (fuel : Nat) (search : Search) (s : State) (ending : Ending) (settled : Search) :
    Prop where
  ran : ∃ memory s', e.advance fuel search.memory s = some ⟨memory, s', .ok ending⟩ ∧
    e.turn s' ending { search with memory } = proceed settled

inductive Sweep (e : Explorer) (fuel : Nat) : Nat → Search → List Path → Search → Prop where
  | none (settled : Search) : Sweep e fuel 0 settled [] settled
  | next {n : Nat} {before search settled after : Search} {s : State} {ending : Ending} {log : List Path}
      (went : proceed before = .goOn search s) (goes : e.Goes fuel search s ending settled)
      (rest : Sweep e fuel n settled log after) :
      Sweep e fuel (n + 1) before ((finishes? search.memory.path ending).toList ++ log) after

variable {e : Explorer} {fuel : Nat} {search before settled after : Search} {s : State} {ending : Ending}

theorem Sweep.trans {n k : Nat} {log more : List Path} {last : Search} (first : e.Sweep fuel n before log after)
    (second : e.Sweep fuel k after more last) : e.Sweep fuel (n + k) before (log ++ more) last := by
  induction first with
  | none settled =>
    rw [Nat.zero_add]
    exact second
  | next went goes rest ih =>
    rw [List.append_assoc, Nat.add_right_comm]
    exact .next went goes (ih second)

theorem Goes.explore (goes : e.Goes fuel search s ending settled) (turns : Nat) :
    e.explore fuel (turns + 1) search s = match proceed settled with
      | .goOn search s => e.explore fuel turns search s
      | .stop memory result => some (memory, result) := by
  obtain ⟨memory, s', ran, went⟩ := goes.ran
  cases next : proceed settled with
  | goOn search' s'' => exact exploreOnward ran (went.trans next) turns
  | stop m result => exact exploreStops ran (went.trans next) turns

theorem Sweep.explore {n : Nat} {log : List Path} (sweep : e.Sweep fuel n settled log after)
    (goes : e.Goes fuel search s ending settled) {m : Memory} {result : Except CheckError Report}
    (stops : proceed after = .stop m result) {turns : Nat} (enough : n < turns) :
    e.explore fuel turns search s = some (m, result) := by
  induction sweep generalizing search s ending turns with
  | none settled =>
    cases turns with
    | zero => omega
    | succ turns => rw [goes.explore, stops]
  | next went goes' rest ih =>
    cases turns with
    | zero => omega
    | succ turns =>
      rw [goes.explore, went]
      exact ih goes' stops (by omega)

theorem Goes.finishedAt {k : Nat} (goes : e.Goes fuel search s ending settled)
    (here : e.position? fuel k = some (search, s)) :
    e.finishedAt? fuel k = finishes? search.memory.path ending := by
  obtain ⟨memory, s', ran, _⟩ := goes.ran
  simp only [finishedAt?, here, Option.bind_some, ran]

theorem Goes.position {k : Nat} (goes : e.Goes fuel search s ending settled)
    (here : e.position? fuel k = some (search, s)) {search' : Search} {s'' : State}
    (next : proceed settled = .goOn search' s'') : e.position? fuel (k + 1) = some (search', s'') := by
  obtain ⟨memory, s', ran, went⟩ := goes.ran
  simp only [position?, here, Option.bind_some, onward?, ran]
  rw [went, next]

theorem Sweep.finished {n k : Nat} {log : List Path} (sweep : e.Sweep fuel n settled log after)
    (goes : e.Goes fuel search s ending settled) (here : e.position? fuel k = some (search, s)) :
    (List.range' k (n + 1)).filterMap (e.finishedAt? fuel) =
      (finishes? search.memory.path ending).toList ++ log := by
  induction sweep generalizing search s ending k with
  | none settled =>
    rw [List.range'_one, List.filterMap_cons, goes.finishedAt here]
    cases finishes? search.memory.path ending <;> rfl
  | next went goes' rest ih =>
    rw [List.range'_succ, List.filterMap_cons, ih goes' (goes.position here went), goes.finishedAt here]
    cases finishes? search.memory.path ending <;> rfl

structure Books (before after : Search) (states paths : Nat) : Prop where
  states : after.memory.stats.states = before.memory.stats.states + states
  paths : after.memory.stats.paths = before.memory.stats.paths + paths
  truncated : after.memory.stats.truncated = before.memory.stats.truncated
  violations : after.violations = before.violations
  grows : before.memory.coverage.Within after.memory.coverage

theorem Books.trans {states paths states' paths' : Nat} (first : Books before settled states paths)
    (second : Books settled after states' paths') : Books before after (states + states') (paths + paths') where
  states := by rw [second.states, first.states, Nat.add_assoc]
  paths := by rw [second.paths, first.paths, Nat.add_assoc]
  truncated := second.truncated.trans first.truncated
  violations := second.violations.trans first.violations
  grows := first.grows.trans second.grows

section Loop

variable {tree : EventTree} {node : EventNode}

theorem loopAdvances (enough : 8 ≤ fuel) {memory : Memory} (poised : Poised memory.path s)
    (descends : tree.Descends memory.path.eventGenerators) (here : tree.reached memory.path.eventGenerators = node) :
    ∃ s', (looping tree).advance fuel memory s = some ⟨{ memory with
        stats := { memory.stats with
          states := memory.stats.states + 1
          maxDepth := max memory.stats.maxDepth memory.path.depth }
        notices := .advanced s' memory.path.depth :: memory.notices }, s', .ok (arrival node)⟩ ∧
      (node.isLeaf = false → Waiting s') := by
  subst here
  obtain ⟨q, ran, quiet, waits⟩ := loopTransition enough poised descends
  refine ⟨q.state, ?_, waits⟩
  unfold advance
  rw [ran, Option.map_some]
  dsimp only
  rw [quiet]
  unfold arrival
  cases (tree.reached memory.path.eventGenerators).isLeaf <;> rfl

theorem loopFinishes (enough : 8 ≤ fuel) (poised : Poised search.memory.path s)
    (descends : tree.Descends search.memory.path.eventGenerators)
    (here : tree.reached search.memory.path.eventGenerators = node) (leaf : node.isLeaf = true) :
    ∃ settled, (looping tree).Goes fuel search s (.finished .completed) settled ∧ Books search settled 1 1 ∧
      settled.memory.path = search.memory.path := by
  obtain ⟨s', ran, _⟩ := loopAdvances enough poised descends here
  unfold arrival at ran
  rw [if_pos leaf] at ran
  refine ⟨_, ⟨_, s', ran, rfl⟩, ⟨rfl, rfl, rfl, rfl, fun _ known => known⟩, rfl⟩

theorem loopDecides (enough : 8 ≤ fuel) (poised : Poised search.memory.path s)
    (descends : tree.Descends search.memory.path.eventGenerators)
    (here : tree.reached search.memory.path.eventGenerators = node) (inner : node.isLeaf = false) :
    ∃ settled s', (looping tree).Goes fuel search s (.choice (.ofEvents Builtin.eventGenerator node)) settled ∧
      Books search settled 1 0 ∧ Waiting s' ∧
      settled.memory.path = search.memory.path.push (.ofEvents Builtin.eventGenerator node) s' := by
  obtain ⟨s', ran, waits⟩ := loopAdvances enough poised descends here
  unfold arrival at ran
  rw [inner] at ran
  obtain ⟨id, event, children⟩ := node
  cases children with
  | nil => cases inner
  | cons first rest =>
    refine ⟨_, s', ⟨_, s', ran, rfl⟩, ⟨rfl, rfl, rfl, rfl, fun _ known => known⟩, waits inner, rfl⟩

theorem loopProceeds {path : Path} {g : Generator} {s' : State} {again : Bool} (waiting : Waiting s')
    (found : before.memory.path.nextBranch? = some ⟨path.push g s', again⟩) (chosen : g.chosen? = some (.event node)) :
    ∃ search heap depth, proceed before =
        .goOn search (loopState heap depth [producing .awaitingChoice, loopAt 0 []] true) ∧
      Books before search 0 0 ∧ search.memory.path = path.push g s' ∧
      search.memory.coverage.contains node.id = true := by
  obtain ⟨heap, depth, rfl⟩ := waiting
  generalize same : loopState heap depth [producing .awaitingChoice, loopAt 0 []] false = s' at found
  have went : applyChoice { before.memory with path := path.push g s' } s' =
      ({ before.memory with path := path.push g s', coverage := before.memory.coverage.visit node },
        .ok (loopState heap (path.depth + 1) [producing .awaitingChoice, loopAt 0 []] true)) := by
    unfold applyChoice
    simp only [Path.lastPush, chosen]
    rw [← same, loopCleared]
    rfl
  have grows : before.memory.coverage.Within (before.memory.coverage.visit node) :=
    fun id known => (Coverage.containsVisit _ _ _).mpr (.inr known)
  have known : (before.memory.coverage.visit node).contains node.id = true :=
    (Coverage.containsVisit _ _ _).mpr (.inl rfl)
  unfold proceed backtrack
  simp only [found, Path.lastPush, went]
  cases again with
  | true => exact ⟨_, _, _, rfl, ⟨rfl, rfl, rfl, rfl, grows⟩, rfl, known⟩
  | false => exact ⟨_, _, _, rfl, ⟨rfl, rfl, rfl, rfl, grows⟩, rfl, known⟩

/- A search stands at a node of the tree: it was chosen last, or it is the root and none was. -/
structure AtNode (tree : EventTree) (search : Search) (s : State) (node : EventNode) : Prop where
  poised : Poised search.memory.path s
  descends : tree.Descends search.memory.path.eventGenerators
  here : tree.reached search.memory.path.eventGenerators = node

structure Toured (nodes : List EventNode) (sequences : List (List Event)) (path : Path) (states : Nat)
    (before : Search) (log : List Path) (after : Search) : Prop where
  books : Books before after states log.length
  covers : ∀ x ∈ nodes, after.memory.coverage.contains x.id = true
  branch : after.memory.path.nextBranch? = path.nextBranch?
  events : log.map Path.events = sequences.map (path.events ++ ·)

def upTo (node : EventNode) : Nat → Generator
  | 0 => .ofEvents Builtin.eventGenerator node
  | i + 1 => ⟨Builtin.eventGenerator, .events node, some i⟩

theorem upToNext {i : Nat} (inside : i < node.children.length) :
    (upTo node i).advance? = some (upTo node (i + 1)) := by
  have more : (upTo node i).hasMore = true := by cases i <;> exact decide_eq_true inside
  unfold Generator.advance?
  rw [if_pos more]
  cases i <;> rfl

theorem upToLast {i : Nat} (all : i = node.children.length) : (upTo node i).advance? = none := by
  have last : (upTo node i).hasMore = false := by cases i <;> exact decide_eq_false (Nat.not_lt.mpr all.ge)
  unfold Generator.advance?
  rw [last]
  rfl

theorem upToChosen {done rest : List EventNode} {child : EventNode} (split : node.children = done ++ child :: rest) :
    (upTo node (done.length + 1)).chosen? = some (.event child) := by
  show (node.children[done.length]?).map Choice.event = _
  rw [split]
  simp

theorem upToPicked {done rest : List EventNode} {child : EventNode} (split : node.children = done ++ child :: rest) :
    (upTo node (done.length + 1)).chosenNode? = some child := by
  simp [Generator.chosenNode?, upToChosen split]

def Free (nodes : List EventNode) : Prop := ∀ x ∈ nodes, ∃ event, x.event? = some event ∧ event.isCheck = false

theorem loopDescends {parent : EventNode} {done rest : List EventNode} (split : parent.children = done ++ node :: rest)
    {path : Path} {s' : State} (waiting : Waiting s')
    (next : before.memory.path.nextBranch? = (path.push (upTo parent done.length) s').nextBranch?)
    (descends : tree.Descends path.eventGenerators) (here : tree.reached path.eventGenerators = parent)
    (free : Free node.subtree) :
    ∃ search s, proceed before = .goOn search s ∧ Books before search 0 0 ∧ AtNode tree search s node ∧
      search.memory.path = path.push (upTo parent (done.length + 1)) s' ∧
      search.memory.coverage.contains node.id = true := by
  have inside : done.length < parent.children.length := by simp [split]
  have picked := upToPicked split
  rw [Path.nextBranchPush, upToNext inside] at next
  obtain ⟨search, heap, depth, went, books, same, known⟩ := loopProceeds waiting next (upToChosen split)
  have events : search.memory.path.eventGenerators = upTo parent (done.length + 1) :: path.eventGenerators := by
    rw [same, Path.eventsPush]
    exact if_pos rfl
  obtain ⟨event, happens, unchecked⟩ := free node (EventNode.subtreeSelf node)
  refine ⟨search, _, went, books, ⟨.chosen heap depth same rfl picked happens unchecked, ?_, ?_⟩, same, known⟩
  · rw [events]
    exact ⟨congrArg Choices.events here.symm, by rw [picked]; rfl, descends⟩
  · rw [events]
    exact congrArg (Option.getD · tree.root) picked

theorem Toured.follows {child : EventNode} {rest : List EventNode} {path : Path} {middle : Search} {n k : Nat}
    {log more : List Path} (books : Books before search 0 0)
    (known : search.memory.coverage.contains child.id = true)
    (events : search.memory.path.events = path.events ++ child.event?.toList)
    (first : Toured (EventNode.forest child.children) child.tails search.memory.path n search log middle)
    (second : Toured (EventNode.forest rest) (EventNode.forestPaths rest) path k middle more after) :
    Toured (EventNode.forest (child :: rest)) (EventNode.forestPaths (child :: rest)) path (n + k) before (log ++ more)
      after := by
  refine ⟨?_, ?_, second.branch, ?_⟩
  · have all := (books.trans first.books).trans second.books
    rw [Nat.zero_add, Nat.zero_add] at all
    rw [List.length_append]
    exact all
  · intro x below
    rw [EventNode.forest, EventNode.subtreeForest] at below
    rcases List.mem_append.mp below with here | later
    · rcases List.mem_cons.mp here with rfl | deeper
      · exact second.books.grows _ (first.books.grows _ known)
      · exact second.books.grows _ (first.covers x deeper)
    · exact second.covers x later
  · rw [List.map_append, first.events, second.events, EventNode.forestPaths, List.map_append, EventNode.pathsTails,
      List.map_map, events]
    simp [Function.comp_def]

mutual

theorem nodeToured (node : EventNode) {search : Search} {s : State} (stands : AtNode tree search s node)
    (free : Free (EventNode.forest node.children)) (enough : 8 ≤ fuel) :
    ∃ ending settled log after, (looping tree).Goes fuel search s ending settled ∧
      (looping tree).Sweep fuel (EventNode.forest node.children).length settled log after ∧
      Toured (EventNode.forest node.children) node.tails search.memory.path
        ((EventNode.forest node.children).length + 1) search ((finishes? search.memory.path ending).toList ++ log)
        after := by
  cases node with
  | mk id event children =>
    cases leaf : EventNode.isLeaf (.mk id event children) with
    | true =>
      have none : children = [] := List.isEmpty_iff.mp leaf
      subst none
      obtain ⟨settled, goes, books, same⟩ := loopFinishes enough stands.poised stands.descends stands.here leaf
      refine ⟨_, settled, [], settled, goes, .none settled, ⟨books, ?_, by rw [same], ?_⟩⟩
      · intro x below
        cases below
      · simp [finishes?, EventNode.tails, leaf]
    | false =>
      obtain ⟨settled, s', goes, books, waiting, same⟩ :=
        loopDecides enough stands.poised stands.descends stands.here leaf
      obtain ⟨log, after, sweep, toured⟩ := forestToured children (.mk id event children) [] rfl waiting
        (congrArg Path.nextBranch? same) stands.descends stands.here free enough
      refine ⟨_, settled, log, after, goes, sweep, ⟨?_, toured.covers, toured.branch, ?_⟩⟩
      · have all := books.trans toured.books
        rw [Nat.add_comm 1, Nat.zero_add] at all
        exact all
      · unfold EventNode.tails
        rw [leaf]
        exact toured.events

/- By induction on the nodes that follow another one: the search takes one after the other. -/
theorem forestToured (nodes : List EventNode) (parent : EventNode) (done : List EventNode)
    (split : parent.children = done ++ nodes) {path : Path} {s' : State} {before : Search} (waiting : Waiting s')
    (next : before.memory.path.nextBranch? = (path.push (upTo parent done.length) s').nextBranch?)
    (descends : tree.Descends path.eventGenerators) (here : tree.reached path.eventGenerators = parent)
    (free : Free (EventNode.forest nodes)) (enough : 8 ≤ fuel) :
    ∃ log after, (looping tree).Sweep fuel (EventNode.forest nodes).length before log after ∧
      Toured (EventNode.forest nodes) (EventNode.forestPaths nodes) path (EventNode.forest nodes).length before log
        after := by
  cases nodes with
  | nil =>
    rw [Path.nextBranchPush, upToLast (by rw [split, List.append_nil])] at next
    refine ⟨[], before, .none before, ⟨⟨rfl, rfl, rfl, rfl, fun _ known => known⟩, ?_, next, rfl⟩⟩
    intro x below
    cases below
  | cons child rest =>
    have first : Free child.subtree := fun x below => free x (List.mem_append_left _ below)
    have later : Free (EventNode.forest rest) := fun x below => free x (List.mem_append_right _ below)
    obtain ⟨search, s, went, books, stands, same, known⟩ := loopDescends split waiting next descends here first
    have below : Free (EventNode.forest child.children) :=
      fun x deeper => first x (EventNode.subtreeForest child ▸ .tail _ deeper)
    obtain ⟨ending, settled, log, middle, goes, sweep, toured⟩ := nodeToured child stands below enough
    have onward : middle.memory.path.nextBranch? =
        (path.push (upTo parent (done ++ [child]).length) s').nextBranch? := by
      rw [toured.branch, same, List.length_append, List.length_singleton]
    obtain ⟨more, after, sweep', toured'⟩ := forestToured rest parent (done ++ [child]) (by rw [split]; simp) waiting
      onward descends here later enough
    have events := (congrArg Path.events same).trans (path.eventsOfPush (upToPicked split) s')
    have total : (EventNode.forest (child :: rest)).length =
        (EventNode.forest child.children).length + 1 + (EventNode.forest rest).length := by
      rw [EventNode.forest, EventNode.subtreeForest, List.length_append, List.length_cons]
    rw [total, Nat.add_right_comm]
    refine ⟨_, after, .next went goes (sweep.trans sweep'), ?_⟩
    rw [Nat.add_right_comm, ← List.append_assoc]
    exact .follows books known events toured toured'

end

theorem loopToured (free : Free (EventNode.forest tree.root.children)) (enough : 8 ≤ fuel)
    (turns : (EventNode.forest tree.root.children).length < fuel) :
    ∃ m report, (looping tree).check fuel = some (m, .ok report) ∧ report.verdict = .ok ∧
      report.stats.paths = tree.root.tails.length ∧ report.stats.truncated = 0 ∧
      ((looping tree).finishedPaths fuel report.stats.states).map Path.events = tree.root.tails ∧
      ∀ x ∈ EventNode.forest tree.root.children, m.coverage.contains x.id = true := by
  have stands : AtNode tree ⟨Memory.empty.note (.started "events"), []⟩ (State.initial loopProgram) tree.root :=
    ⟨loopStart ▸ .start rfl, trivial, rfl⟩
  obtain ⟨ending, settled, log, after, goes, sweep, toured⟩ := nodeToured tree.root stands free enough
  have none : after.memory.path.nextBranch? = none := toured.branch
  have events : ((finishes? Path.empty ending).toList ++ log).map Path.events = tree.root.tails :=
    toured.events.trans (List.map_id _)
  have violations : after.violations = [] := toured.books.violations
  have stops : proceed after = .stop ({ after.memory with path := Path.empty }.note .finished)
      (.ok ⟨.ok, [], after.memory.stats⟩) := by
    unfold proceed backtrack
    rw [none]
    dsimp only
    rw [violations]
    rfl
  refine ⟨_, _, sweep.explore goes stops turns, rfl, ?_, toured.books.truncated, ?_, toured.covers⟩
  · rw [← events, List.length_map]
    exact toured.books.paths.trans (Nat.zero_add _)
  · rw [← events]
    have states := toured.books.states.trans (Nat.zero_add _)
    unfold finishedPaths
    rw [states, List.range_eq_range', sweep.finished goes rfl]
    rfl

end Loop

section Script

variable {script : Script} {tree : EventTree}

theorem scriptFree {sequences : List (List Event)} (expanded : script.expand = .ok sequences)
    (free : script.checkFree = true) :
    Free (EventNode.forest (EventTree.ofSequences sequences).root.children) := by
  intro x below
  obtain ⟨event, named, xs, listed, inside⟩ := EventTree.nodeEvents sequences below
  exact ⟨event, named, ((Script.expandIff script expanded xs).mp listed).checkFree free event inside⟩

theorem scriptToured (built : EventTree.ofScript script = .ok tree) (free : script.checkFree = true)
    (enough : tree.nodeCount + 8 ≤ fuel) :
    ∃ e m report, ofModel (eventLoop script) .default = .ok e ∧ e.check fuel = some (m, .ok report) ∧
      report.verdict = .ok ∧ report.stats.paths = tree.root.tails.length ∧ report.stats.truncated = 0 ∧
      (e.finishedPaths fuel report.stats.states).map Path.events = tree.root.tails ∧
      m.coverage.isComplete tree = true := by
  obtain ⟨sequences, expanded, same⟩ := Load.bindOk.mp built
  cases Except.ok.inj same
  have count := EventTree.nodeCountForest sequences
  obtain ⟨m, report, checked, ok, paths, whole, events, covers⟩ :=
    loopToured (scriptFree expanded free) (show 8 ≤ fuel by omega) (by omega)
  exact ⟨_, m, report, loopAccepted built, checked, ok, paths, whole, events,
    EventTree.coveredComplete sequences covers⟩

theorem leafTails {sequences : List (List Event)} (leaves : 0 < (EventTree.ofSequences sequences).leafCount) :
    (EventTree.ofSequences sequences).root.tails = (EventTree.ofSequences sequences).paths := by
  rw [EventTree.leafCountPaths] at leaves
  unfold EventNode.tails
  split
  · rename_i leaf
    have none := EventTree.leafPathless leaf
    rw [none] at leaves
    cases leaves
  · rfl

theorem tailsIff {sequences : List (List Event)} (expanded : script.expand = .ok sequences) (xs : List Event) :
    xs ∈ (EventTree.ofSequences sequences).root.tails ↔
      script.Denotes xs ∧ (xs ≠ [] ∨ ∀ ys, script.Denotes ys → ys = []) := by
  have denoted (ys : List Event) : ys ∈ (EventTree.ofSequences sequences).paths ↔ script.Denotes ys ∧ ys ≠ [] := by
    rw [EventTree.pathsIff, Script.expandIff script expanded]
  unfold EventNode.tails
  split
  · rename_i leaf
    have none := EventTree.leafPathless leaf
    have only (ys : List Event) (stood : script.Denotes ys) : ys = [] := by
      by_contra other
      have member := (denoted ys).mpr ⟨stood, other⟩
      rw [none] at member
      cases member
    obtain ⟨zs, listed⟩ := Script.expandSome script expanded
    have stood := (Script.expandIff script expanded zs).mp listed
    rw [List.mem_singleton]
    constructor
    · rintro rfl
      exact ⟨only zs stood ▸ stood, .inr only⟩
    · intro h
      exact only xs h.1
  · rename_i inner
    obtain ⟨child, member⟩ := List.exists_mem_of_ne_nil _ (mt List.isEmpty_iff.mpr inner)
    obtain ⟨rest, path⟩ := EventNode.pathsStart child
    have other := (denoted _).mp (EventNode.forestPathsChild member path)
    refine (denoted xs).trans (and_congr_right fun _ => ?_)
    constructor
    · exact .inl
    · rintro (some | only)
      · exact some
      · exact absurd (only _ other.1) other.2

theorem eventPathsExplored (built : EventTree.ofScript script = .ok tree) (free : script.checkFree = true)
    (leaves : 0 < tree.leafCount) (enough : tree.nodeCount + 8 ≤ fuel) :
    ∃ e m report, ofModel (eventLoop script) .default = .ok e ∧ e.check fuel = some (m, .ok report) ∧
      report.verdict = .ok ∧ report.stats.paths = tree.leafCount ∧ report.stats.truncated = 0 ∧
      (e.finishedPaths fuel report.stats.states).map Path.events = tree.paths ∧
      m.coverage.isComplete tree = true := by
  obtain ⟨e, m, report, accepted, checked, ok, paths, whole, events, complete⟩ := scriptToured built free enough
  obtain ⟨sequences, _, same⟩ := Load.bindOk.mp built
  cases Except.ok.inj same
  rw [leafTails leaves] at paths events
  rw [← EventTree.leafCountPaths] at paths
  exact ⟨e, m, report, accepted, checked, ok, paths, whole, events, complete⟩

def optional : Script :=
  .sequence [.event (.normal "a" []), .alternatives [.sequence [], .interleave [.event (.normal "b" []), .event .none]]]

theorem optionalExplored : ∃ tree e m report, EventTree.ofScript optional = .ok tree ∧ tree.leafCount = 3 ∧
    ofModel (eventLoop optional) .default = .ok e ∧ e.check 15 = some (m, .ok report) ∧ report.verdict = .ok ∧
    report.stats.paths = 3 ∧ report.stats.truncated = 0 ∧
    (e.finishedPaths 15 report.stats.states).map Path.events = [[.normal "a" []],
      [.normal "a" [], .normal "b" [], .none], [.normal "a" [], .none, .normal "b" []]] ∧
    m.coverage.isComplete tree = true := by
  have built : ((EventTree.ofScript optional).toOption.map fun t => (t.leafCount, t.nodeCount, t.paths)) =
      some (3, 7, [[.normal "a" []], [.normal "a" [], .normal "b" [], .none], [.normal "a" [], .none, .normal "b" []]]) := by
    decide +kernel
  obtain ⟨tree, found, facts⟩ := Option.map_eq_some_iff.mp built
  simp only [Prod.mk.injEq] at facts
  obtain ⟨leaves, nodes, paths⟩ := facts
  obtain ⟨e, m, report, accepted, checked, ok, count, whole, events, complete⟩ :=
    eventPathsExplored (okSome found) (by decide) (by omega) (show tree.nodeCount + 8 ≤ 15 by omega)
  rw [leaves] at count
  rw [paths] at events
  exact ⟨tree, e, m, report, okSome found, leaves, accepted, checked, ok, count, whole, events, complete⟩

theorem sequencesExplored (built : EventTree.ofScript script = .ok tree) (free : script.checkFree = true)
    (enough : tree.nodeCount + 8 ≤ fuel) :
    ∃ e m report, ofModel (eventLoop script) .default = .ok e ∧ e.check fuel = some (m, .ok report) ∧
      report.verdict = .ok ∧ ∀ xs, xs ∈ (e.finishedPaths fuel report.stats.states).map Path.events ↔
        script.Denotes xs ∧ (xs ≠ [] ∨ ∀ ys, script.Denotes ys → ys = []) := by
  obtain ⟨e, m, report, accepted, checked, ok, _, _, events, _⟩ := scriptToured built free enough
  obtain ⟨sequences, expanded, same⟩ := Load.bindOk.mp built
  cases Except.ok.inj same
  refine ⟨e, m, report, accepted, checked, ok, fun xs => ?_⟩
  rw [events]
  exact tailsIff expanded xs

def loose : Script :=
  .interleave [.alternatives [.sequence [], .event (.normal "a" [])], .event (.normal "b" [])]

theorem looseExplored : ∃ tree e m report, EventTree.ofScript loose = .ok tree ∧
    ofModel (eventLoop loose) .default = .ok e ∧ e.check 20 = some (m, .ok report) ∧ report.verdict = .ok ∧
    [.normal "b" []] ∈ (e.finishedPaths 20 report.stats.states).map Path.events ∧
    [.normal "b" [], .normal "a" []] ∈ (e.finishedPaths 20 report.stats.states).map Path.events := by
  have built : ((EventTree.ofScript loose).toOption.map EventTree.nodeCount) = some 6 := by decide +kernel
  obtain ⟨tree, found, nodes⟩ := Option.map_eq_some_iff.mp built
  obtain ⟨e, m, report, accepted, checked, ok, explored⟩ :=
    sequencesExplored (okSome found) (by decide) (show tree.nodeCount + 8 ≤ 20 by omega)
  have last : Script.Denotes (.interleave [.event (.normal "b" [])]) [.normal "b" []] :=
    .interleaved (.event _) .noneInterleaved (.left .nil)
  refine ⟨tree, e, m, report, okSome found, accepted, checked, ok, (explored _).mpr ⟨?_, .inl (by simp)⟩,
    (explored _).mpr ⟨?_, .inl (by simp)⟩⟩
  · exact .interleaved (.alternative (.head _) .noneInSequence) last (.right .nil)
  · exact .interleaved (.alternative (.tail _ (.head _)) (.event _)) last (.right (.left .nil))

def skippable : Script := .alternatives [.sequence [], .event (.normal "a" [])]

theorem emptySequenceMissed : ∃ e m report, ofModel (eventLoop skippable) .default = .ok e ∧
    e.check 20 = some (m, .ok report) ∧ report.verdict = .ok ∧ skippable.Denotes [] ∧
    (e.finishedPaths 20 report.stats.states).map Path.events = [[.normal "a" []]] := by
  obtain ⟨e, m, report, accepted, checked, passed⟩ := checkRun (eventLoop skippable) .default id 20
    (fun e _ r => r.verdict == .ok &&
      (e.finishedPaths 20 r.stats.states).map Path.events == [[.normal "a" []]]) (by decide +kernel)
  simp only [Bool.and_eq_true, beq_iff_eq] at passed
  exact ⟨e, m, report, accepted, checked, passed.1, .alternative (.head _) .noneInSequence, passed.2⟩

end Script

end Explorer

end BytecodeChecker
