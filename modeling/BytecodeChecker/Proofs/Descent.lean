import BytecodeChecker.Proofs.Dispatches

/-! Event decisions go down the event tree. Each of them lists what follows the event that was chosen last,
whoever asks, so that the chosen events are the beginning of one sequence of the script, and the coverage of
a run is the way from the root to the last event. -/
namespace BytecodeChecker

namespace EventNode

mutual

theorem subtreeTrans (n : EventNode) {d x : EventNode} (below : d ∈ n.subtree) (deeper : x ∈ d.subtree) :
    x ∈ n.subtree := by
  cases n with
  | mk k e nodes =>
    rw [subtree, List.mem_cons] at below
    rcases below with rfl | inside
    · exact deeper
    · rw [subtree, List.mem_cons]
      exact .inr (forestTrans nodes inside deeper)

theorem forestTrans (nodes : List EventNode) {d x : EventNode} (below : d ∈ forest nodes)
    (deeper : x ∈ d.subtree) : x ∈ forest nodes := by
  cases nodes with
  | nil => cases below
  | cons first rest =>
    rw [forest, List.mem_append] at below ⊢
    rcases below with here | later
    · exact .inl (subtreeTrans first here deeper)
    · exact .inr (forestTrans rest later deeper)

end

theorem forestMember {nodes : List EventNode} {x : EventNode} (below : x ∈ forest nodes) :
    ∃ n ∈ nodes, x ∈ n.subtree := by
  induction nodes with
  | nil => cases below
  | cons first rest ih =>
    rw [forest, List.mem_append] at below
    rcases below with here | later
    · exact ⟨first, .head rest, here⟩
    · obtain ⟨n, member, inside⟩ := ih later
      exact ⟨n, .tail first member, inside⟩

theorem subtreeCases {n x : EventNode} (below : x ∈ n.subtree) : x = n ∨ ∃ child ∈ n.children, x ∈ child.subtree := by
  cases n with
  | mk k e nodes =>
    rw [subtree, List.mem_cons] at below
    exact below.imp_right forestMember

theorem forestApart {nodes : List EventNode} {a b x : EventNode} (distinct : ((forest nodes).map id).Nodup)
    (left : a ∈ nodes) (right : b ∈ nodes) (here : x ∈ a.subtree) (there : x ∈ b.subtree) : a = b := by
  induction nodes with
  | nil => cases left
  | cons first rest ih =>
    rw [forest, List.map_append, List.nodup_append'] at distinct
    obtain ⟨_, later, apart⟩ := distinct
    have clash : ∀ {c : EventNode}, c ∈ rest → x ∈ c.subtree → x ∉ first.subtree := fun member inside first =>
      apart (List.mem_map_of_mem first) (List.mem_map_of_mem (forestChild member x inside))
    rcases List.mem_cons.mp left with rfl | behind
    · rcases List.mem_cons.mp right with rfl | behind
      · rfl
      · exact absurd here (clash behind there)
    · rcases List.mem_cons.mp right with rfl | behind'
      · exact absurd there (clash behind here)
      · exact ih later behind behind'

theorem forestSublist {nodes : List EventNode} {n : EventNode} (member : n ∈ nodes) :
    n.subtree.Sublist (forest nodes) := by
  induction nodes with
  | nil => cases member
  | cons first rest ih =>
    rw [forest]
    rcases List.mem_cons.mp member with rfl | later
    · exact List.sublist_append_left _ _
    · exact (ih later).trans (List.sublist_append_right _ _)

section Distinct

variable {n : EventNode} (distinct : (n.subtree.map id).Nodup)
include distinct

theorem belowDistinct : n.id ∉ (forest n.children).map id ∧ ((forest n.children).map id).Nodup := by
  cases n with
  | mk k e nodes =>
    rw [subtree, List.map_cons] at distinct
    exact List.nodup_cons.mp distinct

theorem childDistinct {child : EventNode} (member : child ∈ n.children) : (child.subtree.map id).Nodup :=
  (belowDistinct distinct).2.sublist ((forestSublist member).map id)

theorem subtreeAntisymm {up : EventNode} (inside : up ∈ n.subtree) (holds : n ∈ up.subtree) : up = n := by
  rcases subtreeCases inside with same | ⟨child, member, below⟩
  · exact same
  · have again := forestChild member n (subtreeTrans child below holds)
    exact absurd (List.mem_map_of_mem again) (belowDistinct distinct).1

end Distinct

def Leads (parent child : EventNode) : Prop := child ∈ parent.children

variable {root : EventNode} {nodes : List EventNode}

theorem wayInside (way : (root :: nodes).IsChain Leads) : ∀ node ∈ root :: nodes, node ∈ root.subtree := by
  induction nodes generalizing root with
  | nil =>
    intro node member
    cases List.mem_singleton.mp member
    exact root.subtreeSelf
  | cons first rest ih =>
    obtain ⟨leads, onward⟩ := List.isChain_cons_cons.mp way
    intro node member
    rcases List.mem_cons.mp member with rfl | later
    · exact node.subtreeSelf
    · exact subtreeTrans root (subtreeChild root root.subtreeSelf leads) (ih onward node later)

theorem wayAbove (distinct : (root.subtree.map id).Nodup) (way : (root :: nodes).IsChain Leads)
    {node up : EventNode} (member : node ∈ root :: nodes) (inside : up ∈ root.subtree)
    (holds : node ∈ up.subtree) : up ∈ root :: nodes := by
  induction nodes generalizing root with
  | nil =>
    cases List.mem_singleton.mp member
    exact List.mem_singleton.mpr (subtreeAntisymm distinct inside holds)
  | cons first rest ih =>
    obtain ⟨leads, onward⟩ := List.isChain_cons_cons.mp way
    rcases List.mem_cons.mp member with rfl | later
    · rw [subtreeAntisymm distinct inside holds]
      exact .head _
    · rcases subtreeCases inside with rfl | ⟨child, follows, below⟩
      · exact .head _
      · -- the node is below the first node of the way and below the child, so the way goes by the child
        have same : child = first := forestApart (belowDistinct distinct).2 follows leads
          (subtreeTrans child below holds) (wayInside onward node later)
        subst same
        exact .tail root (ih (childDistinct distinct leads) onward later below)

theorem forestPathsChild {n : EventNode} {sequence : List Event} (member : n ∈ nodes)
    (path : sequence ∈ n.paths) : sequence ∈ forestPaths nodes := by
  induction nodes with
  | nil => cases member
  | cons first rest ih =>
    rw [forestPaths, List.mem_append]
    rcases List.mem_cons.mp member with rfl | later
    · exact .inl path
    · exact .inr (ih later)

theorem pathsChild {n child : EventNode} {sequence : List Event} (follows : child ∈ n.children)
    (path : sequence ∈ child.paths) : n.event?.toList ++ sequence ∈ n.paths := by
  cases n with
  | mk k e nodes =>
    cases nodes with
    | nil => cases follows
    | cons first rest =>
      rw [paths]
      exact List.mem_map_of_mem (forestPathsChild follows path)

theorem pathsStart : (n : EventNode) → ∃ rest, n.event?.toList ++ rest ∈ n.paths
  | mk k e [] => ⟨[], by simp [paths, event?]⟩
  | mk k e (first :: rest) => by
    obtain ⟨onward, path⟩ := pathsStart first
    exact ⟨_, pathsChild (.head rest) path⟩

theorem wayPaths (way : (root :: nodes).IsChain Leads) :
    ∃ sequence ∈ root.paths, root.event?.toList ++ nodes.filterMap event? <+: sequence := by
  induction nodes generalizing root with
  | nil =>
    obtain ⟨rest, path⟩ := pathsStart root
    exact ⟨_, path, by simp⟩
  | cons first rest ih =>
    obtain ⟨leads, onward⟩ := List.isChain_cons_cons.mp way
    obtain ⟨sequence, path, begins⟩ := ih onward
    refine ⟨_, pathsChild leads path, ?_⟩
    have events : (first :: rest).filterMap event? = first.event?.toList ++ rest.filterMap event? := by
      cases event : first.event? <;> simp [event]
    rw [events]
    exact (List.prefix_append_right_inj _).mpr begins

end EventNode

theorem Generator.chosenChild {g : Generator} {parent node : EventNode} (choices : g.choices = .events parent)
    (chosen : g.chosenNode? = some node) : node ∈ parent.children := by
  obtain ⟨choice, picked, same⟩ := Option.bind_eq_some_iff.mp chosen
  obtain ⟨i, _, there⟩ := Option.bind_eq_some_iff.mp picked
  rw [choices] at there
  obtain ⟨child, listed, rfl⟩ := Option.map_eq_some_iff.mp there
  cases Option.some.inj same
  exact List.mem_of_getElem? listed

namespace Path

def eventGenerators (p : Path) : List Generator := p.generators.filter (·.kind == .event)

def chosenNodes (p : Path) : List EventNode := (p.generators.filterMap Generator.chosenNode?).reverse

theorem lastOfEvents (p : Path) : p.lastOf? .event = p.eventGenerators.head? := by
  unfold lastOf? eventGenerators generators
  rw [List.head?_filter, List.find?_map]
  rfl

theorem eventsPush (p : Path) (g : Generator) (s : State) : (p.push g s).eventGenerators =
    if g.kind = .event then g :: p.eventGenerators else p.eventGenerators := by
  unfold eventGenerators generators push
  by_cases event : g.kind = .event <;> simp [event]

theorem chosenOf (p : Path) : p.chosenNodes = (p.eventGenerators.filterMap Generator.chosenNode?).reverse := by
  unfold chosenNodes eventGenerators
  rw [List.filterMap_filter]
  congr 2
  funext g
  by_cases event : g.kind = .event
  · simp [event]
  · simp only [beq_iff_eq, event, if_false]
    refine Option.eq_none_iff_forall_ne_some.mpr fun node chosen => ?_
    exact event (Generator.chosenEvent chosen).1

end Path

namespace EventTree

variable {t : EventTree}

def reached (t : EventTree) : List Generator → EventNode
  | [] => t.root
  | g :: _ => g.chosenNode?.getD t.root

def Descends (t : EventTree) : List Generator → Prop
  | [] => True
  | g :: earlier => g.choices = .events (t.reached earlier) ∧ g.chosenNode?.isSome ∧ Descends t earlier

theorem descendsLast {gens : List Generator} (descends : t.Descends gens) :
    (t.root :: (gens.filterMap Generator.chosenNode?).reverse).getLast? = some (t.reached gens) := by
  cases gens with
  | nil => rfl
  | cons g earlier =>
    obtain ⟨node, chosen⟩ := Option.isSome_iff_exists.mp descends.2.1
    simp [reached, chosen, List.getLast?_cons]

theorem descendsWay {gens : List Generator} (descends : t.Descends gens) :
    (t.root :: (gens.filterMap Generator.chosenNode?).reverse).IsChain EventNode.Leads := by
  induction gens with
  | nil => exact .singleton _
  | cons g earlier ih =>
    obtain ⟨choices, some, before⟩ := descends
    obtain ⟨node, chosen⟩ := Option.isSome_iff_exists.mp some
    rw [List.filterMap_cons_some chosen, List.reverse_cons, ← List.cons_append, List.isChain_append]
    refine ⟨ih before, .singleton _, fun parent last child first => ?_⟩
    rw [descendsLast before] at last
    cases last
    cases first
    exact Generator.chosenChild choices chosen

theorem reachedChosen {p : Path} (descends : t.Descends p.eventGenerators) :
    t.reached p.eventGenerators = p.chosenNodes.getLast?.getD t.root := by
  have last := descendsLast descends
  rw [← Path.chosenOf, List.getLast?_cons] at last
  exact (Option.some.inj last).symm

end EventTree

namespace Builtin

variable {call : PeerCall} {t : EventTree} (descends : t.Descends call.path.eventGenerators)
include descends

theorem nextReached (scripted : call.tree = some t) : nextEvents call =
    .ok (if (t.reached call.path.eventGenerators).isLeaf then none
      else some (.ofEvents eventGenerator (t.reached call.path.eventGenerators))) := by
  unfold nextEvents
  rw [Path.lastOfEvents]
  cases gens : call.path.eventGenerators with
  | nil =>
    dsimp only [List.head?_nil]
    unfold PeerCall.eventTree
    rw [scripted]
    rfl
  | cons g earlier =>
    rw [gens] at descends
    obtain ⟨node, chosen⟩ := Option.isSome_iff_exists.mp descends.2.1
    have here : t.reached (g :: earlier) = node := by simp [EventTree.reached, chosen]
    dsimp only [List.head?_cons]
    unfold Generator.successor?
    rw [here, chosen]
    rfl

theorem produceReached (scripted : call.tree = some t) (m : Machine) :
    (processNextEvent call .entry m).2 =
      .ok (if (call.path.chosenNodes.getLast?.getD t.root).isLeaf then returnBool false
        else .choose (.ofEvents eventGenerator (call.path.chosenNodes.getLast?.getD t.root))) := by
  rw [← EventTree.reachedChosen descends]
  unfold processNextEvent
  dsimp only
  rw [nextReached descends scripted]
  cases (t.reached call.path.eventGenerators).isLeaf <;> rfl

theorem checkReached (i : Invocation) (m : Machine) : (checkPath call i m).2 =
    .ok (returnBool (call.path.chosenNodes.getLast?.any EventNode.isLeaf)) := by
  have last : call.path.lastNode? = call.path.chosenNodes.getLast? := by
    unfold Path.lastNode?
    rw [Path.lastOfEvents, Path.chosenOf]
    cases gens : call.path.eventGenerators with
    | nil => rfl
    | cons g earlier =>
      rw [gens] at descends
      obtain ⟨node, chosen⟩ := Option.isSome_iff_exists.mp descends.2.1
      simp [chosen]
  rw [← last]
  rfl

end Builtin

namespace Coverage

theorem containsVisit (c : Coverage) (node : EventNode) (id : Nat) :
    (c.visit node).contains id = true ↔ node.id = id ∨ c.contains id = true := by
  unfold visit contains
  rw [Std.TreeSet.contains_insert]
  simp

theorem containsCovered (p : Path) (id : Nat) :
    p.covered.contains id = true ↔ ∃ node ∈ p.chosenNodes, node.id = id := by
  have listed : ∀ entries : List Entry, (entries.foldr Entry.cover empty).contains id = true ↔
      ∃ node ∈ (entries.map (·.generator)).filterMap Generator.chosenNode?, node.id = id := by
    intro entries
    induction entries with
    | nil => simp [empty, contains]
    | cons entry rest ih =>
      rw [List.foldr_cons, List.map_cons]
      generalize rest.foldr Entry.cover empty = before at ih
      unfold Entry.cover
      cases chosen : entry.generator.chosenNode? with
      | none =>
        rw [List.filterMap_cons_none chosen]
        exact ih
      | some node =>
        rw [List.filterMap_cons_some chosen]
        dsimp only
        rw [containsVisit, ih]
        simp
  unfold Path.covered Path.chosenNodes Path.generators
  rw [listed]
  simp

end Coverage

/- The coverage of a run: the nodes that were chosen, and with each of them all that are above it except for the
root. -/
structure EventTree.Covered (t : EventTree) (c : Coverage) (nodes : List EventNode) : Prop where
  chosen : ∀ id, c.contains id = true ↔ ∃ node ∈ nodes, node.id = id
  closed : ∀ node up, up ∈ t.root.subtree → node ∈ up.subtree → up ≠ t.root → c.contains node.id = true →
    c.contains up.id = true

namespace Explorer

variable {e : Explorer} {past : List Point} {now : Point} {t : EventTree}

theorem decidesReached (standard : e.Standard) (scripted : e.registry.tree = some t) {path : Path} {s : State}
    {g : Generator} (descends : t.Descends path.eventGenerators) (decides : e.Decides path s g)
    (event : g.kind = .event) : g.choices = .events (t.reached path.eventGenerators) := by
  obtain ⟨thread, _, awaits⟩ := decides
  cases awaits with
  | reschedule stopped => cases event
  | schedule running stack => cases event
  | started running stack called symbol => cases event
  | asked running stack called other registered answer =>
    have asks := (Builtin.knownResponds (calledKnown standard registered) standard.guests answer).asks.2
    have next := Builtin.asksEvents asks event
    rw [Builtin.nextReached descends scripted] at next
    have made := Except.ok.inj next
    split at made
    · cases made
    · cases Option.some.inj made
      rfl

theorem chronicleDescends (standard : e.Standard) (scripted : e.registry.tree = some t)
    (way : e.Chronicle past now) : t.Descends now.path.eventGenerators := by
  induction way with
  | begins empty =>
    unfold Point.path
    rw [empty]
    trivial
  | moves before moved ih => exact ih
  | @chooses past memory memory' p q g g' i s before stopped judged chosen path goesOn ih =>
    have entries : Point.path ⟨memory', ⟨s, 0, []⟩⟩ = memory.path.push g' q.state := path
    rw [entries, Path.eventsPush]
    split
    · rename_i event
      obtain ⟨inside, rfl⟩ := Generator.selected chosen
      have choices := decidesReached standard scripted ih (moveDecides standard stopped) event
      obtain ⟨node, picked⟩ := Generator.pointedNode event inside
      exact ⟨choices, Option.isSome_iff_exists.mpr ⟨node, picked⟩, ih⟩
    · exact ih

section Point

variable {d : Dispatch} (standard : e.Standard) (descends : t.Descends now.path.eventGenerators)
  (dispatched : e.dispatchAt? now = some d)
include standard descends dispatched

theorem producedReached (scripted : e.registry.tree = some t)
    (own : d.method.symbol = Builtin.processNextEventSymbol) (entered : d.invocation = .entry) :
    d.reply = .ok (if (now.path.chosenNodes.getLast?.getD t.root).isLeaf then Builtin.returnBool false
      else .choose (.ofEvents Builtin.eventGenerator (now.path.chosenNodes.getLast?.getD t.root))) := by
  obtain ⟨thread, below, h⟩ := dispatchAtIff.mp dispatched
  have answer := h.answer
  rw [callKnown standard.peers .processNextEvent own, entered] at answer
  exact answer.symm.trans (Builtin.produceReached descends scripted _)

theorem checkedReached (own : d.method.symbol = Builtin.checkPathSymbol) :
    d.reply = .ok (Builtin.returnBool (now.path.chosenNodes.getLast?.any EventNode.isLeaf)) := by
  obtain ⟨thread, below, h⟩ := dispatchAtIff.mp dispatched
  have answer := h.answer
  rw [callKnown standard.peers .checkPath own] at answer
  exact answer.symm.trans (Builtin.checkReached descends _ _)

end Point

theorem pathCovered (standard : e.Standard) (scripted : e.registry.tree = some t) {path : Path}
    (descends : t.Descends path.eventGenerators) : t.Covered path.covered path.chosenNodes := by
  have way := EventTree.descendsWay descends
  rw [← Path.chosenOf] at way
  obtain ⟨sequences, rfl⟩ := standard.tree t scripted
  refine ⟨Coverage.containsCovered path, fun node up inside holds other covered => ?_⟩
  obtain ⟨chosen, member, same⟩ := (Coverage.containsCovered path _).mp covered
  have below := EventNode.subtreeTrans _ inside holds
  have onWay := List.mem_cons_of_mem (EventTree.ofSequences sequences).root member
  cases EventTree.nodeUnique (EventNode.wayInside way chosen onWay) below same
  have above := EventNode.wayAbove (EventTree.idsDistinct sequences) way onWay inside holds
  exact (Coverage.containsCovered path _).mpr ⟨up, (List.mem_cons.mp above).resolve_left other, rfl⟩

theorem modelTree {model : Model} {config : Config} (accepted : ofModel model config = .ok e) {script : Script}
    (scripted : model.events = some script) :
    ∃ tree, EventTree.ofScript script = .ok tree ∧ e.registry.tree = some tree := by
  obtain ⟨p, _, h⟩ := Load.bindOk.mp accepted
  obtain ⟨r, environment, h⟩ := Load.bindOk.mp h
  cases made h
  unfold Registry.withModel at environment
  rw [scripted] at environment
  obtain ⟨tree, built, environment⟩ := Load.bindOk.mp environment
  cases expanded : EventTree.ofScript script with
  | error error =>
    rw [expanded] at built
    cases built
  | ok t =>
    rw [expanded] at built
    cases built
    refine ⟨t, rfl, ?_⟩
    dsimp only at environment
    split at environment
    · cases environment
      exact (bindActionsKeeps (r := { Builtin.registry with tree := some t }) (h := rfl)).2.1
    · cases environment

theorem eventsDescend {model : Model} {config : Config} (accepted : ofModel model config = .ok e) {script : Script}
    (scripted : model.events = some script) (properties : List Property) :
    ∃ tree, EventTree.ofScript script = .ok tree ∧ e.registry.tree = some tree ∧
      ∀ {fuel : Nat} {choices : List Nat} {m : Memory} {r : Replayed},
        (e.watching properties).replay fuel choices = some (m, .ok r) →
        tree.Descends m.path.eventGenerators ∧
        (∃ sequence ∈ tree.root.paths, m.path.chosenNodes.filterMap EventNode.event? <+: sequence) ∧
        tree.Covered m.coverage m.path.chosenNodes ∧
        (∃ ending now past, (e.watching properties).Records m r.state ending now past) ∧
        ∀ ending now past, (e.watching properties).Records m r.state ending now past → ∀ a ∈ now :: past,
          tree.Covered a.memory.coverage a.path.chosenNodes ∧
          ∀ d, (e.watching properties).dispatchAt? a = some d →
            (d.method.symbol = Builtin.processNextEventSymbol → d.invocation = .entry →
              d.reply = .ok (if (a.path.chosenNodes.getLast?.getD tree.root).isLeaf then Builtin.returnBool false
                else .choose (.ofEvents Builtin.eventGenerator (a.path.chosenNodes.getLast?.getD tree.root)))) ∧
            (d.method.symbol = Builtin.checkPathSymbol →
              d.reply = .ok (Builtin.returnBool (a.path.chosenNodes.getLast?.any EventNode.isLeaf))) := by
  have source := (modelSource accepted).standard
  have standard : (e.watching properties).Standard := ⟨source.peers, source.guests, source.tree⟩
  obtain ⟨tree, built, held⟩ := modelTree accepted scripted
  refine ⟨tree, built, held, fun {fuel choices m r} replayed => ?_⟩
  obtain ⟨ending, now, past, records, _⟩ := replayRecords replayed
  have descends := chronicleDescends standard held records.way
  have covered := pathCovered standard held descends
  rw [← records.path] at descends covered
  refine ⟨descends, ?_, ?_, ⟨ending, now, past, records⟩, fun ending now past records a member => ?_⟩
  · have way := EventTree.descendsWay descends
    rw [← Path.chosenOf] at way
    obtain ⟨sequence, path, begins⟩ := EventNode.wayPaths way
    obtain ⟨sequences, rfl⟩ := source.tree tree held
    exact ⟨sequence, path, begins⟩
  · rw [records.faithful.coverage]
    exact covered
  · obtain ⟨later, earlier, split⟩ := List.append_of_mem member
    have descends := chronicleDescends standard held (records.way.suffix ⟨later, split.symm⟩)
    refine ⟨?_, fun d dispatched => ⟨producedReached standard descends dispatched held,
      checkedReached standard descends dispatched⟩⟩
    rw [records.faithful.throughout a member]
    exact pathCovered standard held descends

def touring : Model :=
  { (Model.start "touring" "Tour.main()V").withMethod "Tour.main()V" 0
      [.invokeStatic Builtin.processNextEventSymbol, .pop, .ret none] |>.withMethod "Tour.leave()V" 0
      [.invokeStatic Builtin.processNextEventSymbol, .pop, .invokeStatic Builtin.checkPathSymbol, .pop, .ret none]
      |>.withThread "Tour.other()V" [.invokeStatic Builtin.processNextEventSymbol, .pop, .ret none] with
    events := some (.sequence [.event (.normal "leave" []),
      .alternatives [.event (.normal "east" []), .event (.normal "west" [])]])
    actions := NameMap.empty.insert "leave" "Tour.leave()V" }

theorem touringFollowsScript : ∃ e tree m r, ofModel touring Config.default = .ok e ∧
    e.registry.tree = some tree ∧ (e.watching []).replay 40 [0, 1] = some (m, .ok r) ∧
    r.stop = .finished .completed ∧
    m.path.chosenNodes.filterMap EventNode.event? = [.normal "leave" [], .normal "west" []] ∧
    (∃ sequence ∈ tree.root.paths, [.normal "leave" [], .normal "west" []] <+: sequence) ∧
    tree.Descends m.path.eventGenerators ∧ tree.Covered m.coverage m.path.chosenNodes := by
  obtain ⟨e, m, r, accepted, replayed, passed⟩ := replayRun touring Config.default (·.watching []) 40 [0, 1]
    (fun _ m r => r.stop == .finished .completed &&
      m.path.chosenNodes.filterMap EventNode.event? == [.normal "leave" [], .normal "west" []]) (by decide +kernel)
  simp only [Bool.and_eq_true, beq_iff_eq] at passed
  obtain ⟨stop, chosen⟩ := passed
  obtain ⟨tree, _, held, facts⟩ := eventsDescend accepted rfl []
  obtain ⟨descends, begins, covered, _⟩ := facts replayed
  rw [chosen] at begins
  exact ⟨e, tree, m, r, accepted, held, replayed, stop, chosen, begins, descends, covered⟩

end Explorer

end BytecodeChecker
