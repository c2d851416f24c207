import BytecodeChecker.Proofs.Peers
import BytecodeChecker.Transition

/-! The explorer of a model: the built-in peers, events that are bound to guest code, and the tree of a
script. -/
namespace BytecodeChecker

namespace Explorer

structure Standard (e : Explorer) : Prop where
  peers : e.registry.peers = Builtin.registry.peers
  guests : Builtin.Guests e.registry.actions
  tree : ∀ tree, e.registry.tree = some tree → ∃ sequences, tree = EventTree.ofSequences sequences

abbrev peerCall (e : Explorer) (memory : Memory) (thread : ThreadId) (method : Method) (args : List Value) : PeerCall :=
  ⟨e.program, e.registry.tree, e.registry.actions, memory.coverage, memory.path, thread, method, args⟩

theorem callKnown {e : Explorer} (peers : e.registry.peers = Builtin.registry.peers) {symbol : String} {peer : Peer}
    (known : Builtin.Known symbol peer) {method : Method} (own : method.symbol = symbol) (memory : Memory)
    (thread : ThreadId) (args : List Value) (i : Invocation) (m : Machine) :
    e.callPeer memory thread method args i m = peer (e.peerCall memory thread method args) i m := by
  unfold callPeer
  rw [own, peers, Builtin.knownRegistered known]

theorem bindActionsKeeps {p : Program} {r r' : Registry} {bindings : List (String × String)}
    {result : Except PeerError Unit} (h : r.bindActions p bindings = (r', result)) :
    r'.peers = r.peers ∧ r'.tree = r.tree ∧
      (Builtin.Guests r.actions → Builtin.Guests r'.actions) := by
  induction bindings generalizing r with
  | nil =>
    cases h
    exact ⟨rfl, rfl, id⟩
  | cons binding rest ih =>
    obtain ⟨event, symbol⟩ := binding
    simp only [Registry.bindActions] at h
    split at h
    · cases h
      exact ⟨rfl, rfl, id⟩
    · split at h
      · cases h
        exact ⟨rfl, rfl, id⟩
      · rename_i callee _ _
        obtain ⟨peers, tree, guests⟩ := ih h
        refine ⟨peers, tree, fun old => guests fun name action found => ?_⟩
        simp only [Registry.withAction, NameMap.getInsert] at found
        split at found
        · exact ⟨callee, (Option.some.inj found).symm⟩
        · exact old name action found

def Unmetered (e : Explorer) : Prop := ∀ states, e.meters states = .idle

structure Source (model : Model) (config : Config) (e : Explorer) : Prop where
  program : Program.load model = .ok e.program
  config : e.config = config
  properties : e.properties = []
  unmetered : e.Unmetered
  standard : e.Standard

theorem made {p : Program} {r : Registry} {config : Config} {properties : List Property}
    {e : Explorer} (h : make p r config properties = .ok e) :
    e = ⟨p, r, config, properties, fun _ => .idle⟩ := by
  unfold make at h
  dsimp only at h
  split at h
  · contradiction
  · exact (Except.ok.inj h).symm

theorem mapErrorOk {ε ε' α : Type} {x : Except ε α} {f : ε → ε'} {a : α}
    (h : x.mapError f = .ok a) : x = .ok a := by
  cases x with
  | error e => cases h
  | ok b => exact congrArg Except.ok (Except.ok.inj h)

theorem scriptTree {script : Script} {tree : Option EventTree}
    (h : ((EventTree.ofScript script).mapError CheckError.script |>.map some) = .ok tree) :
    ∃ sequences, tree = some (EventTree.ofSequences sequences) := by
  cases expanded : EventTree.ofScript script with
  | error error => rw [expanded] at h; cases h
  | ok built =>
    rw [expanded] at h
    cases h
    obtain ⟨sequences, _, last⟩ := Load.bindOk.mp expanded
    exact ⟨sequences, congrArg some (Except.ok.inj last).symm⟩

theorem environment {p : Program} {model : Model} {r r' : Registry}
    (h : r.withModel p model = .ok r') :
    ∃ tree, (tree = r.tree ∨ ∃ sequences, tree = some (EventTree.ofSequences sequences)) ∧
      ({ r with tree } : Registry).bindActions p model.actions.entries = (r', .ok ()) := by
  unfold Registry.withModel at h
  dsimp only at h
  split at h <;> obtain ⟨tree, made, h⟩ := Load.bindOk.mp h <;> split at h <;> cases h
  · rename_i bound
    cases made
    exact ⟨r.tree, .inl rfl, Prod.ext rfl bound⟩
  · rename_i bound
    exact ⟨tree, .inr (scriptTree made), Prod.ext rfl bound⟩

theorem environmentKeeps {p : Program} {model : Model} {r r' : Registry}
    (h : r.withModel p model = .ok r') (bare : r.tree = none) (unbound : Builtin.Guests r.actions) :
    r'.peers = r.peers ∧ Builtin.Guests r'.actions ∧
      ∀ tree, r'.tree = some tree → ∃ sequences, tree = EventTree.ofSequences sequences := by
  obtain ⟨grown, origin, bound⟩ := environment h
  obtain ⟨peers, same, guests⟩ := bindActionsKeeps bound
  refine ⟨peers, guests unbound, fun tree found => ?_⟩
  have held : grown = some tree := same.symm.trans found
  rcases origin with missing | ⟨sequences, scripted⟩
  · rw [missing, bare] at held
    cases held
  · exact ⟨sequences, Option.some.inj (held.symm.trans scripted)⟩

theorem modelSource {model : Model} {config : Config} {e : Explorer}
    (h : ofModel model config = .ok e) : Source model config e := by
  obtain ⟨p, hp, h⟩ := Load.bindOk.mp h
  obtain ⟨r, hr, h⟩ := Load.bindOk.mp h
  cases made h
  have unbound : Builtin.Guests Builtin.registry.actions := fun event action found => by
    rw [Builtin.registryActions] at found
    cases found
  obtain ⟨peers, guests, tree⟩ := environmentKeeps hr Builtin.registryTree unbound
  exact ⟨mapErrorOk hp, rfl, rfl, fun _ => rfl, peers, guests, tree⟩

end Explorer

end BytecodeChecker
