import BytecodeChecker.Proofs.Transition
import BytecodeChecker.Replay

/-! Runs of a program as a tree. A path of decisions determines the state in which its next
transition starts and the one in which it ends, whatever else a search has seen before, as long as
the program does not ask for the coverage. Replaying follows exactly these paths. -/
namespace BytecodeChecker

namespace Path

def indices (p : Path) : List Nat := p.entries.reverse.map fun e => e.generator.cursor.getD 0

@[simp] theorem indicesEmpty : Path.empty.indices = [] := rfl

@[simp] theorem indicesPush (p : Path) (g : Generator) (s : State) :
    (p.push g s).indices = p.indices ++ [g.cursor.getD 0] := by
  simp [indices, push]

theorem indicesLength (p : Path) : p.indices.length = p.depth := by
  simp [indices, p.depth_eq]

theorem traceChoices (p : Path) (s : State) : (p.trace s).choices = p.indices := by
  simp [trace, Trace.choices, indices, Entry.traceStep]

end Path

theorem Generator.selected {g g' : Generator} {i : Nat} (h : g.select? i = some g') :
    i < g.total ∧ g' = { g with cursor := some i } := by
  unfold select? at h
  split at h
  · exact ⟨by assumption, (Option.some.inj h).symm⟩
  · contradiction

theorem stateEq {s t : State} (machine : s.toMachine = t.toMachine) (current : s.current = t.current)
    (depth : s.depth = t.depth) : s = t := by
  cases s
  cases t
  simp_all

namespace Explorer

variable {e : Explorer}

def applied (path : Path) (s : State) : Except CheckError State :=
  (applyChoice { Memory.empty with path } s).2

theorem applyChoiceResult (memory : Memory) (s : State) :
    (applyChoice memory s).2 = applied memory.path s := by
  unfold applied applyChoice
  dsimp only
  cases memory.path.last? with
  | none => rfl
  | some top =>
    dsimp only
    cases top.generator.chosen? with
    | none => rfl
    | some choice =>
      cases choice <;> dsimp only <;> split <;> rfl

theorem applyChoiceKeeps (memory : Memory) (s : State) :
    (applyChoice memory s).1.path = memory.path ∧
      (applyChoice memory s).1.visited = memory.visited ∧
      (applyChoice memory s).1.stats = memory.stats ∧
      (applyChoice memory s).1.notices = memory.notices := by
  unfold applyChoice
  cases memory.path.last? with
  | none => exact ⟨rfl, rfl, rfl, rfl⟩
  | some top =>
    dsimp only
    cases top.generator.chosen? with
    | none => exact ⟨rfl, rfl, rfl, rfl⟩
    | some choice =>
      cases choice <;> dsimp only <;> split <;> exact ⟨rfl, rfl, rfl, rfl⟩

theorem takeAdvances {fuel : Nat} {memory : Memory} {s s' : State} {g : Generator}
    (goesOn : applied (memory.path.push g s) s = .ok s') :
    e.take fuel memory s g =
      e.advance fuel (applyChoice { memory with path := memory.path.push g s } s).1 s' := by
  have result := applyChoiceResult { memory with path := memory.path.push g s } s
  rw [goesOn] at result
  unfold take
  rw [← Prod.eta (applyChoice { memory with path := memory.path.push g s } s), result]

theorem appliedState {path : Path} {s s' : State} (h : applied path s = .ok s') :
    ∃ current thread, s.thread? current = some thread ∧
      s' = ⟨s.clearFirstSteps.setFirstStep current true, current, path.depth⟩ := by
  unfold applied applyChoice at h
  dsimp only at h
  cases last : path.last? with
  | none => simp [last] at h
  | some top =>
    simp only [last] at h
    cases chosen : top.generator.chosen? with
    | none => simp [chosen] at h
    | some choice =>
      simp only [chosen] at h
      split at h
      · cases h
      · rename_i thread found
        cases choice <;> exact ⟨_, thread, found, (Except.ok.inj h).symm⟩

structure Advanced (e : Explorer) (fuel : Nat) (memory : Memory) (s : State) (memory' : Memory)
    (s' : State) (ending : Ending) (p : Progress) (raw : Ending) : Prop where
  ran : e.transition memory fuel ⟨s, 0, []⟩ = some (p, .ok raw)
  state : p.state = s'
  judged : e.judge s' raw = ending
  path : memory'.path = memory.path
  visited : memory'.visited = memory.visited
  stats : memory'.stats = { memory.stats with
    states := memory.stats.states + 1
    maxDepth := max memory.stats.maxDepth memory.path.depth }
  notices : memory'.notices =
    .advanced s' memory.path.depth :: (p.notices ++ memory.notices)

theorem advanced {fuel : Nat} {memory memory' : Memory} {s s' : State} {ending : Ending}
    (h : e.advance fuel memory s = some ⟨memory', s', .ok ending⟩) :
    ∃ p raw, Advanced e fuel memory s memory' s' ending p raw := by
  unfold advance at h
  obtain ⟨⟨p, result⟩, ran, h⟩ := Option.map_eq_some_iff.mp h
  cases result with
  | error error => cases h
  | ok raw =>
    cases h
    exact ⟨p, raw, ran, rfl, rfl, rfl, rfl, rfl, rfl⟩

theorem advanceRan {fuel : Nat} {memory : Memory} {s : State} {p : Progress} {raw : Ending}
    (ran : e.transition memory fuel ⟨s, 0, []⟩ = some (p, .ok raw)) :
    ∃ memory', memory'.path = memory.path ∧
      e.advance fuel memory s = some ⟨memory', p.state, .ok (e.judge p.state raw)⟩ := by
  unfold advance
  rw [ran]
  refine ⟨_, ?_, rfl⟩
  rfl

def Transits (e : Explorer) (fuel : Nat) (path : Path) (s s' : State) (ending : Ending) : Prop :=
  ∃ memory memory', memory.path = path ∧
    e.advance fuel memory s = some ⟨memory', s', .ok ending⟩

inductive Starts (e : Explorer) (fuel : Nat) : Path → State → Prop where
  | initial : Starts e fuel Path.empty (State.initial e.program)
  | next {path : Path} {s s' s'' : State} {g g' : Generator} {i : Nat}
      (before : Starts e fuel path s) (ends : e.Transits fuel path s s' (.choice g))
      (chosen : g.select? i = some g') (goesOn : applied (path.push g' s') s' = .ok s'') :
      Starts e fuel (path.push g' s') s''

def Reaches (e : Explorer) (fuel : Nat) (path : Path) (s' : State) (ending : Ending) : Prop :=
  ∃ s, e.Starts fuel path s ∧ e.Transits fuel path s s' ending

/- The runs of these explorers do not depend on what was covered before. -/
structure Blind (e : Explorer) : Prop where
  standard : e.Standard
  calls : e.program.CallsWithin e.Unseen

theorem transitsMore {fuel more : Nat} {path : Path} {s s' : State} {ending : Ending}
    (h : e.Transits fuel path s s' ending) (enough : fuel ≤ more) :
    e.Transits more path s s' ending := by
  obtain ⟨memory, memory', same, ran⟩ := h
  obtain ⟨p, raw, advance⟩ := advanced ran
  obtain ⟨after, _, again⟩ := advanceRan (transitionMore advance.ran enough)
  rw [advance.state, advance.judged] at again
  exact ⟨memory, after, same, again⟩

theorem startsMore {fuel more : Nat} {path : Path} {s : State} (h : e.Starts fuel path s)
    (enough : fuel ≤ more) : e.Starts more path s := by
  induction h with
  | initial => exact .initial
  | next before ends chosen goesOn ih => exact .next ih (transitsMore ends enough) chosen goesOn

theorem reachesMore {fuel more : Nat} {path : Path} {s : State} {ending : Ending}
    (h : e.Reaches fuel path s ending) (enough : fuel ≤ more) : e.Reaches more path s ending := by
  obtain ⟨start, before, ends⟩ := h
  exact ⟨start, startsMore before enough, transitsMore ends enough⟩

theorem initialHolds (holds : Machine → Prop) (empty : holds Machine.empty)
    (spawned : ∀ {m : Machine} (name : String) (id : MethodId) (method : Method), holds m →
      holds (m.spawn name id method []).1) (p : Program) : holds (State.initial p).toMachine := by
  have started : ∀ (name : Method → String) (m : Machine) (id : MethodId), holds m →
      holds (State.spawn p name m id) := by
    intro name m id before
    unfold State.spawn
    split
    · exact spawned _ id _ before
    · exact before
  have threads : ∀ (ids : List MethodId) (m : Machine), holds m →
      holds (ids.foldl (State.spawn p (·.signature.name)) m) := by
    intro ids
    induction ids with
    | nil => exact fun m before => before
    | cons id rest ih => exact fun m before => ih _ (started _ m id before)
  exact threads _ _ (started _ _ p.entry empty)

theorem initialWithin (kind : MethodId → Prop) (p : Program) : (State.initial p).Within kind := by
  refine initialHolds (Machine.Within kind) ?_ (fun name id method within =>
    Machine.withinSpawn within name id method []) p
  intro thread member
  simp [Machine.empty] at member

theorem appliedWithin {kind : MethodId → Prop} {path : Path} {s s' : State}
    (within : s.Within kind) (h : applied path s = .ok s') : s'.Within kind := by
  obtain ⟨current, _, _, rfl⟩ := appliedState h
  exact Machine.withinFlag (Machine.withinClear within) true

section Kind

variable (standard : e.Standard) {kind : MethodId → Prop} (calls : e.program.CallsWithin kind)
  {fuel : Nat} {path : Path} {s s' : State}
include standard calls

theorem transitsWithin {ending : Ending} (within : s.Within kind) (h : e.Transits fuel path s s' ending) :
    s'.Within kind ∧ s'.depth = s.depth := by
  obtain ⟨memory, memory', _, ran⟩ := h
  obtain ⟨p, raw, advance⟩ := advanced ran
  have keeps := (transitionSound standard calls within advance.ran).1
  rw [← advance.state]
  exact ⟨keeps.within, keeps.depth⟩

theorem startsKind (h : e.Starts fuel path s) : s.Within kind := by
  induction h with
  | initial => exact initialWithin _ _
  | next before ends chosen goesOn ih => exact appliedWithin (transitsWithin standard calls ih ends).1 goesOn

end Kind

theorem judgedChoice {s : State} {raw : Ending} {g : Generator} (h : e.judge s raw = .choice g) :
    raw = .choice g := by
  unfold judge at h
  split at h
  · exact h
  · split at h
    · cases h
    · exact h

theorem transitsFresh (standard : e.Standard) {fuel : Nat} {path : Path} {s s' : State} {g : Generator}
    (h : e.Transits fuel path s s' (.choice g)) : g.Fresh := by
  obtain ⟨memory, memory', _, ran⟩ := h
  obtain ⟨p, raw, advance⟩ := advanced ran
  have fresh := (transitionSound standard e.program.callsAny (Machine.withinAny _) advance.ran).2
  exact fresh g (congrArg Except.ok (judgedChoice advance.judged))

namespace Blind

variable (blind : e.Blind) {fuel fuel' : Nat} {path path' : Path} {s s' t t' : State}
  {ending ending' : Ending}
include blind

theorem transitsKeeps (within : s.Within e.Unseen) (h : e.Transits fuel path s s' ending) :
    s'.Within e.Unseen ∧ s'.depth = s.depth :=
  transitsWithin blind.standard blind.calls within h

theorem startsWithin (h : e.Starts fuel path s) : s.Within e.Unseen :=
  startsKind blind.standard blind.calls h

theorem transitsUnique (within : s.Within e.Unseen) (left : e.Transits fuel path s t ending)
    (right : e.Transits fuel' path s t' ending') : t = t' ∧ ending = ending' := by
  obtain ⟨memory, _, pathLeft, ranLeft⟩ := transitsMore left (Nat.le_max_left fuel fuel')
  obtain ⟨memory', _, pathRight, ranRight⟩ := transitsMore right (Nat.le_max_right fuel fuel')
  obtain ⟨p, raw, advanceLeft⟩ := advanced ranLeft
  obtain ⟨q, raw', advanceRight⟩ := advanced ranRight
  have paths : memory.path.Alike memory'.path := by
    rw [pathLeft, pathRight]
    exact .refl path
  obtain ⟨q', again, alike⟩ := transitionAlike blind.standard paths blind.calls
    (p := ⟨s, 0, []⟩) (q := ⟨s, 0, []⟩) ⟨rfl, rfl, rfl⟩ within advanceLeft.ran
  have same := again.symm.trans advanceRight.ran
  cases Option.some.inj same
  have depthLeft := (transitionSound blind.standard blind.calls within advanceLeft.ran).1.depth
  have depthRight := (transitionSound blind.standard blind.calls within advanceRight.ran).1.depth
  have states : t = t' := by
    rw [← advanceLeft.state, ← advanceRight.state]
    exact stateEq alike.machine alike.current (depthLeft.trans depthRight.symm)
  subst states
  exact ⟨rfl, advanceLeft.judged.symm.trans advanceRight.judged⟩

theorem startsUnique (left : e.Starts fuel path s) (right : e.Starts fuel' path' s')
    (same : path.indices = path'.indices) : path = path' ∧ s = s' := by
  induction left generalizing path' s' with
  | initial =>
    cases right with
    | initial => exact ⟨rfl, rfl⟩
    | next before ends chosen goesOn => simp at same
  | next before ends chosen goesOn ih =>
    cases right with
    | initial => simp at same
    | next before' ends' chosen' goesOn' =>
      obtain ⟨_, rfl⟩ := Generator.selected chosen
      obtain ⟨_, rfl⟩ := Generator.selected chosen'
      simp only [Path.indicesPush, Option.getD_some] at same
      obtain ⟨early, last⟩ := List.append_inj' same rfl
      cases last
      obtain ⟨rfl, rfl⟩ := ih before' early
      obtain ⟨rfl, ended⟩ := blind.transitsUnique (blind.startsWithin before) ends ends'
      cases ended
      exact ⟨rfl, Except.ok.inj (goesOn.symm.trans goesOn')⟩

theorem reachesUnique (left : e.Reaches fuel path s ending)
    (right : e.Reaches fuel' path' s' ending') (same : path.indices = path'.indices) :
    path = path' ∧ s = s' ∧ ending = ending' := by
  obtain ⟨start, before, ends⟩ := left
  obtain ⟨start', before', ends'⟩ := right
  obtain ⟨rfl, rfl⟩ := blind.startsUnique before before' same
  exact ⟨rfl, blind.transitsUnique (blind.startsWithin before) ends ends'⟩

theorem transitsIn (within : s.Within e.Unseen) (h : e.Transits fuel path s s' ending)
    (memory : Memory) (same : memory.path = path) :
    ∃ memory', memory'.path = path ∧ e.advance fuel memory s = some ⟨memory', s', .ok ending⟩ := by
  obtain ⟨other, _, otherPath, ran⟩ := h
  obtain ⟨p, raw, advance⟩ := advanced ran
  have paths : other.path.Alike memory.path := by
    rw [otherPath, same]
    exact .refl path
  obtain ⟨q, again, alike⟩ := transitionAlike blind.standard paths blind.calls
    (p := ⟨s, 0, []⟩) (q := ⟨s, 0, []⟩) ⟨rfl, rfl, rfl⟩ within advance.ran
  obtain ⟨memory', kept, after⟩ := advanceRan again
  have here : e.Transits fuel path s q.state (e.judge q.state raw) := ⟨memory, memory', same, after⟩
  obtain ⟨states, endings⟩ := blind.transitsUnique within ⟨other, _, otherPath, ran⟩ here
  rw [← endings, ← states] at after
  exact ⟨memory', kept.trans same, after⟩

theorem replayReached (h : e.Reaches fuel path s ending) {more : Nat} (enough : fuel ≤ more)
    (rest : List Nat) :
    ∃ memory, memory.path = path ∧
      e.replay more (path.indices ++ rest) = e.follow more path.depth rest ⟨memory, s, .ok ending⟩ := by
  obtain ⟨start, before, ends⟩ := reachesMore h enough
  clear h enough
  induction before generalizing s ending rest with
  | initial =>
    obtain ⟨memory', kept, ran⟩ := blind.transitsIn (initialWithin _ _) ends Memory.empty rfl
    refine ⟨memory', kept, ?_⟩
    simp only [replay, begin, ran, Option.bind_some, Path.indicesEmpty, List.nil_append]
    rfl
  | @next path start s' s'' g g' i before ended chosen goesOn ih =>
    obtain ⟨memory, kept, far⟩ := ih (i :: rest) ended
    obtain ⟨_, same⟩ := Generator.selected chosen
    have taken : ∃ memory', memory'.path = path.push g' s' ∧
        e.take more memory s' g' = some ⟨memory', s, .ok ending⟩ := by
      have within := appliedWithin (blind.transitsKeeps (blind.startsWithin before) ended).1 goesOn
      have keeps := (applyChoiceKeeps { memory with path := memory.path.push g' s' } s').1
      rw [← kept] at goesOn
      rw [takeAdvances goesOn]
      exact blind.transitsIn within ends _ (keeps.trans (congrArg (·.push g' s') kept))
    obtain ⟨memory', kept', took⟩ := taken
    refine ⟨memory', kept', ?_⟩
    have listed : (path.push g' s').indices ++ rest = path.indices ++ i :: rest := by
      rw [Path.indicesPush, same]
      simp
    rw [listed, far, follow, chosen]
    simp only [took]
    rfl

omit blind in
theorem followReaches {step : Nat} {cs : List Nat} {memory m : Memory} {r : Replayed}
    (reached : e.Reaches fuel memory.path s ending)
    (h : e.follow fuel step cs ⟨memory, s, .ok ending⟩ = some (m, .ok r)) :
    ∃ path ending', e.Reaches fuel path r.state ending' ∧ path.indices = memory.path.indices ++ cs ∧
      r.stop = pathEnd ending' ∧ r.trace = path.trace r.state := by
  induction cs generalizing step memory s ending with
  | nil =>
    simp only [follow, Option.some.injEq, Prod.mk.injEq, Except.ok.injEq] at h
    obtain ⟨_, rfl⟩ := h
    exact ⟨memory.path, ending, reached, by simp, rfl, rfl⟩
  | cons i rest ih =>
    cases ending with
    | finished finish => simp [follow] at h
    | choice g =>
      cases chosen : g.select? i with
      | none => simp [follow, chosen] at h
      | some g' =>
        cases took : e.take fuel memory s g' with
        | none => simp [follow, chosen, took] at h
        | some next =>
          simp only [follow, chosen, took] at h
          obtain ⟨start, before, ends⟩ := reached
          have result := applyChoiceResult { memory with path := memory.path.push g' s } s
          have keeps := (applyChoiceKeeps { memory with path := memory.path.push g' s } s).1
          unfold take at took
          cases went : applyChoice { memory with path := memory.path.push g' s } s with
          | mk after onward =>
            rw [went] at result keeps took
            cases onward with
            | error error =>
              simp only [Option.some.injEq] at took
              subst took
              simp [follow] at h
            | ok s'' =>
              obtain ⟨memory', s', outcome⟩ := next
              cases outcome with
              | error error => simp [follow] at h
              | ok ending' =>
                have begun : e.Starts fuel (memory.path.push g' s) s'' :=
                  .next before ends chosen result.symm
                have reached' : e.Reaches fuel memory'.path s' ending' := by
                  obtain ⟨p, raw, advance⟩ := advanced took
                  rw [advance.path, keeps]
                  exact ⟨s'', begun, after, memory', keeps, took⟩
                obtain ⟨path, ending'', far, listed, rest'⟩ := ih reached' h
                refine ⟨path, ending'', far, ?_, rest'⟩
                obtain ⟨p, raw, advance⟩ := advanced took
                obtain ⟨_, rfl⟩ := Generator.selected chosen
                rw [listed, advance.path, keeps]
                simp

end Blind

/- Where replaying a list of choices leads, once there is enough fuel for it. -/
def Replays (e : Explorer) (choices : List Nat) (s : State) (stop : PathEnd) : Prop :=
  ∃ fuel m trace, e.replay fuel choices = some (m, .ok ⟨s, stop, trace⟩)

theorem Blind.replaysIff (blind : e.Blind) {choices : List Nat} {s : State} {stop : PathEnd} :
    e.Replays choices s stop ↔ ∃ fuel path ending, e.Reaches fuel path s ending ∧
      path.indices = choices ∧ pathEnd ending = stop := by
  constructor
  · rintro ⟨fuel, m, trace, h⟩
    obtain ⟨⟨memory, start, result⟩, begun, h⟩ := Option.bind_eq_some_iff.mp h
    cases result with
    | error error => simp [follow] at h
    | ok ending =>
      obtain ⟨p, raw, advance⟩ := advanced begun
      have reached : e.Reaches fuel memory.path start ending := by
        rw [advance.path]
        exact ⟨_, .initial, _, _, rfl, begun⟩
      obtain ⟨path, ending', far, listed, stopped, _⟩ := followReaches reached h
      rw [advance.path] at listed
      exact ⟨fuel, path, ending', far, listed, stopped.symm⟩
  · rintro ⟨fuel, path, ending, reached, rfl, rfl⟩
    obtain ⟨memory, _, far⟩ := blind.replayReached reached (Nat.le_refl fuel) []
    rw [List.append_nil] at far
    exact ⟨fuel, memory, _, far⟩

def watching (e : Explorer) (properties : List Property) : Explorer := { e with properties }

theorem modelBlind {model : Model} {config : Config} (accepted : ofModel model config = .ok e)
    (unasked : Builtin.isCompletelyCoveredSymbol ∉ Load.callees model.methods)
    (properties : List Property) : (e.watching properties).Blind := by
  have source := modelSource accepted
  obtain ⟨loaded⟩ := Program.loadSource source.program
  refine ⟨⟨source.standard.peers, source.standard.guests, source.standard.tree⟩, ?_⟩
  intro id pc callee call args
  obtain ⟨method, found, listed⟩ := loaded.callAt call
  have here : (e.watching properties).program.method? callee = some method := found
  have other : method.symbol ≠ Builtin.isCompletelyCoveredSymbol :=
    fun same => unasked (same ▸ listed)
  unfold Program.activation
  rw [here]
  dsimp only
  split
  · simpa [Activation.Within, Unseen, Program.symbol, here] using other
  · trivial

end Explorer

end BytecodeChecker
