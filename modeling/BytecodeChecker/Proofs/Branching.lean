import Mathlib.Data.List.Lex
import BytecodeChecker.Proofs.Run

/-! The order in which a depth-first search comes to the paths: that of their choices, compared from
the first one on. The next branch of a path is the least path behind it that an earlier decision
leaves open. -/
namespace BytecodeChecker

namespace Choices

variable {before after tail : List Nat} {i j : Nat}

theorem branchLess (less : i < j) : before ++ i :: tail < before ++ [j] :=
  List.append_left_lt (List.Lex.rel less)

theorem ancestorLess : before < before ++ i :: tail := by
  have short : before ++ [] < before ++ i :: tail := List.append_left_lt List.Lex.nil
  rwa [List.append_nil] at short

theorem prefixLe : before ≤ before ++ tail := by
  cases tail with
  | nil => rw [List.append_nil]
  | cons i tail => exact le_of_lt ancestorLess

theorem siblingLe (le : i ≤ j) : before ++ [i] ≤ before ++ [j] := by
  rcases Nat.eq_or_lt_of_le le with rfl | less
  · exact le_rfl
  · exact le_of_lt (branchLess less)

theorem firstLeast (less : before < after) : before ++ [0] ≤ after := by
  induction before generalizing after with
  | nil =>
    cases after with
    | nil => exact absurd less (lt_irrefl _)
    | cons i tail =>
      cases i with
      | zero => exact not_lt.mp fun h => by simp at h
      | succ i => exact le_of_lt (List.Lex.rel (Nat.succ_pos i))
  | cons k before ih =>
    cases after with
    | nil => exact absurd less (List.not_lt_nil _)
    | cons i tail =>
      rcases List.cons_lt_cons_iff.mp less with smaller | ⟨rfl, rest⟩
      · exact le_of_lt (List.Lex.rel smaller)
      · exact List.cons_le_cons k (ih rest)

theorem between (above : before < after) (below : after < before ++ [i]) :
    ∃ j tail, after = before ++ j :: tail ∧ j < i := by
  induction before generalizing after with
  | nil =>
    cases after with
    | nil => exact absurd above (lt_irrefl _)
    | cons j tail =>
      rcases List.cons_lt_cons_iff.mp below with smaller | ⟨_, rest⟩
      · exact ⟨j, tail, rfl, smaller⟩
      · exact absurd rest (List.not_lt_nil _)
  | cons k before ih =>
    cases after with
    | nil => exact absurd above (List.not_lt_nil _)
    | cons m tail =>
      rcases List.cons_lt_cons_iff.mp above with less | ⟨rfl, rest⟩
      · rcases List.cons_lt_cons_iff.mp below with less' | ⟨rfl, _⟩
        · exact absurd less (lt_asymm less')
        · exact absurd less (lt_irrefl _)
      · rcases List.cons_lt_cons_iff.mp below with less' | ⟨_, rest'⟩
        · exact absurd less' (lt_irrefl _)
        · obtain ⟨j, more, same, less⟩ := ih rest rest'
          exact ⟨j, more, by rw [same]; rfl, less⟩

end Choices

namespace Path

theorem nextBranchPush (p : Path) (g : Generator) (s : State) :
    (p.push g s).nextBranch? = match g.advance? with
      | some g' => some ⟨p.push g' s, g.cursor.isSome⟩
      | none => p.nextBranch? := by
  unfold nextBranch? push
  rw [branchFrom?]
  cases g.advance? <;> rfl

theorem lastPush (p : Path) (g : Generator) (s : State) :
    (p.push g s).last? = some ⟨g, s, reached p.entries⟩ := rfl

end Path

namespace Generator

variable {g : Generator}

theorem Fresh.advanced (fresh : g.Fresh) : g.advance? = g.select? 0 := by
  have next : g.nextIndex = 0 := by simp [nextIndex, fresh.cursor]
  simp [advance?, hasMore, select?, next]

theorem advanceSelected (g : Generator) (i : Nat) :
    { g with cursor := some i }.advance? = g.select? (i + 1) := by
  by_cases inside : i + 1 < g.choices.total
  · simp [advance?, hasMore, select?, nextIndex, total, inside]
  · simp [advance?, hasMore, select?, nextIndex, total, inside]

end Generator

namespace Explorer

variable {e : Explorer} {fuel : Nat}

inductive Forks (e : Explorer) (fuel : Nat) : Path → State → Prop where
  | at {path : Path} {start snapshot : State} {g g' : Generator} {i : Nat}
      (before : e.Starts fuel path start)
      (ends : e.Transits fuel path start snapshot (.choice g)) (chosen : g.select? i = some g') :
      Forks e fuel (path.push g' snapshot) snapshot

theorem forkStarts {path : Path} {snapshot s : State} (fork : e.Forks fuel path snapshot)
    (goesOn : applied path snapshot = .ok s) : e.Starts fuel path s := by
  cases fork with
  | «at» before ends chosen => exact .next before ends chosen goesOn

theorem forkLast {path : Path} {snapshot : State} (fork : e.Forks fuel path snapshot) :
    ∃ top, path.last? = some top ∧ top.snapshot = snapshot := by
  cases fork with
  | «at» before ends chosen => exact ⟨_, Path.lastPush _ _ _, rfl⟩

structure Succeeds (e : Explorer) (fuel : Nat) (path : Path) (branch : Path.Branch) : Prop where
  fork : ∃ snapshot, e.Forks fuel branch.path snapshot
  next : ∃ before k tail, path.indices = before ++ k :: tail ∧
    branch.path.indices = before ++ [k + 1]

theorem succeedsLess {path : Path} {branch : Path.Branch} (h : e.Succeeds fuel path branch) :
    path.indices < branch.path.indices := by
  obtain ⟨before, k, tail, here, there⟩ := h.next
  rw [here, there]
  exact Choices.branchLess (Nat.lt_succ_self k)

theorem nextSucceeds {path : Path} {s : State} (starts : e.Starts fuel path s)
    {branch : Path.Branch} (h : path.nextBranch? = some branch) : e.Succeeds fuel path branch := by
  induction starts with
  | initial => cases h
  | @next path s s' s'' g g' i before ends chosen goesOn ih =>
    obtain ⟨_, rfl⟩ := Generator.selected chosen
    rw [Path.nextBranchPush, Generator.advanceSelected] at h
    cases more : g.select? (i + 1) with
    | none =>
      rw [more] at h
      have below := ih h
      obtain ⟨early, k, tail, here, there⟩ := below.next
      refine ⟨below.fork, early, k, tail ++ [i], ?_, there⟩
      rw [Path.indicesPush, here]
      simp
    | some g' =>
      rw [more] at h
      cases Option.some.inj h
      obtain ⟨_, rfl⟩ := Generator.selected more
      exact ⟨⟨s', .at before ends more⟩, path.indices, i, [], by simp, by simp⟩

theorem Blind.branchLeast (blind : e.Blind) {path before : Path} {s s' : State} {g : Generator}
    {i k : Nat} {tail : List Nat} (starts : e.Starts fuel path s)
    (came : e.Reaches fuel before s' (.choice g)) (grows : path.indices = before.indices ++ k :: tail)
    (later : k < i) (inside : i < g.total) :
    ∃ branch, path.nextBranch? = some branch ∧ branch.path.indices ≤ before.indices ++ [i] := by
  induction starts generalizing tail with
  | initial => simp at grows
  | @next path s t s'' f f' m start ends chosen goesOn ih =>
    obtain ⟨_, rfl⟩ := Generator.selected chosen
    rw [Path.indicesPush, Option.getD_some] at grows
    rw [Path.nextBranchPush, Generator.advanceSelected]
    rcases List.eq_nil_or_concat tail with rfl | ⟨tail, last, rfl⟩
    · obtain ⟨same, index⟩ := List.append_inj' grows rfl
      cases index
      obtain ⟨_, _, ended⟩ := blind.reachesUnique came ⟨_, start, ends⟩ same.symm
      cases ended
      have more : g.select? (k + 1) = some { g with cursor := some (k + 1) } :=
        if_pos (by omega)
      rw [more]
      refine ⟨_, rfl, ?_⟩
      rw [Path.indicesPush, same]
      exact Choices.siblingLe later
    · have shorter : path.indices = before.indices ++ k :: tail := by
        have ends : path.indices ++ [m] = (before.indices ++ k :: tail) ++ [last] := by
          rw [grows]
          simp
        exact (List.append_inj' ends rfl).1
      cases more : f.select? (m + 1) with
      | none => exact ih shorter
      | some f' =>
        refine ⟨_, rfl, le_of_lt ?_⟩
        obtain ⟨_, rfl⟩ := Generator.selected more
        rw [Path.indicesPush, shorter, List.append_assoc]
        exact Choices.branchLess later

end Explorer

end BytecodeChecker
