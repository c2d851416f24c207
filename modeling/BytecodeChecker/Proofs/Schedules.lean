import BytecodeChecker.Proofs.Commuting

/-! Schedules that switch threads anywhere, against those that do so only where a search does. A step
that stays inside its thread can be made first, whatever the schedule does before it. -/
namespace BytecodeChecker.Machine

variable {p : Program} {c t : ThreadId} {m n k : Machine}

inductive FreeRun (p : Program) (m : Machine) : Machine → Prop where
  | start : FreeRun p m m
  | step {k k' : Machine} {t : ThreadId} {r : Step} (before : FreeRun p m k)
      (runnable : k.isRunnable t = true) (ran : freeStep p t k = (k', .ok r)) : FreeRun p m k'

def follow? (p : Program) : List ThreadId → Machine → Option Machine
  | [], m => some m
  | t :: rest, m =>
    if m.isRunnable t then
      match freeStep p t m with
      | (m, .ok _) => follow? p rest m
      | (_, .error _) => none
    else none

theorem followRuns {schedule : List ThreadId} (h : follow? p schedule k = some n) (before : FreeRun p m k) :
    FreeRun p m n := by
  induction schedule generalizing k with
  | nil =>
    cases Option.some.inj h
    exact before
  | cons t rest ih =>
    unfold follow? at h
    split at h
    · rename_i runnable
      split at h
      · rename_i k' r ran
        exact ih h (.step before runnable ran)
      · cases h
    · cases h

def Deadlocked (m : Machine) : Prop :=
  m.runnable = [] ∧ ∃ t thread o, m.thread? t = some thread ∧ thread.status = .blocked o

inductive Tries (p : Program) : List ThreadId → Machine → Option Machine → Prop where
  | ends (m : Machine) : Tries p [] m (some m)
  | fails {t : ThreadId} {m : Machine} (rest : List ThreadId) (runnable : m.isRunnable t = true)
      (failed : Step.wentOn (freeStep p t m).2 = false) : Tries p (t :: rest) m none
  | goes {t : ThreadId} {rest : List ThreadId} {m : Machine} {r : Option Machine}
      (runnable : m.isRunnable t = true) (went : Step.wentOn (freeStep p t m).2 = true)
      (next : Tries p rest (freeStep p t m).1 r) : Tries p (t :: rest) m r

theorem Live.triesLive (plain : p.PlainFields) (live : m.Live) {schedule : List ThreadId}
    {r : Option Machine} (tries : Tries p schedule m r) : Option.Rel Renamed r r := by
  induction tries with
  | ends m => exact .some live.renamed
  | fails rest runnable failed => exact .none
  | goes runnable went next ih => exact ih (live.stepLive plain runnable went)

theorem Renamed.tries (plain : p.PlainFields) (same : m.Renamed n) {schedule : List ThreadId}
    {r : Option Machine} (tries : Tries p schedule n r) :
    ∃ r', Tries p schedule m r' ∧ Option.Rel Renamed r' r := by
  induction tries generalizing m with
  | ends n => exact ⟨some m, .ends m, .some same⟩
  | fails rest runnable failed =>
    rw [← same.runnable] at runnable
    have sane := (same.stepRenamed plain runnable).1
    exact ⟨none, .fails rest runnable (sane.trans failed), .none⟩
  | goes runnable went next ih =>
    rw [← same.runnable] at runnable
    obtain ⟨sane, onward⟩ := same.stepRenamed plain runnable
    obtain ⟨r', tries, ended⟩ := ih (onward (sane.trans went))
    exact ⟨r', .goes runnable (sane.trans went) tries, ended⟩

/- What a schedule does when a thread makes its next step first: the schedule does not need that step,
and then the thread is still to make it at the end, or the step is taken out of the schedule. -/
inductive Pulled (p : Program) (c : ThreadId) (m : Machine) (schedule : List ThreadId)
    (r : Option Machine) : Prop where
  | kept {r' : Option Machine} (tries : Tries p schedule (freeStep p c m).1 r')
      (failed : r = none → r' = none) (waits : ∀ k ∈ r, k.isRunnable c = true)
  | taken {rest : List ThreadId} {r' : Option Machine} (tries : Tries p rest (freeStep p c m).1 r')
      (same : Option.Rel Renamed r' r)

theorem Live.pull (plain : p.PlainFields) (live : m.Live) (runs : m.isRunnable c = true)
    (quiet : ∀ op, m.nextOp? p c = some op → op.isSchedulingRelevant = false)
    (went : Step.wentOn (freeStep p c m).2 = true) {schedule : List ThreadId} {r : Option Machine}
    (tries : Tries p schedule m r) : Pulled p c m schedule r := by
  induction tries with
  | ends m =>
    refine .kept (.ends _) nofun ?_
    rintro k ⟨⟩
    exact runs
  | @fails t m rest runnable failed =>
    by_cases here : c = t
    · subst here
      exact absurd (failed.symm.trans went) Bool.false_ne_true
    · have commutes := live.commutes plain here runs runnable quiet went
      exact .kept (.fails rest commutes.runnable (commutes.sane.trans failed)) (fun _ => rfl) nofun
  | @goes t rest m r runnable onward next ih =>
    by_cases here : c = t
    · subst here
      exact .taken next ((live.stepLive plain runnable onward).triesLive plain next)
    · have commutes := live.commutes plain here runs runnable quiet went
      have still := commutes.still onward
      have runs' : (freeStep p t m).1.isRunnable c = true := by
        unfold isRunnable
        rw [still]
        exact runs
      have quiet' : ∀ op, (freeStep p t m).1.nextOp? p c = some op → op.isSchedulingRelevant = false := by
        unfold nextOp?
        rw [still]
        exact quiet
      have live' := live.stepLive plain runnable onward
      -- the thread stands where it stood, so that the rest of the schedule can be pulled in the same way
      cases ih live' runs' quiet' (commutes.went onward) with
      | kept tries failed waits =>
        obtain ⟨r', tries', ended⟩ := (commutes.same onward).tries plain tries
        refine .kept (.goes commutes.runnable (commutes.sane.trans onward) tries') ?_ waits
        intro none
        rw [failed none] at ended
        cases ended
        rfl
      | taken tries same =>
        obtain ⟨r', tries', ended⟩ := (commutes.same onward).tries plain tries
        exact .taken (.goes commutes.runnable (commutes.sane.trans onward) tries')
          (relTrans ended same fun _ _ _ => Renamed.trans)

def Flagged (m : Machine) (t : ThreadId) : Prop :=
  ∃ thread, m.thread? t = some thread ∧ thread.firstStep = true

theorem stepUnasked (went : Step.wentOn (step p t m).2 = true) {op : Op} (next : m.nextOp? p t = some op)
    (relevant : op.isSchedulingRelevant = true) : m.Flagged t ∨ m.runnableCount ≤ 1 := by
  cases stepCase p t m with
  | stuck fault same => rw [same] at went; cases went
  | native found stack same => rw [same] at went; cases went
  | point found stack fetched relevant rested others same => rw [same] at went; cases went
  | @ran thread frame tag below op' found stack fetched free result =>
    have same : op' = op := by
      unfold nextOp? at next
      rw [found] at next
      simp only [Option.bind_some, stack] at next
      exact Option.some.inj (fetched.symm.trans next)
    subst same
    rcases free relevant with flag | alone
    · exact .inl ⟨thread, found, flag⟩
    · exact .inr alone

/- What a search sees of the runs of a machine in which a thread is running: the thread makes a step, or
it cannot go on and another one takes over, or every thread that can run is tried. An instruction that
other threads can observe is run only by a thread that was chosen for it or that is alone. -/
inductive Covered (p : Program) (done : Machine → Prop) : Machine → ThreadId → Prop where
  | completed {m : Machine} {c : ThreadId} (idle : m.runnable = []) (free : ¬ m.Deadlocked) (ended : done m) :
      Covered p done m c
  | switched {m : Machine} {c only : ThreadId} (alone : m.runnable = [only])
      (next : Covered p done (m.setFirstStep only true) only) : Covered p done m c
  | chosen {m : Machine} {c : ThreadId} (some : m.runnable ≠ [])
      (children : ∀ t ∈ m.runnable, Covered p done (m.clearFirstSteps.setFirstStep t true) t) :
      Covered p done m c
  | ran {m : Machine} {c : ThreadId} (runnable : m.isRunnable c = true)
      (went : Step.wentOn (freeStep p c m).2 = true)
      (free : ∀ op, m.nextOp? p c = some op → op.isSchedulingRelevant = true →
        m.Flagged c ∨ m.runnableCount ≤ 1)
      (next : Covered p done (freeStep p c m).1 c) : Covered p done m c

/- The machine is not in a deadlock, and if all its threads have ended, it is one of those expected. -/
structure Settled (done : Machine → Prop) (m : Machine) : Prop where
  free : ¬ m.Deadlocked
  ended : m.allTerminated = true → ∃ k, done k ∧ k.Renamed m

variable {done : Machine → Prop}

theorem memRunnable : t ∈ m.runnable ↔ m.isRunnable t = true := by
  unfold runnable isRunnable
  rw [whereMember]
  cases m.thread? t <;> simp

theorem settledRunnable (runs : m.isRunnable t = true) : Settled done m where
  free := by
    rintro ⟨idle, _⟩
    have member := memRunnable.mpr runs
    rw [idle] at member
    cases member
  ended := by
    intro all
    obtain ⟨thread, found, status⟩ := runnableThread runs
    have ended := Array.all_eq_true_iff_forall_mem.mp all thread (Array.mem_of_getElem? found)
    simp [status] at ended

theorem runnableAlone (alone : m.runnableCount ≤ 1) (left : m.isRunnable c = true)
    (right : m.isRunnable t = true) : c = t := by
  rw [← runnableLength] at alone
  have left' := memRunnable.mpr left
  have right' := memRunnable.mpr right
  revert left' right' alone
  generalize m.runnable = list
  intro alone left' right'
  match list, alone with
  | [only], _ => exact (List.mem_singleton.mp left').trans (List.mem_singleton.mp right').symm

theorem restedStep (runs : m.isRunnable c = true) (went : Step.wentOn (freeStep p c m).2 = true) :
    ¬ (freeStep p c m).1.Flagged c := by
  obtain ⟨thread, found, _⟩ := runnableThread runs
  rcases freeStepCases (p := p) found with ⟨u, works, ran⟩ | ⟨_, failed, _⟩
  · rintro ⟨thread', found', flag⟩
    rw [ran] at found'
    have own := Upshot.installThread (threadInside found) u c
    rw [if_pos rfl] at own
    cases own.symm.trans found'
    have rested := GuestThread.upshotRested works
    unfold GuestThread.wake at flag
    split at flag
    · exact absurd (rested.symm.trans flag) Bool.false_ne_true
    · split at flag <;> exact absurd (rested.symm.trans flag) Bool.false_ne_true
  · exact absurd (failed.symm.trans went) Bool.false_ne_true

theorem Renamed.reflagged {m' : Machine} (same : m.Renamed n) (heap : m'.heap = m.heap)
    (threads : ∀ t, ∃ flag : GuestThread → Bool,
      m'.thread? t = (m.thread? t).map fun thread => { thread with firstStep := flag thread }) :
    m'.Renamed n := by
  obtain ⟨pairs, onto, machines⟩ := same
  refine ⟨pairs, ?_, ?_, ?_⟩
  · rwa [heap]
  · rw [heap]
    exact machines.heap
  · intro t
    obtain ⟨flag, found⟩ := threads t
    rw [found, ← Option.map_id' (x := n.thread? t)]
    exact relMap (machines.threads t) fun thread thread' same => same.flagged (flag thread) thread'.firstStep

theorem Renamed.flagged (same : m.Renamed n) (t : ThreadId) (flag : Bool) :
    (m.setFirstStep t flag).Renamed n := by
  unfold setFirstStep modifyThread
  cases found : m.thread? t with
  | none => exact same
  | some thread =>
    refine same.reflagged rfl fun j => ⟨fun thread => if t = j then flag else thread.firstStep, ?_⟩
    rw [threadSet (threadInside found)]
    by_cases here : t = j
    · subst here
      rw [if_pos rfl, found]
      simp
    · simp [here]

theorem Renamed.cleared (same : m.Renamed n) : m.clearFirstSteps.Renamed n :=
  same.reflagged rfl fun _ => ⟨fun _ => false, Array.getElem?_map ..⟩

theorem Renamed.deadlocked (same : m.Renamed n) (stuck : n.Deadlocked) : m.Deadlocked := by
  obtain ⟨idle, t, thread, o, found, status⟩ := stuck
  refine ⟨?_, ?_⟩
  · refine List.eq_nil_iff_forall_not_mem.mpr fun t member => ?_
    have runs := memRunnable.mp member
    rw [same.runnable] at runs
    have member' := memRunnable.mpr runs
    rw [idle] at member'
    cases member'
  · obtain ⟨pairs, _, machines⟩ := same
    rcases relCases (machines.threads t) with
      ⟨_, none⟩ | ⟨⟨name, status', stack, flag⟩, _, found', there, threads⟩
    · cases none.symm.trans found
    · cases there.symm.trans found
      have statuses := threads.status
      rw [status] at statuses
      cases statuses
      exact ⟨t, _, _, found', rfl⟩

theorem Renamed.terminated (same : m.Renamed n) (all : n.allTerminated = true) : m.allTerminated = true := by
  obtain ⟨pairs, _, machines⟩ := same
  refine Array.all_eq_true_iff_forall_mem.mpr fun thread member => ?_
  obtain ⟨i, inside, rfl⟩ := Array.mem_iff_getElem.mp member
  have found : m.thread? ⟨i⟩ = some m.threads[i] := Array.getElem?_eq_getElem inside
  obtain ⟨thread', found', threads⟩ := machines.thread found
  have ended := Array.all_eq_true_iff_forall_mem.mp all thread' (Array.mem_of_getElem? found')
  have status : thread'.status = .terminated := by simpa using ended
  have statuses := threads.status
  rw [status] at statuses
  generalize m.threads[i].status = status at statuses
  cases statuses
  rfl

theorem Settled.renamed (settled : Settled done m) (same : m.Renamed n) : Settled done n where
  free stuck := settled.free (same.deadlocked stuck)
  ended all := by
    obtain ⟨k, ended, renamed⟩ := settled.ended (same.terminated all)
    exact ⟨k, ended, renamed.trans same⟩

theorem Renamed.nextOp (same : m.Renamed n) (t : ThreadId) : m.nextOp? p t = n.nextOp? p t := by
  obtain ⟨pairs, _, machines⟩ := same
  unfold nextOp?
  rcases relCases (machines.threads t) with ⟨left, right⟩ | ⟨thread, thread', left, right, same⟩
  · rw [left, right]
  · rw [left, right]
    obtain ⟨name, status, stack, flag⟩ := thread
    obtain ⟨name', status', stack', flag'⟩ := thread'
    cases same.stack with
    | nil => rfl
    | cons top rest =>
      cases top with
      | @bytecode f f' frame tag =>
        show p.op? f.method f.pc = p.op? f'.method f'.pc
        rw [frame.method, frame.pc]
      | native call => rfl

theorem Tries.runs {rest : List ThreadId} {r : Option Machine} (tries : Tries p (t :: rest) m r) :
    m.isRunnable t = true := by
  cases tries with
  | fails rest runnable failed => exact runnable
  | goes runnable went next => exact runnable

theorem Tries.unstarted {r : Option Machine} (tries : Tries p [] m r) (runs : m.isRunnable t = true) :
    ∃ k, r = some k ∧ Settled done k := by
  cases tries
  exact ⟨m, rfl, settledRunnable runs⟩

theorem Live.settlesFirst (plain : p.PlainFields) (live : m.Live) (runs : m.isRunnable c = true)
    (quiet : ∀ op, m.nextOp? p c = some op → op.isSchedulingRelevant = false)
    (went : Step.wentOn (freeStep p c m).2 = true)
    (next : ∀ {schedule r}, Tries p schedule (freeStep p c m).1 r → ∃ k, r = some k ∧ Settled done k)
    {schedule : List ThreadId} {r : Option Machine} (tries : Tries p schedule m r) :
    ∃ k, r = some k ∧ Settled done k := by
  cases live.pull plain runs quiet went tries with
  | kept tries failed waits =>
    obtain ⟨k', ended, _⟩ := next tries
    cases r with
    | none => cases (failed rfl).symm.trans ended
    | some k => exact ⟨k, rfl, settledRunnable (waits k rfl)⟩
  | taken tries renamed =>
    obtain ⟨k', rfl, settled⟩ := next tries
    cases renamed with
    | some renamed => exact ⟨_, rfl, settled.renamed renamed⟩

/- The schedules that a covered machine answers for: if the running thread was chosen for an
instruction that others can observe, that instruction comes first. -/
def Admits (p : Program) (m : Machine) (c : ThreadId) (schedule : List ThreadId) : Prop :=
  m.Flagged c → ∀ op, m.nextOp? p c = some op → op.isSchedulingRelevant = true →
    ∀ t ∈ schedule.head?, t = c

theorem Covered.settles (plain : p.PlainFields) (covered : Covered p done m c) {n : Machine}
    (same : m.Renamed n) (live : n.Live) {schedule : List ThreadId} (admits : Admits p m c schedule)
    {r : Option Machine} (tries : Tries p schedule n r) : ∃ k, r = some k ∧ Settled done k := by
  induction covered generalizing n schedule r with
  | completed idle free ended =>
    cases schedule with
    | nil =>
      cases tries
      exact ⟨n, rfl, fun stuck => free (same.deadlocked stuck), fun _ => ⟨_, ended, same⟩⟩
    | cons t rest =>
      have runs := tries.runs
      rw [← same.runnable, ← memRunnable, idle] at runs
      cases runs
  | @switched m c only alone next ih =>
    have runs : n.isRunnable only = true := by
      rw [← same.runnable, ← memRunnable, alone]
      exact List.mem_singleton_self only
    cases schedule with
    | nil => exact tries.unstarted runs
    | cons t rest =>
      have only' := tries.runs
      rw [← same.runnable, ← memRunnable, alone, List.mem_singleton] at only'
      refine ih (same.flagged only true) live ?_ tries
      rintro _ op _ _ t' ⟨⟩
      exact only'
  | chosen some children ih =>
    cases schedule with
    | nil =>
      obtain ⟨t, member⟩ := List.exists_mem_of_ne_nil _ some
      rw [memRunnable, same.runnable] at member
      exact tries.unstarted member
    | cons t rest =>
      have member := tries.runs
      rw [← same.runnable, ← memRunnable] at member
      refine ih t member (same.cleared.flagged t true) live ?_ tries
      rintro _ op _ _ t' ⟨⟩
      rfl
  | @ran m c runnable went free next ih =>
    obtain ⟨sane, onward⟩ := same.stepRenamed plain runnable
    have onward := onward went
    have went' := sane.symm.trans went
    have runs : n.isRunnable c = true := same.runnable c ▸ runnable
    have live' := live.stepLive plain runs went'
    have open_ : ∀ schedule, Admits p (freeStep p c m).1 c schedule :=
      fun _ flagged => absurd flagged (restedStep runnable went)
    -- an instruction that others cannot observe is pulled to the front of the schedule; any other one
    -- is at the front already, as the thread was chosen for it or no other thread can run
    by_cases quiet : ∀ op, m.nextOp? p c = some op → op.isSchedulingRelevant = false
    · rw [same.nextOp] at quiet
      exact live.settlesFirst plain runs quiet went' (fun tries => ih onward live' (open_ _) tries)
        tries
    · simp only [not_forall, Bool.not_eq_false] at quiet
      obtain ⟨op, next', relevant⟩ := quiet
      cases schedule with
      | nil => exact tries.unstarted runs
      | cons t rest =>
        have first : t = c := by
          rcases free op next' relevant with flagged | alone
          · exact admits flagged op next' relevant t rfl
          · exact runnableAlone alone ((same.runnable t).trans tries.runs) runnable
        subst first
        cases tries with
        | fails rest runnable failed => exact absurd (failed.symm.trans went') Bool.false_ne_true
        | goes runnable went next => exact ih onward live' (open_ _) next

theorem Tries.goesBehind (safe : ∀ schedule r, Tries p schedule m r → ∃ k, r = some k)
    {schedule : List ThreadId} (onward : ∀ rest r, Tries p rest k r → Tries p (schedule ++ rest) m r)
    (runs : k.isRunnable t = true) : Step.wentOn (freeStep p t k).2 = true := by
  cases went : Step.wentOn (freeStep p t k).2 with
  | true => rfl
  | false =>
    obtain ⟨_, ended⟩ := safe _ _ (onward [t] none (.fails [] runs went))
    cases ended

theorem FreeRun.schedule (safe : ∀ schedule r, Tries p schedule m r → ∃ k, r = some k)
    (run : FreeRun p m k) : ∃ schedule, ∀ rest r, Tries p rest k r → Tries p (schedule ++ rest) m r := by
  induction run with
  | start => exact ⟨[], fun _ _ tries => tries⟩
  | @step k k' t r before runnable ran ih =>
    obtain ⟨schedule, onward⟩ := ih
    have went := Tries.goesBehind safe onward runnable
    refine ⟨schedule ++ [t], fun rest r tries => ?_⟩
    rw [List.append_assoc]
    exact onward (t :: rest) r (.goes runnable went (by rwa [ran]))

theorem Covered.freeRuns (interpreted : p.Interpreted) (live : m.Live) (covered : Covered p done m c)
    (rested : ¬ m.Flagged c) (run : FreeRun p m k) :
    (∀ t, k.isRunnable t = true → Step.wentOn (freeStep p t k).2 = true) ∧ Settled done k := by
  have settles : ∀ schedule r, Tries p schedule m r → ∃ k, r = some k ∧ Settled done k :=
    fun schedule r tries => covered.settles interpreted.plain live.renamed live
      (fun flagged => absurd flagged rested) tries
  have safe : ∀ schedule r, Tries p schedule m r → ∃ k, r = some k := by
    intro schedule r tries
    obtain ⟨k, ended, _⟩ := settles schedule r tries
    exact ⟨k, ended⟩
  obtain ⟨schedule, onward⟩ := run.schedule safe
  refine ⟨fun t runs => Tries.goesBehind safe onward runs, ?_⟩
  obtain ⟨k', ended, settled⟩ := settles _ _ (onward [] (some k) (.ends k))
  cases ended
  exact settled

end BytecodeChecker.Machine
