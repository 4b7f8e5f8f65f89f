import NotVK.App.AsyncOperation

/-!
# The order of the states of a GetDataOperation

`start()` assigns `.executing` after `main()` has returned, while the completion
block and `cancel()` assign `.finished` whenever they get there.  This module
shows what follows for the field `state` over all interleavings.

The invariant of a run mentions the actions taken so far: as long as `start()`
has not returned, an assignment of `.finished` by the block or by a canceller
leaves `state` at `.finished`.  The assignment of `.executing` is then the only
step that can move the field backwards, and it does so exactly when such an
assignment came before it.
-/

namespace NotVK
namespace Operations

open Runs Networking

section OperationState

/-- What each enabled action does, guards included. -/
inductive Moves (s : Config) : Action → Config → Prop
  | readIsCancelled
      (hstart : s.start = .notStarted) :
      Moves s .readIsCancelled
        { s with
          start := if s.op.isCancelled then .sawCancelled else .enteredMain }
  | startAssignsFinished
      (hstart : s.start = .sawCancelled) :
      Moves s .startAssignsFinished
        { s.setState .finished with start := .returned }
  | createTask
      (hstart : s.start = .enteredMain) :
      Moves s .createTask
        { s with
          op := { s.op with task := some .suspended }
          start := .taskCreated }
  | resumeTask
      (hstart : s.start = .taskCreated) :
      Moves s .resumeTask
        { s with
          op := { s.op with task := s.op.task.map TaskPhase.resume }
          start := .leftMain }
  | startAssignsExecuting
      (hstart : s.start = .leftMain) :
      Moves s .startAssignsExecuting
        { s.setState .executing with start := .returned }
  | deliver
      (result : TaskResult)
      (hcan : s.canDeliver = true) :
      Moves s (.deliver result)
        { s with block := .queued result }
  | blockAssignsData
      (result : TaskResult) (d : Data)
      (hblock : s.block = .queued result)
      (hpayload : payload result = some d) :
      Moves s .blockAssignsData
        { s with
          op := { s.op with data := some d }
          block := .dataAssigned result }
  | blockAssignsFinished
      (result : TaskResult)
      (hblock :
        (s.block = .queued result ∧ payload result = none) ∨
        s.block = .dataAssigned result) :
      Moves s .blockAssignsFinished
        { s.setState .finished with block := .done result }
  | cancelTask :
      Moves s .cancelTask
        { s with
          op := { s.op with task := s.op.task.map (fun _ => .cancelled) }
          cancelsPastTask := s.cancelsPastTask + 1 }
  | cancelFlag
      (n : Nat)
      (hpast : s.cancelsPastTask = n + 1) :
      Moves s .cancelFlag
        { s with
          op := { s.op with toAsyncOperation := s.op.superCancel }
          cancelsPastTask := n
          cancelsPastFlag := s.cancelsPastFlag + 1 }
  | cancelAssignsFinished
      (n : Nat)
      (hpast : s.cancelsPastFlag = n + 1) :
      Moves s .cancelAssignsFinished
        { s.setState .finished with cancelsPastFlag := n }

theorem startStep_moves
    {s t : Config} {a : Action}
    (h : startStep s a = some t) :
    Moves s a t := by
  cases a <;> simp only [startStep, reduceCtorEq] at h
  all_goals
    split at h
    · cases h
      constructor
      assumption
    · cases h

theorem blockStep_moves
    {s t : Config} {a : Action}
    (h : blockStep s a = some t) :
    Moves s a t := by
  cases a with
  | deliver result =>
      simp only [blockStep] at h
      split at h
      · cases h
        exact .deliver result ‹_›
      · cases h
  | blockAssignsData =>
      simp only [blockStep] at h
      split at h
      · split at h
        · cases h
          exact .blockAssignsData _ _ ‹_› ‹_›
        · cases h
      · cases h
  | blockAssignsFinished =>
      simp only [blockStep] at h
      split at h
      · split at h
        · cases h
        · cases h
          exact .blockAssignsFinished _ (Or.inl ⟨‹_›, ‹_›⟩)
      · cases h
        exact .blockAssignsFinished _ (Or.inr ‹_›)
      · cases h
  | _ =>
      simp [blockStep] at h

theorem cancelStep_moves
    {s t : Config} {a : Action}
    (h : cancelStep s a = some t) :
    Moves s a t := by
  cases a with
  | cancelTask =>
      cases h
      exact .cancelTask
  | cancelFlag =>
      simp only [cancelStep] at h
      split at h
      · cases h
      · cases h
        exact .cancelFlag _ ‹_›
  | cancelAssignsFinished =>
      simp only [cancelStep] at h
      split at h
      · cases h
      · cases h
        exact .cancelAssignsFinished _ ‹_›
  | _ =>
      simp [cancelStep] at h

/-- Inversion of one step. -/
theorem step_moves
    {s t : Config} {a : Action}
    (h : step s a = some t) :
    Moves s a t := by
  cases a with
  | readIsCancelled => exact startStep_moves h
  | startAssignsFinished => exact startStep_moves h
  | createTask => exact startStep_moves h
  | resumeTask => exact startStep_moves h
  | startAssignsExecuting => exact startStep_moves h
  | deliver result => exact blockStep_moves h
  | blockAssignsData => exact blockStep_moves h
  | blockAssignsFinished => exact blockStep_moves h
  | cancelTask => exact cancelStep_moves h
  | cancelFlag => exact cancelStep_moves h
  | cancelAssignsFinished => exact cancelStep_moves h

/-- The completion block or a canceller assigns `.finished`. -/
def Action.finishes : Action → Bool
  | .blockAssignsFinished => true
  | .cancelAssignsFinished => true
  | _ => false

/-- The step does not take `state` backwards. -/
def MovesForward (s : Config) (_ : Action) (t : Config) : Prop :=
  s.op.state.rank ≤ t.op.state.rank

/-- The block of the task has run to its end. -/
def Config.blockHasRun (s : Config) : Bool :=
  match s.block with
  | .done _ => true
  | _ => false

/-- `isReady` of an operation whose only dependency is this one. -/
def Config.dependentIsReady (s : Config) (dependent : AsyncOperation) : Bool :=
  dependent.isReady s.op.isFinished

/--
The schedule assigns `.executing` before the block or a canceller assigns
`.finished`.
-/
def ExecutingBeforeFinished (as : List Action) : Prop :=
  ∀ pre post : List Action,
    as = pre ++ .startAssignsExecuting :: post →
    ∀ a ∈ pre, a.finishes = false

theorem ExecutingBeforeFinished.prefix
    {as bs : List Action}
    (h : ExecutingBeforeFinished (as ++ bs)) :
    ExecutingBeforeFinished as := by
  intro pre post has a ha
  refine h pre (post ++ bs) ?_ a ha
  rw [has]
  simp

/-- Invariant of `state` along the schedule `pre` that led to `s`. -/
structure StateHistory (pre : List Action) (s : Config) : Prop where
  executing_returned :
    s.op.state = .executing → s.start = .returned
  finished_until_returned :
    s.start ≠ .returned →
    (∃ a ∈ pre, a.finishes = true) →
    s.op.state = .finished
  finished_of_ordered :
    ExecutingBeforeFinished pre →
    (∃ a ∈ pre, a.finishes = true) →
    s.op.state = .finished
  finisher_exists :
    s.start ≠ .returned →
    s.op.state = .finished →
    ∃ a ∈ pre, a.finishes = true
  block_finished :
    s.blockHasRun = true →
    ∃ a ∈ pre, a.finishes = true

theorem stateHistory_initial :
    StateHistory [] Config.initial where
  executing_returned h := by
    cases h
  finished_until_returned _ h := by
    simp at h
  finished_of_ordered _ h := by
    simp at h
  finisher_exists _ h := by
    cases h
  block_finished h := by
    cases h

/-- A step that assigns `.finished` keeps the invariant. -/
theorem stateHistory_of_finished
    {pre : List Action} {s t : Config} {a : Action}
    (h : StateHistory pre s)
    (hstate : t.op.state = .finished)
    (ha : a.finishes = true ∨ t.start = .returned ∧ t.block = s.block) :
    StateHistory (pre ++ [a]) t where
  executing_returned he := by
    rw [hstate] at he
    cases he
  finished_until_returned _ _ := hstate
  finished_of_ordered _ _ := hstate
  finisher_exists hne _ := by
    rcases ha with ha | ⟨hret, _⟩
    · exact ⟨a, by simp, ha⟩
    · exact absurd hret hne
  block_finished hb := by
    rcases ha with ha | ⟨_, hblock⟩
    · exact ⟨a, by simp, ha⟩
    · have hs : s.blockHasRun = true := by
        simpa [Config.blockHasRun, hblock] using hb
      obtain ⟨b, hb, hfin⟩ := h.block_finished hs
      exact ⟨b, List.mem_append_left _ hb, hfin⟩

theorem exists_finishes_snoc
    {pre : List Action} {a : Action}
    (ha : a.finishes = false) :
    (∃ b ∈ pre ++ [a], b.finishes = true)
      ↔
    ∃ b ∈ pre, b.finishes = true := by
  simp only [List.mem_append, List.mem_singleton]
  constructor
  · rintro ⟨b, hb | rfl, hfin⟩
    · exact ⟨b, hb, hfin⟩
    · rw [ha] at hfin
      cases hfin
  · rintro ⟨b, hb, hfin⟩
    exact ⟨b, Or.inl hb, hfin⟩

/-- A step that leaves `state` alone keeps the invariant. -/
theorem stateHistory_of_unchanged
    {pre : List Action} {s t : Config} {a : Action}
    (h : StateHistory pre s)
    (ha : a.finishes = false)
    (hstate : t.op.state = s.op.state)
    (hstart : t.start = .returned ↔ s.start = .returned)
    (hblock : t.blockHasRun = true → s.blockHasRun = true) :
    StateHistory (pre ++ [a]) t where
  executing_returned he := by
    rw [hstate] at he
    exact hstart.mpr (h.executing_returned he)
  finished_until_returned hne hfin := by
    rw [hstate]
    have hne' : s.start ≠ .returned := fun hs => hne (hstart.mpr hs)
    exact h.finished_until_returned hne'
      ((exists_finishes_snoc ha).mp hfin)
  finished_of_ordered hord hfin := by
    rw [hstate]
    exact h.finished_of_ordered hord.prefix
      ((exists_finishes_snoc ha).mp hfin)
  finisher_exists hne hfin := by
    rw [hstate] at hfin
    have hne' : s.start ≠ .returned := fun hs => hne (hstart.mpr hs)
    exact (exists_finishes_snoc ha).mpr (h.finisher_exists hne' hfin)
  block_finished hb :=
    (exists_finishes_snoc ha).mpr (h.block_finished (hblock hb))

/-- The late assignment of `.executing` keeps the invariant. -/
theorem stateHistory_of_executing
    {pre : List Action} {s : Config}
    (h : StateHistory pre s) :
    StateHistory (pre ++ [.startAssignsExecuting])
      { s.setState .executing with start := .returned } where
  executing_returned _ := rfl
  finished_until_returned hne _ := absurd rfl hne
  finished_of_ordered hord hfin := by
    obtain ⟨a, ha, hfin⟩ :=
      (exists_finishes_snoc (a := .startAssignsExecuting) rfl).mp hfin
    have hnone := hord pre [] rfl a ha
    rw [hfin] at hnone
    cases hnone
  finisher_exists hne _ := absurd rfl hne
  block_finished hb :=
    (exists_finishes_snoc rfl).mpr (h.block_finished hb)

/-- One step keeps the invariant. -/
theorem stateHistory_step
    (pre : List Action) (s : Config) (a : Action) (t : Config)
    (h : StateHistory pre s)
    (hstep : step s a = some t) :
    StateHistory (pre ++ [a]) t := by
  cases step_moves hstep with
  | readIsCancelled hstart =>
      refine stateHistory_of_unchanged h rfl rfl ?_ id
      simp only [hstart]
      split <;> simp
  | startAssignsFinished hstart =>
      exact stateHistory_of_finished h rfl (Or.inr ⟨rfl, rfl⟩)
  | createTask hstart =>
      exact stateHistory_of_unchanged h rfl rfl (by simp [hstart]) id
  | resumeTask hstart =>
      exact stateHistory_of_unchanged h rfl rfl (by simp [hstart]) id
  | startAssignsExecuting hstart =>
      exact stateHistory_of_executing h
  | deliver result hcan =>
      exact stateHistory_of_unchanged h rfl rfl Iff.rfl
        (fun hb => by cases hb)
  | blockAssignsData result d hblock hpayload =>
      exact stateHistory_of_unchanged h rfl rfl Iff.rfl
        (fun hb => by cases hb)
  | blockAssignsFinished result hblock =>
      exact stateHistory_of_finished h rfl (Or.inl rfl)
  | cancelTask =>
      exact stateHistory_of_unchanged h rfl rfl Iff.rfl id
  | cancelFlag n hpast =>
      exact stateHistory_of_unchanged h rfl (by simp) Iff.rfl id
  | cancelAssignsFinished n hpast =>
      exact stateHistory_of_finished h rfl (Or.inl rfl)

/-- The invariant holds along every run from the initial configuration. -/
theorem stateHistory_run
    {as : List Action} {t : Config}
    (hrun : run step Config.initial as = some t) :
    StateHistory as t := by
  have h := run_history stateHistory_step stateHistory_initial hrun
  simpa using h

/-- Only the assignment of `.executing` can take `state` backwards. -/
theorem movesForward_of_ne_executing
    {s t : Config} {a : Action}
    (hstep : step s a = some t)
    (ha : a ≠ .startAssignsExecuting) :
    MovesForward s a t := by
  cases step_moves hstep with
  | startAssignsExecuting hstart => exact absurd rfl ha
  | startAssignsFinished hstart => exact s.op.state.rank_le_finished
  | blockAssignsFinished result hblock => exact s.op.state.rank_le_finished
  | cancelAssignsFinished n hpast => exact s.op.state.rank_le_finished
  | cancelFlag n hpast => simp [MovesForward]
  | _ => exact Nat.le_refl _

/-- The assignment of `.executing` goes backwards exactly from `.finished`. -/
theorem movesForward_executing_iff
    {s t : Config}
    (hstep : step s .startAssignsExecuting = some t) :
    MovesForward s .startAssignsExecuting t
      ↔
    s.op.state ≠ .finished := by
  cases step_moves hstep with
  | startAssignsExecuting hstart =>
      unfold MovesForward Config.setState
      cases s.op.state <;> simp [State.rank]

theorem start_leftMain_of_executing
    {s t : Config}
    (hstep : step s .startAssignsExecuting = some t) :
    s.start = .leftMain := by
  cases step_moves hstep with
  | startAssignsExecuting hstart => exact hstart

/-- Before it returns, `start()` sees `.finished` exactly after a finisher. -/
theorem state_ne_finished_iff
    {pre : List Action} {s : Config}
    (hrun : run step Config.initial pre = some s)
    (hstart : s.start ≠ .returned) :
    s.op.state ≠ .finished
      ↔
    ∀ a ∈ pre, a.finishes = false := by
  have h := stateHistory_run hrun
  constructor
  · intro hne a ha
    by_contra hfin
    apply hne
    exact h.finished_until_returned hstart ⟨a, ha, by simpa using hfin⟩
  · intro hnone hfin
    obtain ⟨a, ha, htrue⟩ := h.finisher_exists hstart hfin
    rw [hnone a ha] at htrue
    cases htrue

/-- Over a run, `state` moves forward exactly under ordered schedules. -/
theorem everyStep_movesForward_iff
    {as : List Action} {t : Config}
    (hrun : run step Config.initial as = some t) :
    EveryStep step MovesForward Config.initial as
      ↔
    ExecutingBeforeFinished as := by
  constructor
  · intro hforward pre post has
    subst has
    obtain ⟨s, hpre, hrest⟩ := run_append_some.mp hrun
    obtain ⟨u, hstep, _⟩ := run_cons_some.mp hrest
    have hmove := hforward.at_split hpre hstep
    have hleft := start_leftMain_of_executing hstep
    exact (state_ne_finished_iff hpre (by simp [hleft])).mp
      ((movesForward_executing_iff hstep).mp hmove)
  · intro hord
    apply everyStep_of_split
    intro pre a post s u has hpre hstep
    by_cases ha : a = .startAssignsExecuting
    · subst ha
      have hleft := start_leftMain_of_executing hstep
      apply (movesForward_executing_iff hstep).mpr
      exact (state_ne_finished_iff hpre (by simp [hleft])).mpr
        (hord pre post has)
    · exact movesForward_of_ne_executing hstep ha

/--
What the queue needs of a run: `state` only moves forward, and once `start()`
has returned and the block has run, the operation is finished and a waiting
dependent is ready.
-/
def RunsInOrder (as : List Action) (t : Config) : Prop :=
  EveryStep step MovesForward Config.initial as ∧
  (t.start = .returned →
    t.blockHasRun = true →
    t.op.isFinished = true ∧
    ∀ dependent : AsyncOperation,
      dependent.state = .ready →
      t.dependentIsReady dependent = true)

/--
**A run keeps the order of the states exactly when `start()` assigns
`.executing` before the block or a canceller assigns `.finished`.**
-/
theorem runsInOrder_iff
    {as : List Action} {t : Config}
    (hrun : run step Config.initial as = some t) :
    RunsInOrder as t ↔ ExecutingBeforeFinished as := by
  constructor
  · intro h
    exact (everyStep_movesForward_iff hrun).mp h.1
  · intro hord
    refine ⟨(everyStep_movesForward_iff hrun).mpr hord, ?_⟩
    intro _ hblock
    have h := stateHistory_run hrun
    have hstate : t.op.state = .finished :=
      h.finished_of_ordered hord (h.block_finished hblock)
    refine ⟨by simp [hstate], ?_⟩
    intro dependent hready
    simp [Config.dependentIsReady, AsyncOperation.isReady,
      AsyncOperation.isFinished, hstate, hready]

/-- A schedule in which the response arrives after `start()` has returned. -/
def slowResponse : List Action :=
  [.readIsCancelled, .createTask, .resumeTask, .startAssignsExecuting,
    .deliver ⟨some [], none⟩, .blockAssignsData, .blockAssignsFinished]

theorem runsInOrder_iff_slowResponse :
    ∃ t, run step Config.initial slowResponse = some t ∧
      (RunsInOrder slowResponse t ↔ ExecutingBeforeFinished slowResponse) :=
  ⟨_, rfl, runsInOrder_iff rfl⟩

/-- A schedule in which the whole block runs before `start()` assigns. -/
def fastResponse : List Action :=
  [.readIsCancelled, .createTask, .resumeTask,
    .deliver ⟨some [], none⟩, .blockAssignsData, .blockAssignsFinished,
    .startAssignsExecuting]

/-- After a fast response the operation is executing for ever. -/
theorem fastResponse_not_in_order :
    ∃ t, run step Config.initial fastResponse = some t ∧
      t.start = .returned ∧ t.blockHasRun = true ∧
      t.op.isFinished = false ∧
      ¬ RunsInOrder fastResponse t := by
  refine ⟨_, rfl, rfl, rfl, rfl, ?_⟩
  rintro ⟨_, hsettled⟩
  have h := (hsettled rfl rfl).1
  cases h

end OperationState

end Operations
end NotVK
