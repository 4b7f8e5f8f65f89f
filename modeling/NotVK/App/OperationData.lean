import NotVK.App.OperationState

/-!
# The data of a GetDataOperation

The completion block is the only writer of `data`, and it runs once.  Whatever
`data` holds is therefore the payload of the one response that the task
delivered, in every interleaving and with any number of cancellations.

An operation that is finished has no more data to come, unless a call of
`cancel()` finished it: `FinishHistory` is the invariant that says so.
-/

namespace NotVK
namespace Operations

open Runs Networking

section OperationData

/-- The result that the task has handed to the completion block. -/
def Config.response (s : Config) : Option TaskResult :=
  match s.block with
  | .notDelivered => none
  | .queued result => some result
  | .dataAssigned result => some result
  | .done result => some result

/-- `data` is the payload of the response. -/
def DataFromResponse (s : Config) : Prop :=
  ∀ d, s.op.data = some d →
    ∃ result, s.response = some result ∧ payload result = some d

theorem dataFromResponse_initial :
    DataFromResponse Config.initial := by
  intro d hd
  cases hd

theorem notDelivered_of_canDeliver
    {s : Config} (h : s.canDeliver = true) :
    s.block = .notDelivered := by
  simp only [Config.canDeliver, Bool.and_eq_true, beq_iff_eq] at h
  exact h.1

/-- A task delivers once, so the response stays what it is. -/
theorem response_step
    {s t : Config} {a : Action} {result : TaskResult}
    (hresponse : s.response = some result)
    (hstep : step s a = some t) :
    t.response = some result := by
  cases step_moves hstep with
  | deliver result' hcan =>
      have hblock := notDelivered_of_canDeliver hcan
      simp [Config.response, hblock] at hresponse
  | blockAssignsData result' d hblock hpayload =>
      simpa [Config.response, hblock] using hresponse
  | blockAssignsFinished result' hblock =>
      rcases hblock with ⟨hblock, _⟩ | hblock <;>
        simpa [Config.response, hblock, Config.setState] using hresponse
  | _ =>
      simpa [Config.response, Config.setState] using hresponse

/-- Every step but the block's assignment leaves `data` alone. -/
theorem data_step
    {s t : Config} {a : Action} {d : Data}
    (hstep : step s a = some t)
    (hdata : t.op.data = some d) :
    s.op.data = some d ∨
    ∃ result, t.response = some result ∧ payload result = some d := by
  cases step_moves hstep with
  | blockAssignsData result d' hblock hpayload =>
      cases hdata
      exact Or.inr ⟨result, rfl, hpayload⟩
  | _ =>
      exact Or.inl hdata

theorem dataFromResponse_step
    {s t : Config} {a : Action}
    (h : DataFromResponse s)
    (hstep : step s a = some t) :
    DataFromResponse t := by
  intro d hd
  rcases data_step hstep hd with hold | hnew
  · obtain ⟨result, hresponse, hpayload⟩ := h d hold
    exact ⟨result, response_step hresponse hstep, hpayload⟩
  · exact hnew

/-- Every action but the block's assignment leaves `data` alone. -/
theorem data_eq_of_ne
    {s t : Config} {a : Action}
    (hne : a ≠ .blockAssignsData)
    (hstep : step s a = some t) :
    t.op.data = s.op.data := by
  cases step_moves hstep with
  | blockAssignsData result d hblock hpayload =>
      exact absurd rfl hne
  | _ =>
      rfl

/-- What the block has stored so far. -/
def Config.stored (s : Config) : Option Data :=
  match s.block with
  | .notDelivered => none
  | .queued _ => none
  | .dataAssigned result => payload result
  | .done result => payload result

theorem stored_step
    {s t : Config} {a : Action}
    (h : s.op.data = s.stored)
    (hstep : step s a = some t) :
    t.op.data = t.stored := by
  cases step_moves hstep with
  | deliver result hcan =>
      have hblock := notDelivered_of_canDeliver hcan
      simpa [Config.stored, hblock] using h
  | blockAssignsData result d hblock hpayload =>
      exact hpayload.symm
  | blockAssignsFinished result hblock =>
      rcases hblock with ⟨hblock, hpayload⟩ | hblock
      · simpa [Config.stored, hblock, hpayload, Config.setState] using h
      · simpa [Config.stored, hblock, Config.setState] using h
  | _ =>
      exact h

theorem stored_run
    {s : Config} {as : List Action}
    (hrun : run step Config.initial as = some s) :
    s.op.data = s.stored :=
  run_invariant (fun _ _ _ => stored_step) rfl hrun

/-- The block stores once: before it there is no data, and then there is some. -/
theorem data_blockAssignsData
    {s t : Config}
    (h : s.op.data = s.stored)
    (hstep : step s .blockAssignsData = some t) :
    s.op.data = none ∧ t.op.data ≠ none := by
  cases step_moves hstep with
  | blockAssignsData result d hblock hpayload =>
      refine ⟨?_, by simp⟩
      rw [h, Config.stored, hblock]

/-- The data of an operation is never taken back. -/
theorem data_kept
    {s t : Config} {a : Action} {d : Data}
    (h : s.op.data = s.stored)
    (hdata : s.op.data = some d)
    (hstep : step s a = some t) :
    t.op.data = some d := by
  by_cases ha : a = .blockAssignsData
  · subst ha
    rw [(data_blockAssignsData h hstep).1] at hdata
    cases hdata
  · rw [data_eq_of_ne ha hstep, hdata]

end OperationData

section Finishing

/-- No call of `cancel()` comes to its end before the block stores the data. -/
def DataBeforeCancelled (as : List Action) : Prop :=
  ∀ pre post : List Action,
    as = pre ++ .blockAssignsData :: post →
    .cancelAssignsFinished ∉ pre

/-- The block has run, or `start()` has seen a cancellation and made no task. -/
def NoMoreData (s : Config) : Prop :=
  (∃ result, s.block = .done result) ∨
  (s.start = .sawCancelled ∨ s.start = .returned) ∧
    s.op.task = none ∧ s.block = .notDelivered

theorem noMoreData_step
    {s t : Config} {a : Action}
    (h : NoMoreData s)
    (hstep : step s a = some t) :
    NoMoreData t ∧ t.op.data = s.op.data := by
  have hmoves := step_moves hstep
  rcases h with ⟨result, hdone⟩ | ⟨hstart, htask, hblock⟩
  · cases hmoves with
    | deliver _ hcan => simp [Config.canDeliver, hdone] at hcan
    | blockAssignsData _ _ hqueued _ => simp [hdone] at hqueued
    | blockAssignsFinished result' _ => exact ⟨Or.inl ⟨result', rfl⟩, rfl⟩
    | _ => exact ⟨Or.inl ⟨result, hdone⟩, rfl⟩
  · cases hmoves with
    | readIsCancelled hpoint => simp [hpoint] at hstart
    | startAssignsFinished _ => exact ⟨Or.inr ⟨Or.inr rfl, htask, hblock⟩, rfl⟩
    | createTask hpoint => simp [hpoint] at hstart
    | resumeTask hpoint => simp [hpoint] at hstart
    | startAssignsExecuting hpoint => simp [hpoint] at hstart
    | deliver _ hcan => simp [Config.canDeliver, htask] at hcan
    | blockAssignsData _ _ hqueued _ => simp [hblock] at hqueued
    | blockAssignsFinished result _ => exact ⟨Or.inl ⟨result, rfl⟩, rfl⟩
    | cancelTask =>
        exact ⟨Or.inr ⟨hstart, by simp [htask], hblock⟩, rfl⟩
    | _ => exact ⟨Or.inr ⟨hstart, htask, hblock⟩, rfl⟩

theorem noMoreData_run
    {s t : Config} {as : List Action}
    (h : NoMoreData s)
    (hrun : run step s as = some t) :
    t.op.data = s.op.data := by
  induction as generalizing s with
  | nil =>
      cases hrun
      rfl
  | cons a as ih =>
      obtain ⟨u, hu, htail⟩ := run_cons_some.mp hrun
      obtain ⟨hno, hdata⟩ := noMoreData_step h hu
      exact (ih hno htail).trans hdata

/-- How an operation comes to be finished, along the actions so far. -/
structure FinishHistory (pre : List Action) (s : Config) : Prop where
  beforeTask :
    s.start = .notStarted ∨ s.start = .sawCancelled ∨ s.start = .enteredMain →
    s.op.task = none ∧ s.block = .notDelivered
  finisher :
    s.op.state = .finished →
    .cancelAssignsFinished ∈ pre ∨ NoMoreData s

theorem finishHistory_initial : FinishHistory [] Config.initial where
  beforeTask _ := ⟨rfl, rfl⟩
  finisher h := by
    cases h

theorem beforeTask_step
    {pre : List Action} {s t : Config} {a : Action}
    (h : FinishHistory pre s)
    (hstep : step s a = some t)
    (hstart :
      t.start = .notStarted ∨ t.start = .sawCancelled ∨
        t.start = .enteredMain) :
    t.op.task = none ∧ t.block = .notDelivered := by
  cases step_moves hstep with
  | readIsCancelled hpoint => exact h.beforeTask (Or.inl hpoint)
  | startAssignsFinished _ => simp at hstart
  | createTask _ => simp at hstart
  | resumeTask _ => simp at hstart
  | startAssignsExecuting _ => simp at hstart
  | deliver _ hcan =>
      obtain ⟨htask, _⟩ := h.beforeTask hstart
      simp [Config.canDeliver, htask] at hcan
  | blockAssignsData _ _ hblock _ =>
      obtain ⟨_, hnone⟩ := h.beforeTask hstart
      simp [hblock] at hnone
  | blockAssignsFinished _ hblock =>
      obtain ⟨_, hnone⟩ := h.beforeTask hstart
      simp [hnone] at hblock
  | cancelTask =>
      obtain ⟨htask, hblock⟩ := h.beforeTask hstart
      exact ⟨by simp [htask], hblock⟩
  | _ => exact h.beforeTask hstart

theorem finishHistory_step
    (pre : List Action) (s : Config) (a : Action) (t : Config)
    (h : FinishHistory pre s)
    (hstep : step s a = some t) :
    FinishHistory (pre ++ [a]) t where
  beforeTask := beforeTask_step h hstep
  finisher hfinished := by
    have hkeep : s.op.state = .finished →
        .cancelAssignsFinished ∈ pre ++ [a] ∨ NoMoreData t := by
      intro hbefore
      rcases h.finisher hbefore with hcancel | hno
      · exact Or.inl (List.mem_append_left _ hcancel)
      · exact Or.inr (noMoreData_step hno hstep).1
    cases step_moves hstep with
    | startAssignsFinished hpoint =>
        obtain ⟨htask, hblock⟩ := h.beforeTask (Or.inr (Or.inl hpoint))
        exact Or.inr (Or.inr ⟨Or.inr rfl, htask, hblock⟩)
    | startAssignsExecuting _ => cases hfinished
    | blockAssignsFinished result _ => exact Or.inr (Or.inl ⟨result, rfl⟩)
    | cancelAssignsFinished _ _ => exact Or.inl (by simp)
    | cancelFlag _ _ => exact hkeep (by simpa using hfinished)
    | _ => exact hkeep hfinished

theorem finishHistory_run
    {s : Config} {as : List Action}
    (hrun : run step Config.initial as = some s) :
    FinishHistory as s :=
  run_history finishHistory_step finishHistory_initial hrun

theorem finished_of_cancelAssignsFinished
    {s t : Config}
    (hstep : step s .cancelAssignsFinished = some t) :
    t.op.state = .finished := by
  cases step_moves hstep
  rfl

/-- Without the block's assignment a run leaves `data` alone. -/
theorem data_run_eq
    {s t : Config} {as : List Action}
    (hnone : .blockAssignsData ∉ as)
    (hrun : run step s as = some t) :
    t.op.data = s.op.data := by
  have hne : ∀ a ∈ as, a ≠ .blockAssignsData := by
    rintro a ha rfl
    exact hnone ha
  clear hnone
  induction as generalizing s with
  | nil =>
      cases hrun
      rfl
  | cons a as ih =>
      obtain ⟨u, hu, htail⟩ := run_cons_some.mp hrun
      rw [ih htail (fun b hb => hne b (List.mem_cons_of_mem _ hb))]
      exact data_eq_of_ne (hne a List.mem_cons_self) hu

end Finishing

end Operations
end NotVK
