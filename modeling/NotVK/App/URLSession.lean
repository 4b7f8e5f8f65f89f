import NotVK.Library.LabelledRun

/-!
# What the app relies on of URLSession

The values that a data task hands over, and the order in which a session with a
delegate may call it.  Task identifiers are unique in a session.  From
`resume()` on, a task gets any number of `didReceive` callbacks and then exactly
one `didCompleteWithError`; callbacks of different tasks interleave freely.

`contractStep` follows the status of every task through a list of events, and
`Allowed` holds of the lists that the contract permits.
-/

namespace NotVK
namespace Networking

open Runs

/-- `Data` of Foundation. -/
abbrev Data := List UInt8

/-- An `Error` handed over by URLSession. -/
structure NSError where
  domain : String
  code : Int
deriving DecidableEq

/-- Arguments of a data task's completion handler (the response is not read). -/
structure TaskResult where
  data : Option Data
  error : Option NSError
deriving DecidableEq

section DelegateContract

variable {Handler : Type}

/-- What happens to a session: a call of `getData`, or work on the main queue. -/
inductive SessionEvent (Handler : Type) where
  | getData (task : Int) (ch : Handler)
  | didReceive (task : Int) (data : Data)
  | didComplete (task : Int) (error : Option NSError)
  | mainQueueRuns
deriving DecidableEq

inductive TaskStatus where
  | unused
  | running
  | completed
deriving DecidableEq

/-- Status of every task identifier of the session. -/
abbrev TaskTable := Int → TaskStatus

def TaskTable.initial : TaskTable := fun _ => .unused

/-- The events that are due next, and the table after one of them. -/
def contractStep (table : TaskTable) :
    SessionEvent Handler → Option TaskTable
  | .getData task _ =>
      if table task = .unused then
        some (Function.update table task .running)
      else none
  | .didReceive task _ =>
      if table task = .running then some table else none
  | .didComplete task _ =>
      if table task = .running then
        some (Function.update table task .completed)
      else none
  | .mainQueueRuns => some table

/-- The contract permits the list of events. -/
def Allowed (es : List (SessionEvent Handler)) : Prop :=
  ∃ table, run contractStep TaskTable.initial es = some table

/-- The contract permits the list, and every task of it has completed. -/
def AllCompleted (es : List (SessionEvent Handler)) : Prop :=
  ∃ table, run contractStep TaskTable.initial es = some table ∧
    ∀ task, table task ≠ .running

theorem AllCompleted.allowed
    {es : List (SessionEvent Handler)}
    (h : AllCompleted es) :
    Allowed es := by
  obtain ⟨table, hrun, _⟩ := h
  exact ⟨table, hrun⟩

/-- The event starts a task. -/
def SessionEvent.isGetData : SessionEvent Handler → Bool
  | .getData _ _ => true
  | _ => false

/-- The event hands over a chunk of a response. -/
def SessionEvent.isDidReceive : SessionEvent Handler → Bool
  | .didReceive _ _ => true
  | _ => false

/-- Without a `getData` call every identifier stays unused. -/
theorem contractStep_unused
    {table : TaskTable} {e : SessionEvent Handler} {table' : TaskTable}
    (htable : table = TaskTable.initial)
    (he : e.isGetData = false)
    (hstep : contractStep table e = some table') :
    e = .mainQueueRuns ∧ table' = TaskTable.initial := by
  subst htable
  cases e with
  | getData task ch =>
      cases he
  | didReceive task data =>
      simp [contractStep, TaskTable.initial] at hstep
  | didComplete task error =>
      simp [contractStep, TaskTable.initial] at hstep
  | mainQueueRuns =>
      cases hstep
      exact ⟨rfl, rfl⟩

/-- An allowed list without a `getData` call only runs the main queue. -/
theorem Allowed.eq_mainQueueRuns
    {es : List (SessionEvent Handler)}
    (h : Allowed es)
    (hnone : ∀ e ∈ es, e.isGetData = false) :
    ∀ e ∈ es, e = .mainQueueRuns := by
  obtain ⟨table, hrun⟩ := h
  induction es with
  | nil =>
      simp
  | cons e es ih =>
      obtain ⟨table₁, hstep, htail⟩ := run_cons_some.mp hrun
      obtain ⟨he, ht⟩ :=
        contractStep_unused rfl (hnone e (by simp)) hstep
      subst ht
      intro e' he'
      rcases List.mem_cons.mp he' with rfl | hmem
      · exact he
      · exact ih (fun b hb => hnone b (List.mem_cons_of_mem _ hb)) htail e' hmem

end DelegateContract

end Networking
end NotVK
