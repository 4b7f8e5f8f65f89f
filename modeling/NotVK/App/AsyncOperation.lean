import NotVK.App.URLSession

/-!
# AsyncOperation and GetDataOperation

`AsyncOperation` keeps one mutable field `state` that the queue observes through
`isReady`, `isExecuting` and `isFinished`.  Its subclass `GetDataOperation`
starts a URL task in `main()` and leaves the assignment of `.finished` to the
completion block of that task.

Three parties write the fields of one `GetDataOperation`:

* the thread that runs `start()`;
* the completion block of the URL task, which re-dispatches itself to a global
  queue;
* any number of callers of `cancel()`.

`Config` holds the object together with the point that each party has reached,
and `step` is one atomic access of one of them.  A run of `step` is one
interleaving.  The block captures `self` weakly; the queue keeps an operation
until it has finished, so `self` is live whenever an assignment below matters.
-/

namespace NotVK
namespace Operations

open Runs Networking

section AsyncOperation

/-- `AsyncOperation.State`. -/
inductive State where
  | ready
  | executing
  | finished
deriving DecidableEq

def State.rawValue : State → String
  | .ready => "ready"
  | .executing => "executing"
  | .finished => "finished"

/-- `capitalized` on a word. -/
def capitalized (word : String) : String :=
  match word.toList with
  | [] => ""
  | c :: cs => String.ofList (c.toUpper :: cs)

/-- KVO key under which a state is observed. -/
def State.keyPath (s : State) : String :=
  "is" ++ capitalized s.rawValue

/-- Position in the order ready, executing, finished. -/
def State.rank : State → Nat
  | .ready => 0
  | .executing => 1
  | .finished => 2

/-- Fields of an `AsyncOperation`; `isCancelled` belongs to `Operation`. -/
structure AsyncOperation where
  state : State
  isCancelled : Bool
deriving DecidableEq

namespace AsyncOperation

/-- `super.isReady` says that the dependencies have finished. -/
def isReady (superIsReady : Bool) (op : AsyncOperation) : Bool :=
  superIsReady && op.state == .ready

def isExecuting (op : AsyncOperation) : Bool :=
  op.state == .executing

def isFinished (op : AsyncOperation) : Bool :=
  op.state == .finished

/-- `Operation.cancel()` has no effect on an operation that is finished. -/
def superCancel (op : AsyncOperation) : AsyncOperation :=
  if op.isFinished then op else { op with isCancelled := true }

/-- Keys whose `didChangeValue` is posted by `didSet` when `state` is assigned. -/
def changedKeys (op : AsyncOperation) (newValue : State) : List String :=
  [newValue.keyPath, op.state.keyPath]

@[simp] theorem superCancel_state
    (op : AsyncOperation) :
    op.superCancel.state = op.state := by
  unfold superCancel
  split <;> rfl

@[simp] theorem isFinished_iff
    (op : AsyncOperation) :
    op.isFinished = true ↔ op.state = .finished := by
  simp [isFinished]

/-- A change of `isFinished` is always posted to the observers of the key. -/
theorem isFinished_change_posted
    (op : AsyncOperation) (newValue : State)
    (hchange : { op with state := newValue }.isFinished ≠ op.isFinished) :
    State.finished.keyPath ∈ op.changedKeys newValue := by
  obtain ⟨state, isCancelled⟩ := op
  cases state <;> cases newValue <;>
    simp [isFinished, changedKeys] at hchange ⊢

end AsyncOperation

theorem State.rank_le_finished (s : State) :
    s.rank ≤ State.finished.rank := by
  cases s <;> decide

end AsyncOperation

section GetDataOperation

/-- Life of the URL task between its creation and its completion handler. -/
inductive TaskPhase where
  | suspended
  | resumed
  | cancelled
deriving DecidableEq

/-- `resume()` does nothing to a task that was cancelled. -/
def TaskPhase.resume : TaskPhase → TaskPhase
  | .suspended => .resumed
  | phase => phase

/-- Fields of a `GetDataOperation` that its methods read or write. -/
structure GetDataOperation extends AsyncOperation where
  task : Option TaskPhase
  data : Option Data
deriving DecidableEq

/-- Point reached by the thread that runs `start()`. -/
inductive StartPoint where
  | notStarted
  | sawCancelled
  | enteredMain
  | taskCreated
  | leftMain
  | returned
deriving DecidableEq

/-- Point reached by the completion block of the task. -/
inductive BlockPoint where
  | notDelivered
  | queued (result : TaskResult)
  | dataAssigned (result : TaskResult)
  | done (result : TaskResult)
deriving DecidableEq

/-- The operation, the points of its parties, and the `cancel()` calls under way. -/
structure Config where
  op : GetDataOperation
  start : StartPoint
  block : BlockPoint
  /-- Calls past `task?.cancel()`. -/
  cancelsPastTask : Nat
  /-- Calls past `Operation.cancel()`. -/
  cancelsPastFlag : Nat
deriving DecidableEq

/-- One atomic access of one party. -/
inductive Action where
  | readIsCancelled
  | startAssignsFinished
  | createTask
  | resumeTask
  | startAssignsExecuting
  | deliver (result : TaskResult)
  | blockAssignsData
  | blockAssignsFinished
  | cancelTask
  | cancelFlag
  | cancelAssignsFinished
deriving DecidableEq

/-- Data that the block keeps: none on the error path and on the no-data path. -/
def payload (result : TaskResult) : Option Data :=
  match result.error with
  | some _ => none
  | none => result.data

/-- State right after `init(urlRequest:)`. -/
def Config.initial : Config where
  op := { state := .ready, isCancelled := false, task := none, data := none }
  start := .notStarted
  block := .notDelivered
  cancelsPastTask := 0
  cancelsPastFlag := 0

/-- The assignment `state = newValue`. -/
def Config.setState (s : Config) (newValue : State) : Config :=
  { s with op := { s.op with state := newValue } }

/-- One step of `start()` and the `main()` it calls. -/
def startStep (s : Config) : Action → Option Config
  | .readIsCancelled =>
      if s.start = .notStarted then
        some { s with
          start := if s.op.isCancelled then .sawCancelled else .enteredMain }
      else none
  | .startAssignsFinished =>
      if s.start = .sawCancelled then
        some { s.setState .finished with start := .returned }
      else none
  | .createTask =>
      if s.start = .enteredMain then
        some { s with
          op := { s.op with task := some .suspended }
          start := .taskCreated }
      else none
  | .resumeTask =>
      if s.start = .taskCreated then
        some { s with
          op := { s.op with task := s.op.task.map TaskPhase.resume }
          start := .leftMain }
      else none
  | .startAssignsExecuting =>
      if s.start = .leftMain then
        some { s.setState .executing with start := .returned }
      else none
  | _ => none

/-- The task calls its handler once, after `resume()` or after `cancel()`. -/
def Config.canDeliver (s : Config) : Bool :=
  s.block == .notDelivered &&
    (s.op.task == some .resumed || s.op.task == some .cancelled)

/-- One step of the completion block. -/
def blockStep (s : Config) : Action → Option Config
  | .deliver result =>
      if s.canDeliver then
        some { s with block := .queued result }
      else none
  | .blockAssignsData =>
      match s.block with
      | .queued result =>
          match payload result with
          | some d =>
              some { s with
                op := { s.op with data := some d }
                block := .dataAssigned result }
          | none => none
      | _ => none
  | .blockAssignsFinished =>
      match s.block with
      | .queued result =>
          match payload result with
          | some _ => none
          | none => some { s.setState .finished with block := .done result }
      | .dataAssigned result =>
          some { s.setState .finished with block := .done result }
      | _ => none
  | _ => none

/-- One step of some call of `GetDataOperation.cancel()`. -/
def cancelStep (s : Config) : Action → Option Config
  | .cancelTask =>
      some { s with
        op := { s.op with task := s.op.task.map (fun _ => .cancelled) }
        cancelsPastTask := s.cancelsPastTask + 1 }
  | .cancelFlag =>
      match s.cancelsPastTask with
      | 0 => none
      | n + 1 =>
          some { s with
            op := { s.op with toAsyncOperation := s.op.superCancel }
            cancelsPastTask := n
            cancelsPastFlag := s.cancelsPastFlag + 1 }
  | .cancelAssignsFinished =>
      match s.cancelsPastFlag with
      | 0 => none
      | n + 1 =>
          some { s.setState .finished with cancelsPastFlag := n }
  | _ => none

/-- One step of any party. -/
def step (s : Config) (a : Action) : Option Config :=
  match a with
  | .readIsCancelled | .startAssignsFinished | .createTask
  | .resumeTask | .startAssignsExecuting => startStep s a
  | .deliver _ | .blockAssignsData | .blockAssignsFinished => blockStep s a
  | .cancelTask | .cancelFlag | .cancelAssignsFinished => cancelStep s a

end GetDataOperation

end Operations
end NotVK
