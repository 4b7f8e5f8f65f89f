import NotVK.App.URLSession
import Mathlib.Logic.Function.Basic

/-!
# GetDataRequest and its delegate

`GetDataRequestDelegate` multiplexes the tasks of one session through two
dictionaries keyed by task identifier: the completion handlers and the bytes
received so far.  `getData` registers the handler; the two delegate callbacks
append a chunk and hand the bytes over on the main queue.

The model keeps the blocks that `DispatchQueue.main.async` has enqueued and a
log of the handler calls that were made.  A force-unwrap of a nil entry ends the
program with `unexpectedlyFoundNil`.

**Results.**
* `handleAll_ne_trap_iff`: a list of events runs without a trap exactly when it
  has no `didReceive` callback, because no method ever creates a buffer.
* `delivered_iff`: every handler is answered and forgotten exactly when there
  is no task at all.
-/

namespace NotVK
namespace Networking

section GetDataRequest

variable {Handler : Type}

inductive RuntimeTrap where
  | unexpectedlyFoundNil
deriving DecidableEq

/-- The two dictionaries of `GetDataRequestDelegate`. -/
structure GetDataRequestDelegate (Handler : Type) where
  handlers : Int → Option Handler
  data : Int → Option Data

/-- A block `{ ch?(receivedData) }` on the main queue, made for `task`. -/
structure HandlerBlock (Handler : Type) where
  task : Int
  ch : Option Handler
  receivedData : Data

/-- A handler call that was made, with its argument. -/
structure HandlerCall (Handler : Type) where
  task : Int
  ch : Handler
  argument : Option Data
deriving DecidableEq

/-- The delegate, the main queue and the calls made so far. -/
structure RequestState (Handler : Type) where
  delegate : GetDataRequestDelegate Handler
  mainQueue : List (HandlerBlock Handler)
  calls : List (HandlerCall Handler)

def RequestState.initial : RequestState Handler where
  delegate := { handlers := fun _ => none, data := fun _ => none }
  mainQueue := []
  calls := []

namespace GetDataRequestDelegate

def appendHandler
    (self : GetDataRequestDelegate Handler) (ch : Handler) (task : Int) :
    GetDataRequestDelegate Handler :=
  { self with handlers := Function.update self.handlers task (some ch) }

/-- `urlSession(_:dataTask:didReceive:)`. -/
def didReceive
    (self : GetDataRequestDelegate Handler) (task : Int) (data : Data) :
    Except RuntimeTrap (GetDataRequestDelegate Handler) :=
  match self.data task with
  | none => .error .unexpectedlyFoundNil
  | some buffer =>
      .ok { self with
        data := Function.update self.data task (some (buffer ++ data)) }

/-- `urlSession(_:task:didCompleteWithError:)`, with the block it enqueues. -/
def didCompleteWithError
    (self : GetDataRequestDelegate Handler)
    (task : Int) (error : Option NSError) :
    GetDataRequestDelegate Handler × Option (HandlerBlock Handler) :=
  let ch := self.handlers task
  match self.data task with
  | none => (self, none)
  | some receivedData =>
      let self' :=
        { self with handlers := Function.update self.handlers task none }
      match error with
      | none => (self', some ⟨task, ch, receivedData⟩)
      | some _ => (self', none)

end GetDataRequestDelegate

/-- Calls made by a main-queue block: `ch?` does nothing when `ch` is nil. -/
def HandlerBlock.calls (block : HandlerBlock Handler) :
    List (HandlerCall Handler) :=
  match block.ch with
  | none => []
  | some ch => [⟨block.task, ch, some block.receivedData⟩]

/-- Effect of one event on the app. -/
def handle (s : RequestState Handler) :
    SessionEvent Handler → Except RuntimeTrap (RequestState Handler)
  | .getData task ch =>
      .ok { s with delegate := s.delegate.appendHandler ch task }
  | .didReceive task data =>
      match s.delegate.didReceive task data with
      | .error trap => .error trap
      | .ok delegate => .ok { s with delegate := delegate }
  | .didComplete task error =>
      let (delegate, block) := s.delegate.didCompleteWithError task error
      .ok { s with
        delegate := delegate
        mainQueue := s.mainQueue ++ block.toList }
  | .mainQueueRuns =>
      match s.mainQueue with
      | [] => .ok s
      | block :: rest =>
          .ok { s with
            mainQueue := rest
            calls := s.calls ++ block.calls }

/-- Effect of a list of events. -/
def handleAll (s : RequestState Handler) :
    List (SessionEvent Handler) → Except RuntimeTrap (RequestState Handler)
  | [] => .ok s
  | e :: es =>
      match handle s e with
      | .error trap => .error trap
      | .ok s' => handleAll s' es

/-- Calls made once the main queue has run dry. -/
def RequestState.allCalls (s : RequestState Handler) :
    List (HandlerCall Handler) :=
  s.calls ++ s.mainQueue.flatMap HandlerBlock.calls

/-- Bytes of the chunks that `task` received, in arrival order. -/
def receivedBytes (task : Int) : List (SessionEvent Handler) → Data
  | [] => []
  | .didReceive task' data :: es =>
      if task' = task then data ++ receivedBytes task es
      else receivedBytes task es
  | _ :: es => receivedBytes task es

/-- Whether `task` completed without an error. -/
def succeeded (task : Int) (es : List (SessionEvent Handler)) : Prop :=
  .didComplete task none ∈ es

instance [DecidableEq Handler]
    (task : Int) (es : List (SessionEvent Handler)) :
    Decidable (succeeded task es) :=
  inferInstanceAs (Decidable (_ ∈ es))

/--
Every task's handler is called exactly once, with the task's own bytes after a
success and with nil after an error, and both entries are gone.
-/
def Delivered (es : List (SessionEvent Handler)) : Prop :=
  ∃ s, handleAll RequestState.initial es = .ok s ∧
    ∀ task ch, .getData task ch ∈ es →
      (∃ argument,
        s.allCalls.filter (fun call => call.task = task) =
          [⟨task, ch, argument⟩] ∧
        (succeeded task es → argument = some (receivedBytes task es)) ∧
        (¬ succeeded task es → argument = none)) ∧
      s.delegate.handlers task = none ∧
      s.delegate.data task = none

/-- No buffer exists, so no handler was ever answered. -/
structure NoBuffer (s : RequestState Handler) : Prop where
  data : ∀ task, s.delegate.data task = none
  mainQueue : s.mainQueue = []
  calls : s.calls = []

theorem noBuffer_initial :
    NoBuffer (RequestState.initial : RequestState Handler) where
  data _ := rfl
  mainQueue := rfl
  calls := rfl

/-- Without a buffer, completion returns before it looks at the error. -/
theorem didCompleteWithError_of_no_buffer
    (self : GetDataRequestDelegate Handler)
    (task : Int) (error : Option NSError)
    (hdata : self.data task = none) :
    self.didCompleteWithError task error = (self, none) := by
  unfold GetDataRequestDelegate.didCompleteWithError
  rw [hdata]

/-- Without a buffer, a chunk traps. -/
theorem handle_didReceive_of_noBuffer
    {s : RequestState Handler}
    (h : NoBuffer s) (task : Int) (data : Data) :
    handle s (.didReceive task data) = .error .unexpectedlyFoundNil := by
  simp [handle, GetDataRequestDelegate.didReceive, h.data task]

/-- Every other event succeeds, and no method creates a buffer. -/
theorem handle_of_noBuffer
    {s : RequestState Handler} {e : SessionEvent Handler}
    (h : NoBuffer s)
    (he : e.isDidReceive = false) :
    ∃ s', handle s e = .ok s' ∧ NoBuffer s' := by
  cases e with
  | getData task ch =>
      exact ⟨_, rfl, h.data, h.mainQueue, h.calls⟩
  | didReceive task data =>
      cases he
  | didComplete task error =>
      refine ⟨s, ?_, h⟩
      simp [handle,
        didCompleteWithError_of_no_buffer _ task error (h.data task)]
  | mainQueueRuns =>
      refine ⟨s, ?_, h⟩
      simp [handle, h.mainQueue]

/-- A list of events without a chunk runs to its end and makes no buffer. -/
theorem handleAll_of_noBuffer
    {s : RequestState Handler} {es : List (SessionEvent Handler)}
    (h : NoBuffer s)
    (hes : ∀ e ∈ es, e.isDidReceive = false) :
    ∃ s', handleAll s es = .ok s' ∧ NoBuffer s' := by
  induction es generalizing s with
  | nil =>
      exact ⟨s, rfl, h⟩
  | cons e es ih =>
      obtain ⟨s₁, hok, h₁⟩ := handle_of_noBuffer h (hes e (by simp))
      obtain ⟨s', hall, h'⟩ :=
        ih h₁ (fun b hb => hes b (List.mem_cons_of_mem _ hb))
      refine ⟨s', ?_, h'⟩
      simp only [handleAll, hok]
      exact hall

/-- The first chunk of any task ends the program. -/
theorem handleAll_trap_of_didReceive
    {s : RequestState Handler} {es : List (SessionEvent Handler)}
    (h : NoBuffer s)
    (hes : ∃ e ∈ es, e.isDidReceive = true) :
    handleAll s es = .error .unexpectedlyFoundNil := by
  induction es generalizing s with
  | nil =>
      simp at hes
  | cons e es ih =>
      cases he : e.isDidReceive with
      | true =>
          cases e with
          | didReceive task data =>
              simp only [handleAll, handle_didReceive_of_noBuffer h]
          | _ =>
              cases he
      | false =>
          obtain ⟨s₁, hok, h₁⟩ := handle_of_noBuffer h he
          obtain ⟨b, hb, hchunk⟩ := hes
          have hmem : b ∈ es := by
            rcases List.mem_cons.mp hb with rfl | hmem
            · rw [he] at hchunk
              cases hchunk
            · exact hmem
          simp only [handleAll, hok]
          exact ih h₁ ⟨b, hmem, hchunk⟩

/--
**The delegate never force-unwraps nil exactly when no task ever receives a
chunk.**
-/
theorem handleAll_ne_trap_iff
    (es : List (SessionEvent Handler)) :
    handleAll RequestState.initial es ≠ .error .unexpectedlyFoundNil
      ↔
    ∀ e ∈ es, e.isDidReceive = false := by
  constructor
  · intro hne e he
    by_contra hchunk
    apply hne
    apply handleAll_trap_of_didReceive noBuffer_initial
    exact ⟨e, he, by simpa using hchunk⟩
  · intro hnone
    obtain ⟨s, hok, _⟩ := handleAll_of_noBuffer noBuffer_initial hnone
    rw [hok]
    simp

/-- One task that receives one chunk: allowed by the contract, and a trap. -/
theorem first_chunk_traps :
    Allowed [.getData 1 (), .didReceive 1 [123], .didComplete 1 none] ∧
    handleAll RequestState.initial
        [.getData 1 (), .didReceive 1 [123], .didComplete 1 none] =
      .error .unexpectedlyFoundNil :=
  ⟨⟨_, rfl⟩, rfl⟩

/-- A list of events that runs to its end has never answered a handler. -/
theorem noBuffer_of_handleAll_ok
    {es : List (SessionEvent Handler)} {s : RequestState Handler}
    (hok : handleAll RequestState.initial es = .ok s) :
    NoBuffer s := by
  have hnone : ∀ e ∈ es, e.isDidReceive = false := by
    intro e he
    by_contra hchunk
    have hexists : ∃ e ∈ es, e.isDidReceive = true :=
      ⟨e, he, by simpa using hchunk⟩
    have htrap := handleAll_trap_of_didReceive noBuffer_initial hexists
    rw [hok] at htrap
    cases htrap
  obtain ⟨s', hok', h'⟩ := handleAll_of_noBuffer noBuffer_initial hnone
  rw [hok] at hok'
  cases hok'
  exact h'

/-- A task whose handler is registered is never delivered. -/
theorem not_delivered_of_getData
    {es : List (SessionEvent Handler)}
    (hget : ∃ e ∈ es, e.isGetData = true) :
    ¬ Delivered es := by
  rintro ⟨s, hok, hall⟩
  obtain ⟨e, he, hget⟩ := hget
  cases e with
  | getData task ch =>
      obtain ⟨⟨argument, hcalls, _⟩, _⟩ := hall task ch he
      have h := noBuffer_of_handleAll_ok hok
      simp [RequestState.allCalls, h.calls, h.mainQueue] at hcalls
  | _ =>
      cases hget

/--
**Every registered handler is answered exactly once and forgotten exactly when
`getData` was never called.**
-/
theorem delivered_iff
    {es : List (SessionEvent Handler)}
    (hcompleted : AllCompleted es) :
    Delivered es ↔ ∀ e ∈ es, e.isGetData = false := by
  constructor
  · intro h e he
    by_contra hget
    exact not_delivered_of_getData ⟨e, he, by simpa using hget⟩ h
  · intro hnone
    have hmain := hcompleted.allowed.eq_mainQueueRuns hnone
    have hquiet : ∀ e ∈ es, e.isDidReceive = false := by
      intro e he
      rw [hmain e he]
      rfl
    obtain ⟨s, hok, _⟩ := handleAll_of_noBuffer noBuffer_initial hquiet
    refine ⟨s, hok, ?_⟩
    intro task ch hget
    have hfalse := hnone _ hget
    cases hfalse

/-- An empty response: the task completes without a chunk and without an error. -/
def emptyResponse : List (SessionEvent Unit) :=
  [.getData 1 (), .didComplete 1 none, .mainQueueRuns]

theorem emptyResponse_allCompleted :
    AllCompleted emptyResponse := by
  refine ⟨_, rfl, ?_⟩
  intro task
  by_cases h : task = 1 <;>
    simp [h, Function.update, TaskTable.initial]

theorem delivered_iff_emptyResponse :
    Delivered emptyResponse ↔ ∀ e ∈ emptyResponse, e.isGetData = false :=
  delivered_iff emptyResponse_allCompleted

/-- The handler of the empty response is never called and never removed. -/
theorem emptyResponse_not_delivered :
    ∃ s, handleAll RequestState.initial emptyResponse = .ok s ∧
      s.allCalls = [] ∧
      s.delegate.handlers 1 = some () ∧
      ¬ Delivered emptyResponse := by
  refine ⟨_, rfl, rfl, rfl, ?_⟩
  exact not_delivered_of_getData ⟨.getData 1 (), by simp [emptyResponse], rfl⟩

end GetDataRequest

end Networking
end NotVK
