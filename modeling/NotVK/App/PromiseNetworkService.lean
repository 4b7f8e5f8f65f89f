import NotVK.App.RealmOperations

/-!
# VKRequestPromise

The promise of `VKRequestPromise` does in one completion handler what
`GetDataOperation` and `ParseDataOperation` do in two operations.  The handler
settles the promise through a resolver; on two of its paths it does not: a
string is cast to `Error` by force, and a body that does not decode is only
printed.
-/

namespace NotVK
namespace Fetching

open Json News Networking Runs

section Promise

variable {T : Type}

/-- A call of the resolver. -/
inductive Resolution (T : Type) where
  | fulfill (items : List T)
  | reject (error : NSError)

/-- `as! Error` on a string; `String` is no `Error`, so the cast traps. -/
def castToError (_ : String) : Option NSError := none

/--
The completion handler of `VKRequestPromise`, with its calls of the resolver in
order; none means a trap.
-/
def completionHandler
    (parse : Data → Option JSON) (dec : Decoder T) (result : TaskResult) :
    Option (List (Resolution T)) :=
  match result.error with
  | some error => some [.reject error]
  | none =>
      match result.data with
      | none => (castToError "No data").map (fun error => [.reject error])
      | some data =>
          match decodeItems parse dec data with
          | some items => some [.fulfill items]
          | none => some []

/-- A state in which the get operation has handled the result to its end. -/
def ChainEnd (result : TaskResult) (s : Operations.Config) : Prop :=
  ∃ as, run Operations.step Operations.Config.initial as = some s ∧
    s.block = .done result

/-- The promise is settled once, as the parse operation's output says. -/
structure AgreesWith
    (parse : Data → Option JSON) (dec : Decoder T) (result : TaskResult)
    (resolutions : List (Resolution T)) : Prop where
  once : resolutions.length = 1
  ends : ∃ s, ChainEnd result s
  fulfilled : ∀ s, ChainEnd result s → ∀ xs,
    .fulfill xs ∈ resolutions ↔ parseMain parse dec s.op.data = some xs
  rejected : ∀ s, ChainEnd result s →
    ((∃ error, .reject error ∈ resolutions) ↔
      parseMain parse dec s.op.data = none)

/-- The promise route agrees with the operation route, without a trap. -/
def RoutesAgree
    (parse : Data → Option JSON) (dec : Decoder T) (result : TaskResult) :
    Prop :=
  ∃ resolutions, completionHandler parse dec result = some resolutions ∧
    AgreesWith parse dec result resolutions

end Promise

section Chain

/-- At the end of the chain the operation holds what the block keeps. -/
theorem data_of_chainEnd
    {result : TaskResult} {s : Operations.Config}
    (h : ChainEnd result s) :
    s.op.data = Operations.payload result := by
  obtain ⟨as, hrun, hdone⟩ := h
  rw [Operations.stored_run hrun, Operations.Config.stored, hdone]

/-- A request without a cancellation. -/
def plainRequest (result : TaskResult) : List Operations.Action :=
  [.readIsCancelled, .createTask, .resumeTask, .startAssignsExecuting,
    .deliver result] ++
  (match Operations.payload result with
    | some _ => [.blockAssignsData, .blockAssignsFinished]
    | none => [.blockAssignsFinished])

/-- Every result can be handled to its end. -/
theorem exists_chainEnd (result : TaskResult) :
    ∃ s, ChainEnd result s := by
  have hrun : ∃ s, run Operations.step Operations.Config.initial
      (plainRequest result) = some s ∧ s.block = .done result := by
    rw [plainRequest]
    cases hpayload : Operations.payload result with
    | none =>
        simp [Operations.step, Operations.startStep, Operations.blockStep,
          Operations.Config.initial, Operations.Config.canDeliver,
          Operations.TaskPhase.resume, Operations.Config.setState, hpayload]
    | some data =>
        simp [Operations.step, Operations.startStep, Operations.blockStep,
          Operations.Config.initial, Operations.Config.canDeliver,
          Operations.TaskPhase.resume, Operations.Config.setState, hpayload]
  obtain ⟨s, hs, hdone⟩ := hrun
  exact ⟨s, _, hs, hdone⟩

end Chain

section Agreement

variable {T : Type}
variable {parse : Data → Option JSON} {dec : Decoder T}

/-- Agreement is about the payload alone. -/
theorem agreesWith_iff
    {result : TaskResult} {resolutions : List (Resolution T)} :
    AgreesWith parse dec result resolutions
      ↔
    resolutions.length = 1 ∧
    (∀ xs, .fulfill xs ∈ resolutions ↔
      parseMain parse dec (Operations.payload result) = some xs) ∧
    ((∃ error, .reject error ∈ resolutions) ↔
      parseMain parse dec (Operations.payload result) = none) := by
  obtain ⟨s, hs⟩ := exists_chainEnd result
  constructor
  · intro h
    rw [← data_of_chainEnd hs]
    exact ⟨h.once, h.fulfilled s hs, h.rejected s hs⟩
  · rintro ⟨honce, hfulfilled, hrejected⟩
    refine ⟨honce, ⟨s, hs⟩, fun t ht => ?_, fun t ht => ?_⟩
    · rw [data_of_chainEnd ht]
      exact hfulfilled
    · rw [data_of_chainEnd ht]
      exact hrejected

theorem routesAgree_of_error
    {result : TaskResult} {error : NSError}
    (herror : result.error = some error) :
    RoutesAgree parse dec result := by
  have hpayload : Operations.payload result = none := by
    rw [Operations.payload, herror]
  refine ⟨[.reject error], ?_, agreesWith_iff.mpr ?_⟩
  · rw [completionHandler, herror]
  · simp [hpayload, parseMain]

theorem routesAgree_of_decoded
    {result : TaskResult} {data : Data} {xs : List T}
    (herror : result.error = none)
    (hdata : result.data = some data)
    (hdecode : decodeItems parse dec data = some xs) :
    RoutesAgree parse dec result := by
  have hpayload : Operations.payload result = some data := by
    rw [Operations.payload, herror, hdata]
  refine ⟨[.fulfill xs], ?_, agreesWith_iff.mpr ?_⟩
  · rw [completionHandler, herror, hdata]
    simp only [hdecode]
  · simp [hpayload, parseMain, hdecode, eq_comm]

/-- A body that does not decode settles nothing. -/
theorem not_routesAgree_of_undecodable
    {result : TaskResult} {data : Data}
    (herror : result.error = none)
    (hdata : result.data = some data)
    (hdecode : decodeItems parse dec data = none) :
    ¬ RoutesAgree parse dec result := by
  rintro ⟨resolutions, hhandler, hagrees⟩
  rw [completionHandler, herror, hdata] at hhandler
  simp only [hdecode, Option.some.injEq] at hhandler
  subst hhandler
  cases hagrees.once

/-- Neither data nor an error traps. -/
theorem not_routesAgree_of_no_data
    {result : TaskResult}
    (herror : result.error = none)
    (hdata : result.data = none) :
    ¬ RoutesAgree parse dec result := by
  rintro ⟨resolutions, hhandler, _⟩
  rw [completionHandler, herror, hdata] at hhandler
  cases hhandler

/--
**The two routes agree if and only if the task has an error, or data that
decodes.**
-/
theorem routesAgree_iff
    (parse : Data → Option JSON) (dec : Decoder T) (result : TaskResult) :
    RoutesAgree parse dec result
      ↔
    (∃ error, result.error = some error) ∨
    ∃ data xs, result.data = some data ∧
      decodeItems parse dec data = some xs := by
  cases herror : result.error with
  | some error =>
      exact iff_of_true (routesAgree_of_error herror) (Or.inl ⟨error, rfl⟩)
  | none =>
      cases hdata : result.data with
      | none =>
          exact iff_of_false (not_routesAgree_of_no_data herror hdata)
            (by simp)
      | some data =>
          cases hdecode : decodeItems parse dec data with
          | none =>
              exact iff_of_false
                (not_routesAgree_of_undecodable herror hdata hdecode)
                (by simp [hdecode])
          | some xs =>
              exact iff_of_true (routesAgree_of_decoded herror hdata hdecode)
                (Or.inr ⟨data, xs, rfl, hdecode⟩)

/-- The parser on the empty body, which is no JSON. -/
def parseNothing (_ : Data) : Option JSON := none

/-- An empty body settles nothing, and no body at all traps. -/
theorem emptyBody_never_settles :
    completionHandler parseNothing FriendItem.decode ⟨some [], none⟩ =
      some [] ∧
    completionHandler parseNothing FriendItem.decode ⟨none, none⟩ = none ∧
    ¬ RoutesAgree parseNothing FriendItem.decode ⟨some [], none⟩ ∧
    ¬ RoutesAgree parseNothing FriendItem.decode ⟨none, none⟩ :=
  ⟨rfl, rfl, not_routesAgree_of_undecodable rfl rfl rfl,
    not_routesAgree_of_no_data rfl rfl⟩

end Agreement

end Fetching
end NotVK
