import NotVK.App.FetchedFriends

/-!
# The data of an operation that has finished

`cancel()` assigns `.finished` without waiting for the completion block, and the
block stores the response without looking at `isCancelled`.  A parse operation
may run as soon as the state is `.finished`; if the block comes later, what the
parse operation reads depends on who is faster.

A run of the whole system is, seen from one chain, a run of that chain's get
operation.  The facts about `data` are proved there and carried over.
-/

namespace NotVK
namespace Fetching

open Json News Networking Runs Transactions

section Projection

variable {ChainId : Type} [DecidableEq ChainId]
variable {parse : Data → Option JSON}

/-- The action of chain `i`'s get operation, if it is one. -/
def getAction (i : ChainId) (a : ChainId × ChainAction) :
    Option Operations.Action :=
  if a.1 = i then
    match a.2 with
    | .get b => some b
    | _ => none
  else none

/-- Saving leaves what the chains have fetched alone. -/
theorem saveStep_keeps
    {s t : System ChainId} {j : ChainId} {a : ChainAction}
    (h : saveStep s j a = some t) (i : ChainId) :
    (t.chains i).get = (s.chains i).get ∧
    (t.chains i).parse = (s.chains i).parse := by
  by_cases hij : i = j
  · subst hij
    cases saveStep_moves h with
    | addRaises hsave => exact ⟨rfl, rfl⟩
    | _ => simp
  · cases saveStep_moves h with
    | addRaises hsave => exact ⟨rfl, rfl⟩
    | _ => simp [after_chains_of_ne _ _ _ hij]

theorem getAction_of_saveStep
    {s t : System ChainId} {j : ChainId} {a : ChainAction}
    (h : saveStep s j a = some t) (i : ChainId) :
    getAction i (j, a) = none := by
  cases saveStep_moves h <;> simp [getAction]

/-- A step of the system moves a get operation by that operation's action. -/
theorem get_step
    (i : ChainId)
    (s : System ChainId) (a : ChainId × ChainAction) (t : System ChainId)
    (hstep : step parse s a = some t) :
    (getAction i a = none ∧ (t.chains i).get = (s.chains i).get) ∨
    ∃ b, getAction i a = some b ∧
      Operations.step (s.chains i).get b = some (t.chains i).get := by
  obtain ⟨j, a⟩ := a
  rcases step_eq_some hstep with ⟨c, hc, rfl⟩ | hsave
  · by_cases hij : i = j
    · subst hij
      cases fetchStep_moves hc with
      | get b g hget =>
          exact Or.inr ⟨b, by simp [getAction],
            by simpa [System.setChain] using hget⟩
      | parseBecomesReady hparse hfinished =>
          exact Or.inl ⟨by simp [getAction], by simp [System.setChain]⟩
      | parseMain hparse =>
          exact Or.inl ⟨by simp [getAction], by simp [System.setChain]⟩
    · exact Or.inl ⟨by simp [getAction, Ne.symm hij],
        by simp [System.setChain, hij]⟩
  · exact Or.inl ⟨getAction_of_saveStep hsave i, (saveStep_keeps hsave i).1⟩

theorem get_step_of_getAction
    {i : ChainId} {s t : System ChainId} {a : ChainId × ChainAction}
    {b : Operations.Action}
    (hlabel : getAction i a = some b)
    (hstep : step parse s a = some t) :
    Operations.step (s.chains i).get b = some (t.chains i).get := by
  rcases get_step i s a t hstep with ⟨hnone, _⟩ | ⟨b', hlabel', hget⟩
  · rw [hlabel] at hnone
    cases hnone
  · rw [hlabel] at hlabel'
    cases hlabel'
    exact hget

/-- Seen from chain `i`, a run is a run of its get operation. -/
theorem get_run
    (i : ChainId)
    {s t : System ChainId} {as : List (ChainId × ChainAction)}
    (hrun : run (step parse) s as = some t) :
    run Operations.step (s.chains i).get (as.filterMap (getAction i)) =
      some (t.chains i).get :=
  run_project (get_step i) hrun

end Projection

section Output

variable {ChainId : Type} [DecidableEq ChainId]
variable {parse : Data → Option JSON}

/-- What the parse operation has put out it has read from `data`. -/
structure OutputOk (parse : Data → Option JSON) (c : Chain) : Prop where
  stored : c.get.op.data = c.get.stored
  output : ∀ items, c.outputData = some items →
    parseMain parse FriendItem.decode c.get.op.data = some items

theorem outputOk_initial : OutputOk parse Chain.initial where
  stored := rfl
  output _ h := by
    cases h

theorem outputOk_fetchStep
    {c c' : Chain} {a : ChainAction}
    (h : OutputOk parse c)
    (hstep : fetchStep parse c a = some c') :
    OutputOk parse c' := by
  cases fetchStep_moves hstep with
  | get a g hget =>
      refine ⟨Operations.stored_step h.stored hget, fun items hout => ?_⟩
      have hbefore := h.output items hout
      cases hdata : c.get.op.data with
      | none =>
          rw [hdata] at hbefore
          cases hbefore
      | some d =>
          rw [hdata] at hbefore
          rw [Operations.data_kept h.stored hdata hget]
          exact hbefore
  | parseBecomesReady hparse hfinished =>
      refine ⟨h.stored, fun items hout => ?_⟩
      cases hout
  | parseMain hparse =>
      exact ⟨h.stored, fun items hout => hout⟩

theorem outputOk_step
    (i : ChainId)
    (s : System ChainId) (a : ChainId × ChainAction) (t : System ChainId)
    (h : OutputOk parse (s.chains i))
    (hstep : step parse s a = some t) :
    OutputOk parse (t.chains i) := by
  rcases step_eq_some hstep with ⟨c, hc, rfl⟩ | hsave
  · by_cases hij : i = a.1
    · subst hij
      simpa [System.setChain] using outputOk_fetchStep h hc
    · simpa [System.setChain, hij] using h
  · obtain ⟨hget, hparse⟩ := saveStep_keeps hsave i
    refine ⟨by rw [hget, h.stored], fun items hout => ?_⟩
    rw [hget]
    apply h.output
    rwa [Chain.outputData, hparse] at hout

theorem outputOk_run
    {version : RealmVersion} {s : System ChainId}
    {as : List (ChainId × ChainAction)}
    (hrun : run (step parse) (System.initial version) as = some s)
    (i : ChainId) :
    OutputOk parse (s.chains i) :=
  run_invariant (outputOk_step i) outputOk_initial hrun

end Output

section FinalData

variable {ChainId : Type} [DecidableEq ChainId]
variable {parse : Data → Option JSON}

/--
The run passes `u` and then `w`, and in `u` the get operation of chain `i` is
finished.
-/
def FinishedBefore
    (parse : Data → Option JSON) (version : RealmVersion)
    (as : List (ChainId × ChainAction)) (i : ChainId)
    (u w : System ChainId) : Prop :=
  ∃ pre mid post, as = pre ++ mid ++ post ∧
    run (step parse) (System.initial version) pre = some u ∧
    run (step parse) u mid = some w ∧
    (u.chains i).get.op.state = .finished

/-- From the moment it is finished the get operation's data is final. -/
structure FinalData
    (parse : Data → Option JSON) (version : RealmVersion)
    (as : List (ChainId × ChainAction)) (i : ChainId) : Prop where
  unchanged : ∀ u w, FinishedBefore parse version as i u w →
    (w.chains i).get.op.data = (u.chains i).get.op.data
  sameRead : ∀ u w w', FinishedBefore parse version as i u w →
    step parse w (i, .parseMain) = some w' →
    (w'.chains i).outputData =
      parseMain parse FriendItem.decode (u.chains i).get.op.data
  unfed : ∀ u w, FinishedBefore parse version as i u w →
    (u.chains i).get.op.data = none →
    (w.chains i).save = .waiting ∨ (w.chains i).save = .finished false

/-- A parse operation puts out what it reads. -/
theorem outputData_parseMain
    {w w' : System ChainId} {i : ChainId}
    (hstep : step parse w (i, .parseMain) = some w') :
    (w'.chains i).outputData =
      parseMain parse FriendItem.decode (w.chains i).get.op.data := by
  rcases step_eq_some hstep with ⟨c, hc, rfl⟩ | hsave
  · cases fetchStep_moves hc with
    | parseMain hparse =>
        simp [System.setChain, Chain.outputData]
  · cases saveStep_moves hsave

/-- Without data nothing is put out, and without output nothing is saved. -/
theorem unfed_of_no_data
    {version : RealmVersion} {w : System ChainId}
    {as : List (ChainId × ChainAction)} {i : ChainId}
    (hrun : run (step parse) (System.initial version) as = some w)
    (hdata : (w.chains i).get.op.data = none) :
    (w.chains i).save = .waiting ∨ (w.chains i).save = .finished false := by
  by_contra hsaving
  rw [not_or] at hsaving
  obtain ⟨items, hout⟩ :=
    ((consistent_run hrun).chainOk i).saving hsaving.1 hsaving.2
  have hread := (outputOk_run hrun i).output items hout
  rw [hdata] at hread
  cases hread

/-- Unchanged data is all that the rest needs. -/
theorem finalData_of_unchanged
    {version : RealmVersion} {as : List (ChainId × ChainAction)} {i : ChainId}
    (h : ∀ u w, FinishedBefore parse version as i u w →
      (w.chains i).get.op.data = (u.chains i).get.op.data) :
    FinalData parse version as i where
  unchanged := h
  sameRead u w w' hlater hstep := by
    rw [outputData_parseMain hstep, h u w hlater]
  unfed u w hlater hdata := by
    have hsame := h u w hlater
    obtain ⟨pre, mid, _, _, hpre, hmid, _⟩ := hlater
    exact unfed_of_no_data (run_append_some.mpr ⟨u, hpre, hmid⟩)
      (hsame.trans hdata)

/--
An operation that is finished has no more data to come, or it was cancelled and
the block came first.
-/
theorem unchanged_of_dataBeforeCancelled
    {version : RealmVersion} {as : List (ChainId × ChainAction)} {i : ChainId}
    (h : Operations.DataBeforeCancelled (as.filterMap (getAction i)))
    {u w : System ChainId}
    (hlater : FinishedBefore parse version as i u w) :
    (w.chains i).get.op.data = (u.chains i).get.op.data := by
  obtain ⟨pre, mid, post, rfl, hpre, hmid, hfinished⟩ := hlater
  have hhistory := Operations.finishHistory_run (get_run i hpre)
  rcases hhistory.finisher hfinished with hcancel | hno
  · apply Operations.data_run_eq _ (get_run i hmid)
    intro hmem
    obtain ⟨before, after, hsplit⟩ := List.append_of_mem hmem
    exact h (pre.filterMap (getAction i) ++ before)
      (after ++ post.filterMap (getAction i))
      (by simp [List.filterMap_append, hsplit])
      (List.mem_append_left _ hcancel)
  · exact Operations.noMoreData_run hno (get_run i hmid)

/-- A `cancel()` that ends before the block stores makes the data change. -/
theorem dataBeforeCancelled_of_unchanged
    {version : RealmVersion} {s : System ChainId}
    {as : List (ChainId × ChainAction)} {i : ChainId}
    (hrun : run (step parse) (System.initial version) as = some s)
    (h : ∀ u w, FinishedBefore parse version as i u w →
      (w.chains i).get.op.data = (u.chains i).get.op.data) :
    Operations.DataBeforeCancelled (as.filterMap (getAction i)) := by
  intro gpre gpost hsplit hcancel
  obtain ⟨front, back, rfl⟩ := List.append_of_mem hcancel
  rw [List.append_assoc, List.cons_append] at hsplit
  obtain ⟨pre, x, rest, u₀, u, rfl, hx, hback, hpre, hfinish, hrest⟩ :=
    exists_labelled_step hrun hsplit
  obtain ⟨mid, y, post, w₀, w, rfl, hy, _, hmid, hblock, _⟩ :=
    exists_labelled_step hrest hback
  have hu : run (step parse) (System.initial version) (pre ++ [x]) = some u :=
    run_snoc_some.mpr ⟨u₀, hpre, hfinish⟩
  have hw : run (step parse) u (mid ++ [y]) = some w :=
    run_snoc_some.mpr ⟨w₀, hmid, hblock⟩
  have hstate : (u.chains i).get.op.state = .finished :=
    Operations.finished_of_cancelAssignsFinished
      (get_step_of_getAction hx hfinish)
  have hbefore := h u w₀
    ⟨pre ++ [x], mid, y :: post, by simp, hu, hmid, hstate⟩
  have hafter := h u w ⟨pre ++ [x], mid ++ [y], post, by simp, hu, hw, hstate⟩
  have hstored := (outputOk_run (run_append_some.mpr ⟨u, hu, hmid⟩) i).stored
  obtain ⟨hnone, hsome⟩ := Operations.data_blockAssignsData hstored
    (get_step_of_getAction hy hblock)
  rw [hafter, ← hbefore] at hsome
  exact hsome hnone

/--
**The data of a get operation that has finished is final if and only if no call
of `cancel()` comes to its end before the block stores the data.**
-/
theorem finalData_iff
    {version : RealmVersion} {s : System ChainId}
    {as : List (ChainId × ChainAction)}
    (hrun : run (step parse) (System.initial version) as = some s)
    (i : ChainId) :
    FinalData parse version as i
      ↔
    Operations.DataBeforeCancelled (as.filterMap (getAction i)) := by
  constructor
  · intro h
    exact dataBeforeCancelled_of_unchanged hrun h.unchanged
  · intro h
    exact finalData_of_unchanged
      (fun u w => unchanged_of_dataBeforeCancelled h)

theorem finalData_iff_twoChains :
    FinalData parseOneFriend (fun _ => ∅) twoChains true
      ↔
    Operations.DataBeforeCancelled (twoChains.filterMap (getAction true)) := by
  obtain ⟨s, hrun, _⟩ := twoChains_run
  exact finalData_iff hrun true

/-- The user cancels while the block is queued, up to the end of `cancel()`. -/
def cancelBeforeBlock : List (Unit × ChainAction) :=
  [((), .get .readIsCancelled), ((), .get .createTask), ((), .get .resumeTask),
    ((), .get .startAssignsExecuting),
    ((), .get (.deliver ⟨some oneFriendBody, none⟩)),
    ((), .get .cancelTask), ((), .get .cancelFlag),
    ((), .get .cancelAssignsFinished)]

/-- The block stores the response all the same, and it is parsed and saved. -/
def blockAfterCancel : List (Unit × ChainAction) :=
  [((), .get .blockAssignsData), ((), .parseBecomesReady), ((), .parseMain),
    ((), .saveReadsOutput), ((), .openRealm true), ((), .beginWrite),
    ((), .deleteOld), ((), .addNew), ((), .commitWrite true)]

theorem cancelBeforeBlock_run :
    ∃ u w : System Unit,
      run (step parseOneFriend) (System.initial (fun _ => ∅))
        cancelBeforeBlock = some u ∧
      (u.chains ()).get.op.state = .finished ∧
      (u.chains ()).get.op.data = none ∧
      run (step parseOneFriend) u blockAfterCancel = some w ∧
      (w.chains ()).save = .finished true ∧
      w.store.committed .friendItem = {⟨"A", "B", none, 7⟩} :=
  ⟨_, _, rfl, rfl, rfl, rfl, rfl, rfl⟩

/-- A cancelled operation without data feeds the store. -/
theorem cancelled_feeds_store :
    ¬ FinalData parseOneFriend (fun _ => ∅)
        (cancelBeforeBlock ++ blockAfterCancel) () := by
  intro h
  obtain ⟨u, w, hpre, hstate, hdata, hmid, hsaved, _⟩ := cancelBeforeBlock_run
  have hunfed := h.unfed u w
    ⟨cancelBeforeBlock, blockAfterCancel, [], by simp, hpre, hmid, hstate⟩ hdata
  rw [hsaved] at hunfed
  rcases hunfed with hunfed | hunfed <;> cases hunfed

end FinalData

end Fetching
end NotVK
