import NotVK.App.RealmLists
import NotVK.ObjectStore.DeliveredChanges

/-!
# What the lists are notified of

The two lists take it for granted that an update starts from the results they were
told of before, and that its indices describe how these became the new ones.  This
is what the notifier of their query gives them; but their own rows stay those that
were loaded.
-/

namespace NotVK
namespace Lists

open Runs Diffs ObjectStore Notifier

section Notifications

variable {Item : Type}

/-- The call of the observer's block that an event of its notifier is. -/
def notification (token : Nat) : Event (Int × Item) → Option (Notification Int Item)
  | .initial _ _ => none
  | .update t _ new changes => if t = token then some (.update new changes.asDiff) else none
  | .error t => if t = token then some .error else none
  | .suppressed _ _ => none

/-- The results after the notifications. -/
def lastResults (results : Results Int Item) (as : List (Notification Int Item)) :
    Results Int Item :=
  as.foldl (fun results a =>
    match a with
    | .update new _ => new
    | .error => results) results

theorem lastResults_concat
    (results : Results Int Item) (as : List (Notification Int Item))
    (a : Notification Int Item) :
    lastResults results (as ++ [a]) =
      match a with
      | .update new _ => new
      | .error => lastResults results as := by
  rw [lastResults, List.foldl_append]
  cases a <;> rfl

/-- The screen's results are those of the last update. -/
theorem results_eq_lastResults
    {c : ListController Item} {results : Results Int Item}
    {as : List (Notification Int Item)} {s t : Screen Int Item}
    (hs : s.results = results)
    (hrun : run c.step s as = some t) :
    t.results = lastResults results as := by
  induction as generalizing s results with
  | nil =>
      cases hrun
      exact hs
  | cons a as ih =>
      obtain ⟨u, hstep, htail⟩ := run_cons_some.mp hrun
      cases step_notifies hstep with
      | update new changes hdiff hrows => exact ih rfl htail
      | raises new changes hdiff hrows => exact ih rfl htail
      | error =>
          refine ih ?_ htail
          exact hs

theorem results_start
    (c : ListController Item) (opens : Bool) (results : Results Int Item) :
    (c.start opens results).results = results := by
  cases opens <;> rfl

/-- What the owner of the block was told last, from its notifications. -/
theorem told_eq_lastResults
    {token : Nat} {rows : Results Int Item} {front back : List (Event (Int × Item))}
    (hinitial : ∀ rows', .initial token rows' ∉ back)
    (hsuppressed : ∀ rows', .suppressed token rows' ∉ back) :
    told token (front ++ .initial token rows :: back) =
      some (lastResults rows (back.filterMap (notification token))) := by
  induction back using List.reverseRecOn with
  | nil =>
      rw [told_append]
      simp [told, Event.token, Event.rows, lastResults]
  | append_singleton back e ih =>
      have hinitial' : ∀ rows', .initial token rows' ∉ back :=
        fun rows' hmem => hinitial rows' (List.mem_append_left _ hmem)
      have hsuppressed' : ∀ rows', .suppressed token rows' ∉ back :=
        fun rows' hmem => hsuppressed rows' (List.mem_append_left _ hmem)
      have ih := ih hinitial' hsuppressed'
      have hlist : front ++ .initial token rows :: (back ++ [e]) =
          (front ++ .initial token rows :: back) ++ [e] := by
        simp
      rw [hlist, List.filterMap_append]
      by_cases htoken : e.token = token
      · have hlast : e ∈ back ++ [e] := by simp
        rw [told_append]
        cases e with
        | initial t rows' =>
            cases htoken
            exact absurd hlast (hinitial rows')
        | suppressed t rows' =>
            cases htoken
            exact absurd hlast (hsuppressed rows')
        | update t old new changes =>
            cases htoken
            simp [told, Event.token, Event.rows, notification, lastResults_concat]
        | error t =>
            cases htoken
            rw [ih]
            simp [told, Event.token, Event.rows, notification, lastResults_concat]
      · rw [told_of_other (by simpa using htoken), ih]
        have hnone : notification token e = none := by
          cases e with
          | initial t rows' => rfl
          | suppressed t rows' => rfl
          | update t old new changes => exact if_neg htoken
          | error t => exact if_neg htoken
        simp [hnone]

/-- A block that was told of the rows is not told of them again. -/
theorem initial_not_mem_back
    {key : Int × Item → Int} {token : Nat} {rows : Results Int Item}
    {log front back : List (Event (Int × Item))}
    (hsound : SoundLog key log)
    (hlog : log = front ++ .initial token rows :: back)
    (rows' : Results Int Item) :
    .initial token rows' ∉ back := by
  intro hmem
  obtain ⟨b₁, b₂, rfl⟩ := List.append_of_mem hmem
  have hevent := hsound (front ++ .initial token rows :: b₁) (.initial token rows') b₂
    (by rw [hlog]; simp)
  exact hevent.1 rows (by simp)

/-- Invariant: the table view has counted the rows there are. -/
def Counted (c : ListController Item) (s : Screen Int Item) : Prop :=
  s.rows = c.numberOfRows s.container

theorem counted_of_run
    {c : ListController Item} {opens : Bool} {results : Results Int Item}
    {as : List (Notification Int Item)} {s : Screen Int Item}
    (hrun : run c.step (c.start opens results) as = some s) :
    Counted c s := by
  have hfirst : Counted c (c.start opens results) := (inStep_start c opens results).rows
  refine run_invariant ?_ hfirst hrun
  intro s a t h hstep
  cases step_notifies hstep with
  | update new changes hdiff hrows => rfl
  | raises new changes hdiff hrows => exact h
  | error => exact h

/-- What the controller makes of a notification: the table view raises at an update
exactly when the number of results has changed. -/
def Taken (c : ListController Item) (s : Screen Int Item) :
    Notification Int Item → Prop
  | .update new changes =>
      changes.Describes (s.results.map Prod.fst) (new.map Prod.fst) ∧
        ∃ s', c.step s (.update new changes) = some s' ∧
          (s'.raised = false ↔ new.length = s.results.length)
  | .error => ∃ s', c.step s .error = some s' ∧ s'.raised = true

theorem taken_update
    {c : ListController Item} {s : Screen Int Item}
    {new : Results Int Item} {changes : ListDiff}
    (hrows : Counted c s)
    (hraised : s.raised = false)
    (hdiff : changes.Describes (s.results.map Prod.fst) (new.map Prod.fst)) :
    Taken c s (.update new changes) := by
  have hlength := hdiff.length_eq_iff
  rw [List.length_map, List.length_map] at hlength
  have hadd : c.rowsAddUp s changes ↔ new.length = s.results.length := by
    rw [ListController.rowsAddUp, hrows, hlength]
    omega
  refine ⟨hdiff, ?_⟩
  unfold ListController.step
  rw [hraised, if_neg Bool.false_ne_true]
  simp only [if_pos hdiff]
  by_cases hsame : c.rowsAddUp s changes
  · rw [if_pos hsame]
    refine ⟨_, rfl, ?_⟩
    simpa [ListController.reloadData, hraised] using hadd.mp hsame
  · rw [if_neg hsame]
    refine ⟨_, rfl, ?_⟩
    simpa using fun h => hsame (hadd.mpr h)

/-- A list of names. -/
def names : ListController String where
  rowsWithoutContainer := 0
  configure name := .configured name ""

end Notifications

end Lists
end NotVK
