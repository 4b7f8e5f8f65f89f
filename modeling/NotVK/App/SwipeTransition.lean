import NotVK.Library.LabelledRun
import Mathlib.Algebra.Order.Field.Basic
import Mathlib.Data.Rat.Lemmas
import Mathlib.Tactic.NormNum

/-!
# The swipe that closes a screen

`CustomSwipeCloseTransition` is the target of the screen-edge recognizers.  A
gesture is a `.began`, some `.changed` and a closing event; `.ended` finishes or
cancels the pop as `shouldFinish` says, which only `.changed` assigns.

`shouldFinish` therefore survives a gesture.  A gesture without a `.changed` of
its own is closed by the flag that the last earlier `.changed` has left, and
`gesturesHandled_iff` says when that shows.
-/

namespace NotVK
namespace Navigation

universe u v

open Runs

section Model

variable {V : Type u}
variable {K : Type v} [Field K] [LinearOrder K]

/-- Bounds of a recognizer's view; a view without a width gets no touches. -/
structure Bounds (K : Type v) [Zero K] [LT K] where
  width : K
  positive : 0 < width

/-- What a recognizer says when it has changed. -/
structure Change (K : Type v) [Zero K] [LT K] where
  translationY : K
  view : Option (Bounds K)

/-- `UIGestureRecognizer.State`. -/
inductive RecognizerState (K : Type v) [Zero K] [LT K] where
  | possible
  | began
  | changed (change : Change K)
  | ended
  | cancelled
  | failed

/-- Calls to the navigation controller of `viewController` and to the transition. -/
inductive Call (V : Type u) (K : Type v) where
  | popViewController (viewController : Option V)
  | update (progress : K)
  | finish
  | cancel
deriving DecidableEq

structure CustomSwipeCloseTransition (V : Type u) where
  viewController : Option V
  hasStarted : Bool
  shouldFinish : Bool
deriving DecidableEq

def CustomSwipeCloseTransition.initial
    (viewController : Option V) : CustomSwipeCloseTransition V where
  viewController := viewController
  hasStarted := false
  shouldFinish := false

/--
Assign `viewController`: its `didSet` adds a recognizer to the controller's view.
`recognizers` counts those that target the transition, on every view.
-/
def CustomSwipeCloseTransition.setViewController [DecidableEq V]
    (self : CustomSwipeCloseTransition V) (recognizers : V → Nat)
    (newValue : Option V) : CustomSwipeCloseTransition V × (V → Nat) :=
  match newValue with
  | none => ({ self with viewController := none }, recognizers)
  | some viewController =>
      ({ self with viewController := some viewController },
        Function.update recognizers viewController
          (recognizers viewController + 1))

def Change.progress (change : Change K) : K :=
  let relativeTranslation :=
    change.translationY / (change.view.map Bounds.width).getD 1
  max 0 (min 1 relativeTranslation)

/-- The progress is above 0.33. -/
def Change.isLong (change : Change K) : Bool :=
  decide ((33 : K) / 100 < change.progress)

/-- `handleScreenEdgeGesture(_:)`, with the calls it makes. -/
def handleScreenEdgeGesture
    (self : CustomSwipeCloseTransition V) :
    RecognizerState K → CustomSwipeCloseTransition V × List (Call V K)
  | .began =>
      ({ self with hasStarted := true },
        [.popViewController self.viewController])
  | .changed change =>
      ({ self with shouldFinish := change.isLong }, [.update change.progress])
  | .ended =>
      ({ self with hasStarted := false },
        [if self.shouldFinish then .finish else .cancel])
  | .cancelled => ({ self with hasStarted := false }, [.cancel])
  | .possible => (self, [])
  | .failed => (self, [])

def handleAll
    (self : CustomSwipeCloseTransition V) :
    List (RecognizerState K) → CustomSwipeCloseTransition V × List (Call V K)
  | [] => (self, [])
  | state :: states =>
      let next := handleScreenEdgeGesture self state
      let last := handleAll next.1 states
      (last.1, next.2 ++ last.2)

inductive Closing where
  | ended
  | cancelled
deriving DecidableEq

def Closing.state : Closing → RecognizerState K
  | .ended => .ended
  | .cancelled => .cancelled

structure Gesture (K : Type v) [Zero K] [LT K] where
  changes : List (Change K)
  closing : Closing

/-- The events of a gesture before the closing one. -/
def Gesture.opening (gesture : Gesture K) : List (RecognizerState K) :=
  .began :: gesture.changes.map .changed

def Gesture.events (gesture : Gesture K) : List (RecognizerState K) :=
  gesture.opening ++ [gesture.closing.state]

/-- A gesture as one step. -/
def step
    (self : CustomSwipeCloseTransition V) (gesture : Gesture K) :
    Option (CustomSwipeCloseTransition V) :=
  some (handleAll self gesture.events).1

end Model

section Specification

variable {V : Type u}
variable {K : Type v} [Field K] [LinearOrder K]

def Call.isClosing : Call V K → Bool
  | .popViewController _ => false
  | .update _ => false
  | .finish => true
  | .cancel => true

/-- The calls of `finish()` and `cancel()`. -/
def closings (calls : List (Call V K)) : List (Call V K) :=
  calls.filter Call.isClosing

/-- The gesture itself asks for the pop to be finished. -/
def Gesture.Finishes (gesture : Gesture K) : Prop :=
  gesture.closing = .ended ∧
    ∃ change, gesture.changes.getLast? = some change ∧
      (33 : K) / 100 < change.progress

/-- A gesture that is handled by its own events. -/
structure Handled
    (before : CustomSwipeCloseTransition V) (gesture : Gesture K)
    (after : CustomSwipeCloseTransition V) : Prop where
  idle : before.hasStarted = false
  started : ∀ states, states <+: gesture.opening → states ≠ [] →
    (handleAll before states).1.hasStarted = true
  quiet : closings (handleAll before gesture.opening).2 = []
  closed : ∃ call, closings (handleAll before gesture.events).2 = [call] ∧
    (call = .finish ↔ gesture.Finishes)
  stopped : after.hasStarted = false

/-- The value of the flag after some changes. -/
def flagAfter (changes : List (Change K)) (before : Bool) : Bool :=
  (changes.getLast?.map Change.isLong).getD before

end Specification

section OneGesture

variable {V : Type u}
variable {K : Type v} [Field K] [LinearOrder K]

theorem handleAll_append
    (self : CustomSwipeCloseTransition V)
    (first second : List (RecognizerState K)) :
    handleAll self (first ++ second) =
      ((handleAll (handleAll self first).1 second).1,
        (handleAll self first).2 ++
          (handleAll (handleAll self first).1 second).2) := by
  induction first generalizing self with
  | nil =>
      rfl
  | cons state first ih =>
      rw [List.cons_append, handleAll, ih, handleAll]
      simp only [List.append_assoc]

theorem flagAfter_cons
    (change : Change K) (changes : List (Change K)) (before : Bool) :
    flagAfter (change :: changes) before =
      flagAfter changes change.isLong := by
  rw [flagAfter, flagAfter, List.getLast?_cons]
  cases changes.getLast? <;> rfl

theorem flagAfter_append
    (first second : List (Change K)) (before : Bool) :
    flagAfter (first ++ second) before =
      flagAfter second (flagAfter first before) := by
  induction first generalizing before with
  | nil =>
      rfl
  | cons change first ih =>
      rw [List.cons_append, flagAfter_cons, ih, flagAfter_cons]

/-- Changes set the flag and close nothing. -/
theorem handleAll_changes
    (self : CustomSwipeCloseTransition V) (changes : List (Change K)) :
    handleAll self (changes.map .changed) =
      ({ self with shouldFinish := flagAfter changes self.shouldFinish },
        changes.map (fun change => .update change.progress)) := by
  induction changes generalizing self with
  | nil =>
      rfl
  | cons change changes ih =>
      rw [List.map_cons, handleAll, handleScreenEdgeGesture, ih,
        flagAfter_cons]
      rfl

theorem handleAll_opening
    (self : CustomSwipeCloseTransition V) (gesture : Gesture K) :
    handleAll self gesture.opening =
      ({ self with
          hasStarted := true
          shouldFinish := flagAfter gesture.changes self.shouldFinish },
        .popViewController self.viewController ::
          gesture.changes.map (fun change => .update change.progress)) := by
  rw [Gesture.opening, handleAll, handleScreenEdgeGesture, handleAll_changes]
  rfl

theorem closings_updates (changes : List (Change K)) :
    closings (changes.map (fun change =>
      (.update change.progress : Call V K))) = [] := by
  rw [closings, List.filter_eq_nil_iff]
  intro call hcall
  obtain ⟨change, _, rfl⟩ := List.mem_map.mp hcall
  simp [Call.isClosing]

theorem step_eq_some
    (self : CustomSwipeCloseTransition V) (gesture : Gesture K) :
    step self gesture =
      some { self with
        hasStarted := false
        shouldFinish := flagAfter gesture.changes self.shouldFinish } := by
  rw [step, Gesture.events, handleAll_append, handleAll_opening]
  cases hclosing : gesture.closing <;> rfl

/-- The closing call of a gesture. -/
theorem closings_events
    (self : CustomSwipeCloseTransition V) (gesture : Gesture K) :
    closings (handleAll self gesture.events).2 =
      [if gesture.closing = .ended ∧
          flagAfter gesture.changes self.shouldFinish = true
        then .finish else .cancel] := by
  rw [Gesture.events, handleAll_append, handleAll_opening, closings,
    List.cons_append, List.filter_cons_of_neg (by simp [Call.isClosing]),
    List.filter_append, ← closings, closings_updates, List.nil_append]
  cases hclosing : gesture.closing with
  | ended =>
      simp only [Closing.state, handleAll, handleScreenEdgeGesture, true_and]
      split <;> simp [*, Call.isClosing]
  | cancelled =>
      simp [Closing.state, handleAll, handleScreenEdgeGesture, Call.isClosing]

theorem hasStarted_of_opening
    (self : CustomSwipeCloseTransition V) (gesture : Gesture K)
    {states : List (RecognizerState K)}
    (hopening : states <+: gesture.opening) (hne : states ≠ []) :
    (handleAll self states).1.hasStarted = true := by
  rw [Gesture.opening] at hopening
  rcases List.prefix_cons_iff.mp hopening with rfl | ⟨rest, rfl, hrest⟩
  · exact absurd rfl hne
  · obtain ⟨changes, _, rfl⟩ := List.prefix_map_iff.mp hrest
    rw [handleAll, handleScreenEdgeGesture, handleAll_changes]

/-- Only a bare `.ended` can be closed by an old flag. -/
theorem handled_iff
    {self : CustomSwipeCloseTransition V}
    (hidle : self.hasStarted = false)
    {gesture : Gesture K} {self' : CustomSwipeCloseTransition V}
    (hstep : step self gesture = some self') :
    Handled self gesture self'
      ↔
    (gesture.changes = [] → gesture.closing = .ended →
      self.shouldFinish = false) := by
  have hclosings := closings_events self gesture
  constructor
  · intro h hbare hended
    obtain ⟨call, hcall, hiff⟩ := h.closed
    have hnot : ¬ gesture.Finishes := by
      rintro ⟨_, change, hlast, _⟩
      rw [hbare] at hlast
      cases hlast
    rw [hclosings, List.cons.injEq] at hcall
    rw [← hcall.1, hbare] at hiff
    by_contra hflag
    simp [hended, flagAfter, hflag, hnot] at hiff
  · intro h
    rw [step_eq_some] at hstep
    cases hstep
    refine
      { idle := hidle
        started := fun states => hasStarted_of_opening self gesture
        quiet := ?_
        closed := ⟨_, hclosings, ?_⟩
        stopped := rfl }
    · rw [handleAll_opening, closings,
        List.filter_cons_of_neg (by simp [Call.isClosing])]
      exact closings_updates gesture.changes
    · rw [Gesture.Finishes, flagAfter]
      cases hlast : gesture.changes.getLast? with
      | none =>
          have hbare := List.getLast?_eq_none_iff.mp hlast
          by_cases hended : gesture.closing = .ended
          · simp [hended, h hbare hended]
          · simp [hended]
      | some change =>
          simp [Change.isLong]

end OneGesture

section WholeRuns

variable {V : Type u}
variable {K : Type v} [Field K] [LinearOrder K]

/-- Between gestures the flag is the one of the last change so far. -/
structure IdleAfter
    (gestures : List (Gesture K))
    (transition : CustomSwipeCloseTransition V) : Prop where
  idle : transition.hasStarted = false
  flag : transition.shouldFinish =
    flagAfter (gestures.flatMap Gesture.changes) false

theorem idleAfter_initial (viewController : Option V) :
    IdleAfter ([] : List (Gesture K))
      (CustomSwipeCloseTransition.initial viewController) where
  idle := rfl
  flag := rfl

theorem idleAfter_step
    (pre : List (Gesture K)) (self : CustomSwipeCloseTransition V)
    (gesture : Gesture K) (self' : CustomSwipeCloseTransition V)
    (h : IdleAfter pre self)
    (hstep : step self gesture = some self') :
    IdleAfter (pre ++ [gesture]) self' := by
  rw [step_eq_some] at hstep
  cases hstep
  refine ⟨rfl, ?_⟩
  rw [List.flatMap_append, List.flatMap_singleton, flagAfter_append, ← h.flag]

theorem idleAfter_run
    {viewController : Option V} {gestures : List (Gesture K)}
    {self : CustomSwipeCloseTransition V}
    (hrun : run step (CustomSwipeCloseTransition.initial viewController)
      gestures = some self) :
    IdleAfter gestures self :=
  run_history idleAfter_step (idleAfter_initial viewController) hrun

/-- The flag is down when there was no change or the last one was short. -/
theorem flagAfter_eq_false_iff (changes : List (Change K)) :
    flagAfter changes false = false
      ↔
    ∀ change, changes.getLast? = some change →
      change.progress ≤ (33 : K) / 100 := by
  rw [flagAfter]
  cases changes.getLast? with
  | none =>
      simp
  | some change =>
      simp [Change.isLong]

theorem exists_run
    (self : CustomSwipeCloseTransition V) (gestures : List (Gesture K)) :
    ∃ last, run step self gestures = some last := by
  induction gestures generalizing self with
  | nil =>
      exact ⟨self, rfl⟩
  | cons gesture gestures ih =>
      obtain ⟨last, hlast⟩ := ih (handleAll self gesture.events).1
      exact ⟨last, run_cons_some.mpr ⟨_, rfl, hlast⟩⟩

/--
**Every gesture is handled by its own events if and only if no bare tap follows
a long last change.**
-/
theorem gesturesHandled_iff
    (viewController : Option V) (gestures : List (Gesture K)) :
    EveryStep step Handled (CustomSwipeCloseTransition.initial viewController)
        gestures
      ↔
    ∀ pre gesture post, gestures = pre ++ gesture :: post →
      gesture.changes = [] → gesture.closing = .ended →
        ∀ change, (pre.flatMap Gesture.changes).getLast? = some change →
          change.progress ≤ (33 : K) / 100 := by
  constructor
  · rintro h pre gesture post rfl hbare hended
    obtain ⟨self, hpre⟩ := exists_run
      (CustomSwipeCloseTransition.initial viewController) pre
    have hbefore := idleAfter_run hpre
    have hhandled := h.at_split hpre (step_eq_some self gesture)
    have hflag := (handled_iff hbefore.idle (step_eq_some self gesture)).mp
      hhandled hbare hended
    rwa [hbefore.flag, flagAfter_eq_false_iff] at hflag
  · intro h
    apply everyStep_of_split
    intro pre gesture post self self' hsplit hpre hstep
    have hbefore := idleAfter_run hpre
    rw [handled_iff hbefore.idle hstep, hbefore.flag]
    intro hbare hended
    rw [flagAfter_eq_false_iff]
    exact h pre gesture post hsplit hbare hended

/-- A long swipe that is cancelled, then a tap on the edge. -/
def swipeThenTap : List (Gesture ℚ) :=
  [{ changes := [⟨300, some ⟨320, by norm_num⟩⟩], closing := .cancelled },
    { changes := [], closing := .ended }]

/-- The tap finishes the pop. -/
theorem swipeThenTap_not_handled :
    ¬ EveryStep step Handled
        (CustomSwipeCloseTransition.initial (none : Option Nat))
        swipeThenTap := by
  intro h
  obtain ⟨_, hrest⟩ := h _ (step_eq_some _ _)
  obtain ⟨hhandled, _⟩ := hrest _ (step_eq_some _ _)
  have hflag := (handled_iff rfl (step_eq_some _ _)).mp hhandled rfl rfl
  revert hflag
  decide +kernel

end WholeRuns

end Navigation
end NotVK
