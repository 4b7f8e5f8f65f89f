import Mathlib.Algebra.Order.Group.Abs
import NotVK.Library.LabelledRun
import NotVK.Library.NotificationCenter
import NotVK.App.FriendsPhotosLayouts

/-!
# The keyboard of the login screen

`LoginWKViewController` keeps the web view above the keyboard by the constant of
its bottom constraint.  `viewDidLoad` adds three observers: `keyboardWasShown`
for `keyboardWillShow` and for `keyboardDidChangeFrame`, and
`keyboardWillBeHidden` for `keyboardWillHide`.

The keyboard's frame also changes when it goes away, to one below the screen
with the same height.  So `keyboardWasShown` runs after `keyboardWillBeHidden`
and has the last word.
-/

namespace NotVK
namespace Keyboard

open Runs Notifications PhotoLayout

universe u

section Model

/-- The names that the controller observes. -/
inductive NotificationName where
  | keyboardWillShow
  | keyboardDidChangeFrame
  | keyboardWillHide
deriving DecidableEq

inductive Selector where
  | keyboardWasShown
  | keyboardWillBeHidden
deriving DecidableEq

/-- The value under `keyboardFrameEndUserInfoKey`, if there is one. -/
structure UserInfo (K : Type u) where
  keyboardFrameEnd : Option (CGRect K)

structure Notification (K : Type u) where
  name : NotificationName
  userInfo : Option (UserInfo K)

structure NSLayoutConstraint (K : Type u) where
  constant : K

/-- The constraint of the controller and the observers it has added. -/
structure LoginWKViewController (K : Type u) where
  bottomConstraint : NSLayoutConstraint K
  observers : Center NotificationName Selector

variable {K : Type u} [AddCommGroup K] [LinearOrder K]

/-- The property `height` of a rectangle, which is not negative. -/
def height (frame : CGRect K) : K := |frame.height|

/-- The controller as the storyboard makes it. -/
def LoginWKViewController.initial : LoginWKViewController K where
  bottomConstraint := { constant := 0 }
  observers := []

variable (controller : LoginWKViewController K)

def LoginWKViewController.viewDidLoad : LoginWKViewController K :=
  let observers := controller.observers
  let observers :=
    addObserver observers .keyboardWillShow .keyboardWasShown
  let observers :=
    addObserver observers .keyboardDidChangeFrame .keyboardWasShown
  let observers :=
    addObserver observers .keyboardWillHide .keyboardWillBeHidden
  { controller with observers := observers }

/-- It leaves the observer of `keyboardDidChangeFrame`. -/
def LoginWKViewController.viewWillDisappear : LoginWKViewController K :=
  let observers := removeObserver controller.observers .keyboardWillShow
  let observers := removeObserver observers .keyboardWillHide
  { controller with observers := observers }

def LoginWKViewController.setConstant (constant : K) :
    LoginWKViewController K :=
  { controller with bottomConstraint := { constant := constant } }

/-- `keyboardWasShown(notification:)`; a forced cast may trap. -/
def LoginWKViewController.keyboardWasShown
    (notification : Notification K) : Option (LoginWKViewController K) :=
  match notification.userInfo with
  | none => none
  | some userInfo =>
      match userInfo.keyboardFrameEnd with
      | none => none
      | some frame => some (controller.setConstant (height frame))

/-- `keyboardWillBeHidden(notification:)`. -/
def LoginWKViewController.keyboardWillBeHidden : LoginWKViewController K :=
  controller.setConstant 0

def LoginWKViewController.perform
    (notification : Notification K) :
    Selector → Option (LoginWKViewController K)
  | .keyboardWasShown => controller.keyboardWasShown notification
  | .keyboardWillBeHidden => some controller.keyboardWillBeHidden

/-- What a posted notification does to the controller. -/
def LoginWKViewController.receive
    (notification : Notification K) : Option (LoginWKViewController K) :=
  post (fun controller => controller.perform notification)
    controller.observers notification.name controller

end Model

section Screen

/-- A frame of the keyboard on the screen; the keyboard has some height. -/
structure KeyboardFrame (K : Type u) [Zero K] where
  frame : CGRect K
  height_ne_zero : frame.height ≠ 0

variable {K : Type u} [AddCommGroup K] [LinearOrder K]

/-- The keyboard appears with this frame, changes to this frame, or goes away to
this place with the size it has. -/
inductive Transition (K : Type u) [Zero K] where
  | shows (frame : KeyboardFrame K)
  | resizes (frame : KeyboardFrame K)
  | hides (x y : K)

/-- The login screen and the keyboard over it. -/
structure Screen (K : Type u) [Zero K] where
  controller : LoginWKViewController K
  keyboard : Option (KeyboardFrame K)

def Screen.initial : Screen K where
  controller := LoginWKViewController.initial.viewDidLoad
  keyboard := none

def frameNotification
    (name : NotificationName) (frame : CGRect K) : Notification K where
  name := name
  userInfo := some { keyboardFrameEnd := some frame }

/-- Notifications that UIKit posts, in order, and the keyboard afterwards. -/
def posted (keyboard : Option (KeyboardFrame K)) :
    Transition K → Option (List (Notification K) × Option (KeyboardFrame K))
  | .shows shown =>
      match keyboard with
      | none =>
          some
            ([frameNotification .keyboardWillShow shown.frame,
              frameNotification .keyboardDidChangeFrame shown.frame],
              some shown)
      | some _ => none
  | .resizes shown =>
      match keyboard with
      | some _ =>
          some
            ([frameNotification .keyboardWillShow shown.frame,
              frameNotification .keyboardDidChangeFrame shown.frame],
              some shown)
      | none => none
  | .hides x y =>
      match keyboard with
      | some shown =>
          let below : CGRect K := { shown.frame with x := x, y := y }
          some
            ([frameNotification .keyboardWillHide below,
              frameNotification .keyboardDidChangeFrame below],
              none)
      | none => none

/-- One transition of the keyboard with all its notifications. -/
def step (s : Screen K) (a : Transition K) : Option (Screen K) :=
  match posted s.keyboard a with
  | none => none
  | some (notifications, keyboard) =>
      (notifications.foldlM LoginWKViewController.receive s.controller).map
        fun controller => { controller := controller, keyboard := keyboard }

/-- Height of the keyboard on the screen. -/
def Screen.keyboardHeight (s : Screen K) : K :=
  match s.keyboard with
  | some shown => height shown.frame
  | none => 0

/-- The web view ends where the keyboard begins. -/
def Screen.FitsKeyboard (s : Screen K) : Prop :=
  s.controller.bottomConstraint.constant = s.keyboardHeight

def Transition.GoesAway : Transition K → Prop
  | .hides _ _ => True
  | _ => False

end Screen

section Receive

variable {K : Type u} [AddCommGroup K] [LinearOrder K]

/-- Observers of a login screen that is visible. -/
structure LoginWKViewController.Observes
    (controller : LoginWKViewController K) : Prop where
  willShow : selectors controller.observers .keyboardWillShow =
    [.keyboardWasShown]
  didChangeFrame : selectors controller.observers .keyboardDidChangeFrame =
    [.keyboardWasShown]
  willHide : selectors controller.observers .keyboardWillHide =
    [.keyboardWillBeHidden]

omit [LinearOrder K] in
theorem observes_viewDidLoad :
    (LoginWKViewController.initial.viewDidLoad :
      LoginWKViewController K).Observes where
  willShow := by
    rw [LoginWKViewController.viewDidLoad,
      selectors_addObserver_of_ne (by simp),
      selectors_addObserver_of_ne (by simp), selectors_addObserver_self]
    rfl
  didChangeFrame := by
    rw [LoginWKViewController.viewDidLoad,
      selectors_addObserver_of_ne (by simp), selectors_addObserver_self,
      selectors_addObserver_of_ne (by simp)]
    rfl
  willHide := by
    rw [LoginWKViewController.viewDidLoad, selectors_addObserver_self,
      selectors_addObserver_of_ne (by simp),
      selectors_addObserver_of_ne (by simp)]
    rfl

variable {controller : LoginWKViewController K}

omit [AddCommGroup K] [LinearOrder K] in
theorem observes_setConstant
    (h : controller.Observes) (constant : K) :
    (controller.setConstant constant).Observes :=
  ⟨h.willShow, h.didChangeFrame, h.willHide⟩

theorem receive_willShow
    (h : controller.Observes) (frame : CGRect K) :
    controller.receive (frameNotification .keyboardWillShow frame) =
      some (controller.setConstant (height frame)) :=
  post_of_selectors_singleton h.willShow

theorem receive_didChangeFrame
    (h : controller.Observes) (frame : CGRect K) :
    controller.receive (frameNotification .keyboardDidChangeFrame frame) =
      some (controller.setConstant (height frame)) :=
  post_of_selectors_singleton h.didChangeFrame

theorem receive_willHide
    (h : controller.Observes) (frame : CGRect K) :
    controller.receive (frameNotification .keyboardWillHide frame) =
      some (controller.setConstant 0) :=
  post_of_selectors_singleton h.willHide

/-- A screen that has disappeared hears of frames and of nothing else. -/
theorem receive_viewWillDisappear
    (h : controller.Observes) (frame : CGRect K) :
    controller.viewWillDisappear.receive
        (frameNotification .keyboardWillShow frame) =
      some controller.viewWillDisappear ∧
    controller.viewWillDisappear.receive
        (frameNotification .keyboardWillHide frame) =
      some controller.viewWillDisappear ∧
    controller.viewWillDisappear.receive
        (frameNotification .keyboardDidChangeFrame frame) =
      some (controller.viewWillDisappear.setConstant (height frame)) := by
  have hshow : selectors controller.viewWillDisappear.observers
      .keyboardWillShow = [] :=
    (selectors_removeObserver_of_ne (by simp)).trans
      selectors_removeObserver_self
  have hhide : selectors controller.viewWillDisappear.observers
      .keyboardWillHide = [] :=
    selectors_removeObserver_self
  have hframe : selectors controller.viewWillDisappear.observers
      .keyboardDidChangeFrame = [.keyboardWasShown] :=
    (selectors_removeObserver_of_ne (by simp)).trans
      ((selectors_removeObserver_of_ne (by simp)).trans h.didChangeFrame)
  exact ⟨post_of_selectors_nil hshow, post_of_selectors_nil hhide,
    post_of_selectors_singleton hframe⟩

/-- The last notification of a transition sets the constant. -/
theorem receive_then_didChangeFrame
    (h : controller.Observes) {first : Notification K} {constant : K}
    (hfirst : controller.receive first =
      some (controller.setConstant constant)) (frame : CGRect K) :
    [first, frameNotification .keyboardDidChangeFrame frame].foldlM
        LoginWKViewController.receive controller =
      some (controller.setConstant (height frame)) := by
  have hsecond :=
    receive_didChangeFrame (observes_setConstant h constant) frame
  simp only [List.foldlM_cons, List.foldlM_nil, hfirst]
  exact (congrArg (fun r => r.bind some) hsecond)

end Receive

section Runs

variable {K : Type u} [AddCommGroup K] [LinearOrder K]

/-- A transition that shows a frame leaves its height in the constant, and one
that takes the keyboard away does so too. -/
theorem step_cases
    {s t : Screen K} {a : Transition K}
    (h : s.controller.Observes)
    (hstep : step s a = some t) :
    (∃ shown, ¬ a.GoesAway ∧
      t = ⟨s.controller.setConstant (height shown.frame), some shown⟩) ∨
    (∃ shown, a.GoesAway ∧ s.keyboard = some shown ∧
      t = ⟨s.controller.setConstant (height shown.frame), none⟩) := by
  cases a with
  | shows shown =>
      left
      cases hkeyboard : s.keyboard with
      | some old => simp [step, posted, hkeyboard] at hstep
      | none =>
          simp only [step, posted, hkeyboard, receive_then_didChangeFrame h
            (receive_willShow h shown.frame)] at hstep
          cases hstep
          exact ⟨shown, id, rfl⟩
  | resizes shown =>
      left
      cases hkeyboard : s.keyboard with
      | none => simp [step, posted, hkeyboard] at hstep
      | some old =>
          simp only [step, posted, hkeyboard, receive_then_didChangeFrame h
            (receive_willShow h shown.frame)] at hstep
          cases hstep
          exact ⟨shown, id, rfl⟩
  | hides x y =>
      right
      cases hkeyboard : s.keyboard with
      | none => simp [step, posted, hkeyboard] at hstep
      | some shown =>
          simp only [step, posted, hkeyboard, receive_then_didChangeFrame h
            (receive_willHide h _)] at hstep
          cases hstep
          exact ⟨shown, trivial, rfl, rfl⟩

theorem observes_step
    {s t : Screen K} {a : Transition K}
    (h : s.controller.Observes)
    (hstep : step s a = some t) :
    t.controller.Observes := by
  rcases step_cases h hstep with ⟨shown, _, rfl⟩ | ⟨shown, _, _, rfl⟩
  · exact observes_setConstant h _
  · exact observes_setConstant h _

variable [IsOrderedAddMonoid K]

/-- A transition leaves the constant right unless the keyboard goes away. -/
theorem fitsKeyboard_step_iff
    {s t : Screen K} {a : Transition K}
    (h : s.controller.Observes)
    (hstep : step s a = some t) :
    t.FitsKeyboard
      ↔
    ¬ a.GoesAway := by
  rcases step_cases h hstep with ⟨shown, haway, rfl⟩ | ⟨shown, haway, _, rfl⟩
  · exact iff_of_true rfl haway
  · refine iff_of_false ?_ (not_not_intro haway)
    exact abs_ne_zero.mpr shown.height_ne_zero

theorem fitsKeyboard_everyStep_iff
    {s t : Screen K} {as : List (Transition K)}
    (h : s.controller.Observes)
    (hrun : run step s as = some t) :
    EveryStep step (fun _ _ u => u.FitsKeyboard) s as
      ↔
    ∀ a ∈ as, ¬ a.GoesAway := by
  induction as generalizing s with
  | nil =>
      simp
  | cons a as ih =>
      obtain ⟨u, hstep, htail⟩ := run_cons_some.mp hrun
      rw [everyStep_cons hstep, fitsKeyboard_step_iff h hstep,
        ih (observes_step h hstep) htail, List.forall_mem_cons]

/--
**After every transition of a run the constant is the height of the keyboard on
the screen if and only if the keyboard never goes away.**
-/
theorem constant_eq_keyboardHeight_iff
    {as : List (Transition K)} {s : Screen K}
    (hrun : run step Screen.initial as = some s) :
    EveryStep step
        (fun _ _ t =>
          t.controller.bottomConstraint.constant = t.keyboardHeight)
        Screen.initial as
      ↔
    ∀ a ∈ as, ¬ a.GoesAway :=
  fitsKeyboard_everyStep_iff observes_viewDidLoad hrun

/-- A keyboard of a phone. -/
def phoneKeyboard : KeyboardFrame Int where
  frame := ⟨0, 508, 375, 304⟩
  height_ne_zero := by decide

theorem constant_eq_keyboardHeight_iff_show :
    EveryStep step
        (fun _ _ t =>
          t.controller.bottomConstraint.constant = t.keyboardHeight)
        Screen.initial
        [.shows phoneKeyboard, .resizes ⟨⟨0, 462, 375, 350⟩, by decide⟩]
      ↔
    ∀ a ∈ ([.shows phoneKeyboard, .resizes ⟨⟨0, 462, 375, 350⟩, by decide⟩] :
      List (Transition Int)), ¬ a.GoesAway :=
  constant_eq_keyboardHeight_iff (s := ⟨_, _⟩) rfl

/-- After the keyboard has gone the constant is what it was. -/
theorem constant_after_hide :
    ∃ s : Screen Int,
      run step Screen.initial [.shows phoneKeyboard, .hides 0 812] = some s ∧
      s.keyboardHeight = 0 ∧
      s.controller.bottomConstraint.constant = 304 ∧
      ¬ EveryStep step
        (fun _ _ t =>
          t.controller.bottomConstraint.constant = t.keyboardHeight)
        Screen.initial [.shows phoneKeyboard, .hides 0 812] := by
  have hrun : run step Screen.initial
      [.shows phoneKeyboard, .hides 0 812] =
        some ⟨LoginWKViewController.initial.viewDidLoad.setConstant 304,
          none⟩ := rfl
  refine ⟨_, hrun, rfl, rfl, ?_⟩
  intro h
  exact (fitsKeyboard_everyStep_iff observes_viewDidLoad hrun).mp h
    (.hides 0 812) (by simp) trivial

end Runs

end Keyboard
end NotVK
