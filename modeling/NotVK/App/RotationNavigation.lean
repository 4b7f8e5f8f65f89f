import NotVK.App.SwipeTransition
import Mathlib.Data.List.Induction
import Mathlib.Data.List.Nodup
import Mathlib.Tactic.Tauto

/-!
# Recognizers in a rotation navigation controller

`RotationNavigationController` hands the controller of every push, and of every
pop that does not land on the root, to its transition, whose `didSet` adds a
screen-edge recognizer to that controller's view.  Nothing takes one away.

A push brings the first recognizer of a new controller; a pop to a controller
that was pushed before brings a second one.
-/

namespace NotVK
namespace Navigation

universe u

open Runs

section Model

variable {V : Type u} [DecidableEq V]

/-- `UINavigationController.Operation`. -/
inductive Operation where
  | none
  | push
  | pop
deriving DecidableEq

inductive Animator where
  | rotationPush
  | rotationPop
deriving DecidableEq

/-- The stack, root first, and the recognizers on the controllers' views. -/
structure RotationNavigationController (V : Type u) where
  viewControllers : List V
  recognizers : V → Nat
  interactiveTransition : CustomSwipeCloseTransition V

def RotationNavigationController.initial (root : V) :
    RotationNavigationController V where
  viewControllers := [root]
  recognizers := fun _ => 0
  interactiveTransition := CustomSwipeCloseTransition.initial none

/-- `interactiveTransition.viewController = toVC`. -/
def RotationNavigationController.setTransitionTarget
    (self : RotationNavigationController V) (toVC : V) :
    RotationNavigationController V :=
  let assigned := self.interactiveTransition.setViewController
    self.recognizers (some toVC)
  { self with
    recognizers := assigned.2
    interactiveTransition := assigned.1 }

/-- `navigationController(_:animationControllerFor:from:to:)`. -/
def RotationNavigationController.animationControllerFor
    (self : RotationNavigationController V) (operation : Operation)
    (toVC : V) : RotationNavigationController V × Option Animator :=
  match operation with
  | .push => (self.setTransitionTarget toVC, some .rotationPush)
  | .pop =>
      (if self.viewControllers.head? ≠ some toVC
        then self.setTransitionTarget toVC
        else self, some .rotationPop)
  | .none => (self, none)

/--
Animated transitions: a push, a pop that is completed with `index` as the new
top of the stack, and an interactive pop that is cancelled.
-/
inductive Action (V : Type u) where
  | push (toVC : V)
  | pop (index : Nat)
  | cancelledPop
deriving DecidableEq

/-- The stack is cut behind `index`, and the delegate is asked. -/
def RotationNavigationController.popTo
    (self : RotationNavigationController V) (index : Nat) :
    Option (RotationNavigationController V) :=
  if index + 1 < self.viewControllers.length then
    (self.viewControllers[index]?).map (fun toVC =>
      ({ self with viewControllers := self.viewControllers.take (index + 1) }
        |>.animationControllerFor .pop toVC).1)
  else none

/-- A transition of the navigation controller; UIKit refuses a second push. -/
def RotationNavigationController.step
    (self : RotationNavigationController V) :
    Action V → Option (RotationNavigationController V)
  | .push toVC =>
      if toVC ∈ self.viewControllers then none
      else some ({ self with viewControllers := self.viewControllers ++ [toVC] }
        |>.animationControllerFor .push toVC).1
  | .pop index => self.popTo index
  | .cancelledPop =>
      (self.popTo (self.viewControllers.length - 2)).map (fun popped =>
        { popped with viewControllers := self.viewControllers })

end Model

section Invariant

variable {V : Type u} [DecidableEq V]

/-- The controllers pushed so far. -/
def pushed (actions : List (Action V)) : List V :=
  actions.filterMap (fun action =>
    match action with
    | .push toVC => some toVC
    | .pop _ => none
    | .cancelledPop => none)

/-- The visible controller, unless it is the root, has one recognizer. -/
def OneRecognizer (self : RotationNavigationController V) : Prop :=
  ∀ visible, self.viewControllers.getLast? = some visible →
    self.viewControllers.head? ≠ some visible →
      self.recognizers visible = 1

/-- What every history of pushes and pops leaves behind. -/
structure StackAfter
    (root : V) (actions : List (Action V))
    (navigation : RotationNavigationController V) : Prop where
  bottom : navigation.viewControllers.head? = some root
  nodup : navigation.viewControllers.Nodup
  onStack : ∀ v ∈ navigation.viewControllers, v = root ∨ v ∈ pushed actions
  fresh : ∀ v, v ∉ pushed actions → navigation.recognizers v = 0
  counted : ∀ v ∈ pushed actions, 1 ≤ navigation.recognizers v

/-- A push puts a controller on the stack and a recognizer on its view. -/
theorem step_push
    {self self' : RotationNavigationController V} {toVC : V}
    (hstep : self.step (.push toVC) = some self') :
    toVC ∉ self.viewControllers ∧
    self'.viewControllers = self.viewControllers ++ [toVC] ∧
    self'.recognizers =
      Function.update self.recognizers toVC (self.recognizers toVC + 1) := by
  rw [RotationNavigationController.step] at hstep
  split at hstep
  · cases hstep
  · next hmem =>
      cases hstep
      exact ⟨hmem, rfl, rfl⟩

/-- A pop cuts the stack; only the root is spared a recognizer. -/
theorem popTo_eq_some
    {self self' : RotationNavigationController V} {index : Nat}
    (hpop : self.popTo index = some self') :
    ∃ toVC, self.viewControllers[index]? = some toVC ∧
      index + 1 < self.viewControllers.length ∧
      self'.viewControllers = self.viewControllers.take (index + 1) ∧
      self'.recognizers =
        if self.viewControllers.head? ≠ some toVC then
          Function.update self.recognizers toVC (self.recognizers toVC + 1)
        else self.recognizers := by
  rw [RotationNavigationController.popTo] at hpop
  split at hpop
  · next hindex =>
      obtain ⟨toVC, htoVC, rfl⟩ := Option.map_eq_some_iff.mp hpop
      refine ⟨toVC, htoVC, hindex, ?_, ?_⟩
      · dsimp only [RotationNavigationController.animationControllerFor]
        split <;> rfl
      · dsimp only [RotationNavigationController.animationControllerFor]
        rw [List.head?_take, if_neg (Nat.succ_ne_zero index)]
        split <;> rfl
  · cases hpop

/-- Only the controller that a pop lands on can get a recognizer. -/
theorem popTo_recognizers_of_ne
    {self self' : RotationNavigationController V} {index : Nat} {v : V}
    (hpop : self.popTo index = some self')
    (hv : self.viewControllers[index]? ≠ some v) :
    self'.recognizers v = self.recognizers v := by
  obtain ⟨toVC, htoVC, _, _, hrecognizers⟩ := popTo_eq_some hpop
  rw [hrecognizers]
  split
  · rw [Function.update_of_ne]
    rintro rfl
    exact hv htoVC
  · rfl

theorem le_popTo_recognizers
    {self self' : RotationNavigationController V} {index : Nat}
    (hpop : self.popTo index = some self') (v : V) :
    self.recognizers v ≤ self'.recognizers v := by
  obtain ⟨toVC, _, _, _, hrecognizers⟩ := popTo_eq_some hpop
  rw [hrecognizers]
  split
  · by_cases hv : v = toVC
    · subst hv
      simp
    · rw [Function.update_of_ne hv]
  · exact le_rfl

/-- A controller that was never pushed gets no recognizer from a pop. -/
theorem StackAfter.fresh_popTo
    {root : V} {actions : List (Action V)}
    {self self' : RotationNavigationController V} {index : Nat}
    (h : StackAfter root actions self)
    (hpop : self.popTo index = some self') :
    ∀ v, v ∉ pushed actions → self'.recognizers v = 0 := by
  intro v hv
  obtain ⟨toVC, htoVC, _, _, hrecognizers⟩ := popTo_eq_some hpop
  by_cases hvroot : v = root
  · subst hvroot
    rw [hrecognizers, h.bottom]
    split
    · next hne =>
        have hv' : v ≠ toVC := fun heq => hne (congrArg some heq)
        rw [Function.update_of_ne hv', h.fresh v hv]
    · exact h.fresh v hv
  · rw [popTo_recognizers_of_ne hpop, h.fresh v hv]
    intro hindex
    rcases h.onStack v (List.mem_of_getElem? hindex) with hroot | hpushed
    · exact hvroot hroot
    · exact hv hpushed

omit [DecidableEq V] in
theorem stackAfter_initial (root : V) :
    StackAfter root [] (RotationNavigationController.initial root) where
  bottom := rfl
  nodup := List.nodup_singleton root
  onStack := by simp [RotationNavigationController.initial]
  fresh _ _ := rfl
  counted := by simp [pushed]

omit [DecidableEq V] in
@[simp] theorem pushed_concat_push (pre : List (Action V)) (toVC : V) :
    pushed (pre ++ [.push toVC]) = pushed pre ++ [toVC] := by
  rw [pushed, List.filterMap_append]
  rfl

omit [DecidableEq V] in
@[simp] theorem pushed_concat_pop (pre : List (Action V)) (index : Nat) :
    pushed (pre ++ [.pop index]) = pushed pre := by
  rw [pushed, List.filterMap_append]
  exact List.append_nil _

omit [DecidableEq V] in
@[simp] theorem pushed_concat_cancelledPop (pre : List (Action V)) :
    pushed (pre ++ [.cancelledPop]) = pushed pre := by
  rw [pushed, List.filterMap_append]
  exact List.append_nil _

omit [DecidableEq V] in
/-- Of the history only the pushes matter. -/
theorem StackAfter.of_pushed_eq
    {root : V} {pre post : List (Action V)}
    {navigation : RotationNavigationController V}
    (h : StackAfter root pre navigation)
    (heq : pushed post = pushed pre) :
    StackAfter root post navigation where
  bottom := h.bottom
  nodup := h.nodup
  onStack := by rw [heq]; exact h.onStack
  fresh := by rw [heq]; exact h.fresh
  counted := by rw [heq]; exact h.counted

theorem stackAfter_push
    {root : V} {pre : List (Action V)}
    {self self' : RotationNavigationController V} {toVC : V}
    (h : StackAfter root pre self)
    (hstep : self.step (.push toVC) = some self') :
    StackAfter root (pre ++ [.push toVC]) self' := by
  obtain ⟨hnew, hstack, hrecognizers⟩ := step_push hstep
  constructor
  · rw [hstack, List.head?_append, h.bottom]
    rfl
  · rw [hstack]
    refine List.nodup_append.mpr ⟨h.nodup, List.nodup_singleton toVC, ?_⟩
    rintro v hv w hw rfl
    rw [List.mem_singleton] at hw
    exact hnew (hw ▸ hv)
  · intro v hv
    rw [hstack] at hv
    rw [pushed_concat_push, List.mem_append]
    rcases List.mem_append.mp hv with hv | hv
    · rcases h.onStack v hv with hroot | hmem
      · exact Or.inl hroot
      · exact Or.inr (Or.inl hmem)
    · exact Or.inr (Or.inr hv)
  · intro v hv
    rw [pushed_concat_push, List.mem_append, not_or,
      List.mem_singleton] at hv
    rw [hrecognizers, Function.update_of_ne hv.2, h.fresh v hv.1]
  · intro v hv
    rw [pushed_concat_push, List.mem_append, List.mem_singleton] at hv
    rw [hrecognizers]
    by_cases heq : v = toVC
    · subst heq
      simp
    · rw [Function.update_of_ne heq]
      exact h.counted v (hv.resolve_right heq)

theorem stackAfter_pop
    {root : V} {pre : List (Action V)}
    {self self' : RotationNavigationController V} {index : Nat}
    (h : StackAfter root pre self)
    (hpop : self.popTo index = some self') :
    StackAfter root pre self' := by
  obtain ⟨_, _, _, hstack, _⟩ := popTo_eq_some hpop
  constructor
  · rw [hstack, List.head?_take, if_neg (Nat.succ_ne_zero index), h.bottom]
  · rw [hstack]
    exact h.nodup.sublist (List.take_sublist _ _)
  · intro v hv
    rw [hstack] at hv
    exact h.onStack v (List.mem_of_mem_take hv)
  · exact h.fresh_popTo hpop
  · intro v hv
    exact (h.counted v hv).trans (le_popTo_recognizers hpop v)

/-- A cancelled pop brings the stack back and leaves the recognizers. -/
theorem stackAfter_cancelledPop
    {root : V} {pre : List (Action V)}
    {self popped : RotationNavigationController V} {index : Nat}
    (h : StackAfter root pre self)
    (hpop : self.popTo index = some popped) :
    StackAfter root pre
      { popped with viewControllers := self.viewControllers } where
  bottom := h.bottom
  nodup := h.nodup
  onStack := h.onStack
  fresh v hv := h.fresh_popTo hpop v hv
  counted v hv := (h.counted v hv).trans (le_popTo_recognizers hpop v)

/-- One transition keeps the facts about the stack. -/
theorem stackAfter_step
    {root : V} (pre : List (Action V))
    (self : RotationNavigationController V) (action : Action V)
    (self' : RotationNavigationController V)
    (h : StackAfter root pre self)
    (hstep : self.step action = some self') :
    StackAfter root (pre ++ [action]) self' := by
  cases action with
  | push toVC =>
      exact stackAfter_push h hstep
  | pop index =>
      exact (stackAfter_pop h hstep).of_pushed_eq (pushed_concat_pop pre index)
  | cancelledPop =>
      obtain ⟨popped, hpop, rfl⟩ := Option.map_eq_some_iff.mp hstep
      exact (stackAfter_cancelledPop h hpop).of_pushed_eq
        (pushed_concat_cancelledPop pre)

theorem stackAfter_run
    {root : V} {actions : List (Action V)}
    {self : RotationNavigationController V}
    (hrun : run RotationNavigationController.step
      (RotationNavigationController.initial root) actions = some self) :
    StackAfter root actions self :=
  run_history stackAfter_step (stackAfter_initial root) hrun

end Invariant

section Counting

variable {V : Type u} [DecidableEq V]

/-- The action brings no recognizer to a view that has one already. -/
def Allowed (pre : List (Action V)) : Action V → Prop
  | .push toVC => toVC ∉ pushed pre
  | .pop index => index = 0
  | .cancelledPop => True

/-- Completed pops land on the root, and no controller is pushed twice. -/
def PlainHistory (actions : List (Action V)) : Prop :=
  (∀ index, .pop index ∈ actions → index = 0) ∧ (pushed actions).Nodup

omit [DecidableEq V] in
theorem plainHistory_concat
    {pre : List (Action V)} {action : Action V} :
    PlainHistory (pre ++ [action])
      ↔
    PlainHistory pre ∧ Allowed pre action := by
  cases action with
  | push toVC =>
      have hpops : ∀ index, .pop index ∈ pre ++ [.push toVC] ↔
          .pop index ∈ pre := by
        simp
      rw [PlainHistory, PlainHistory, pushed_concat_push, Allowed,
        List.nodup_append_comm, List.singleton_append, List.nodup_cons]
      simp only [hpops]
      tauto
  | pop index =>
      rw [PlainHistory, PlainHistory, pushed_concat_pop, Allowed]
      constructor
      · rintro ⟨hpops, hnodup⟩
        exact ⟨⟨fun i hi => hpops i (List.mem_append_left _ hi), hnodup⟩,
          hpops index (List.mem_append_right _ List.mem_cons_self)⟩
      · rintro ⟨⟨hpops, hnodup⟩, hindex⟩
        refine ⟨fun i hi => ?_, hnodup⟩
        rcases List.mem_append.mp hi with hi | hi
        · exact hpops i hi
        · cases List.mem_singleton.mp hi
          exact hindex
  | cancelledPop =>
      rw [PlainHistory, PlainHistory, pushed_concat_cancelledPop]
      simp [Allowed]

/-- A forbidden action leaves the visible controller with two recognizers. -/
theorem allowed_of_oneRecognizer
    {root : V} {pre : List (Action V)} {action : Action V}
    {self self' : RotationNavigationController V}
    (h : StackAfter root pre self)
    (hstep : self.step action = some self')
    (hone : OneRecognizer self') :
    Allowed pre action := by
  have hafter := stackAfter_step pre self action self' h hstep
  cases action with
  | push toVC =>
      obtain ⟨hnew, hstack, hrecognizers⟩ := step_push hstep
      intro hpushed
      have hroot : self'.viewControllers.head? ≠ some toVC := by
        rw [hafter.bottom]
        rintro heq
        cases heq
        exact hnew (List.mem_of_head? h.bottom)
      have hcount := hone toVC (by rw [hstack, List.getLast?_concat]) hroot
      have hbefore := h.counted toVC hpushed
      rw [hrecognizers, Function.update_self] at hcount
      omega
  | pop index =>
      obtain ⟨toVC, htoVC, hindex, hstack, hrecognizers⟩ := popTo_eq_some hstep
      by_contra hne
      have hroot : self.viewControllers.head? ≠ some toVC := by
        intro heq
        rw [List.head?_eq_getElem?] at heq
        exact hne ((List.getElem?_inj (by omega) h.nodup).mp
          (htoVC.trans heq.symm))
      have hvisible : self'.viewControllers.getLast? = some toVC := by
        rw [hstack, List.getLast?_take, if_neg (Nat.succ_ne_zero index),
          Nat.add_sub_cancel, htoVC]
        rfl
      have hroot' : self'.viewControllers.head? ≠ some toVC := by
        rwa [hafter.bottom, ← h.bottom]
      have hcount := hone toVC hvisible hroot'
      have hmem : toVC ∈ pushed pre := by
        rcases h.onStack toVC (List.mem_of_getElem? htoVC) with rfl | hmem
        · exact absurd h.bottom hroot
        · exact hmem
      have hbefore := h.counted toVC hmem
      rw [hrecognizers, if_pos hroot, Function.update_self] at hcount
      omega
  | cancelledPop =>
      trivial

/-- An allowed action keeps the one recognizer. -/
theorem oneRecognizer_step
    {root : V} {pre : List (Action V)} {action : Action V}
    {self self' : RotationNavigationController V}
    (h : StackAfter root pre self)
    (hone : OneRecognizer self)
    (hallowed : Allowed pre action)
    (hstep : self.step action = some self') :
    OneRecognizer self' := by
  intro visible hvisible hroot
  cases action with
  | push toVC =>
      obtain ⟨_, hstack, hrecognizers⟩ := step_push hstep
      rw [hstack, List.getLast?_concat, Option.some.injEq] at hvisible
      subst hvisible
      rw [hrecognizers, Function.update_self, h.fresh toVC hallowed]
  | pop index =>
      obtain ⟨toVC, htoVC, hindex, hstack, _⟩ := popTo_eq_some hstep
      have hzero : index = 0 := hallowed
      subst hzero
      rw [hstack, List.getLast?_take, if_neg (Nat.succ_ne_zero 0), htoVC]
        at hvisible
      rw [hstack, List.head?_take, if_neg (Nat.succ_ne_zero 0),
        List.head?_eq_getElem?, htoVC] at hroot
      exact absurd hvisible hroot
  | cancelledPop =>
      obtain ⟨popped, hpop, rfl⟩ := Option.map_eq_some_iff.mp hstep
      obtain ⟨_, _, hindex, _, _⟩ := popTo_eq_some hpop
      have hbelow : self.viewControllers[self.viewControllers.length - 2]? ≠
          some visible := by
        intro heq
        have hlast : self.viewControllers[self.viewControllers.length - 1]? =
            some visible := by
          rw [← List.getLast?_eq_getElem?]
          exact hvisible
        have hsame := (List.getElem?_inj (by omega) h.nodup).mp
          (heq.trans hlast.symm)
        omega
      show popped.recognizers visible = 1
      rw [popTo_recognizers_of_ne hpop hbelow]
      exact hone visible hvisible hroot

theorem oneRecognizer_of_plainHistory
    {root : V} {actions : List (Action V)}
    {self : RotationNavigationController V}
    (hplain : PlainHistory actions)
    (hrun : run RotationNavigationController.step
      (RotationNavigationController.initial root) actions = some self) :
    OneRecognizer self := by
  induction actions using List.reverseRecOn generalizing self with
  | nil =>
      cases hrun
      intro visible hvisible hroot
      exact absurd hvisible hroot
  | append_singleton pre action ih =>
      obtain ⟨before, hpre, hstep⟩ := run_snoc_some.mp hrun
      obtain ⟨hbefore, hallowed⟩ := plainHistory_concat.mp hplain
      exact oneRecognizer_step (stackAfter_run hpre) (ih hbefore hpre)
        hallowed hstep

/--
**The visible controller has one recognizer after every transition if and only
if completed pops land on the root and no controller is pushed twice.**
-/
theorem oneRecognizer_iff
    {root : V} {actions : List (Action V)}
    {self : RotationNavigationController V}
    (hrun : run RotationNavigationController.step
      (RotationNavigationController.initial root) actions = some self) :
    EveryStep RotationNavigationController.step
        (fun _ _ after => OneRecognizer after)
        (RotationNavigationController.initial root) actions
      ↔
    PlainHistory actions := by
  induction actions using List.reverseRecOn generalizing self with
  | nil =>
      simp [PlainHistory, pushed]
  | append_singleton pre action ih =>
      obtain ⟨before, hpre, hstep⟩ := run_snoc_some.mp hrun
      have hstack := stackAfter_run hpre
      rw [everyStep_append hpre, everyStep_cons hstep, ih hpre,
        plainHistory_concat]
      constructor
      · rintro ⟨hbefore, hone, _⟩
        exact ⟨hbefore, allowed_of_oneRecognizer hstack hstep hone⟩
      · rintro ⟨hbefore, hallowed⟩
        exact ⟨hbefore, oneRecognizer_step hstack
          (oneRecognizer_of_plainHistory hbefore hpre) hallowed hstep, trivial⟩

/-- Two pushes, a cancelled swipe and a pop to the root. -/
def swipeAndLeave : List (Action Nat) :=
  [.push 1, .push 2, .cancelledPop, .pop 0]

theorem swipeAndLeave_run :
    ∃ self, run RotationNavigationController.step
      (RotationNavigationController.initial 0) swipeAndLeave = some self :=
  ⟨_, rfl⟩

theorem oneRecognizer_iff_swipeAndLeave :
    EveryStep RotationNavigationController.step
        (fun _ _ after => OneRecognizer after)
        (RotationNavigationController.initial 0) swipeAndLeave
      ↔
    PlainHistory swipeAndLeave := by
  obtain ⟨self, hrun⟩ := swipeAndLeave_run
  exact oneRecognizer_iff hrun

/-- After a pop to the first pushed controller its view has two recognizers. -/
theorem popBack_two_recognizers :
    (∃ self, run RotationNavigationController.step
      (RotationNavigationController.initial 0) [.push 1, .push 2, .pop 1] =
        some self ∧
      self.viewControllers = [0, 1] ∧ self.recognizers 1 = 2) ∧
    ¬ EveryStep RotationNavigationController.step
        (fun _ _ after => OneRecognizer after)
        (RotationNavigationController.initial 0)
        [.push 1, .push 2, .pop 1] := by
  refine ⟨⟨_, rfl, rfl, rfl⟩, ?_⟩
  intro h
  obtain ⟨_, h⟩ := h _ rfl
  obtain ⟨_, h⟩ := h _ rfl
  obtain ⟨hone, _⟩ := h _ rfl
  have hcount := hone 1 rfl (by decide)
  cases hcount

end Counting

end Navigation
end NotVK
