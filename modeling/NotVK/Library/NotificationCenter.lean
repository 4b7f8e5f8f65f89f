import Mathlib.Data.List.Basic

/-!
# Observers of named notifications

A center is the list of observers in the order in which they were added, each a
name with a selector.  Posting a notification performs the selectors that were
added for its name, one after the other; a selector may fail.
-/

namespace NotVK
namespace Notifications

universe u v w

section Center

variable {Name : Type u} {Selector : Type v} {σ : Type w}
variable [DecidableEq Name]

abbrev Center (Name : Type u) (Selector : Type v) := List (Name × Selector)

def addObserver
    (center : Center Name Selector) (name : Name) (selector : Selector) :
    Center Name Selector :=
  center ++ [(name, selector)]

/-- Remove the observers of one name. -/
def removeObserver
    (center : Center Name Selector) (name : Name) : Center Name Selector :=
  center.filter (fun observer => observer.1 ≠ name)

/-- Selectors of the observers of a name. -/
def selectors (center : Center Name Selector) (name : Name) : List Selector :=
  (center.filter (fun observer => observer.1 = name)).map Prod.snd

/-- Perform the selectors of the observers of a name. -/
def post
    (perform : σ → Selector → Option σ)
    (center : Center Name Selector) (name : Name) (s : σ) : Option σ :=
  (selectors center name).foldlM perform s

variable {center : Center Name Selector} {name other : Name}
variable {selector : Selector} {perform : σ → Selector → Option σ} {s : σ}

theorem selectors_addObserver_self :
    selectors (addObserver center name selector) name =
      selectors center name ++ [selector] := by
  simp [selectors, addObserver]

theorem selectors_addObserver_of_ne
    (h : other ≠ name) :
    selectors (addObserver center other selector) name =
      selectors center name := by
  simp [selectors, addObserver, h]

theorem selectors_removeObserver_self :
    selectors (removeObserver center name) name = [] := by
  simp [selectors, removeObserver, List.filter_filter]

theorem selectors_removeObserver_of_ne
    (h : other ≠ name) :
    selectors (removeObserver center other) name = selectors center name := by
  unfold selectors removeObserver
  rw [List.filter_filter]
  congr 1
  apply List.filter_congr
  intro observer _
  by_cases hname : observer.1 = name
  · simp [hname, h.symm]
  · simp [hname]

/-- Nobody observes the name. -/
theorem post_of_selectors_nil
    (h : selectors center name = []) :
    post perform center name s = some s := by
  rw [post, h]
  rfl

theorem post_of_selectors_singleton
    (h : selectors center name = [selector]) :
    post perform center name s = perform s selector := by
  rw [post, h]
  simp

end Center

end Notifications
end NotVK
