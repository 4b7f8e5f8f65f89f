import Mathlib.Data.List.Basic
import Mathlib.Data.List.Perm.Subperm
import Mathlib.Tactic.Basic

/-!
# Removing by moving the last element

The last element takes the place of the one that goes.  A loop over the indices that
removes elements so, and then goes on to the next index, passes over the elements
that were moved.
-/

namespace NotVK
namespace SwapRemoval

universe u

section SwapRemoval

variable {α : Type u}

/-- The last element takes the place of the one at `index`. -/
def swapRemove (l : List α) (index : Nat) : List α :=
  match l.getLast? with
  | none => []
  | some last => (l.set index last).dropLast

theorem swapRemove_perm
    {l : List α} {index : Nat} {a : α}
    (ha : l[index]? = some a) :
    l.Perm (a :: swapRemove l index) := by
  obtain ⟨hindex, rfl⟩ := List.getElem?_eq_some_iff.mp ha
  rcases List.eq_nil_or_concat l with rfl | ⟨init, last, rfl⟩
  · simp at hindex
  simp only [List.concat_eq_append] at hindex ⊢
  simp only [swapRemove, List.getLast?_concat]
  rcases Nat.lt_or_ge index init.length with hlt | hge
  · rw [List.set_append_left index last hlt, List.dropLast_concat,
      List.getElem_append_left hlt]
    have hmoved := List.set_perm_cons_eraseIdx hlt last
    have htaken := List.getElem_cons_eraseIdx_perm hlt
    have hlast := List.perm_append_singleton last init
    have hswap := List.Perm.swap init[index] last (init.eraseIdx index)
    exact hlast.trans ((htaken.symm.cons last).trans (hswap.trans (hmoved.symm.cons _)))
  · have hlast : index = init.length := by
      rw [List.length_append, List.length_singleton] at hindex
      omega
    subst hlast
    rw [List.set_append_right _ _ (Nat.le_refl _)]
    simp

theorem length_swapRemove
    {l : List α} {index : Nat}
    (hindex : index < l.length) :
    (swapRemove l index).length + 1 = l.length := by
  have hperm := swapRemove_perm (List.getElem?_eq_getElem hindex)
  rw [hperm.length_eq, List.length_cons]

/-- The loop from index `i` on, which removes what `gone` holds of. -/
def sweep (gone : α → Bool) (l : List α) (i : Nat) : List α :=
  if h : i < l.length then
    if gone l[i] then sweep gone (swapRemove l i) (i + 1) else sweep gone l (i + 1)
  else l
termination_by l.length - i
decreasing_by
  · have := length_swapRemove h
    omega
  · omega

variable {gone : α → Bool}

/-- The loop only removes. -/
theorem sweep_subperm (l : List α) (i : Nat) :
    (sweep gone l i).Subperm l := by
  fun_induction sweep gone l i with
  | case1 l i h hgone ih =>
      have hperm := swapRemove_perm (List.getElem?_eq_getElem h)
      exact (ih.trans (List.sublist_cons_self _ _).subperm).trans hperm.symm.subperm
  | case2 l i h hgone ih => exact ih
  | case3 l i h => exact List.Subperm.refl l

/-- What the condition does not hold of stays. -/
theorem mem_sweep
    {a : α}
    (ha : gone a = false)
    (l : List α) (i : Nat) :
    a ∈ sweep gone l i ↔ a ∈ l := by
  fun_induction sweep gone l i with
  | case1 l i h hgone ih =>
      have hperm := swapRemove_perm (List.getElem?_eq_getElem h)
      rw [ih, hperm.mem_iff, List.mem_cons]
      refine (or_iff_right ?_).symm
      rintro rfl
      rw [ha] at hgone
      cases hgone
  | case2 l i h hgone ih => exact ih
  | case3 l i h => rfl

end SwapRemoval

end SwapRemoval
end NotVK
