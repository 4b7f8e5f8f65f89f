import Mathlib.Data.List.Basic
import Mathlib.Data.List.Nodup
import Mathlib.Data.List.Perm.Basic
import Mathlib.Tactic.Basic

/-!
# Index-based differences of two lists

A difference tells how one list became another: the indices in the old list that
were deleted, the indices in the new list that were inserted, and the indices in
the old list of the elements that were modified in place.

What is left of the old list after the deletions is what is left of the new list
without the insertions.  An element that moves is deleted and inserted again.
-/

namespace NotVK
namespace Diffs

universe u

section ListDiff

variable {α : Type u}

structure ListDiff where
  deletions : List Nat
  insertions : List Nat
  modifications : List Nat
deriving DecidableEq

/-- The elements at the other indices, in order. -/
def removeAt (indices : List Nat) (l : List α) : List α :=
  (l.zipIdx.filter (fun p => p.2 ∉ indices)).map Prod.fst

/-- Indices below `n`, cut by a list of them. -/
theorem length_filter_range
    {indices : List Nat} {n : Nat}
    (hnodup : indices.Nodup)
    (hlt : ∀ i ∈ indices, i < n) :
    ((List.range n).filter (fun i => i ∉ indices)).length +
      indices.length = n := by
  have hperm : ((List.range n).filter (fun i => i ∈ indices)).Perm indices := by
    apply (List.perm_ext_iff_of_nodup (List.nodup_range.filter _) hnodup).mpr
    intro i
    simp only [List.mem_filter, List.mem_range, decide_eq_true_eq]
    exact ⟨fun h => h.2, fun h => ⟨hlt i h, h⟩⟩
  have hsplit :=
    List.length_eq_length_filter_add
      (l := List.range n) (fun i => decide (i ∈ indices))
  rw [hperm.length_eq, List.length_range] at hsplit
  simp only [decide_not]
  omega

theorem length_removeAt
    {indices : List Nat} {l : List α}
    (hnodup : indices.Nodup)
    (hlt : ∀ i ∈ indices, i < l.length) :
    (removeAt indices l).length + indices.length = l.length := by
  have hrange : l.zipIdx.map Prod.snd = List.range l.length := by
    rw [List.zipIdx_map_snd, List.range_eq_range']
  have hcount := length_filter_range hnodup hlt
  rw [← hrange, List.filter_map, List.length_map] at hcount
  rw [removeAt, List.length_map]
  exact hcount

/-- The difference tells how `old` became `new`. -/
structure ListDiff.Describes
    (d : ListDiff) (old new : List α) : Prop where
  deletions_nodup : d.deletions.Nodup
  deletions_lt : ∀ i ∈ d.deletions, i < old.length
  insertions_nodup : d.insertions.Nodup
  insertions_lt : ∀ i ∈ d.insertions, i < new.length
  kept : removeAt d.deletions old = removeAt d.insertions new
  modifications_kept : ∀ i ∈ d.modifications,
    i < old.length ∧ i ∉ d.deletions

namespace ListDiff.Describes

variable {d : ListDiff} {old new : List α}

theorem length_eq
    (h : d.Describes old new) :
    new.length + d.deletions.length = old.length + d.insertions.length := by
  have hold := length_removeAt h.deletions_nodup h.deletions_lt
  have hnew := length_removeAt h.insertions_nodup h.insertions_lt
  rw [h.kept] at hold
  omega

/-- The length stays exactly when as many elements came as went. -/
theorem length_eq_iff
    (h : d.Describes old new) :
    new.length = old.length
      ↔
    d.insertions.length = d.deletions.length := by
  have hlength := h.length_eq
  omega

end ListDiff.Describes

instance [DecidableEq α] (d : ListDiff) (old new : List α) :
    Decidable (d.Describes old new) :=
  decidable_of_iff
    (d.deletions.Nodup ∧ (∀ i ∈ d.deletions, i < old.length) ∧
      d.insertions.Nodup ∧ (∀ i ∈ d.insertions, i < new.length) ∧
      removeAt d.deletions old = removeAt d.insertions new ∧
      (∀ i ∈ d.modifications, i < old.length ∧ i ∉ d.deletions))
    ⟨fun ⟨h₁, h₂, h₃, h₄, h₅, h₆⟩ => ⟨h₁, h₂, h₃, h₄, h₅, h₆⟩,
      fun h => ⟨h.1, h.2, h.3, h.4, h.5, h.6⟩⟩

end ListDiff

end Diffs
end NotVK
