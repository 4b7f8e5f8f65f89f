import Mathlib.LinearAlgebra.AffineSpace.AffineMap
import Mathlib.Tactic.Abel

/-!
# Placing a body by an anchor

A body is placed by the position of its anchor: the point `p` of the body lies
at `position + T (p - anchor)`, where the affine map `T` turns and stretches the
body about its anchor.

Moving the anchor to another point of the body moves every point of the body,
unless the position is moved as well.  `reanchor` is the one way of doing that
which leaves the body where it is.
-/

namespace NotVK
namespace Placements

universe u v

section Placement

variable {R : Type u} {V : Type v}
variable [Ring R] [AddCommGroup V] [Module R V]

/-- Position of the anchor, and the anchor as a point of the body. -/
@[ext]
structure Placement (V : Type v) where
  position : V
  anchor : V

/-- Where a point of the body lies. -/
def Placement.place (T : V →ᵃ[R] V) (pl : Placement V) (p : V) : V :=
  pl.position + T (p - pl.anchor)

/-- Move the anchor and let the position make up for it. -/
def Placement.reanchor
    (T : V →ᵃ[R] V) (pl : Placement V) (anchor : V) : Placement V where
  position := pl.position - T pl.anchor + T anchor
  anchor := anchor

variable (T : V →ᵃ[R] V) (pl : Placement V)

/-- The translation part of `T` cancels between two values of it. -/
theorem map_sub_add_map_sub (p a b : V) :
    T (p - a) - T (p - b) = T b - T a := by
  have hvadd : ∀ v w : V, T v - T w = T.linear (v - w) :=
    fun v w => (T.linearMap_vsub v w).symm
  rw [hvadd, hvadd]
  congr 1
  abel

/-- **Changing the anchor does not move the body.** -/
theorem place_reanchor (anchor p : V) :
    (pl.reanchor T anchor).place T p = pl.place T p := by
  have hcancel := map_sub_add_map_sub T p pl.anchor anchor
  unfold Placement.place Placement.reanchor
  calc pl.position - T pl.anchor + T anchor + T (p - anchor)
      = pl.position + (T anchor - T pl.anchor) + T (p - anchor) := by abel
    _ = pl.position + T (p - pl.anchor) := by
        rw [← hcancel]
        abel

/-- There is no other placement by that anchor that leaves the body there. -/
theorem eq_reanchor_iff (pl' : Placement V) (anchor : V) :
    pl' = pl.reanchor T anchor
      ↔
    pl'.anchor = anchor ∧ ∀ p, pl'.place T p = pl.place T p := by
  constructor
  · rintro rfl
    exact ⟨rfl, place_reanchor T pl anchor⟩
  · rintro ⟨rfl, hplace⟩
    refine Placement.ext ?_ rfl
    have hsame : pl'.place T 0 = (pl.reanchor T pl'.anchor).place T 0 :=
      (hplace 0).trans (place_reanchor T pl pl'.anchor 0).symm
    exact add_right_cancel hsame

/-- Only the last anchor counts. -/
theorem reanchor_reanchor (a b : V) :
    (pl.reanchor T a).reanchor T b = pl.reanchor T b := by
  rw [eq_reanchor_iff]
  refine ⟨rfl, fun p => ?_⟩
  rw [place_reanchor, place_reanchor]

theorem reanchor_self :
    pl.reanchor T pl.anchor = pl :=
  ((eq_reanchor_iff T pl pl pl.anchor).mpr ⟨rfl, fun _ => rfl⟩).symm

end Placement

end Placements
end NotVK
