import Mathlib.LinearAlgebra.AffineSpace.AffineMap
import Mathlib.LinearAlgebra.Prod
import Mathlib.Tactic.Ring
import NotVK.Library.AnchoredPlacement
import NotVK.App.FriendsPhotosLayouts

/-!
# UIView.setAnchorPoint

The rotation animators turn the views of a transition about a corner, so they
move the anchor points there first.  `setAnchorPoint` moves the layer's position
by the difference of the two transformed offsets, and the view stays in place.

A layer and its transform are a `Placement` and an affine map; `setAnchorPoint`
is `reanchor`.  Coordinates are exact: they live in an arbitrary commutative
ring.
-/

namespace NotVK
namespace Layers

open Placements PhotoLayout

universe u

section Model

@[ext]
structure CGPoint (K : Type u) where
  x : K
  y : K
deriving DecidableEq

/-- The matrix with the rows `(a, b, 0)`, `(c, d, 0)` and `(tx, ty, 1)`. -/
structure CGAffineTransform (K : Type u) where
  a : K
  b : K
  c : K
  d : K
  tx : K
  ty : K

@[ext]
structure CALayer (K : Type u) where
  position : CGPoint K
  anchorPoint : CGPoint K

/-- The size of its bounds, its transform and its layer. -/
@[ext]
structure UIView (K : Type u) where
  size : CGSize K
  transform : CGAffineTransform K
  layer : CALayer K

variable {K : Type u} [CommRing K]

def CGPoint.applying (p : CGPoint K) (t : CGAffineTransform K) : CGPoint K where
  x := t.a * p.x + t.c * p.y + t.tx
  y := t.b * p.x + t.d * p.y + t.ty

/-- `setAnchorPoint(_:)`. -/
def UIView.setAnchorPoint (view : UIView K) (point : CGPoint K) : UIView K :=
  let newPoint : CGPoint K :=
    ⟨view.size.width * point.x, view.size.height * point.y⟩
  let oldPoint : CGPoint K :=
    ⟨view.size.width * view.layer.anchorPoint.x,
      view.size.height * view.layer.anchorPoint.y⟩
  let newPoint := newPoint.applying view.transform
  let oldPoint := oldPoint.applying view.transform
  let position := view.layer.position
  let position := { position with x := position.x - oldPoint.x }
  let position := { position with x := position.x + newPoint.x }
  let position := { position with y := position.y - oldPoint.y }
  let position := { position with y := position.y + newPoint.y }
  { view with layer := { position := position, anchorPoint := point } }

/-- Where the layer shows a point of the view, in the superview. -/
def UIView.location (view : UIView K) (p : CGPoint K) : CGPoint K :=
  let fromAnchor : CGPoint K :=
    ⟨p.x - view.layer.anchorPoint.x * view.size.width,
      p.y - view.layer.anchorPoint.y * view.size.height⟩
  let turned := fromAnchor.applying view.transform
  ⟨view.layer.position.x + turned.x, view.layer.position.y + turned.y⟩

/-- `setAnchorPoint` leaves the view where it is, whatever was set before. -/
structure StaysInPlace (view : UIView K) : Prop where
  anchorPoint : ∀ point, (view.setAnchorPoint point).layer.anchorPoint = point
  location : ∀ point p,
    (view.setAnchorPoint point).location p = view.location p
  last : ∀ a b,
    ((view.setAnchorPoint a).setAnchorPoint b).layer =
      (view.setAnchorPoint b).layer
  restores : ∀ a,
    ((view.setAnchorPoint a).setAnchorPoint view.layer.anchorPoint).layer =
      view.layer

end Model

section Placement

variable {K : Type u} [CommRing K]

def CGPoint.toProd (p : CGPoint K) : K × K := (p.x, p.y)

omit [CommRing K] in
theorem toProd_injective :
    Function.Injective (CGPoint.toProd : CGPoint K → K × K) := by
  intro p q h
  exact CGPoint.ext (congrArg Prod.fst h) (congrArg Prod.snd h)

/-- The transform as an affine map of the plane. -/
def CGAffineTransform.toAffineMap (t : CGAffineTransform K) :
    (K × K) →ᵃ[K] (K × K) where
  toFun v := (t.a * v.1 + t.c * v.2 + t.tx, t.b * v.1 + t.d * v.2 + t.ty)
  linear :=
    { toFun := fun v => (t.a * v.1 + t.c * v.2, t.b * v.1 + t.d * v.2)
      map_add' := by
        intro v w
        ext <;> simp <;> ring
      map_smul' := by
        intro r v
        ext <;> simp <;> ring }
  map_vadd' := by
    intro v w
    ext <;> simp <;> ring

/-- The point of the view that an anchor point stands for. -/
def UIView.anchorOffset (view : UIView K) (point : CGPoint K) : K × K :=
  (view.size.width * point.x, view.size.height * point.y)

/-- How the layer places the view. -/
def UIView.placement (view : UIView K) : Placement (K × K) where
  position := view.layer.position.toProd
  anchor := view.anchorOffset view.layer.anchorPoint

variable (view : UIView K)

theorem toProd_applying (p : CGPoint K) (t : CGAffineTransform K) :
    (p.applying t).toProd = t.toAffineMap p.toProd := by
  rfl

theorem toProd_location (p : CGPoint K) :
    (view.location p).toProd =
      view.placement.place view.transform.toAffineMap p.toProd := by
  have hfrom : (⟨p.x - view.layer.anchorPoint.x * view.size.width,
      p.y - view.layer.anchorPoint.y * view.size.height⟩ : CGPoint K).toProd =
        p.toProd - view.placement.anchor := by
    simp [CGPoint.toProd, UIView.placement, UIView.anchorOffset, mul_comm]
  rw [Placement.place, ← hfrom, ← toProd_applying]
  rfl

/-- **`setAnchorPoint` is `reanchor`.** -/
theorem placement_setAnchorPoint (point : CGPoint K) :
    (view.setAnchorPoint point).placement =
      view.placement.reanchor view.transform.toAffineMap
        (view.anchorOffset point) := by
  rfl

/-- Layers that place the view alike by the same anchor point are equal. -/
theorem layer_eq_of_placement
    {v w : UIView K}
    (hplacement : v.placement = w.placement)
    (hanchor : v.layer.anchorPoint = w.layer.anchorPoint) :
    v.layer = w.layer :=
  CALayer.ext
    (toProd_injective (congrArg Placement.position hplacement)) hanchor

theorem location_setAnchorPoint (point p : CGPoint K) :
    (view.setAnchorPoint point).location p = view.location p := by
  apply toProd_injective
  rw [toProd_location, toProd_location, placement_setAnchorPoint]
  exact place_reanchor _ _ _ _

theorem placement_setAnchorPoint_twice (a b : CGPoint K) :
    ((view.setAnchorPoint a).setAnchorPoint b).placement =
      (view.setAnchorPoint b).placement := by
  simp only [placement_setAnchorPoint]
  exact reanchor_reanchor _ _ _ _

theorem placement_setAnchorPoint_self :
    (view.setAnchorPoint view.layer.anchorPoint).placement =
      view.placement := by
  rw [placement_setAnchorPoint]
  exact reanchor_self _ _

/-- **`setAnchorPoint` does not move the view.** -/
theorem setAnchorPoint_staysInPlace (view : UIView K) :
    StaysInPlace view where
  anchorPoint _ := rfl
  location := location_setAnchorPoint view
  last a b :=
    layer_eq_of_placement (placement_setAnchorPoint_twice view a b) rfl
  restores a :=
    layer_eq_of_placement
      ((placement_setAnchorPoint_twice view a _).trans
        (placement_setAnchorPoint_self view)) rfl

/-- The point that an anchor point stands for. -/
def UIView.anchored (view : UIView K) (point : CGPoint K) : CGPoint K where
  x := point.x * view.size.width
  y := point.y * view.size.height

theorem location_anchored :
    view.location (view.anchored view.layer.anchorPoint) =
      ⟨view.layer.position.x + view.transform.tx,
        view.layer.position.y + view.transform.ty⟩ := by
  simp [UIView.location, UIView.anchored, CGPoint.applying]

/--
**The anchored point stays while the view turns**: after `setAnchorPoint` any
other transform with the same translation part leaves that point where it was.
-/
theorem location_anchored_of_turn
    (point : CGPoint K) (t : CGAffineTransform K)
    (htx : t.tx = view.transform.tx)
    (hty : t.ty = view.transform.ty) :
    ({ view.setAnchorPoint point with transform := t } : UIView K).location
        (view.anchored point) =
      view.location (view.anchored point) := by
  have hturned := location_anchored
    { view.setAnchorPoint point with transform := t }
  have hstill := location_anchored (view.setAnchorPoint point)
  rw [htx, hty] at hturned
  exact hturned.trans
    (hstill.symm.trans (location_setAnchorPoint view point _))

end Placement

end Layers
end NotVK
