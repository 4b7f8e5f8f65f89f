import NotVK.Library.EqualParts
import NotVK.App.FriendsPhotosLayouts

/-!
# The frames of the photo layout tile the width

Item `i` has the place `column c i` in its group.  The places `0 .. c - 1` are
the small cells of one row and place `c` is the big cell below them.  A row of
small cells cuts the width into `c` equal parts: the frame at place `k` spans
part `k`, so a complete row leaves no gap and has no overlap.
-/

namespace NotVK
namespace PhotoLayout

open EqualParts

universe u

/-- Item at a place of a group. -/
def itemAt (c g place : Nat) : Nat :=
  g * (c + 1) + place

theorem column_itemAt
    {c place : Nat} (g : Nat)
    (hplace : place ≤ c) :
    column c (itemAt c g place) = place := by
  unfold column itemAt
  rw [Nat.mul_comm, Nat.mul_add_mod]
  exact Nat.mod_eq_of_lt (by omega)

section Frames

variable {K : Type u} [Field K]

/-- A small cell spans the part of the width that its place names. -/
theorem frameAt_small
    {c i : Nat} (width cellHeight : K)
    (hsmall : column c i < c) :
    (frameAt c width cellHeight i).x = edge width c (column c i) ∧
      (frameAt c width cellHeight i).maxX = edge width c (column c i + 1) := by
  have hx : (frameAt c width cellHeight i).x = edge width c (column c i) := by
    simp only [frameAt, hsmall, if_true, cursorX, edge]
    ring
  have hwidth : (frameAt c width cellHeight i).width = width / (c : K) := by
    simp only [frameAt, hsmall, if_true]
  refine ⟨hx, ?_⟩
  rw [edge_succ, CGRect.maxX, hx, hwidth]

theorem frameAt_big
    {c i : Nat} (width cellHeight : K)
    (hbig : column c i = c) :
    (frameAt c width cellHeight i).x = 0 ∧
      (frameAt c width cellHeight i).maxX = width := by
  simp [frameAt, hbig, CGRect.maxX]

theorem frameAt_small_y
    {c i : Nat} (width cellHeight : K)
    (hsmall : column c i < c) :
    (frameAt c width cellHeight i).y = rowTop c cellHeight i := by
  simp only [frameAt, hsmall, if_true]

/-- A stored frame is the one of the closed form. -/
theorem eq_frameAt_of_stored
    {layout : FriendsPhotosLayouts K} {view : CollectionView K}
    {i : Nat} {frame : CGRect K}
    (hc : 1 ≤ layout.columnsCount)
    (hstored : (layout.prepare (some view)).cacheAttributes i = some frame) :
    frame = frameAt layout.columnsCount view.width
      (view.width / (layout.columnsCount : K)) i := by
  rw [prepare_cacheAttributes layout view hc] at hstored
  split_ifs at hstored with hi
  exact (Option.some.inj hstored).symm

end Frames

section Rows

variable {K : Type u} [Field K] [LinearOrder K]

/-- The part of the width that the frame covers contains the point. -/
def CGRect.SpansX (frame : CGRect K) (x : K) : Prop :=
  frame.x ≤ x ∧ x < frame.maxX

/-- The small cell at a place of a row spans the points of that part. -/
theorem frameAt_spansX_iff
    {c place : Nat} (width cellHeight x : K) (g : Nat)
    (hplace : place < c) :
    (frameAt c width cellHeight (itemAt c g place)).SpansX x
      ↔
    InPart (edge width c) x place := by
  have hcol := column_itemAt g hplace.le
  have hsmall : column c (itemAt c g place) < c := by omega
  obtain ⟨hx, hmaxX⟩ := frameAt_small width cellHeight hsmall
  rw [CGRect.SpansX, InPart, hx, hmaxX, hcol]

end Rows

section Tiling

variable {K : Type u} [Field K] [LinearOrder K] [IsStrictOrderedRing K]

/-- The stored frames of `n` items tile `[0, width]` in rows of `c` small cells
and big cells between them. -/
structure TilesHorizontally
    (layout : FriendsPhotosLayouts K) (c n : Nat) (width : K) : Prop where
  stored : ∀ i, (∃ frame, layout.cacheAttributes i = some frame) ↔ i < n
  small : ∀ i frame, layout.cacheAttributes i = some frame →
    column c i < c →
      frame.x = (column c i : K) * width / (c : K) ∧
        frame.maxX = ((column c i + 1 : Nat) : K) * width / (c : K)
  big : ∀ i frame, layout.cacheAttributes i = some frame →
    column c i = c → frame.x = 0 ∧ frame.maxX = width
  sameTop : ∀ i j a b, layout.cacheAttributes i = some a →
    layout.cacheAttributes j = some b → group c i = group c j →
      column c i < c → column c j < c → a.y = b.y
  within : ∀ i frame, layout.cacheAttributes i = some frame →
    0 ≤ frame.x ∧ frame.maxX ≤ width
  abut : ∀ i a b, layout.cacheAttributes i = some a →
    layout.cacheAttributes (i + 1) = some b →
      column c i < c → column c (i + 1) < c → a.maxX = b.x
  rowStart : ∀ i frame, layout.cacheAttributes i = some frame →
    column c i = 0 → frame.x = 0
  rowEnd : ∀ i frame, layout.cacheAttributes i = some frame →
    column c i + 1 = c → frame.maxX = width
  /-- In a complete row every point has exactly one small cell. -/
  row : ∀ g, itemAt c g c ≤ n → ∀ x, 0 ≤ x → x < width →
    ∃! k, k < c ∧ ∃ frame,
      layout.cacheAttributes (itemAt c g k) = some frame ∧ frame.SpansX x

/-- No frame leaves the width of the view. -/
theorem frameAt_within
    {c : Nat} {width : K} (cellHeight : K)
    (hc : 1 ≤ c)
    (hwidth : 0 ≤ width) (i : Nat) :
    0 ≤ (frameAt c width cellHeight i).x ∧
      (frameAt c width cellHeight i).maxX ≤ width := by
  rcases Nat.lt_or_eq_of_le (column_le c i) with hsmall | hbig
  · obtain ⟨hx, hmaxX⟩ := frameAt_small width cellHeight hsmall
    rw [hx, hmaxX]
    exact ⟨edge_nonneg hwidth c _, edge_le hwidth hc hsmall⟩
  · obtain ⟨hx, hmaxX⟩ := frameAt_big width cellHeight hbig
    rw [hx, hmaxX]
    exact ⟨le_rfl, le_rfl⟩

/-- A complete row of small cells has exactly one cell over every point. -/
theorem existsUnique_cell
    {layout : FriendsPhotosLayouts K} {view : CollectionView K} {g : Nat}
    (hc : 1 ≤ layout.columnsCount)
    (hwidth : 0 < view.width)
    (hrow : itemAt layout.columnsCount g layout.columnsCount ≤
      view.numberOfItems)
    {x : K} (hx : 0 ≤ x) (hxw : x < view.width) :
    ∃! k, k < layout.columnsCount ∧ ∃ frame,
      (layout.prepare (some view)).cacheAttributes
          (itemAt layout.columnsCount g k) = some frame ∧
        frame.SpansX x := by
  have hcell : ∀ k, k < layout.columnsCount →
      ((∃ frame, (layout.prepare (some view)).cacheAttributes
          (itemAt layout.columnsCount g k) = some frame ∧ frame.SpansX x)
        ↔
      InPart (edge view.width layout.columnsCount) x k) := by
    intro k hk
    have hitem : itemAt layout.columnsCount g k < view.numberOfItems := by
      unfold itemAt at hrow ⊢
      omega
    rw [prepare_cacheAttributes layout view hc, if_pos hitem,
      ← frameAt_spansX_iff view.width
        (view.width / (layout.columnsCount : K)) x g hk]
    simp
  obtain ⟨k, ⟨hk, hpart⟩, hunique⟩ :=
    existsUnique_inPart (x := x)
      (edge_monotone hwidth.le layout.columnsCount)
      (by rwa [edge_zero]) (by rwa [edge_count _ hc])
  refine ⟨k, ⟨hk, (hcell k hk).mpr hpart⟩, ?_⟩
  rintro l ⟨hl, hspan⟩
  exact hunique l ⟨hl, (hcell l hl).mp hspan⟩

/-- **`prepare()` tiles the width of the view.** -/
theorem prepare_tilesHorizontally
    (layout : FriendsPhotosLayouts K) (view : CollectionView K)
    (hc : 1 ≤ layout.columnsCount)
    (hwidth : 0 < view.width) :
    TilesHorizontally (layout.prepare (some view))
      layout.columnsCount view.numberOfItems view.width where
  stored i := by
    rw [prepare_cacheAttributes layout view hc]
    split_ifs with hi <;> simp [hi]
  small i frame hstored hsmall := by
    rw [eq_frameAt_of_stored hc hstored]
    exact frameAt_small _ _ hsmall
  big i frame hstored hbig := by
    rw [eq_frameAt_of_stored hc hstored]
    exact frameAt_big _ _ hbig
  sameTop i j a b ha hb hgroup hi hj := by
    rw [eq_frameAt_of_stored hc ha, eq_frameAt_of_stored hc hb,
      frameAt_small_y _ _ hi, frameAt_small_y _ _ hj]
    unfold rowTop
    rw [hgroup]
  within i frame hstored := by
    rw [eq_frameAt_of_stored hc hstored]
    exact frameAt_within _ hc hwidth.le i
  abut i a b ha hb hi hnext := by
    rw [eq_frameAt_of_stored hc ha, eq_frameAt_of_stored hc hb,
      (frameAt_small _ _ hi).2, (frameAt_small _ _ hnext).1,
      column_succ_of_lt hi]
  rowStart i frame hstored hfirst := by
    have hsmall : column layout.columnsCount i < layout.columnsCount := by
      omega
    rw [eq_frameAt_of_stored hc hstored, (frameAt_small _ _ hsmall).1, hfirst,
      edge_zero]
  rowEnd i frame hstored hlast := by
    have hsmall : column layout.columnsCount i < layout.columnsCount := by
      omega
    rw [eq_frameAt_of_stored hc hstored, (frameAt_small _ _ hsmall).2, hlast,
      edge_count _ hc]
  row g hrow x hx hxw := existsUnique_cell hc hwidth hrow hx hxw

/-- Three columns and six items: the second row is not complete. -/
theorem prepare_tilesHorizontally_six_items :
    TilesHorizontally
      ((FriendsPhotosLayouts.initial (K := ℚ) 3).prepare (some ⟨320, 6⟩))
      3 6 320 :=
  prepare_tilesHorizontally (FriendsPhotosLayouts.initial (K := ℚ) 3) ⟨320, 6⟩
    (by decide) (by norm_num)

end Tiling

end PhotoLayout
end NotVK
