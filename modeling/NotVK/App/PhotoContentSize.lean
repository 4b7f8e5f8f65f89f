import NotVK.App.FriendsPhotosLayouts
import Mathlib.Algebra.Ring.CharZero
import Mathlib.Data.List.Induction
import Mathlib.Tactic.Linarith

/-!
# The content size of the photo layout

`prepare()` assigns `totalCellHeight` in every round of its loop and nowhere
else: after a pass with items it is the cursor's `lastY`, and a pass without
items leaves the height of an earlier pass behind.

The first section gives the height in closed form.  Over whole sequences of
passes the frames depend on the last pass only; the height does not.
-/

namespace NotVK
namespace PhotoLayout

universe u

section ContentHeight

variable {K : Type u} [Field K]

/-- Content height after a pass over `n` items, `n` not zero. -/
def contentHeight (c : Nat) (width : K) (n : Nat) : K :=
  if column c (n - 1) < c then
    rowTop c (width / (c : K)) (n - 1) + width / (c : K)
  else width / (c : K)

/-- Every round stores its `lastY`. -/
theorem placeItem_totalCellHeight
    (c n : Nat) (width cellHeight : K) (cursor : Cursor K) (i : Nat) :
    (placeItem c n width cellHeight cursor i).totalCellHeight =
      (placeItem c n width cellHeight cursor i).lastY := by
  unfold placeItem
  split
  · rfl
  · dsimp only
    split <;> rfl

/-- The round of the last item. -/
theorem placeItem_lastY_of_last
    {c n i : Nat} {width cellHeight : K} {cursor : Cursor K}
    (hlast : i + 1 = n)
    (h : CursorAt c n width cellHeight i cursor) :
    (placeItem c n width cellHeight cursor i).lastY =
      if column c i < c then rowTop c cellHeight i + cellHeight
      else cellHeight := by
  have hlastY := h.lastY (by omega)
  rcases Nat.lt_or_eq_of_le (column_le c i) with hsmall | hbig
  · have hnotBig : ¬ (i + 1) % (c + 1) = 0 := by
      rw [isBigCell_iff]
      omega
    rw [if_pos hsmall, placeItem, if_neg hnotBig]
    simp [hlast, hlastY, cursorY, hsmall]
  · rw [if_neg (by omega), placeItem, if_pos ((isBigCell_iff c i).mpr hbig)]

/-- A pass over no items only clears the frames. -/
theorem prepare_of_empty
    (self : FriendsPhotosLayouts K) {view : CollectionView K}
    (hempty : view.numberOfItems = 0) :
    self.prepare (some view) =
      { self with cacheAttributes := fun _ => none } := by
  simp [FriendsPhotosLayouts.prepare, hempty]

@[simp] theorem prepare_columnsCount
    (self : FriendsPhotosLayouts K) (view : CollectionView K) :
    (self.prepare (some view)).columnsCount = self.columnsCount := by
  unfold FriendsPhotosLayouts.prepare
  dsimp only
  split <;> rfl

/-- **Closed form of the content height.** -/
theorem prepare_totalCellHeight
    (self : FriendsPhotosLayouts K) {view : CollectionView K}
    (hc : 1 ≤ self.columnsCount)
    (hitems : view.numberOfItems ≠ 0) :
    (self.prepare (some view)).totalCellHeight =
      contentHeight self.columnsCount view.width view.numberOfItems := by
  obtain ⟨i, hi⟩ := Nat.exists_eq_succ_of_ne_zero hitems
  have hcursor := cursorAt_placeItems hc
    (cursorAt_start (n := view.numberOfItems) view.width
      (view.width / (self.columnsCount : K)) self.totalCellHeight hc)
    i (by omega)
  have hheight := placeItem_lastY_of_last hi.symm hcursor
  rw [← placeItem_totalCellHeight] at hheight
  simp only [FriendsPhotosLayouts.prepare, if_neg hitems, contentHeight]
  rw [hi] at hheight ⊢
  exact hheight

end ContentHeight

section Passes

variable {K : Type u} [Field K]

/-- A sequence of passes, each with its width and number of items. -/
def FriendsPhotosLayouts.prepareAll
    (self : FriendsPhotosLayouts K) (passes : List (CollectionView K)) :
    FriendsPhotosLayouts K :=
  passes.foldl (fun layout view => layout.prepare (some view)) self

/-- What a collection view sees of two layouts is the same. -/
structure SameSeen
    (a b : FriendsPhotosLayouts K) (view : CollectionView K) : Prop where
  item : ∀ i, a.layoutAttributesForItem i = b.layoutAttributesForItem i
  elements : ∀ intersects,
    a.layoutAttributesForElements intersects =
      b.layoutAttributesForElements intersects
  contentSize : a.collectionViewContentSize (some view) =
    b.collectionViewContentSize (some view)

/-- The latest pass that had items. -/
def lastNonempty (passes : List (CollectionView K)) :
    Option (CollectionView K) :=
  (passes.filter (fun view => view.numberOfItems ≠ 0)).getLast?

@[simp] theorem prepareAll_columnsCount
    (self : FriendsPhotosLayouts K) (passes : List (CollectionView K)) :
    (self.prepareAll passes).columnsCount = self.columnsCount := by
  induction passes generalizing self with
  | nil =>
      rfl
  | cons view passes ih =>
      rw [FriendsPhotosLayouts.prepareAll, List.foldl_cons,
        ← FriendsPhotosLayouts.prepareAll, ih, prepare_columnsCount]

theorem prepareAll_concat
    (self : FriendsPhotosLayouts K) (passes : List (CollectionView K))
    (last : CollectionView K) :
    self.prepareAll (passes ++ [last]) =
      (self.prepareAll passes).prepare (some last) := by
  rw [FriendsPhotosLayouts.prepareAll, List.foldl_append]
  rfl

/-- The height comes from the latest pass that had items. -/
theorem prepareAll_totalCellHeight
    (self : FriendsPhotosLayouts K) (passes : List (CollectionView K))
    (hc : 1 ≤ self.columnsCount) :
    (self.prepareAll passes).totalCellHeight =
      ((lastNonempty passes).map (fun view =>
        contentHeight self.columnsCount view.width view.numberOfItems)).getD
          self.totalCellHeight := by
  induction passes using List.reverseRecOn with
  | nil =>
      rfl
  | append_singleton passes last ih =>
      rw [prepareAll_concat, lastNonempty, List.filter_append]
      by_cases hempty : last.numberOfItems = 0
      · rw [prepare_of_empty _ hempty]
        simpa [hempty, lastNonempty] using ih
      · rw [prepare_totalCellHeight _ (by simpa using hc) hempty]
        simp [hempty]

/-- The frames come from the last pass. -/
theorem prepare_cacheAttributes_congr
    {a b : FriendsPhotosLayouts K}
    (hc : 1 ≤ a.columnsCount)
    (hcolumns : a.columnsCount = b.columnsCount)
    (view : CollectionView K) :
    (a.prepare (some view)).cacheAttributes =
      (b.prepare (some view)).cacheAttributes := by
  funext i
  rw [prepare_cacheAttributes a view hc,
    prepare_cacheAttributes b view (hcolumns ▸ hc), hcolumns]

/-- After a pass two layouts can differ in the height only. -/
theorem sameSeen_prepare_iff
    {a b : FriendsPhotosLayouts K}
    (hc : 1 ≤ a.columnsCount)
    (hcolumns : a.columnsCount = b.columnsCount)
    (view : CollectionView K) :
    SameSeen (a.prepare (some view)) (b.prepare (some view)) view
      ↔
    (a.prepare (some view)).totalCellHeight =
      (b.prepare (some view)).totalCellHeight := by
  have hcache := prepare_cacheAttributes_congr hc hcolumns view
  constructor
  · intro h
    exact congrArg CGSize.height h.contentSize
  · intro h
    refine ⟨congrFun hcache, fun intersects => funext fun i => ?_, ?_⟩
    · exact congrArg (Option.filter intersects) (congrFun hcache i)
    · exact congrArg (CGSize.mk view.width) h

end Passes

section History

variable {K : Type u} [Field K] [LinearOrder K] [IsStrictOrderedRing K]

/-- Only cells without a width have no height. -/
theorem contentHeight_eq_zero_iff
    {c : Nat} (hc : 1 ≤ c) (width : K) (n : Nat) :
    contentHeight c width n = 0
      ↔
    width = 0 := by
  have hcne : (c : K) ≠ 0 := by
    exact_mod_cast (by omega : c ≠ 0)
  have hcell : width / (c : K) = 0 ↔ width = 0 := by
    simp [hcne]
  rw [← hcell, contentHeight, rowTop]
  split
  · split
    · rw [zero_add]
    · exact add_self_eq_zero
  · rfl

/--
**After a sequence of passes a collection view sees what a fresh layout would
show if and only if the last pass has items, or no earlier pass has left a
height behind.**
-/
theorem sameSeen_iff
    {c : Nat} (hc : 1 ≤ c)
    (passes : List (CollectionView K)) (last : CollectionView K) :
    SameSeen
        ((FriendsPhotosLayouts.initial c).prepareAll (passes ++ [last]))
        ((FriendsPhotosLayouts.initial c).prepare (some last)) last
      ↔
    (last.numberOfItems = 0 →
      ∀ view, lastNonempty passes = some view → view.width = 0) := by
  have hcolumns :
      ((FriendsPhotosLayouts.initial (K := K) c).prepareAll
        passes).columnsCount = c :=
    prepareAll_columnsCount _ passes
  rw [prepareAll_concat, sameSeen_prepare_iff (hcolumns.symm ▸ hc) hcolumns]
  by_cases hempty : last.numberOfItems = 0
  · have hheight := prepareAll_totalCellHeight
      (FriendsPhotosLayouts.initial (K := K) c) passes hc
    rw [prepare_of_empty _ hempty, prepare_of_empty _ hempty]
    simp only [hheight, hempty, forall_const]
    cases lastNonempty passes with
    | none =>
        simp
    | some view =>
        simpa [FriendsPhotosLayouts.initial] using
          contentHeight_eq_zero_iff hc view.width view.numberOfItems
  · have hcols : 1 ≤ ((FriendsPhotosLayouts.initial (K := K) c).prepareAll
        passes).columnsCount := hcolumns.symm ▸ hc
    rw [prepare_totalCellHeight _ hcols hempty,
      prepare_totalCellHeight _ hc hempty, hcolumns]
    simp [hempty, FriendsPhotosLayouts.initial]

theorem sameSeen_iff_two_passes :
    SameSeen
        ((FriendsPhotosLayouts.initial (K := ℚ) 2).prepareAll
          ([⟨320, 3⟩] ++ [⟨480, 1⟩]))
        ((FriendsPhotosLayouts.initial 2).prepare (some ⟨480, 1⟩)) ⟨480, 1⟩
      ↔
    ((⟨480, 1⟩ : CollectionView ℚ).numberOfItems = 0 →
      ∀ view, lastNonempty [(⟨320, 3⟩ : CollectionView ℚ)] = some view →
        view.width = 0) :=
  sameSeen_iff (by decide) [⟨320, 3⟩] ⟨480, 1⟩

/-- The photos are gone and their height stays. -/
theorem emptied_list_keeps_height :
    ¬ SameSeen
        ((FriendsPhotosLayouts.initial (K := ℚ) 2).prepareAll
          ([⟨320, 2⟩] ++ [⟨320, 0⟩]))
        ((FriendsPhotosLayouts.initial 2).prepare (some ⟨320, 0⟩))
        ⟨320, 0⟩ := by
  intro h
  have hheight := congrArg CGSize.height h.contentSize
  revert hheight
  decide +kernel

end History

section BottomEdge

variable {K : Type u} [Field K] [LinearOrder K] [IsStrictOrderedRing K]

/-- Bottom edges of the stored frames. -/
def FriendsPhotosLayouts.bottomEdges (self : FriendsPhotosLayouts K) : Set K :=
  { y | ∃ i frame, self.layoutAttributesForItem i = some frame ∧
      frame.maxY = y }

omit [LinearOrder K] [IsStrictOrderedRing K] in
theorem frameAt_maxY (c : Nat) (width cellHeight : K) (i : Nat) :
    (frameAt c width cellHeight i).maxY =
      if column c i < c then rowTop c cellHeight i + cellHeight
      else rowTop c cellHeight i + cellHeight + cellHeight := by
  unfold frameAt
  split <;> rfl

omit [LinearOrder K] [IsStrictOrderedRing K] in
/-- When a small cell comes last, the content ends where it ends. -/
theorem contentHeight_of_small
    {c n : Nat} (width : K)
    (hsmall : column c (n - 1) < c) :
    contentHeight c width n =
      (frameAt c width (width / (c : K)) (n - 1)).maxY := by
  rw [contentHeight, frameAt_maxY, if_pos hsmall, if_pos hsmall]

omit [IsStrictOrderedRing K] in
theorem rowTop_le
    {c : Nat} {cellHeight : K} (h : 0 ≤ cellHeight) (i : Nat) :
    rowTop c cellHeight i ≤ cellHeight := by
  unfold rowTop
  split
  · exact h
  · exact le_rfl

theorem contentHeight_le
    {c : Nat} {width : K} (h : 0 ≤ width / (c : K)) (n : Nat) :
    contentHeight c width n ≤ width / (c : K) + width / (c : K) := by
  have htop := rowTop_le (c := c) h (n - 1)
  unfold contentHeight
  split
  · linarith
  · linarith

/-- Items of the second group. -/
theorem column_secondGroup {c i : Nat} (hlow : c < i) (hhigh : i ≤ 2 * c + 1) :
    column c i = i - (c + 1) := by
  obtain ⟨k, rfl⟩ := Nat.exists_eq_add_of_lt hlow
  have hk : c + k + 1 = c + 1 + k := by omega
  rw [column, hk, Nat.add_mod_left, Nat.mod_eq_of_lt (by omega)]
  omega

theorem group_ne_zero {c i : Nat} (hlow : c < i) :
    group c i ≠ 0 := by
  have hpos := Nat.div_pos (show c + 1 ≤ i from hlow) (Nat.succ_pos c)
  unfold group
  omega

/-- With at most one big cell in the middle the last item is a small cell. -/
theorem column_last_lt
    {c n : Nat}
    (hn : 1 ≤ n)
    (hmost : n ≤ 2 * c + 1)
    (hbig : n ≠ c + 1) :
    column c (n - 1) < c := by
  by_cases hfirst : n ≤ c
  · rw [column_eq_self_of_le (by omega)]
    omega
  · rw [column_secondGroup (by omega) (by omega)]
    omega

/-- The content ends with the lowest frame while there is no second big cell. -/
theorem maxY_le_contentHeight
    {c n i : Nat} {width : K}
    (hheight : 0 < width / (c : K))
    (hn : n ≤ 2 * c + 1)
    (hbig : n ≠ c + 1)
    (hi : i < n) :
    (frameAt c width (width / (c : K)) i).maxY ≤ contentHeight c width n := by
  rw [frameAt_maxY]
  by_cases hfirst : n ≤ c
  · rw [contentHeight, column_eq_self_of_le (by omega : i ≤ c),
      column_eq_self_of_le (by omega : n - 1 ≤ c), if_pos (by omega),
      if_pos (by omega), rowTop, rowTop, group_eq_zero_of_le (by omega),
      group_eq_zero_of_le (by omega)]
  · have hlast := column_last_lt (by omega) hn hbig
    have htop : rowTop c (width / (c : K)) (n - 1) = width / (c : K) := by
      rw [rowTop, if_neg (group_ne_zero (by omega))]
    rw [contentHeight, if_pos hlast, htop]
    by_cases hsmall : column c i < c
    · rw [if_pos hsmall]
      have := rowTop_le (c := c) hheight.le i
      linarith
    · have hic : i ≤ c := by
        by_contra hmore
        apply hsmall
        rw [column_secondGroup (by omega) (by omega)]
        omega
      rw [if_neg hsmall, rowTop, group_eq_zero_of_le hic]
      simp

omit [LinearOrder K] [IsStrictOrderedRing K] in
/-- The stored frames are those of the items. -/
theorem bottomEdges_prepare
    (self : FriendsPhotosLayouts K) (view : CollectionView K)
    (hc : 1 ≤ self.columnsCount) :
    (self.prepare (some view)).bottomEdges =
      { y | ∃ i, i < view.numberOfItems ∧
        (frameAt self.columnsCount view.width
          (view.width / (self.columnsCount : K)) i).maxY = y } := by
  ext y
  simp only [FriendsPhotosLayouts.bottomEdges,
    FriendsPhotosLayouts.layoutAttributesForItem,
    prepare_cacheAttributes self view hc, Set.mem_ofPred_eq]
  constructor
  · rintro ⟨i, frame, hframe, rfl⟩
    split at hframe
    · next hi =>
        cases hframe
        exact ⟨i, hi, rfl⟩
    · cases hframe
  · rintro ⟨i, hi, rfl⟩
    exact ⟨i, _, if_pos hi, rfl⟩

/--
**The content ends at the lowest bottom edge if and only if the last item is not
the first big cell and there is no second one.**
-/
theorem contentSize_isGreatest_iff
    (self : FriendsPhotosLayouts K) (view : CollectionView K)
    (hc : 1 ≤ self.columnsCount)
    (hitems : 1 ≤ view.numberOfItems)
    (hwidth : 0 < view.width) :
    IsGreatest (self.prepare (some view)).bottomEdges
        ((self.prepare (some view)).collectionViewContentSize
          (some view)).height
      ↔
    view.numberOfItems ≤ 2 * self.columnsCount + 1 ∧
      view.numberOfItems ≠ self.columnsCount + 1 := by
  have hheight : 0 < view.width / (self.columnsCount : K) :=
    div_pos hwidth (by exact_mod_cast hc)
  rw [FriendsPhotosLayouts.collectionViewContentSize,
    prepare_totalCellHeight self hc (by omega), bottomEdges_prepare self view hc]
  constructor
  · rintro ⟨_, hupper⟩
    constructor
    · by_contra hmore
      have hlow := hupper ⟨2 * self.columnsCount + 1, by omega, rfl⟩
      have hcontent := contentHeight_le hheight.le view.numberOfItems
      rw [frameAt_maxY, column_secondGroup (by omega) le_rfl,
        if_neg (by omega), rowTop, if_neg (group_ne_zero (by omega))] at hlow
      linarith
    · intro hbig
      have hlow := hupper ⟨self.columnsCount, by omega, rfl⟩
      rw [frameAt_maxY, contentHeight, hbig, Nat.add_sub_cancel,
        column_eq_self_of_le le_rfl, if_neg (lt_irrefl _),
        if_neg (lt_irrefl _), rowTop, group_eq_zero_of_le le_rfl,
        if_pos rfl] at hlow
      linarith
  · rintro ⟨hmost, hbig⟩
    constructor
    · exact ⟨view.numberOfItems - 1, by omega,
        (contentHeight_of_small view.width
          (column_last_lt hitems hmost hbig)).symm⟩
    · rintro y ⟨i, hi, rfl⟩
      exact maxY_le_contentHeight hheight hmost hbig hi

theorem contentSize_isGreatest_iff_two_items :
    IsGreatest
        ((FriendsPhotosLayouts.initial (K := ℚ) 2).prepare
          (some ⟨320, 2⟩)).bottomEdges
        (((FriendsPhotosLayouts.initial 2).prepare
          (some ⟨320, 2⟩)).collectionViewContentSize (some ⟨320, 2⟩)).height
      ↔
    2 ≤ 2 * 2 + 1 ∧ 2 ≠ 2 + 1 :=
  contentSize_isGreatest_iff (FriendsPhotosLayouts.initial (K := ℚ) 2)
    ⟨320, 2⟩ (by decide) (by decide) (by norm_num)

/-- Two columns and three items: the big cell cannot be scrolled to. -/
theorem three_items_cut :
    ¬ IsGreatest
        ((FriendsPhotosLayouts.initial (K := ℚ) 2).prepare
          (some ⟨320, 3⟩)).bottomEdges
        (((FriendsPhotosLayouts.initial 2).prepare
          (some ⟨320, 3⟩)).collectionViewContentSize
            (some ⟨320, 3⟩)).height := by
  rintro ⟨_, hupper⟩
  have hframe : ((FriendsPhotosLayouts.initial (K := ℚ) 2).prepare
      (some ⟨320, 3⟩)).layoutAttributesForItem 2 =
      some ⟨0, 160, 320, 160⟩ := by
    decide +kernel
  have hlow := hupper ⟨2, _, hframe, rfl⟩
  revert hlow
  decide +kernel

end BottomEdge

end PhotoLayout
end NotVK
