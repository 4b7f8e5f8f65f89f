import Mathlib.Algebra.Order.Field.Basic
import Mathlib.Logic.Function.Basic
import Mathlib.Tactic.Linarith
import Mathlib.Tactic.NormNum
import Mathlib.Tactic.Ring

/-!
# The photo layout of a friend

`FriendsPhotosLayouts.prepare()` walks over the items with a cursor `(lastX,
lastY)`.  Items come in groups of `columnsCount + 1`: a row of `columnsCount`
small cells and then one cell over the whole width.  Coordinates are exact: they
live in an arbitrary ordered field.

The loop is solved in closed form.  `column c i` and `group c i` are the place
of item `i` inside its group and the number of that group; `cursorX`, `cursorY`
and `frameAt` give the cursor before item `i` and the frame of item `i` in terms
of them.

The branch of the big cell assigns `lastY = cellHeight` where the branch of the
small cells adds to `lastY`.  From the second group on every row therefore
starts at the same height, and `readingOrder_iff` says exactly when that shows.
-/

namespace NotVK
namespace PhotoLayout

universe u

structure CGRect (K : Type u) where
  x : K
  y : K
  width : K
  height : K
deriving DecidableEq

structure CGSize (K : Type u) where
  width : K
  height : K
deriving DecidableEq

/-- Width of the collection view and number of items in its only section. -/
structure CollectionView (K : Type u) where
  width : K
  numberOfItems : Nat

/-- Fields of a `FriendsPhotosLayouts`; an index path is its item. -/
structure FriendsPhotosLayouts (K : Type u) where
  cacheAttributes : Nat → Option (CGRect K)
  columnsCount : Nat
  cellHeight : K
  totalCellHeight : K

section Model

variable {K : Type u} [Field K]

def CGRect.maxX (r : CGRect K) : K := r.x + r.width

def CGRect.maxY (r : CGRect K) : K := r.y + r.height

/-- A layout as its initializer leaves it. -/
def FriendsPhotosLayouts.initial (columnsCount : Nat) :
    FriendsPhotosLayouts K where
  cacheAttributes := fun _ => none
  columnsCount := columnsCount
  cellHeight := 128
  totalCellHeight := 0

/-- Local variables of the loop and the two fields it assigns. -/
structure Cursor (K : Type u) where
  lastX : K
  lastY : K
  cacheAttributes : Nat → Option (CGRect K)
  totalCellHeight : K

/-- One pass of the loop body. -/
def placeItem
    (columnsCount itemsCount : Nat) (width cellHeight : K)
    (cursor : Cursor K) (index : Nat) : Cursor K :=
  let smallCellWidth := width / (columnsCount : K)
  if (index + 1) % (columnsCount + 1) = 0 then
    let frame : CGRect K := ⟨0, cursor.lastY, width, cellHeight⟩
    { lastX := cursor.lastX
      lastY := cellHeight
      cacheAttributes :=
        Function.update cursor.cacheAttributes index (some frame)
      totalCellHeight := cellHeight }
  else
    let frame : CGRect K :=
      ⟨cursor.lastX, cursor.lastY, smallCellWidth, cellHeight⟩
    let cacheAttributes :=
      Function.update cursor.cacheAttributes index (some frame)
    if (index + 2) % (columnsCount + 1) = 0 ∨ index + 1 = itemsCount then
      { lastX := 0
        lastY := cursor.lastY + cellHeight
        cacheAttributes := cacheAttributes
        totalCellHeight := cursor.lastY + cellHeight }
    else
      { lastX := cursor.lastX + smallCellWidth
        lastY := cursor.lastY
        cacheAttributes := cacheAttributes
        totalCellHeight := cursor.lastY }

/-- The loop over the first `k` items. -/
def placeItems
    (columnsCount itemsCount : Nat) (width cellHeight : K)
    (cursor : Cursor K) : Nat → Cursor K
  | 0 => cursor
  | k + 1 =>
      placeItem columnsCount itemsCount width cellHeight
        (placeItems columnsCount itemsCount width cellHeight cursor k) k

/-- `prepare()`; the collection view may be gone or empty. -/
def FriendsPhotosLayouts.prepare
    (self : FriendsPhotosLayouts K)
    (collectionView : Option (CollectionView K)) :
    FriendsPhotosLayouts K :=
  let self := { self with cacheAttributes := fun _ => none }
  match collectionView with
  | none => self
  | some view =>
      if view.numberOfItems = 0 then self
      else
        let cellHeight := view.width / (self.columnsCount : K)
        let cursor : Cursor K :=
          { lastX := 0
            lastY := 0
            cacheAttributes := self.cacheAttributes
            totalCellHeight := self.totalCellHeight }
        let last := placeItems self.columnsCount view.numberOfItems
          view.width cellHeight cursor view.numberOfItems
        { cacheAttributes := last.cacheAttributes
          columnsCount := self.columnsCount
          cellHeight := cellHeight
          totalCellHeight := last.totalCellHeight }

/-- The stored attributes whose frames meet the rectangle, by index path. -/
def FriendsPhotosLayouts.layoutAttributesForElements
    (self : FriendsPhotosLayouts K) (intersects : CGRect K → Bool) :
    Nat → Option (CGRect K) :=
  fun item => (self.cacheAttributes item).filter intersects

def FriendsPhotosLayouts.layoutAttributesForItem
    (self : FriendsPhotosLayouts K) (item : Nat) : Option (CGRect K) :=
  self.cacheAttributes item

def FriendsPhotosLayouts.collectionViewContentSize
    (self : FriendsPhotosLayouts K)
    (collectionView : Option (CollectionView K)) : CGSize K where
  width := (collectionView.map CollectionView.width).getD 0
  height := self.totalCellHeight

end Model

section ClosedForm

variable {K : Type u} [Field K]

/-- Place of an item inside its group. -/
def column (c i : Nat) : Nat := i % (c + 1)

/-- Number of the group of an item. -/
def group (c i : Nat) : Nat := i / (c + 1)

theorem column_le (c i : Nat) : column c i ≤ c :=
  Nat.lt_succ_iff.mp (Nat.mod_lt i (Nat.succ_pos c))

theorem column_succ_of_lt
    {c i : Nat} (h : column c i < c) :
    column c (i + 1) = column c i + 1 := by
  unfold column at h ⊢
  have hdiv := Nat.div_add_mod i (c + 1)
  rw [← hdiv, Nat.add_assoc, Nat.mul_add_mod, Nat.mul_add_mod]
  have hmod : i % (c + 1) % (c + 1) = i % (c + 1) := Nat.mod_mod _ _
  rw [hmod]
  exact Nat.mod_eq_of_lt (by omega)

theorem group_succ_of_lt
    {c i : Nat} (h : column c i < c) :
    group c (i + 1) = group c i := by
  have hcol := column_succ_of_lt h
  unfold column group at *
  have h₁ := Nat.div_add_mod i (c + 1)
  have h₂ := Nat.div_add_mod (i + 1) (c + 1)
  have hmul : (c + 1) * ((i + 1) / (c + 1)) = (c + 1) * (i / (c + 1)) := by
    omega
  exact Nat.eq_of_mul_eq_mul_left (Nat.succ_pos c) hmul

theorem column_succ_of_eq
    {c i : Nat} (h : column c i = c) :
    column c (i + 1) = 0 := by
  unfold column at h ⊢
  have hdiv := Nat.div_add_mod i (c + 1)
  have hi : i + 1 = (c + 1) * (i / (c + 1) + 1) := by
    rw [Nat.mul_add]
    omega
  rw [hi]
  exact Nat.mul_mod_right _ _

theorem group_succ_of_eq
    {c i : Nat} (h : column c i = c) :
    group c (i + 1) = group c i + 1 := by
  unfold column at h
  unfold group
  have hdiv := Nat.div_add_mod i (c + 1)
  have hi : i + 1 = (c + 1) * (i / (c + 1) + 1) := by
    rw [Nat.mul_add]
    omega
  rw [hi]
  exact Nat.mul_div_cancel_left _ (Nat.succ_pos c)

/-- The test for the big cell looks at the last place of the group. -/
theorem isBigCell_iff (c i : Nat) :
    (i + 1) % (c + 1) = 0 ↔ column c i = c := by
  constructor
  · intro h
    by_contra hne
    have hlt : column c i < c := by
      have := column_le c i
      omega
    have hsucc := column_succ_of_lt hlt
    unfold column at hsucc
    omega
  · exact column_succ_of_eq

/-- The test for the last column looks at the last small cell. -/
theorem isLastColumn_iff
    {c i : Nat} (h : column c i < c) :
    (i + 2) % (c + 1) = 0 ↔ column c i + 1 = c := by
  have hsucc := column_succ_of_lt h
  have hbig := isBigCell_iff c (i + 1)
  rw [hsucc] at hbig
  exact hbig

/-- `lastX` before item `i`. -/
def cursorX (c : Nat) (width : K) (i : Nat) : K :=
  if column c i < c then (column c i : K) * (width / (c : K)) else 0

/-- Height at which the small cells of the group of item `i` start. -/
def rowTop (c : Nat) (cellHeight : K) (i : Nat) : K :=
  if group c i = 0 then 0 else cellHeight

/-- `lastY` before item `i`. -/
def cursorY (c : Nat) (cellHeight : K) (i : Nat) : K :=
  if column c i < c then rowTop c cellHeight i
  else rowTop c cellHeight i + cellHeight

/-- Frame of item `i`. -/
def frameAt (c : Nat) (width cellHeight : K) (i : Nat) : CGRect K :=
  if column c i < c then
    ⟨cursorX c width i, rowTop c cellHeight i, width / (c : K), cellHeight⟩
  else
    ⟨0, rowTop c cellHeight i + cellHeight, width, cellHeight⟩

/-- What the loop has established before item `i` of `n`. -/
structure CursorAt
    (c n : Nat) (width cellHeight : K) (i : Nat) (cursor : Cursor K) :
    Prop where
  lastX : i < n → cursor.lastX = cursorX c width i
  lastY : i < n → cursor.lastY = cursorY c cellHeight i
  stored : ∀ j, j < i →
    cursor.cacheAttributes j = some (frameAt c width cellHeight j)
  empty : ∀ j, i ≤ j → cursor.cacheAttributes j = none

theorem rowTop_succ_of_lt
    {c i : Nat} (cellHeight : K)
    (h : column c i < c) :
    rowTop c cellHeight (i + 1) = rowTop c cellHeight i := by
  unfold rowTop
  rw [group_succ_of_lt h]

/-- Every row after the first group starts one cell height down. -/
theorem rowTop_succ_of_eq
    {c i : Nat} (cellHeight : K)
    (h : column c i = c) :
    rowTop c cellHeight (i + 1) = cellHeight := by
  unfold rowTop
  rw [group_succ_of_eq h]
  simp

theorem stored_update
    {c i : Nat} {width cellHeight : K}
    {cache : Nat → Option (CGRect K)} {frame : CGRect K}
    (hstored : ∀ j, j < i → cache j = some (frameAt c width cellHeight j))
    (hframe : frame = frameAt c width cellHeight i) :
    ∀ j, j < i + 1 →
      Function.update cache i (some frame) j =
        some (frameAt c width cellHeight j) := by
  intro j hj
  by_cases hji : j = i
  · subst hji
    rw [Function.update_self, hframe]
  · rw [Function.update_of_ne hji]
    exact hstored j (by omega)

omit [Field K] in
theorem empty_update
    {i : Nat} {cache : Nat → Option (CGRect K)} {frame : CGRect K}
    (hempty : ∀ j, i ≤ j → cache j = none) :
    ∀ j, i + 1 ≤ j → Function.update cache i (some frame) j = none := by
  intro j hj
  rw [Function.update_of_ne (by omega)]
  exact hempty j (by omega)

/-- The loop body at the big cell. -/
theorem cursorAt_bigCell
    {c n i : Nat} {width cellHeight : K} {cursor : Cursor K}
    (hc : 1 ≤ c)
    (hi : i < n)
    (hbig : column c i = c)
    (h : CursorAt c n width cellHeight i cursor) :
    CursorAt c n width cellHeight (i + 1)
      (placeItem c n width cellHeight cursor i) := by
  have hplace : placeItem c n width cellHeight cursor i =
      { lastX := cursor.lastX
        lastY := cellHeight
        cacheAttributes :=
          Function.update cursor.cacheAttributes i
            (some ⟨0, cursor.lastY, width, cellHeight⟩)
        totalCellHeight := cellHeight } := by
    unfold placeItem
    rw [if_pos ((isBigCell_iff c i).mpr hbig)]
  have hnext := column_succ_of_eq hbig
  rw [hplace]
  refine ⟨fun _ => ?_, fun _ => ?_, ?_, empty_update h.empty⟩
  · show cursor.lastX = _
    rw [h.lastX hi]
    simp [cursorX, hbig, hnext]
  · show cellHeight = _
    have hlt : column c (i + 1) < c := by omega
    simp [cursorY, hlt, rowTop_succ_of_eq cellHeight hbig]
  · apply stored_update h.stored
    simp [frameAt, hbig, h.lastY hi, cursorY]

/-- The loop body at a small cell. -/
theorem cursorAt_smallCell
    {c n i : Nat} {width cellHeight : K} {cursor : Cursor K}
    (hi : i < n)
    (hsmall : column c i < c)
    (h : CursorAt c n width cellHeight i cursor) :
    CursorAt c n width cellHeight (i + 1)
      (placeItem c n width cellHeight cursor i) := by
  have hnotBig : ¬ (i + 1) % (c + 1) = 0 := by
    rw [isBigCell_iff]
    omega
  have hcol := column_succ_of_lt hsmall
  have htop := rowTop_succ_of_lt cellHeight hsmall
  have hlastY : cursor.lastY = rowTop c cellHeight i := by
    rw [h.lastY hi]
    simp [cursorY, hsmall]
  have hframe :
      (⟨cursor.lastX, cursor.lastY, width / (c : K), cellHeight⟩ : CGRect K) =
        frameAt c width cellHeight i := by
    simp [frameAt, hsmall, h.lastX hi, hlastY]
  unfold placeItem
  rw [if_neg hnotBig]
  by_cases hlast : (i + 2) % (c + 1) = 0 ∨ i + 1 = n
  · simp only [hlast, if_true]
    refine ⟨fun hn => ?_, fun hn => ?_, stored_update h.stored hframe,
      empty_update h.empty⟩
    · have hend : column c i + 1 = c := by
        rcases hlast with hrow | hitem
        · exact (isLastColumn_iff hsmall).mp hrow
        · omega
      simp [cursorX, hcol, hend]
    · have hend : column c i + 1 = c := by
        rcases hlast with hrow | hitem
        · exact (isLastColumn_iff hsmall).mp hrow
        · omega
      simp [cursorY, hcol, hend, htop, hlastY]
  · simp only [hlast, if_false]
    have hmore : column c i + 1 < c := by
      have hne : column c i + 1 ≠ c := by
        intro hend
        exact hlast (Or.inl ((isLastColumn_iff hsmall).mpr hend))
      omega
    refine ⟨fun _ => ?_, fun _ => ?_, stored_update h.stored hframe,
      empty_update h.empty⟩
    · simp only [h.lastX hi, cursorX, hcol, hmore, hsmall, if_true]
      push_cast
      ring
    · simp [cursorY, hcol, hmore, htop, hlastY]

/-- Loop invariant. -/
theorem cursorAt_placeItems
    {c n : Nat} {width cellHeight : K} {cursor : Cursor K}
    (hc : 1 ≤ c)
    (h : CursorAt c n width cellHeight 0 cursor) :
    ∀ i, i ≤ n →
      CursorAt c n width cellHeight i
        (placeItems c n width cellHeight cursor i) := by
  intro i
  induction i with
  | zero =>
      intro _
      exact h
  | succ i ih =>
      intro hi
      have hprev := ih (by omega)
      rcases Nat.lt_or_eq_of_le (column_le c i) with hsmall | hbig
      · exact cursorAt_smallCell (by omega) hsmall hprev
      · exact cursorAt_bigCell hc (by omega) hbig hprev

theorem cursorAt_start
    {c n : Nat} (width cellHeight totalCellHeight : K)
    (hc : 1 ≤ c) :
    CursorAt c n width cellHeight 0
      { lastX := 0
        lastY := 0
        cacheAttributes := fun _ => none
        totalCellHeight := totalCellHeight } where
  lastX _ := by
    simp [cursorX, column]
  lastY _ := by
    have h : column c 0 < c := by
      simp [column]
      omega
    simp [cursorY, h, rowTop, group]
  stored j hj := by
    omega
  empty j _ := rfl

/-- **Closed form of the stored frames.** -/
theorem prepare_cacheAttributes
    (self : FriendsPhotosLayouts K) (view : CollectionView K)
    (hc : 1 ≤ self.columnsCount) (i : Nat) :
    (self.prepare (some view)).cacheAttributes i =
      if i < view.numberOfItems then
        some (frameAt self.columnsCount view.width
          (view.width / (self.columnsCount : K)) i)
      else none := by
  unfold FriendsPhotosLayouts.prepare
  by_cases hn : view.numberOfItems = 0
  · simp [hn]
  · simp only [hn, if_false]
    have h := cursorAt_placeItems hc
      (cursorAt_start (n := view.numberOfItems) view.width
        (view.width / (self.columnsCount : K)) self.totalCellHeight hc)
      view.numberOfItems le_rfl
    split_ifs with hi
    · exact h.stored i hi
    · exact h.empty i (by omega)

theorem group_eq_zero_of_le
    {c i : Nat} (h : i ≤ c) : group c i = 0 := by
  unfold group
  exact Nat.div_eq_of_lt (by omega)

theorem column_eq_self_of_le
    {c i : Nat} (h : i ≤ c) : column c i = i := by
  unfold column
  exact Nat.mod_eq_of_lt (by omega)

/-- Frames of the first group: the small cells and then the big one. -/
theorem frameAt_firstGroup
    {c i : Nat} (width cellHeight : K) (h : i ≤ c) :
    frameAt c width cellHeight i =
      if i < c then ⟨(i : K) * (width / (c : K)), 0, width / (c : K), cellHeight⟩
      else ⟨0, cellHeight, width, cellHeight⟩ := by
  by_cases hlt : i < c <;>
    simp [frameAt, cursorX, rowTop, group_eq_zero_of_le h,
      column_eq_self_of_le h, hlt]

/-- The first small cell of the second group starts beside the first big cell. -/
theorem frameAt_secondGroup
    {c : Nat} (width cellHeight : K) (hc : 1 ≤ c) :
    frameAt c width cellHeight (c + 1) =
      ⟨0, cellHeight, width / (c : K), cellHeight⟩ := by
  have hcol : column c (c + 1) = 0 := by
    simp [column]
  have hgroup : group c (c + 1) = 1 := by
    simp [group]
  have hpos : 0 < c := hc
  simp [frameAt, cursorX, rowTop, hcol, hgroup, hpos]

end ClosedForm

section ReadingOrder

variable {K : Type u} [Field K] [LinearOrder K] [IsStrictOrderedRing K]

/-- `b` comes below `a`, or beside it on its right. -/
def CGRect.Before (a b : CGRect K) : Prop :=
  a.maxY ≤ b.y ∨ (a.y = b.y ∧ a.maxX ≤ b.x)

/-- The first `n` frames are all stored, each before the later ones. -/
def ReadingOrder (self : FriendsPhotosLayouts K) (n : Nat) : Prop :=
  ∀ i j, i < j → j < n →
    ∃ a b, self.cacheAttributes i = some a ∧
      self.cacheAttributes j = some b ∧ a.Before b

/-- Within the first group the frames are in reading order. -/
theorem before_firstGroup
    {c i j : Nat} {width : K}
    (hwidth : 0 < width)
    (hij : i < j) (hj : j ≤ c) :
    (frameAt c width (width / (c : K)) i).Before
      (frameAt c width (width / (c : K)) j) := by
  have hw : (0 : K) ≤ width / (c : K) :=
    div_nonneg hwidth.le (Nat.cast_nonneg c)
  rw [frameAt_firstGroup _ _ (by omega : i ≤ c), frameAt_firstGroup _ _ hj]
  rw [if_pos (by omega : i < c)]
  by_cases hjc : j < c
  · rw [if_pos hjc]
    right
    refine ⟨rfl, ?_⟩
    have hcast : (i : K) + 1 ≤ (j : K) := by
      exact_mod_cast hij
    calc (i : K) * (width / (c : K)) + width / (c : K)
        = ((i : K) + 1) * (width / (c : K)) := by ring
      _ ≤ (j : K) * (width / (c : K)) := mul_le_mul_of_nonneg_right hcast hw
  · rw [if_neg hjc]
    left
    simp [CGRect.maxY]

/-- The first big cell is not before the small cell that follows it. -/
theorem not_before_secondGroup
    {c : Nat} {width : K}
    (hc : 1 ≤ c)
    (hwidth : 0 < width) :
    ¬ (frameAt c width (width / (c : K)) c).Before
        (frameAt c width (width / (c : K)) (c + 1)) := by
  have hcpos : (0 : K) < (c : K) := by
    exact_mod_cast hc
  have hheight : 0 < width / (c : K) := div_pos hwidth hcpos
  rw [frameAt_firstGroup _ _ le_rfl, frameAt_secondGroup _ _ hc]
  rw [if_neg (lt_irrefl c)]
  rintro (hbelow | ⟨_, hbeside⟩)
  · simp only [CGRect.maxY] at hbelow
    linarith
  · simp only [CGRect.maxX] at hbeside
    linarith

/--
**The stored frames are in reading order exactly when there is at most one
complete group.**
-/
theorem readingOrder_iff
    (self : FriendsPhotosLayouts K) (view : CollectionView K)
    (hc : 1 ≤ self.columnsCount)
    (hwidth : 0 < view.width) :
    ReadingOrder (self.prepare (some view)) view.numberOfItems
      ↔
    view.numberOfItems ≤ self.columnsCount + 1 := by
  constructor
  · intro h
    by_contra hmore
    obtain ⟨a, b, ha, hb, hab⟩ :=
      h self.columnsCount (self.columnsCount + 1) (by omega) (by omega)
    rw [prepare_cacheAttributes self view hc, if_pos (by omega)] at ha hb
    cases ha
    cases hb
    exact not_before_secondGroup hc hwidth hab
  · intro hle i j hij hj
    have hjc : j ≤ self.columnsCount := by
      omega
    refine ⟨_, _, ?_, ?_, before_firstGroup hwidth hij hjc⟩
    · rw [prepare_cacheAttributes self view hc, if_pos (by omega)]
    · rw [prepare_cacheAttributes self view hc, if_pos hj]

/-- Two columns and one complete group. -/
theorem readingOrder_iff_three_items :
    ReadingOrder
        ((FriendsPhotosLayouts.initial (K := ℚ) 2).prepare (some ⟨320, 3⟩)) 3
      ↔
    3 ≤ 2 + 1 :=
  readingOrder_iff (FriendsPhotosLayouts.initial (K := ℚ) 2) ⟨320, 3⟩
    (by decide) (by norm_num)

/-- Two columns and four items: the fourth cell lies on the big one. -/
theorem four_items_overlap :
    ((FriendsPhotosLayouts.initial (K := ℚ) 2).prepare
        (some ⟨320, 4⟩)).cacheAttributes 2 = some ⟨0, 160, 320, 160⟩ ∧
    ((FriendsPhotosLayouts.initial (K := ℚ) 2).prepare
        (some ⟨320, 4⟩)).cacheAttributes 3 = some ⟨0, 160, 160, 160⟩ ∧
    ¬ ReadingOrder
        ((FriendsPhotosLayouts.initial (K := ℚ) 2).prepare (some ⟨320, 4⟩)) 4 := by
  have hbig : ((FriendsPhotosLayouts.initial (K := ℚ) 2).prepare
      (some ⟨320, 4⟩)).cacheAttributes 2 = some ⟨0, 160, 320, 160⟩ := by
    decide +kernel
  have hnext : ((FriendsPhotosLayouts.initial (K := ℚ) 2).prepare
      (some ⟨320, 4⟩)).cacheAttributes 3 = some ⟨0, 160, 160, 160⟩ := by
    decide +kernel
  refine ⟨hbig, hnext, ?_⟩
  intro h
  obtain ⟨a, b, ha, hb, hab⟩ := h 2 3 (by decide) (by decide)
  rw [hbig] at ha
  rw [hnext] at hb
  cases ha
  cases hb
  rcases hab with hbelow | ⟨_, hbeside⟩
  · norm_num [CGRect.maxY] at hbelow
  · norm_num [CGRect.maxX] at hbeside

end ReadingOrder

end PhotoLayout
end NotVK
