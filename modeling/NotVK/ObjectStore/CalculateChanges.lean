import NotVK.ObjectStore.ChangeSetMerge
import NotVK.ObjectStore.LongestMatches

/-!
# Calculating a change set

Two versions of a collection are compared by the keys of their rows.  A walk over
both versions sorted by key finds the rows that only one of them has; the rows
that both have are then aligned, and a row outside the alignment is deleted and
inserted again.
-/

namespace NotVK
namespace ObjectStore

open Indices LongestCommonSubsequence

universe u

section Calculate

structure RowInfo where
  key : Int
  /-- None for `npos`. -/
  prevTvIndex : Option Nat
  tvIndex : Nat

/-- A sort by key; rows with the same key come in any order. -/
structure KeySort where
  sort : List RowInfo → List RowInfo
  perm : ∀ rows, (sort rows).Perm rows
  sorted : ∀ rows, (sort rows).Pairwise (fun l r => l.key ≤ r.key)

/-- One of the sorts by key. -/
def KeySort.stable : KeySort where
  sort rows := rows.mergeSort (fun l r => l.key ≤ r.key)
  perm rows := List.mergeSort_perm rows _
  sorted rows := by
    refine (List.pairwise_mergeSort ?_ ?_ rows).imp (fun h => of_decide_eq_true h)
    · intro r s t hrs hst
      simp only [decide_eq_true_eq] at hrs hst ⊢
      omega
    · intro r s
      simp only [Bool.or_eq_true, decide_eq_true_eq]
      omega

/-- `npos`. -/
def npos : Nat :=
  2 ^ 64 - 1

def addEach (s : IndexSet) (indices : List Nat) : IndexSet :=
  indices.foldl IndexSet.add s

/-- The loops over old and new rows, both sorted by key. -/
def walk (ret : CollectionChangeBuilder) :
    List RowInfo → List RowInfo → CollectionChangeBuilder × List RowInfo
  | [], news =>
      ({ ret with insertions := addEach ret.insertions (news.map RowInfo.tvIndex) },
        news)
  | olds, [] =>
      ({ ret with deletions := addEach ret.deletions (olds.map RowInfo.tvIndex) }, [])
  | old :: olds, new :: news =>
      if old.key = new.key then
        let walked := walk ret olds news
        (walked.1, { new with prevTvIndex := some old.tvIndex } :: walked.2)
      else if old.key < new.key then
        walk { ret with deletions := ret.deletions.add old.tvIndex } olds (new :: news)
      else
        let walked := walk { ret with insertions := ret.insertions.add new.tvIndex }
          (old :: olds) news
        (walked.1, new :: walked.2)
termination_by olds news => olds.length + news.length

/-- The rows of both versions in the old order, `a`. -/
def oldOrder (rows : List RowInfo) : List Row :=
  (rows.map (fun r => ⟨r.key, r.prevTvIndex.getD npos⟩)).mergeSort
    (fun l r => l.tvIndex < r.tvIndex ∨ l.tvIndex = r.tvIndex ∧ l.key ≤ r.key)

/-- The rows of both versions by key, `b`. -/
def newByKey (rows : List RowInfo) : List Row :=
  (rows.zipIdx.map (fun r => ⟨r.1.key, r.2⟩)).mergeSort
    (fun l r => l.key < r.key ∨ l.key = r.key ∧ l.tvIndex ≤ r.tvIndex)

def firstDifference (a : List Row) (rows : List RowInfo) : Option Nat :=
  (List.range a.length).find? (fun i =>
    a[i]?.map Row.key ≠ rows[i]?.map RowInfo.key)

/-- Inserts and deletes rows as needed to align them. -/
def align (a : List Row) (rows : List RowInfo) :
    List Match → Nat → Nat → CollectionChangeSet → CollectionChangeSet
  | [], _, _, changeset => changeset
  | m :: ms, i, j, changeset =>
      align a rows ms (max i m.i + m.size) (max j m.j + m.size)
        { changeset with
          deletions := addEach changeset.deletions
            (((a.drop i).take (m.i - i)).map Row.tvIndex)
          insertions := addEach changeset.insertions
            (((rows.drop j).take (m.j - j)).map RowInfo.tvIndex) }

/-- `calculate_moves_sorted`, with the chunks of the modifications. -/
def calculateMovesSorted
    (modified : List Chunk) (rows : List RowInfo) (changeset : CollectionChangeSet) :
    CollectionChangeSet :=
  match firstDifference (oldOrder rows) rows with
  | none => changeset
  | some first =>
      align (oldOrder rows) rows
        (longestMatches modified (oldOrder rows) (newByKey rows) first)
        first first changeset

/-- The rows that both versions have, in the new order. -/
def matchedRows (rows : List RowInfo) : List RowInfo :=
  (rows.filter (fun row => row.prevTvIndex.isSome)).mergeSort
    (fun l r => l.tvIndex ≤ r.tvIndex)

/-- `calculate` of rows that are sorted by key. -/
def calculateFrom
    (ret : CollectionChangeBuilder) (oldRows newRows : List RowInfo)
    (keyDidChange : Int → Bool) (inTableOrder : Bool) : CollectionChangeBuilder :=
  let walked := walk ret oldRows newRows
  let rows := matchedRows walked.2
  let modified := (rows.filter (fun row => keyDidChange row.key)).map RowInfo.tvIndex
  let ret :=
    { walked.1 with modifications := addEach walked.1.modifications modified }
  -- each modified row is past those before
  if !inTableOrder then calculateMovesSorted (modified.foldl addLast []) rows ret else ret

/-- `build_row_info`, before the sort. -/
def rowInfo (rows : List Int) : List RowInfo :=
  rows.zipIdx.map (fun r => ⟨r.1, none, r.2⟩)

/-- `calculate(prev_rows, next_rows, key_did_change, in_table_order)`. -/
def calculate
    (byKey : KeySort) (prevRows nextRows : List Int)
    (keyDidChange : Int → Bool) (inTableOrder : Bool) : CollectionChangeBuilder :=
  calculateFrom .empty (byKey.sort (rowInfo prevRows)) (byKey.sort (rowInfo nextRows))
    keyDidChange inTableOrder

theorem toFinset_addEach
    {s : IndexSet} {indices : List Nat} :
    (addEach s indices).toFinset = s.toFinset ∪ indices.toFinset := by
  induction indices generalizing s with
  | nil =>
      simp [addEach]
  | cons i indices ih =>
      rw [addEach, List.foldl_cons, ← addEach, ih, IndexSet.toFinset_add,
        List.toFinset_cons]
      ext j
      simp only [Finset.mem_union, Finset.mem_insert]
      tauto

end Calculate

section Walk

/-- The rows that have a place in the old version. -/
def both (rows : List RowInfo) : List RowInfo :=
  rows.filter (fun row => row.prevTvIndex.isSome)

/-- What the walk finds: the places deleted and inserted, and those of both. -/
structure Walked
    (ret : CollectionChangeBuilder) (olds news : List RowInfo)
    (walked : CollectionChangeBuilder × List RowInfo) (deleted inserted : List Nat) :
    Prop where
  ret_eq : walked.1 =
    { ret with
      deletions := addEach ret.deletions deleted
      insertions := addEach ret.insertions inserted }
  olds_perm : (deleted ++ (both walked.2).map (fun r => r.prevTvIndex.getD npos)).Perm
    (olds.map RowInfo.tvIndex)
  news_perm : (inserted ++ (both walked.2).map RowInfo.tvIndex).Perm
    (news.map RowInfo.tvIndex)
  came : ∀ r ∈ both walked.2,
    ∃ old ∈ olds, old.key = r.key ∧ r.prevTvIndex = some old.tvIndex
  stayed : ∀ r ∈ both walked.2, ∃ new ∈ news, new.key = r.key ∧ new.tvIndex = r.tvIndex

theorem both_cons_none
    {row : RowInfo} (rows : List RowInfo)
    (h : row.prevTvIndex = none) :
    both (row :: rows) = both rows := by
  rw [both, List.filter_cons_of_neg (by simp [h])]
  rfl

theorem both_eq_nil
    {rows : List RowInfo}
    (h : ∀ row ∈ rows, row.prevTvIndex = none) :
    both rows = [] := by
  rw [both, List.filter_eq_nil_iff]
  intro row hrow
  simp [h row hrow]

/-- A row of both versions. -/
theorem Walked.match
    {ret : CollectionChangeBuilder} {old new : RowInfo} {olds news : List RowInfo}
    {walked : CollectionChangeBuilder × List RowInfo} {deleted inserted : List Nat}
    (h : Walked ret olds news walked deleted inserted)
    (hkey : old.key = new.key) :
    Walked ret (old :: olds) (new :: news)
      (walked.1, { new with prevTvIndex := some old.tvIndex } :: walked.2)
      deleted inserted := by
  have hboth : both ({ new with prevTvIndex := some old.tvIndex } :: walked.2) =
      { new with prevTvIndex := some old.tvIndex } :: both walked.2 :=
    List.filter_cons_of_pos rfl
  refine ⟨h.ret_eq, ?_, ?_, ?_, ?_⟩
  · simp only [hboth, List.map_cons]
    exact List.perm_middle.trans (h.olds_perm.cons _)
  · simp only [hboth, List.map_cons]
    exact List.perm_middle.trans (h.news_perm.cons _)
  · intro r hr
    rw [hboth] at hr
    rcases List.mem_cons.mp hr with rfl | hr
    · exact ⟨old, List.mem_cons_self, hkey, rfl⟩
    · obtain ⟨o, ho, hcame⟩ := h.came r hr
      exact ⟨o, List.mem_cons_of_mem _ ho, hcame⟩
  · intro r hr
    rw [hboth] at hr
    rcases List.mem_cons.mp hr with rfl | hr
    · exact ⟨new, List.mem_cons_self, rfl, rfl⟩
    · obtain ⟨n, hn, hstayed⟩ := h.stayed r hr
      exact ⟨n, List.mem_cons_of_mem _ hn, hstayed⟩

/-- A row that only the old version has. -/
theorem Walked.delete
    {ret : CollectionChangeBuilder} {old : RowInfo} {olds news : List RowInfo}
    {walked : CollectionChangeBuilder × List RowInfo} {deleted inserted : List Nat}
    (h : Walked { ret with deletions := ret.deletions.add old.tvIndex } olds news walked
      deleted inserted) :
    Walked ret (old :: olds) news walked (old.tvIndex :: deleted) inserted := by
  refine ⟨h.ret_eq, h.olds_perm.cons _, h.news_perm, ?_, h.stayed⟩
  intro r hr
  obtain ⟨o, ho, hcame⟩ := h.came r hr
  exact ⟨o, List.mem_cons_of_mem _ ho, hcame⟩

/-- A row that only the new version has. -/
theorem Walked.insert
    {ret : CollectionChangeBuilder} {new : RowInfo} {olds news : List RowInfo}
    {walked : CollectionChangeBuilder × List RowInfo} {deleted inserted : List Nat}
    (h : Walked { ret with insertions := ret.insertions.add new.tvIndex } olds news walked
      deleted inserted)
    (hnew : new.prevTvIndex = none) :
    Walked ret olds (new :: news) (walked.1, new :: walked.2) deleted
      (new.tvIndex :: inserted) := by
  have hboth := both_cons_none walked.2 hnew
  refine ⟨h.ret_eq, ?_, ?_, ?_, ?_⟩
  · simp only [hboth]
    exact h.olds_perm
  · simp only [hboth]
    exact h.news_perm.cons _
  · simp only [hboth]
    exact h.came
  · intro r hr
    rw [hboth] at hr
    obtain ⟨n, hn, hstayed⟩ := h.stayed r hr
    exact ⟨n, List.mem_cons_of_mem _ hn, hstayed⟩

theorem walked_walk
    (ret : CollectionChangeBuilder) (olds : List RowInfo) {news : List RowInfo}
    (hnews : ∀ row ∈ news, row.prevTvIndex = none) :
    ∃ deleted inserted, Walked ret olds news (walk ret olds news) deleted inserted := by
  induction ret, olds, news using walk.induct with
  | case1 ret news =>
      refine ⟨[], news.map RowInfo.tvIndex, ?_⟩
      rw [walk]
      have hboth := both_eq_nil hnews
      exact ⟨rfl, by simp [hboth], by simp [hboth], by simp [hboth], by simp [hboth]⟩
  | case2 ret olds holds =>
      refine ⟨olds.map RowInfo.tvIndex, [], ?_⟩
      rw [walk]
      · exact ⟨rfl, by simp [both], by simp [both], by simp [both], by simp [both]⟩
      · exact holds
  | case3 ret old olds new news hkey ih =>
      obtain ⟨deleted, inserted, h⟩ :=
        ih (fun row hrow => hnews row (List.mem_cons_of_mem _ hrow))
      rw [walk, if_pos hkey]
      exact ⟨deleted, inserted, h.match hkey⟩
  | case4 ret old olds new news hkey hlt ih =>
      obtain ⟨deleted, inserted, h⟩ := ih hnews
      rw [walk, if_neg hkey, if_pos hlt]
      exact ⟨old.tvIndex :: deleted, inserted, h.delete⟩
  | case5 ret old olds new news hkey hlt ih =>
      obtain ⟨deleted, inserted, h⟩ :=
        ih (fun row hrow => hnews row (List.mem_cons_of_mem _ hrow))
      rw [walk, if_neg hkey, if_neg hlt]
      exact ⟨deleted, new.tvIndex :: inserted, h.insert (hnews new List.mem_cons_self)⟩

end Walk

section FirstStage

variable {ret : CollectionChangeBuilder}
variable {prev next : List Int}
variable {olds news : List RowInfo}
variable {walked : CollectionChangeBuilder × List RowInfo}
variable {deleted inserted : List Nat}

theorem map_tvIndex_rowInfo (rows : List Int) :
    (rowInfo rows).map RowInfo.tvIndex = List.range rows.length := by
  rw [rowInfo, List.map_map]
  change rows.zipIdx.map Prod.snd = _
  rw [List.zipIdx_map_snd, List.range_eq_range']

theorem mem_rowInfo
    {rows : List Int} {row : RowInfo}
    (h : row ∈ rowInfo rows) :
    rows[row.tvIndex]? = some row.key ∧ row.prevTvIndex = none := by
  obtain ⟨⟨key, i⟩, hr, rfl⟩ := List.mem_map.mp h
  exact ⟨List.mem_zipIdx_iff_getElem?.mp hr, rfl⟩

theorem matchedRows_perm (rows : List RowInfo) :
    (matchedRows rows).Perm (both rows) :=
  List.mergeSort_perm _ _

theorem matchedRows_sorted (rows : List RowInfo) :
    ((matchedRows rows).map RowInfo.tvIndex).Pairwise (· ≤ ·) := by
  rw [List.pairwise_map]
  refine (List.pairwise_mergeSort ?_ ?_ _).imp (fun h => of_decide_eq_true h)
  · intro r s t hrs hst
    simp only [decide_eq_true_eq] at hrs hst ⊢
    omega
  · intro r s
    simp only [Bool.or_eq_true, decide_eq_true_eq]
    omega

theorem oldOrder_perm (rows : List RowInfo) :
    (oldOrder rows).Perm (rows.map (fun r => ⟨r.key, r.prevTvIndex.getD npos⟩)) :=
  List.mergeSort_perm _ _

theorem oldOrder_sorted (rows : List RowInfo) :
    ((oldOrder rows).map Row.tvIndex).Pairwise (· ≤ ·) := by
  rw [List.pairwise_map]
  refine (List.pairwise_mergeSort ?_ ?_ _).imp (fun {r s} h => ?_)
  · intro r s t hrs hst
    simp only [decide_eq_true_eq] at hrs hst ⊢
    omega
  · intro r s
    simp only [Bool.or_eq_true, decide_eq_true_eq]
    omega
  · have h := of_decide_eq_true h
    omega

/-- The rows of both versions are what the walk leaves of the new version. -/
theorem map_tvIndex_matchedRows
    (h : Walked ret olds news walked deleted inserted)
    (hnews : news.Perm (rowInfo next)) :
    (matchedRows walked.2).map RowInfo.tvIndex =
      kept inserted.toFinset (List.range next.length) := by
  refine eq_kept_range ?_ (matchedRows_sorted _)
  have hboth := (matchedRows_perm walked.2).map RowInfo.tvIndex
  have hrange := h.news_perm.trans (hnews.map RowInfo.tvIndex)
  rw [map_tvIndex_rowInfo] at hrange
  exact (hboth.append_left inserted).trans hrange

theorem map_key_matchedRows
    (h : Walked ret olds news walked deleted inserted)
    (hnews : news.Perm (rowInfo next)) :
    (matchedRows walked.2).map RowInfo.key = kept inserted.toFinset next := by
  refine map_eq_kept ?_ (map_tvIndex_matchedRows h hnews)
  intro r hr
  obtain ⟨new, hnew, hkey, hindex⟩ := h.stayed r ((matchedRows_perm _).mem_iff.mp hr)
  rw [← hkey, ← hindex]
  exact (mem_rowInfo (hnews.mem_iff.mp hnew)).1

/-- The same of the old version, in the old order. -/
theorem map_tvIndex_oldOrder
    (h : Walked ret olds news walked deleted inserted)
    (holds : olds.Perm (rowInfo prev)) :
    (oldOrder (matchedRows walked.2)).map Row.tvIndex =
      kept deleted.toFinset (List.range prev.length) := by
  refine eq_kept_range ?_ (oldOrder_sorted _)
  have horder := (oldOrder_perm (matchedRows walked.2)).map Row.tvIndex
  rw [List.map_map] at horder
  have hboth := (matchedRows_perm walked.2).map (fun r => r.prevTvIndex.getD npos)
  have hrange := h.olds_perm.trans (holds.map RowInfo.tvIndex)
  rw [map_tvIndex_rowInfo] at hrange
  exact ((horder.trans hboth).append_left deleted).trans hrange

theorem map_key_oldOrder
    (h : Walked ret olds news walked deleted inserted)
    (holds : olds.Perm (rowInfo prev)) :
    (oldOrder (matchedRows walked.2)).map Row.key = kept deleted.toFinset prev := by
  refine map_eq_kept ?_ (map_tvIndex_oldOrder h holds)
  intro r hr
  obtain ⟨row, hrow, rfl⟩ := List.mem_map.mp ((oldOrder_perm _).mem_iff.mp hr)
  obtain ⟨old, hold, hkey, hindex⟩ := h.came row ((matchedRows_perm _).mem_iff.mp hrow)
  simp only [hindex, Option.getD_some, ← hkey]
  exact (mem_rowInfo (holds.mem_iff.mp hold)).1

end FirstStage

section Align

variable {a : List Row}
variable {rows : List RowInfo}
variable {D I : Finset Nat}

/-- The part of `a` before `i` and that of the rows before `j` are aligned. -/
structure AlignedTo
    (a : List Row) (rows : List RowInfo) (D I : Finset Nat) (i j : Nat)
    (changeset : CollectionChangeSet) (S T : Finset Nat) : Prop where
  left_lt : ∀ k ∈ S, k < i
  right_lt : ∀ k ∈ T, k < j
  kept : kept S ((a.map Row.key).take i) = kept T ((rows.map RowInfo.key).take j)
  deletions : changeset.deletions.toFinset = D ∪ S.image (shift D)
  insertions : changeset.insertions.toFinset = I ∪ T.image (shift I)

/-- The entries of a gap that know their index. -/
theorem toFinset_gap
    {β : Type} {l : List β} {index : β → Nat} {S : Finset Nat} {n i m : Nat}
    (hindex : l.map index = kept S (List.range n))
    (hm : m ≤ l.length) :
    (((l.drop i).take (m - i)).map index).toFinset = (Finset.Ico i m).image (shift S) := by
  have hat : ∀ k < l.length, (l.map index)[k]? = some (shift S k) := by
    intro k hk
    have hsome : ((l.map index)[k]?).isSome = true := by simpa using hk
    rw [hindex, kept_getElem?] at hsome ⊢
    have hlt : shift S k < n := by simpa using hsome
    rw [List.getElem?_range hlt]
  ext x
  rw [List.mem_toFinset, List.map_take, List.map_drop, List.mem_iff_getElem?,
    Finset.mem_image]
  constructor
  · rintro ⟨k, hk⟩
    have hlt : k < m - i := by
      by_contra hge
      rw [List.getElem?_eq_none (by simp; omega)] at hk
      cases hk
    rw [List.getElem?_take_of_lt hlt, List.getElem?_drop, hat _ (by omega)] at hk
    exact ⟨i + k, Finset.mem_Ico.mpr (by omega), Option.some.inj hk⟩
  · rintro ⟨k, hk, rfl⟩
    rw [Finset.mem_Ico] at hk
    refine ⟨k - i, ?_⟩
    rw [List.getElem?_take_of_lt (by omega), List.getElem?_drop,
      Nat.add_sub_cancel' hk.1, hat k (by omega)]

theorem mem_newByKey
    {key : Int} {j : Nat} :
    (⟨key, j⟩ : Row) ∈ newByKey rows
      ↔
    (rows.map RowInfo.key)[j]? = some key := by
  rw [newByKey, (List.mergeSort_perm _ _).mem_iff, List.mem_map, List.getElem?_map,
    Option.map_eq_some_iff]
  constructor
  · rintro ⟨⟨r, i⟩, hr, h⟩
    cases h
    exact ⟨r, List.mem_zipIdx_iff_getElem?.mp hr, rfl⟩
  · rintro ⟨r, hr, rfl⟩
    exact ⟨(r, j), List.mem_zipIdx_iff_getElem?.mpr hr, rfl⟩

theorem length_newByKey (rows : List RowInfo) :
    (newByKey rows).length = rows.length := by
  rw [newByKey, List.length_mergeSort, List.length_map, List.length_zipIdx]

theorem nodup_newByKey (rows : List RowInfo) :
    ((newByKey rows).map Row.tvIndex).Nodup := by
  rw [newByKey, ((List.mergeSort_perm _ _).map _).nodup_iff, List.map_map]
  have hindices : rows.zipIdx.map (Row.tvIndex ∘ fun r => ⟨r.1.key, r.2⟩) =
      List.range' 0 rows.length := by
    rw [← List.zipIdx_map_snd 0 rows]
    rfl
  rw [hindices]
  exact List.nodup_range'

/-- The rows are sorted as `find_longest_match` needs them. -/
theorem sorted_newByKey (rows : List RowInfo) :
    Sorted (newByKey rows) := by
  have hle : (newByKey rows).Pairwise
      (fun l r => l.key < r.key ∨ l.key = r.key ∧ l.tvIndex ≤ r.tvIndex) := by
    refine (List.pairwise_mergeSort ?_ ?_ _).imp of_decide_eq_true
    · intro l m r hlm hmr
      simp only [decide_eq_true_eq] at hlm hmr ⊢
      omega
    · intro l r
      simp only [Bool.or_eq_true, decide_eq_true_eq]
      omega
  have hne : (newByKey rows).Pairwise (fun l r => l.tvIndex ≠ r.tvIndex) :=
    List.pairwise_map.mp (nodup_newByKey rows)
  refine (hle.and hne).imp ?_
  intro l r h
  omega

theorem block_of_common
    {i j size : Nat}
    (h : Common a (newByKey rows) i j size) :
    ((a.map Row.key).drop i).take size = ((rows.map RowInfo.key).drop j).take size := by
  apply List.ext_getElem?
  intro k
  rcases Nat.lt_or_ge k size with hlt | hge
  · obtain ⟨key, hleft, hright⟩ := h k hlt
    rw [mem_newByKey] at hright
    rw [List.getElem?_take_of_lt hlt, List.getElem?_take_of_lt hlt, List.getElem?_drop,
      List.getElem?_drop, hright, List.getElem?_map, hleft]
  · rw [List.getElem?_eq_none (by simp; omega), List.getElem?_eq_none (by simp; omega)]

/-- The loops over the gaps before one match. -/
theorem alignedTo_match
    {changeset : CollectionChangeSet} {S T : Finset Nat} {i j n n' : Nat} {m : Match}
    (hold : a.map Row.tvIndex = Indices.kept D (List.range n))
    (hnew : rows.map RowInfo.tvIndex = Indices.kept I (List.range n'))
    (h : AlignedTo a rows D I i j changeset S T)
    (hi : i ≤ m.i)
    (hj : j ≤ m.j)
    (hm_i : m.i ≤ a.length)
    (hm_j : m.j ≤ rows.length)
    (hcommon : Common a (newByKey rows) m.i m.j m.size) :
    AlignedTo a rows D I (m.i + m.size) (m.j + m.size)
      { changeset with
        deletions := addEach changeset.deletions
          (((a.drop i).take (m.i - i)).map Row.tvIndex)
        insertions := addEach changeset.insertions
          (((rows.drop j).take (m.j - j)).map RowInfo.tvIndex) }
      (S ∪ Finset.Ico i m.i) (T ∪ Finset.Ico j m.j) := by
  refine ⟨?_, ?_, ?_, ?_, ?_⟩
  · intro k hk
    rcases Finset.mem_union.mp hk with hk | hk
    · have := h.left_lt k hk
      omega
    · have := (Finset.mem_Ico.mp hk).2
      omega
  · intro k hk
    rcases Finset.mem_union.mp hk with hk | hk
    · have := h.right_lt k hk
      omega
    · have := (Finset.mem_Ico.mp hk).2
      omega
  · rw [kept_take_block h.left_lt hi (by simpa using hm_i),
      kept_take_block h.right_lt hj (by simpa using hm_j), h.kept,
      block_of_common hcommon]
  · simp only [toFinset_addEach, h.deletions, toFinset_gap hold hm_i, Finset.image_union,
      Finset.union_assoc]
  · simp only [toFinset_addEach, h.insertions, toFinset_gap hnew hm_j,
      Finset.image_union, Finset.union_assoc]

/-- The whole alignment, which ends with both versions. -/
theorem alignedTo_align
    {changeset : CollectionChangeSet} {S T : Finset Nat} {i j n n' : Nat}
    {ms : List Match}
    (hold : a.map Row.tvIndex = Indices.kept D (List.range n))
    (hnew : rows.map RowInfo.tvIndex = Indices.kept I (List.range n'))
    (h : AlignedTo a rows D I i j changeset S T)
    (hms : Aligned a (newByKey rows) i j a.length rows.length ms) :
    ∃ S' T', AlignedTo a rows D I a.length rows.length
      (align a rows (ms ++ [⟨a.length, rows.length, 0, some 0⟩]) i j changeset) S' T' := by
  induction ms generalizing i j changeset S T with
  | nil =>
      have hlast := alignedTo_match (m := ⟨a.length, rows.length, 0, some 0⟩) hold hnew h
        hms.1 hms.2 (Nat.le_refl _) (Nat.le_refl _)
        (fun _ hk => absurd hk (Nat.not_lt_zero _))
      rw [List.nil_append, align, align]
      exact ⟨_, _, hlast⟩
  | cons m ms ih =>
      obtain ⟨hi, hj, hcommon, hrest⟩ := hms
      have hbound := hrest.le
      have hmatch := alignedTo_match hold hnew h hi hj (by omega) (by omega) hcommon
      rw [List.cons_append, align, Nat.max_eq_right hi, Nat.max_eq_right hj]
      exact ih hmatch hrest

theorem firstDifference_none
    (h : firstDifference a rows = none)
    (hlength : a.length = rows.length) :
    a.map Row.key = rows.map RowInfo.key := by
  apply List.ext_getElem?
  intro k
  rw [List.getElem?_map, List.getElem?_map]
  rcases Nat.lt_or_ge k a.length with hlt | hge
  · have hk := List.find?_eq_none.mp h k (List.mem_range.mpr hlt)
    simpa using hk
  · rw [List.getElem?_eq_none hge, List.getElem?_eq_none (by omega)]
    rfl

theorem calculateMovesSorted_of_same
    {modified : List Chunk} {changeset : CollectionChangeSet}
    (h : (oldOrder rows).map Row.key = rows.map RowInfo.key) :
    calculateMovesSorted modified rows changeset = changeset := by
  have hnone : firstDifference (oldOrder rows) rows = none := by
    rw [firstDifference, List.find?_eq_none]
    intro k _
    have hk := congrArg (fun l => l[k]?) h
    simpa only [List.getElem?_map, ne_eq, decide_not, Bool.not_eq_true',
      decide_eq_false_iff_not, not_not] using hk
  rw [calculateMovesSorted, hnone]

theorem firstDifference_some
    {first : Nat}
    (h : firstDifference a rows = some first) :
    first < a.length ∧
      (a.map Row.key).take first = (rows.map RowInfo.key).take first := by
  obtain ⟨_, hlt, hbefore⟩ := List.find?_range_eq_some.mp h
  refine ⟨List.mem_range.mp hlt, ?_⟩
  apply List.ext_getElem?
  intro k
  rcases Nat.lt_or_ge k first with hk | hk
  · have hk' := hbefore k hk
    rw [List.getElem?_take_of_lt hk, List.getElem?_take_of_lt hk, List.getElem?_map,
      List.getElem?_map]
    simpa using hk'
  · rw [List.getElem?_eq_none (by simp; omega), List.getElem?_eq_none (by simp; omega)]

theorem align_rest
    {changeset : CollectionChangeSet} {i j : Nat} {ms : List Match} :
    (align a rows ms i j changeset).modifications = changeset.modifications ∧
      (align a rows ms i j changeset).moves = changeset.moves := by
  induction ms generalizing changeset i j with
  | nil => exact ⟨rfl, rfl⟩
  | cons m ms ih => exact ih

theorem calculateMovesSorted_rest
    (modified : List Chunk) (rows : List RowInfo) (changeset : CollectionChangeSet) :
    (calculateMovesSorted modified rows changeset).modifications =
        changeset.modifications ∧
      (calculateMovesSorted modified rows changeset).moves = changeset.moves := by
  rw [calculateMovesSorted]
  split
  · exact ⟨rfl, rfl⟩
  · exact align_rest

/-- Both orders of the rows are aligned at last. -/
theorem alignedTo_calculateMovesSorted
    (modified : List Chunk) (rows : List RowInfo) (changeset : CollectionChangeSet)
    {n n' : Nat}
    (hold : (oldOrder rows).map Row.tvIndex =
      Indices.kept changeset.deletions.toFinset (List.range n))
    (hnew : rows.map RowInfo.tvIndex =
      Indices.kept changeset.insertions.toFinset (List.range n')) :
    ∃ S T, AlignedTo (oldOrder rows) rows changeset.deletions.toFinset
      changeset.insertions.toFinset (oldOrder rows).length rows.length
      (calculateMovesSorted modified rows changeset) S T := by
  have hlength : (oldOrder rows).length = rows.length := by
    rw [(oldOrder_perm rows).length_eq, List.length_map]
  rw [calculateMovesSorted]
  split
  next hnone =>
    have hsame := firstDifference_none hnone hlength
    exact ⟨∅, ∅, by simp, by simp, by rw [hsame, hlength], by simp, by simp⟩
  next first hsome =>
    obtain ⟨hlt, hsame⟩ := firstDifference_some hsome
    have hstart : AlignedTo (oldOrder rows) rows changeset.deletions.toFinset
        changeset.insertions.toFinset first first changeset ∅ ∅ :=
      ⟨by simp, by simp, by rw [hsame], by simp, by simp⟩
    have hlt' : first ≤ (newByKey rows).length := by
      rw [length_newByKey]
      omega
    have hmatches := aligned_findLongestMatches (a := oldOrder rows) (b := newByKey rows)
      modified hlt.le hlt'
    rw [longestMatches]
    rw [length_newByKey] at hmatches ⊢
    exact alignedTo_align hold hnew hstart hmatches

end Align

section Tracked

variable {prev next : List Int}
variable {olds news : List RowInfo}
variable {deleted inserted : List Nat}
variable {ret : CollectionChangeBuilder}
variable {walked : CollectionChangeBuilder × List RowInfo}

/-- What the walk leaves of both versions has the same keys, in any order. -/
theorem kept_perm
    (h : Walked ret olds news walked deleted inserted)
    (holds : olds.Perm (rowInfo prev))
    (hnews : news.Perm (rowInfo next)) :
    (kept deleted.toFinset prev).Perm (kept inserted.toFinset next) := by
  rw [← map_key_oldOrder h holds, ← map_key_matchedRows h hnews]
  have hperm := (oldOrder_perm (matchedRows walked.2)).map Row.key
  rwa [List.map_map] at hperm

theorem mem_of_perm_append
    {taken left : List Nat} {n i : Nat}
    (hperm : (taken ++ left).Perm (List.range n))
    (hi : i ∈ taken.toFinset) :
    i < n := by
  rw [← List.mem_range, ← hperm.mem_iff]
  exact List.mem_append_left _ (List.mem_toFinset.mp hi)

/-- Gaps between aligned rows are indices of the version. -/
theorem shift_lt_of_left
    {β : Type} {l : List β} {index : β → Nat} {S : Finset Nat} {n k : Nat}
    (hindex : l.map index = kept S (List.range n))
    (hk : k < l.length) :
    shift S k < n := by
  have hlength := congrArg List.length hindex
  rw [List.length_map, length_kept, List.length_range] at hlength
  rw [shift_lt_iff]
  omega

/-- The change of keys that `calculate` finds. -/
structure Calculated
    (prev next : List Int) (keyDidChange : Int → Bool) (c : CollectionChangeSet) :
    Prop where
  deletions_lt : ∀ i ∈ c.deletions.toFinset, i < prev.length
  insertions_lt : ∀ i ∈ c.insertions.toFinset, i < next.length
  modifications_lt : ∀ i ∈ c.modifications.toFinset, i < next.length
  kept : kept c.deletions.toFinset prev = kept c.insertions.toFinset next
  unmodified : ∀ n key, n ∉ c.insertions.toFinset → n ∉ c.modifications.toFinset →
    next[n]? = some key → keyDidChange key = false
  moves : c.moves = []

theorem toFinset_walked
    (h : Walked .empty olds news walked deleted inserted) :
    walked.1.deletions.toFinset = deleted.toFinset ∧
      walked.1.insertions.toFinset = inserted.toFinset := by
  constructor
  · rw [h.ret_eq, toFinset_addEach]
    exact Finset.empty_union _
  · rw [h.ret_eq, toFinset_addEach]
    exact Finset.empty_union _

/-- What the walk found is a change if the rows that are left are in one order. -/
theorem calculated_walk
    {keyDidChange : Int → Bool} {c : CollectionChangeSet} {S T : Finset Nat}
    (h : Walked .empty olds news walked deleted inserted)
    (holds : olds.Perm (rowInfo prev))
    (hnews : news.Perm (rowInfo next))
    (haligned : AlignedTo (oldOrder (matchedRows walked.2)) (matchedRows walked.2)
      deleted.toFinset inserted.toFinset (oldOrder (matchedRows walked.2)).length
      (matchedRows walked.2).length c S T)
    (hmodifications : c.modifications.toFinset =
      (((matchedRows walked.2).filter (fun row => keyDidChange row.key)).map
        RowInfo.tvIndex).toFinset)
    (hmoves : c.moves = []) :
    Calculated prev next keyDidChange c := by
  have hold_index := map_tvIndex_oldOrder h holds
  have hold_key := map_key_oldOrder h holds
  have hnew_index := map_tvIndex_matchedRows h hnews
  have hnew_key := map_key_matchedRows h hnews
  have hold_range := h.olds_perm.trans (holds.map RowInfo.tvIndex)
  have hnew_range := h.news_perm.trans (hnews.map RowInfo.tvIndex)
  rw [map_tvIndex_rowInfo] at hold_range hnew_range
  have hnew_lt : ∀ r ∈ matchedRows walked.2, r.tvIndex < next.length := by
    intro r hr
    have hmem := List.mem_map_of_mem (f := RowInfo.tvIndex) hr
    rw [hnew_index, kept_range] at hmem
    exact List.mem_range.mp (List.mem_of_mem_filter hmem)
  refine ⟨?_, ?_, ?_, ?_, ?_, hmoves⟩
  · intro i hi
    rw [haligned.deletions, Finset.mem_union, Finset.mem_image] at hi
    rcases hi with hi | ⟨k, hk, rfl⟩
    · exact mem_of_perm_append hold_range hi
    · exact shift_lt_of_left hold_index (haligned.left_lt k hk)
  · intro i hi
    rw [haligned.insertions, Finset.mem_union, Finset.mem_image] at hi
    rcases hi with hi | ⟨k, hk, rfl⟩
    · exact mem_of_perm_append hnew_range hi
    · exact shift_lt_of_left hnew_index (haligned.right_lt k hk)
  · intro i hi
    rw [hmodifications, List.mem_toFinset] at hi
    obtain ⟨r, hr, rfl⟩ := List.mem_map.mp hi
    exact hnew_lt r (List.mem_of_mem_filter hr)
  · have hkept := haligned.kept
    rw [List.take_of_length_le (by simp), List.take_of_length_le (by simp), hold_key,
      hnew_key, kept_kept, kept_kept] at hkept
    rw [haligned.deletions, haligned.insertions]
    exact hkept
  · intro n key hinsertion hmodification hn
    have hlt : n < next.length := (List.getElem?_eq_some_iff.mp hn).1
    have hout : n ∉ inserted.toFinset := by
      intro hin
      apply hinsertion
      rw [haligned.insertions]
      exact Finset.mem_union_left _ hin
    have hmem : n ∈ (matchedRows walked.2).map RowInfo.tvIndex := by
      rw [hnew_index, kept_range, List.mem_filter, decide_eq_true_eq]
      exact ⟨List.mem_range.mpr hlt, hout⟩
    obtain ⟨r, hr, rfl⟩ := List.mem_map.mp hmem
    obtain ⟨new, hnew, hkey, hindex⟩ := h.stayed r ((matchedRows_perm _).mem_iff.mp hr)
    have hat := (mem_rowInfo (hnews.mem_iff.mp hnew)).1
    rw [hindex, hn] at hat
    rw [Option.some.inj hat, hkey, ← Bool.not_eq_true]
    intro hchanged
    apply hmodification
    rw [hmodifications, List.mem_toFinset]
    exact List.mem_map_of_mem (List.mem_filter.mpr ⟨hr, hchanged⟩)

theorem calculated_calculateFrom
    (keyDidChange : Int → Bool) {inTableOrder : Bool}
    (holds : olds.Perm (rowInfo prev))
    (hnews : news.Perm (rowInfo next))
    (horder : inTableOrder = true →
      prev.Pairwise (· ≤ ·) ∧ next.Pairwise (· ≤ ·)) :
    Calculated prev next keyDidChange
      (calculateFrom .empty olds news keyDidChange inTableOrder) := by
  obtain ⟨deleted, inserted, h⟩ := walked_walk .empty olds
    (fun row hrow => (mem_rowInfo (hnews.mem_iff.mp hrow)).2)
  obtain ⟨hdeletions, hinsertions⟩ := toFinset_walked h
  have hmodifications : (walk .empty olds news).1.modifications = .empty := by
    rw [h.ret_eq]
    rfl
  have hmoves : (walk .empty olds news).1.moves = [] := by
    rw [h.ret_eq]
    rfl
  have hempty : ∀ indices, (addEach IndexSet.empty indices).toFinset =
      indices.toFinset := by
    intro indices
    rw [toFinset_addEach]
    exact Finset.empty_union _
  rw [calculateFrom]
  dsimp only
  rw [hmodifications]
  generalize hret : ({ (walk .empty olds news).1 with
    modifications := addEach .empty
      (((matchedRows (walk .empty olds news).2).filter
        (fun row => keyDidChange row.key)).map RowInfo.tvIndex) } :
    CollectionChangeSet) = ret
  have hret_modifications : ret.modifications = addEach .empty
      (((matchedRows (walk .empty olds news).2).filter
        (fun row => keyDidChange row.key)).map RowInfo.tvIndex) := by
    rw [← hret]
  have hret_deletions : ret.deletions.toFinset = deleted.toFinset := by
    rw [← hret, ← hdeletions]
  have hret_insertions : ret.insertions.toFinset = inserted.toFinset := by
    rw [← hret, ← hinsertions]
  have hret_moves : ret.moves = [] := by
    rw [← hret, ← hmoves]
  split
  next =>
    obtain ⟨S, T, haligned⟩ := alignedTo_calculateMovesSorted _
      (matchedRows (walk .empty olds news).2) ret
      (hret_deletions ▸ map_tvIndex_oldOrder h holds)
      (hret_insertions ▸ map_tvIndex_matchedRows h hnews)
    rw [hret_deletions, hret_insertions] at haligned
    obtain ⟨hrest, hrest_moves⟩ := calculateMovesSorted_rest _
      (matchedRows (walk .empty olds news).2) ret
    refine calculated_walk h holds hnews haligned ?_ (hrest_moves.trans hret_moves)
    rw [hrest, hret_modifications, hempty]
  next htable =>
    obtain ⟨hprev, hnext⟩ := horder (by simpa using htable)
    have hsame := (kept_perm h holds hnews).eq_of_pairwise
      (fun i j _ _ hij hji => le_antisymm hij hji)
      (hprev.sublist (kept_sublist _ _)) (hnext.sublist (kept_sublist _ _))
    refine calculated_walk (S := ∅) (T := ∅) h holds hnews
      ⟨by simp, by simp, ?_, by simp [hret_deletions], by simp [hret_insertions]⟩ ?_
      hret_moves
    · rw [← map_key_oldOrder h holds, ← map_key_matchedRows h hnews] at hsame
      rw [List.take_of_length_le (by simp), List.take_of_length_le (by simp), hsame]
    · rw [hret_modifications, hempty]

/-- What is calculated has no moves: a row that moved is deleted and inserted. -/
theorem moves_calculate
    (byKey : KeySort) (prev next : List Int) (keyDidChange : Int → Bool)
    (inTableOrder : Bool) :
    (calculate byKey prev next keyDidChange inTableOrder).moves = [] := by
  have hnews := byKey.perm (rowInfo next)
  obtain ⟨deleted, inserted, h⟩ := walked_walk .empty (byKey.sort (rowInfo prev))
    (fun row hrow => (mem_rowInfo (hnews.mem_iff.mp hrow)).2)
  have hmoves : (walk .empty (byKey.sort (rowInfo prev))
      (byKey.sort (rowInfo next))).1.moves = [] := by
    rw [h.ret_eq]
    rfl
  rw [calculate, calculateFrom]
  dsimp only
  split
  · exact (calculateMovesSorted_rest _ _ _).2.trans hmoves
  · exact hmoves

variable {α : Type u}
variable {key : α → Int}
variable {old new : List α}

/--
**Whatever two versions of a collection are, the change set that is calculated
from the keys of their rows tells how the one became the other, when rows whose
key did not change are the same, and collections said to be in the order of the
table are.**
-/
theorem tracks_calculate
    {byKey : KeySort} {keyDidChange : Int → Bool} {inTableOrder : Bool}
    (hcontent : ∀ x ∈ old, ∀ y ∈ new, key x = key y → keyDidChange (key y) = false →
      x = y)
    (horder : inTableOrder = true →
      (old.map key).Pairwise (· ≤ ·) ∧ (new.map key).Pairwise (· ≤ ·)) :
    Tracks key
      (calculate byKey (old.map key) (new.map key) keyDidChange inTableOrder) old new := by
  have h := calculated_calculateFrom keyDidChange
    (byKey.perm (rowInfo (old.map key))) (byKey.perm (rowInfo (new.map key))) horder
  rw [← calculate] at h
  refine ⟨Change.Describes.of_keys ?_ ?_ ?_ h.kept ?_, ?_⟩
  · simpa [CollectionChangeSet.change] using h.deletions_lt
  · simpa [CollectionChangeSet.change] using h.insertions_lt
  · simpa [CollectionChangeSet.change] using h.modifications_lt
  · intro n x y hinsertion hmodification hx hy hkey
    have hat : (new.map key)[n]? = some (key x) := by
      rw [List.getElem?_map, hx]
      rfl
    have hunchanged := h.unmodified n (key x) hinsertion hmodification hat
    exact (hcontent y (List.mem_of_getElem? hy) x (List.mem_of_getElem? hx) hkey.symm
      hunchanged).symm
  · rw [h.moves]
    exact Move.AllSound.nil

/--
**What is calculated for the results of a query, and finalized, tells how the rows
that were shown became those that are shown now.**
-/
theorem tells_calculate
    {byKey : KeySort} {keyDidChange : Int → Bool} {inTableOrder : Bool}
    (hcontent : ∀ x ∈ old, ∀ y ∈ new, key x = key y → keyDidChange (key y) = false →
      x = y)
    (horder : inTableOrder = true →
      (old.map key).Pairwise (· ≤ ·) ∧ (new.map key).Pairwise (· ≤ ·)) :
    (calculate byKey (old.map key) (new.map key) keyDidChange
      inTableOrder).finalize.Tells key old new :=
  CollectionChangeBuilder.tells_finalize (tracks_calculate hcontent horder)

/-- A row goes, one is modified and one comes. -/
theorem tells_calculate_threeRows :
    (calculate .stable [1, 2] [2, 3] (fun k => k = 2) true).finalize.Tells
      (Prod.fst : Int × Int → Int) [(1, 10), (2, 20)] [(2, 21), (3, 30)] := by
  apply @tells_calculate _ Prod.fst [(1, 10), (2, 20)] [(2, 21), (3, 30)] <;> decide

end Tracked

section Exact

variable {prev next : List Int}
variable {olds news : List RowInfo}
variable {deleted inserted : List Nat}
variable {walked : CollectionChangeBuilder × List RowInfo}

theorem not_mem_of_lt
    {row : RowInfo} {rows : List RowInfo} {key : Int}
    (h : (row :: rows).Pairwise (fun l r => l.key ≤ r.key))
    (hlt : key < row.key) :
    key ∉ (row :: rows).map RowInfo.key := by
  intro hin
  obtain ⟨r, hr, rfl⟩ := List.mem_map.mp hin
  rcases List.mem_cons.mp hr with rfl | hr
  · omega
  · have := (List.pairwise_cons.mp h).1 r hr
    omega

/-- Rows with the same key are matched one by one, as far as both versions have them. -/
theorem count_walk
    (ret : CollectionChangeBuilder)
    (holds : olds.Pairwise (fun l r => l.key ≤ r.key))
    (hnews : news.Pairwise (fun l r => l.key ≤ r.key))
    (hfresh : ∀ row ∈ news, row.prevTvIndex = none)
    (key : Int) :
    ((both (walk ret olds news).2).map RowInfo.key).count key =
      min ((olds.map RowInfo.key).count key) ((news.map RowInfo.key).count key) := by
  induction ret, olds, news using walk.induct with
  | case1 ret news =>
      rw [walk, both_eq_nil hfresh]
      simp
  | case2 ret olds hne =>
      rw [walk]
      · simp [both]
      · exact hne
  | case3 ret o olds n news hsame ih =>
      have ih := ih (List.pairwise_cons.mp holds).2 (List.pairwise_cons.mp hnews).2
        (fun row hrow => hfresh row (List.mem_cons_of_mem _ hrow))
      have hboth : both ({ n with prevTvIndex := some o.tvIndex } ::
          (walk ret olds news).2) =
          { n with prevTvIndex := some o.tvIndex } :: both (walk ret olds news).2 :=
        List.filter_cons_of_pos rfl
      rw [walk, if_pos hsame]
      simp only [hboth, List.map_cons, List.count_cons, ih, hsame]
      omega
  | case4 ret o olds n news hne hlt ih =>
      have ih := ih (List.pairwise_cons.mp holds).2 hnews hfresh
      have hcount : ((o :: olds).map RowInfo.key).count key =
          (olds.map RowInfo.key).count key + if o.key == key then 1 else 0 :=
        List.count_cons
      rw [walk, if_neg hne, if_pos hlt, ih, hcount]
      split
      next hkey =>
          have hout : key ∉ (n :: news).map RowInfo.key := by
            rw [← beq_iff_eq.mp hkey]
            exact not_mem_of_lt hnews hlt
          rw [List.count_eq_zero_of_not_mem hout]
          omega
      · rfl
  | case5 ret o olds n news hne hge ih =>
      have ih := ih holds (List.pairwise_cons.mp hnews).2
        (fun row hrow => hfresh row (List.mem_cons_of_mem _ hrow))
      rw [walk, if_neg hne, if_neg hge]
      simp only [both_cons_none _ (hfresh n List.mem_cons_self)]
      have hcount : ((n :: news).map RowInfo.key).count key =
          (news.map RowInfo.key).count key + if n.key == key then 1 else 0 :=
        List.count_cons
      rw [ih, hcount]
      split
      next hkey =>
          have hout : key ∉ (o :: olds).map RowInfo.key := by
            rw [← beq_iff_eq.mp hkey]
            exact not_mem_of_lt holds (by omega)
          rw [List.count_eq_zero_of_not_mem hout]
          omega
      · rfl

section Gone

variable {rows other : List Int}
variable {gone : List Nat}
variable {stay : List RowInfo}
variable {place : RowInfo → Nat}
variable (hperm : (gone ++ stay.map place).Perm (List.range rows.length))
variable (hkey : ∀ r ∈ stay, rows[place r]? = some r.key)

include hperm hkey

/-- A version has the rows that go and those that stay. -/
theorem count_gone (key : Int) :
    (gone.map (fun i => rows[i]?)).count (some key) +
        (stay.map RowInfo.key).count key =
      rows.count key := by
  have hstay : (stay.map place).map (fun i => rows[i]?) =
      (stay.map RowInfo.key).map some := by
    rw [List.map_map, List.map_map]
    exact List.map_congr_left hkey
  have hrows : (List.range rows.length).map (fun i => rows[i]?) = rows.map some := by
    apply List.ext_getElem?
    intro i
    by_cases hi : i < rows.length
    · simp [hi]
    · simp [hi]
  have hsome := List.count_map_of_injective (stay.map RowInfo.key) some
    (Option.some_injective Int) key
  have hcount := (hperm.map (fun i => rows[i]?)).count_eq (some key)
  rw [List.map_append, List.count_append, hstay, hrows, hsome,
    List.count_map_of_injective rows some (Option.some_injective Int)] at hcount
  exact hcount

/-- The places that go are those of the keys that the other version does not have. -/
theorem mem_gone
    (hother : ∀ r ∈ stay, r.key ∈ other)
    (hcount : ∀ key ∈ other, (stay.map RowInfo.key).count key = rows.count key)
    {i : Nat} :
    i ∈ gone.toFinset ↔ ∃ key, rows[i]? = some key ∧ key ∉ other := by
  rw [List.mem_toFinset]
  constructor
  · intro hi
    have hlt : i < rows.length :=
      List.mem_range.mp (hperm.mem_iff.mp (List.mem_append_left _ hi))
    refine ⟨rows[i], List.getElem?_eq_getElem hlt, fun hin => ?_⟩
    have hmem : some rows[i] ∈ gone.map (fun i => rows[i]?) :=
      List.mem_map.mpr ⟨i, hi, List.getElem?_eq_getElem hlt⟩
    have hpos := List.count_pos_iff.mpr hmem
    have hsplit := count_gone hperm hkey rows[i]
    have hall := hcount rows[i] hin
    omega
  · rintro ⟨key, hi, hout⟩
    have hlt := (List.getElem?_eq_some_iff.mp hi).1
    rcases List.mem_append.mp (hperm.mem_iff.mpr (List.mem_range.mpr hlt)) with h | h
    · exact h
    · obtain ⟨r, hr, rfl⟩ := List.mem_map.mp h
      have hsame := hkey r hr
      rw [hi, Option.some.injEq] at hsame
      exact absurd (hsame ▸ hother r hr) hout

end Gone

theorem map_key_rowInfo (rows : List Int) :
    (rowInfo rows).map RowInfo.key = rows := by
  rw [rowInfo, List.map_map]
  change rows.zipIdx.map Prod.fst = rows
  rw [List.zipIdx_map_fst]

/-- A key of both versions is as often in the one as in the other. -/
theorem count_eq_of_order
    (horder : prev.filter (fun key => key ∈ next) = next.filter (fun key => key ∈ prev))
    {key : Int}
    (hprev : key ∈ prev)
    (hnext : key ∈ next) :
    prev.count key = next.count key := by
  have hcount := congrArg (List.count key) horder
  rwa [List.count_filter (by simpa using hnext),
    List.count_filter (by simpa using hprev)] at hcount

section Walk

variable (h : Walked .empty olds news (walk .empty olds news) deleted inserted)
variable (holds : olds.Perm (rowInfo prev))
variable (hnews : news.Perm (rowInfo next))

include h holds hnews

/-- A row of both versions has its key in both. -/
theorem mem_of_both
    {r : RowInfo}
    (hr : r ∈ both (walk .empty olds news).2) :
    prev[r.prevTvIndex.getD npos]? = some r.key ∧ next[r.tvIndex]? = some r.key := by
  obtain ⟨old, hold, hold_key, hold_index⟩ := h.came r hr
  obtain ⟨new, hnew, hnew_key, hnew_index⟩ := h.stayed r hr
  rw [hold_index, Option.getD_some, ← hnew_index, ← hnew_key, hnew_key, ← hold_key]
  refine ⟨(mem_rowInfo (holds.mem_iff.mp hold)).1, ?_⟩
  rw [hold_key, ← hnew_key]
  exact (mem_rowInfo (hnews.mem_iff.mp hnew)).1

variable (holds_sorted : olds.Pairwise (fun l r => l.key ≤ r.key))
variable (hnews_sorted : news.Pairwise (fun l r => l.key ≤ r.key))
variable (horder :
  prev.filter (fun key => key ∈ next) = next.filter (fun key => key ∈ prev))

include holds_sorted hnews_sorted horder

omit h in
theorem count_both
    {key : Int}
    (hprev : key ∈ prev)
    (hnext : key ∈ next) :
    ((both (walk .empty olds news).2).map RowInfo.key).count key = prev.count key ∧
      ((both (walk .empty olds news).2).map RowInfo.key).count key = next.count key := by
  have hcount := count_walk .empty holds_sorted hnews_sorted
    (fun row hrow => (mem_rowInfo (hnews.mem_iff.mp hrow)).2) key
  have hsame := count_eq_of_order horder hprev hnext
  rw [(holds.map RowInfo.key).count_eq, (hnews.map RowInfo.key).count_eq,
    map_key_rowInfo, map_key_rowInfo] at hcount
  omega

/-- The deleted places are those of the keys that went. -/
theorem mem_deleted {i : Nat} :
    i ∈ deleted.toFinset ↔ ∃ key, prev[i]? = some key ∧ key ∉ next := by
  have hperm := h.olds_perm.trans (holds.map RowInfo.tvIndex)
  rw [map_tvIndex_rowInfo] at hperm
  refine mem_gone hperm (fun r hr => (mem_of_both h holds hnews hr).1)
    (fun r hr => List.mem_of_getElem? (mem_of_both h holds hnews hr).2) ?_
  intro key hnext
  by_cases hprev : key ∈ prev
  · exact (count_both holds hnews holds_sorted hnews_sorted horder hprev hnext).1
  · have hsplit := count_gone hperm (fun r hr => (mem_of_both h holds hnews hr).1) key
    rw [List.count_eq_zero_of_not_mem hprev] at hsplit ⊢
    omega

/-- The inserted places are those of the keys that came. -/
theorem mem_inserted {j : Nat} :
    j ∈ inserted.toFinset ↔ ∃ key, next[j]? = some key ∧ key ∉ prev := by
  have hperm := h.news_perm.trans (hnews.map RowInfo.tvIndex)
  rw [map_tvIndex_rowInfo] at hperm
  refine mem_gone hperm (fun r hr => (mem_of_both h holds hnews hr).2)
    (fun r hr => List.mem_of_getElem? (mem_of_both h holds hnews hr).1) ?_
  intro key hprev
  by_cases hnext : key ∈ next
  · exact (count_both holds hnews holds_sorted hnews_sorted horder hprev hnext).2
  · have hsplit := count_gone hperm (fun r hr => (mem_of_both h holds hnews hr).2) key
    rw [List.count_eq_zero_of_not_mem hnext] at hsplit ⊢
    omega

end Walk

/--
**When the rows that both versions have are in the same order in both, exactly the
rows that went are deleted and exactly the rows that came are inserted.**
-/
theorem calculate_exact
    {byKey : KeySort} {keyDidChange : Int → Bool} {inTableOrder : Bool}
    (horder : prev.filter (fun key => key ∈ next) = next.filter (fun key => key ∈ prev)) :
    (∀ i, i ∈ (calculate byKey prev next keyDidChange inTableOrder).deletions.toFinset
        ↔ ∃ key, prev[i]? = some key ∧ key ∉ next) ∧
      (∀ j, j ∈ (calculate byKey prev next keyDidChange inTableOrder).insertions.toFinset
        ↔ ∃ key, next[j]? = some key ∧ key ∉ prev) := by
  have holds := byKey.perm (rowInfo prev)
  have hnews := byKey.perm (rowInfo next)
  have holds_sorted := byKey.sorted (rowInfo prev)
  have hnews_sorted := byKey.sorted (rowInfo next)
  rw [calculate]
  generalize byKey.sort (rowInfo prev) = olds at *
  generalize byKey.sort (rowInfo next) = news at *
  obtain ⟨deleted, inserted, h⟩ := walked_walk .empty olds
    (fun row hrow => (mem_rowInfo (hnews.mem_iff.mp hrow)).2)
  obtain ⟨hdeletions, hinsertions⟩ := toFinset_walked h
  have hdeleted := fun i =>
    mem_deleted (i := i) h holds hnews holds_sorted hnews_sorted horder
  have hinserted := fun j =>
    mem_inserted (j := j) h holds hnews holds_sorted hnews_sorted horder
  have hold_kept : kept deleted.toFinset prev = prev.filter (fun key => key ∈ next) := by
    apply kept_eq_filter
    intro i key hkey
    rw [hdeleted, hkey]
    simp
  have hnew_kept : kept inserted.toFinset next = next.filter (fun key => key ∈ prev) := by
    apply kept_eq_filter
    intro j key hkey
    rw [hinserted, hkey]
    simp
  have hsame : (oldOrder (matchedRows (walk .empty olds news).2)).map Row.key =
      (matchedRows (walk .empty olds news).2).map RowInfo.key := by
    rw [map_key_oldOrder h holds, map_key_matchedRows h hnews, hold_kept, hnew_kept,
      horder]
  rw [calculateFrom]
  simp only [calculateMovesSorted_of_same hsame, ite_self, hdeletions, hinsertions]
  exact ⟨hdeleted, hinserted⟩

/-- The rows of both versions are in the same order, one key twice. -/
theorem calculate_exact_threeRows :
    (∀ i, i ∈ (calculate .stable [3, 1, 3, 2] [3, 3, 2, 4] (fun _ => false)
          false).deletions.toFinset
        ↔ ∃ key, ([3, 1, 3, 2] : List Int)[i]? = some key ∧ key ∉ [3, 3, 2, 4]) ∧
      (∀ j, j ∈ (calculate .stable [3, 1, 3, 2] [3, 3, 2, 4] (fun _ => false)
          false).insertions.toFinset
        ↔ ∃ key, ([3, 3, 2, 4] : List Int)[j]? = some key ∧ key ∉ [3, 1, 3, 2]) :=
  calculate_exact (by decide)

end Exact

end ObjectStore
end NotVK
