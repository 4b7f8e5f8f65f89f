import NotVK.Library.LabelledRun
import NotVK.ObjectStore.IndexSetMerging

/-!
# Building a change set

`CollectionChangeBuilder` collects what happens to a list, edit by edit.
Deletions are kept as indices of the list it started with, insertions and
modifications as indices of the list as it is now.  Each edit is one composition
with the change that it is by itself.
-/

namespace NotVK
namespace ObjectStore

open Indices Runs

universe u v

section ChangeSet

structure CollectionChangeSet where
  deletions : IndexSet
  insertions : IndexSet
  modifications : IndexSet
  modificationsNew : IndexSet
  moves : List Move
  /-- `columns[col]`, where no entry is as good as an empty one. -/
  columns : Int → IndexSet

abbrev CollectionChangeBuilder := CollectionChangeSet

namespace CollectionChangeSet

/-- `empty()`. -/
def isEmpty (b : CollectionChangeSet) : Bool :=
  b.deletions.isEmpty && b.insertions.isEmpty && b.modifications.isEmpty &&
    b.modificationsNew.isEmpty && b.moves.isEmpty

/-- A builder that was not told of anything. -/
def empty : CollectionChangeSet :=
  ⟨.empty, .empty, .empty, .empty, [], fun _ => .empty⟩

/-- What the change set says of the list it started with and the list now. -/
def change (b : CollectionChangeSet) : Change :=
  ⟨b.deletions.toFinset, b.insertions.toFinset, b.modifications.toFinset⟩

end CollectionChangeSet

end ChangeSet

section Builder

namespace CollectionChangeBuilder

variable (b : CollectionChangeBuilder)

/-- `for_each_col`. -/
def forEachCol (f : IndexSet → IndexSet) : CollectionChangeBuilder :=
  { b with
    modifications := f b.modifications
    columns := fun col => f (b.columns col) }

/-- `modify(ndx, col)`; none for `npos`. -/
def modify (ndx : Nat) (col : Option Int) : CollectionChangeBuilder :=
  { b with
    modifications := b.modifications.add ndx
    columns := fun c => if col = some c then (b.columns c).add ndx else b.columns c }

/-- `insert(index, count, track_moves)`. -/
def insert
    (index count : Nat) (hcount : 0 < count) (trackMoves : Bool) :
    CollectionChangeBuilder :=
  let b := forEachCol b (fun col => col.shiftForInsertAt index count hcount)
  if trackMoves then
    { b with
      insertions := b.insertions.insertAt index count hcount
      moves := b.moves.map (fun move =>
        if index ≤ move.toIndex then { move with toIndex := move.toIndex + count }
        else move) }
  else b

/-- What `erase(index)` leaves of a move. -/
def eraseMove (index : Nat) (move : Move) : Option Move :=
  if move.toIndex = index then none
  else if index < move.toIndex then some { move with toIndex := move.toIndex - 1 }
  else some move

/-- `erase(index)`. -/
def erase (index : Nat) : CollectionChangeBuilder :=
  let b := forEachCol b (fun col => col.eraseAt index)
  let unshifted := b.insertions.eraseOrUnshift index
  { b with
    insertions := unshifted.1
    deletions :=
      match unshifted.2 with
      | none => b.deletions
      | some i => (b.deletions.addShifted i).1
    moves := b.moves.filterMap (eraseMove index) }

/-- Number of indices, range by range. -/
def size (s : IndexSet) : Nat :=
  (s.ranges.map (fun r => r.2 - r.1)).sum

/-- `clear(old_size)`. -/
def clear (oldSize : Nat) : CollectionChangeBuilder :=
  { b with
    deletions := .set (oldSize + size b.deletions - size b.insertions)
    insertions := .empty
    modifications := .empty
    moves := []
    columns := fun _ => .empty }

/-- What `move(from, to)` does to a move that was recorded before. -/
def moveMove (fromIndex toIndex : Nat) (move : Move) : Move :=
  if move.toIndex = fromIndex then { move with toIndex := toIndex }
  else if toIndex ≤ move.toIndex ∧ move.toIndex < fromIndex then
    { move with toIndex := move.toIndex + 1 }
  else if move.toIndex ≤ toIndex ∧ fromIndex < move.toIndex then
    { move with toIndex := move.toIndex - 1 }
  else move

/-- What `move(from, to)` does to the modifications, and to each column. -/
def moveCol (fromIndex toIndex : Nat) (col : IndexSet) : IndexSet :=
  if col.contains fromIndex then
    (col.eraseAt fromIndex).insertAt toIndex 1 Nat.one_pos
  else (col.eraseAt fromIndex).shiftForInsertAt toIndex 1 Nat.one_pos

/-- `move(from, to)`, without its assertion that the two differ. -/
def move (fromIndex toIndex : Nat) : CollectionChangeBuilder :=
  let moves := b.moves.map (moveMove fromIndex toIndex)
  let moved :=
    if b.moves.any (fun move => move.toIndex = fromIndex) then
      { b with
        moves := moves
        insertions := (b.insertions.eraseAt fromIndex).insertAt toIndex 1 Nat.one_pos }
    else
      let shifted := b.insertions.eraseOrUnshift fromIndex
      let insertions := shifted.1.insertAt toIndex 1 Nat.one_pos
      match shifted.2 with
      -- no deletion and no move for a newly inserted row
      | none => { b with moves := moves, insertions := insertions }
      | some i =>
          { b with
            insertions := insertions
            deletions := (b.deletions.addShifted i).1
            moves := moves ++ [⟨(b.deletions.addShifted i).2, toIndex⟩] }
  forEachCol moved (moveCol fromIndex toIndex)

/-- One round of `clean_up_stale_moves`, where all counts are right;
`ChunkedChangeBuilder.cleanUpFrom` reads those of the chunks. -/
def cleanUpFrom :
    List Move → IndexSet → IndexSet → IndexSet × IndexSet × List Move
  | [], deletions, insertions => (deletions, insertions, [])
  | move :: moves, deletions, insertions =>
      if move.fromIndex - deletions.count 0 move.fromIndex =
          move.toIndex - insertions.count 0 move.toIndex then
        cleanUpFrom moves (deletions.remove move.fromIndex)
          (insertions.remove move.toIndex)
      else
        let cleaned := cleanUpFrom moves deletions insertions
        (cleaned.1, cleaned.2.1, move :: cleaned.2.2)

/-- `clean_up_stale_moves()`. -/
def cleanUpStaleMoves : CollectionChangeBuilder :=
  let cleaned := cleanUpFrom b.moves b.deletions b.insertions
  { b with
    deletions := cleaned.1
    insertions := cleaned.2.1
    moves := cleaned.2.2 }

/-- `finalize()`. -/
def finalize : CollectionChangeSet :=
  { b with
    modifications :=
      (b.modifications.eraseAtAll b.insertions).shiftForInsertAtAll b.deletions
    modificationsNew := b.modifications.removeAll b.insertions }

end CollectionChangeBuilder

end Builder

section Edits

variable {α : Type u}
variable {κ : Type v} [DecidableEq κ]
variable {key : α → κ}

/-- What happens to a list; `modify` puts an item with the same key in place. -/
inductive Edit (α : Type u) where
  | insert (index : Nat) (items : List α)
  | erase (index : Nat)
  | move (fromIndex toIndex : Nat)
  | modify (index : Nat) (item : α) (col : Option Int)
  | clear

/-- The list after an edit; none when an index is out of bounds. -/
def editList (key : α → κ) (l : List α) : Edit α → Option (List α)
  | .insert index items =>
      if index ≤ l.length ∧ 0 < items.length then
        some (l.take index ++ items ++ l.drop index)
      else none
  | .erase index => if index < l.length then some (l.eraseIdx index) else none
  | .move fromIndex toIndex =>
      match l[fromIndex]? with
      | none => none
      | some item =>
          if fromIndex ≠ toIndex ∧ toIndex < l.length then
            some ((l.eraseIdx fromIndex).insertIdx toIndex item)
          else none
  | .modify index item _ =>
      if l[index]?.map key = some (key item) then some (l.set index item) else none
  | .clear => some []

/-- The builder is told of an edit of a list with `size` elements. -/
def tell (size : Nat) (b : CollectionChangeBuilder) :
    Edit α → CollectionChangeBuilder
  | .insert index items =>
      if hcount : 0 < items.length then b.insert index items.length hcount true else b
  | .erase index => b.erase index
  | .move fromIndex toIndex => b.move fromIndex toIndex
  | .modify index _ col => b.modify index col
  | .clear => b.clear size

/-- An edit of the list that the builder is told of. -/
def step (key : α → κ) (s : CollectionChangeBuilder × List α) (e : Edit α) :
    Option (CollectionChangeBuilder × List α) :=
  (editList key s.2 e).map (fun l => (tell s.2.length s.1 e, l))

/-- The change set tells how `old` became `new`, moves included. -/
structure Tracks
    (key : α → κ) (b : CollectionChangeSet) (old new : List α) : Prop where
  describes : b.change.Describes key old new
  moves : Move.AllSound key b.change old new b.moves

omit [DecidableEq κ] in
theorem tracks_empty (l : List α) :
    Tracks key .empty l l :=
  ⟨Change.Describes.refl l, Move.AllSound.nil⟩

section Composition

variable {S U T : Finset Nat}

@[simp] theorem moved_empty_left :
    Change.moved ∅ U T = T.image (Indices.shift U) := by
  ext i
  simp [Change.moved]

@[simp] theorem moved_empty_middle :
    Change.moved S ∅ T = (T \ S).image (Indices.unshift S) := by
  ext i
  simp [Change.moved]

@[simp] theorem moved_empty_right :
    Change.moved S U ∅ = ∅ := by
  simp [Change.moved]

end Composition

namespace CollectionChangeBuilder

variable {b : CollectionChangeBuilder}

theorem change_insert {index count : Nat} {hcount : 0 < count} :
    (b.insert index count hcount true).change =
      b.change.compose ⟨∅, Finset.Ico index (index + count), ∅⟩ := by
  simp [insert, forEachCol, CollectionChangeSet.change, Change.compose]

/-- One deleted row, seen from the start. -/
theorem moved_singleton
    {I D : Finset Nat} {index : Nat} :
    Change.moved I D {index} =
      if index ∈ I then ∅ else {Indices.shift D (Indices.unshift I index)} := by
  rw [Change.moved]
  split
  next hin =>
    rw [Finset.sdiff_eq_empty_iff_subset.mpr (Finset.singleton_subset_iff.mpr hin)]
    rfl
  next hout =>
    rw [Finset.sdiff_eq_self_of_disjoint (Finset.disjoint_singleton_left.mpr hout)]
    rfl

theorem change_erase {index : Nat} :
    (b.erase index).change = b.change.compose ⟨{index}, ∅, ∅⟩ := by
  by_cases hin : index ∈ b.insertions.toFinset
  · simp [erase, forEachCol, CollectionChangeSet.change, Change.compose,
      moved_singleton, IndexSet.eraseOrUnshift_eq, hin]
  · simp [erase, forEachCol, CollectionChangeSet.change, Change.compose,
      moved_singleton, IndexSet.eraseOrUnshift_eq, hin]

theorem toFinset_moveCol {fromIndex toIndex : Nat} {col : IndexSet} :
    (moveCol fromIndex toIndex col).toFinset =
      Change.moved {fromIndex} {toIndex} col.toFinset ∪
        if fromIndex ∈ col.toFinset then {toIndex} else ∅ := by
  rw [moveCol]
  split
  next hin =>
    rw [IndexSet.contains_iff] at hin
    simp [Change.moved, hin, Finset.union_comm]
  next hout =>
    rw [IndexSet.contains_iff] at hout
    simp [Change.moved, hout]

theorem change_move
    (fromIndex toIndex : Nat)
    (hmoves : ∀ m ∈ b.moves, m.toIndex ∈ b.insertions.toFinset) :
    (b.move fromIndex toIndex).change =
      b.change.compose ⟨{fromIndex}, {toIndex},
        if fromIndex ∈ b.modifications.toFinset then {toIndex} else ∅⟩ := by
  have hinsertions : ((b.insertions.eraseAt fromIndex).insertAt toIndex 1
      Nat.one_pos).toFinset =
        {toIndex} ∪ Change.moved {fromIndex} {toIndex} b.insertions.toFinset := by
    simp [Change.moved]
  by_cases hany : b.moves.any (fun move => move.toIndex = fromIndex) = true
  · have hin : fromIndex ∈ b.insertions.toFinset := by
      obtain ⟨m, hm, hto⟩ := List.any_eq_true.mp hany
      rw [← of_decide_eq_true hto]
      exact hmoves m hm
    simp [move, hany, forEachCol, CollectionChangeSet.change, Change.compose,
      moved_singleton, hin, hinsertions, toFinset_moveCol]
  · by_cases hin : fromIndex ∈ b.insertions.toFinset
    · simp [move, hany, forEachCol, CollectionChangeSet.change, Change.compose,
        moved_singleton, hin, hinsertions, toFinset_moveCol,
        IndexSet.eraseOrUnshift_eq]
    · simp [move, hany, forEachCol, CollectionChangeSet.change, Change.compose,
        moved_singleton, hin, hinsertions, toFinset_moveCol,
        IndexSet.eraseOrUnshift_eq]

variable {old cur : List α}

omit [DecidableEq κ] in
theorem tracks_insert
    (h : Tracks key b old cur)
    {index : Nat} {items : List α}
    (hindex : index ≤ cur.length)
    (hitems : 0 < items.length) :
    Tracks key (b.insert index items.length hitems true) old
      (cur.take index ++ items ++ cur.drop index) := by
  have hd : Change.Describes key ⟨∅, Finset.Ico index (index + items.length), ∅⟩ cur
      (cur.take index ++ items ++ cur.drop index) := .insert cur items hindex
  refine ⟨change_insert ▸ h.describes.compose hd, ?_⟩
  have hmoves := Move.AllSound.compose []
    (fun m => some (if index ≤ m.toIndex then
      { m with toIndex := m.toIndex + items.length } else m))
    h.describes hd h.moves Move.AllSound.nil
    (by
      rintro m hm m' ⟨⟩
      have hcarry : Move.Becomes b.change
          ⟨∅, Finset.Ico index (index + items.length), ∅⟩ [] m
          ⟨m.fromIndex, Move.carry ⟨∅, Finset.Ico index (index + items.length), ∅⟩
            m.toIndex⟩ := .carried (by simp)
      simp only [Move.carry, unshift_empty, shift_Ico] at hcarry
      split
      next hle => rwa [if_neg (by omega)] at hcarry
      next hlt => rwa [if_pos (by omega)] at hcarry)
    (by simp) List.nodup_nil
  rw [change_insert]
  simpa [insert, forEachCol] using hmoves

omit [DecidableEq κ] in
theorem tracks_erase
    (h : Tracks key b old cur)
    {index : Nat}
    (hindex : index < cur.length) :
    Tracks key (b.erase index) old (cur.eraseIdx index) := by
  have hd : Change.Describes key ⟨{index}, ∅, ∅⟩ cur (cur.eraseIdx index) :=
    .erase cur hindex
  refine ⟨change_erase ▸ h.describes.compose hd, ?_⟩
  have hmoves := Move.AllSound.compose [] (eraseMove index)
    h.describes hd h.moves Move.AllSound.nil
    (by
      intro m hm m' hgm
      have hcarry : m.toIndex ∉ ({index} : Finset Nat) →
          Move.Becomes b.change ⟨{index}, ∅, ∅⟩ [] m
            ⟨m.fromIndex, Move.carry ⟨{index}, ∅, ∅⟩ m.toIndex⟩ :=
        fun hstays => .carried hstays
      simp only [Move.carry, unshift_singleton, shift_empty,
        Finset.mem_singleton] at hcarry
      rw [eraseMove] at hgm
      split at hgm
      · cases hgm
      next hne =>
        have hcarry := hcarry hne
        split at hgm
        next hlt => cases hgm; rwa [if_pos hlt] at hcarry
        next hge => cases hgm; rwa [if_neg hge] at hcarry)
    (by simp) List.nodup_nil
  rw [change_erase]
  simpa [erase, forEachCol] using hmoves

theorem carry_move
    {f t x : Nat} {M : Finset Nat}
    (hne : x ≠ f) :
    Move.carry ⟨{f}, {t}, M⟩ x =
      if t ≤ x ∧ x < f then x + 1
      else if x ≤ t ∧ f < x then x - 1 else x := by
  simp only [Move.carry, unshift_singleton, shift_singleton]
  split_ifs <;> omega

/-- The moves after a move, that of the row itself last when it is a new one. -/
theorem moves_move {fromIndex toIndex : Nat} :
    (b.move fromIndex toIndex).moves =
      b.moves.map (moveMove fromIndex toIndex) ++
        if fromIndex ∈ b.insertions.toFinset ∨
            b.moves.any (fun move => move.toIndex = fromIndex) = true then []
        else [⟨b.change.source fromIndex, toIndex⟩] := by
  by_cases hany : b.moves.any (fun move => move.toIndex = fromIndex) = true
  · simp [move, hany, forEachCol]
  · by_cases hin : fromIndex ∈ b.insertions.toFinset
    · simp [move, hany, forEachCol, IndexSet.eraseOrUnshift_eq, hin]
    · simp [move, hany, forEachCol, IndexSet.eraseOrUnshift_eq, hin,
        Change.source, CollectionChangeSet.change]

omit [DecidableEq κ] in
theorem tracks_move
    (h : Tracks key b old cur)
    {fromIndex toIndex : Nat} {item : α}
    (hfrom : cur[fromIndex]? = some item)
    (hto : toIndex < cur.length) :
    Tracks key (b.move fromIndex toIndex) old
      ((cur.eraseIdx fromIndex).insertIdx toIndex item) := by
  obtain ⟨hindex, hitem⟩ := List.getElem?_eq_some_iff.mp hfrom
  have hchange := change_move (b := b) fromIndex toIndex
    (fun m hm => (h.moves.sound m hm).to_mem)
  have hsubset : (if fromIndex ∈ b.modifications.toFinset then {toIndex} else ∅ :
      Finset Nat) ⊆ {toIndex} := by
    split <;> simp
  have hmodified : fromIndex ∈ b.change.modifications →
      toIndex ∈ (if fromIndex ∈ b.modifications.toFinset then {toIndex} else ∅ :
        Finset Nat) := by
    intro hin
    have hin : fromIndex ∈ b.modifications.toFinset := hin
    rw [if_pos hin]
    exact Finset.mem_singleton_self _
  generalize (if fromIndex ∈ b.modifications.toFinset then {toIndex} else ∅ :
    Finset Nat) = modified at hchange hsubset hmodified
  have hd : Change.Describes key ⟨{fromIndex}, {toIndex}, modified⟩ cur
      ((cur.eraseIdx fromIndex).insertIdx toIndex item) := .move cur hindex hto hsubset
  have hlength : toIndex ≤ (cur.eraseIdx fromIndex).length := by
    rw [List.length_eraseIdx_of_lt hindex]
    omega
  have hat : ((cur.eraseIdx fromIndex).insertIdx toIndex item)[toIndex]? =
      cur[fromIndex]? := by
    rw [hfrom, List.getElem?_insertIdx_self, if_pos hlength]
  have hsound : Move.Sound key ⟨{fromIndex}, {toIndex}, modified⟩ cur
      ((cur.eraseIdx fromIndex).insertIdx toIndex item) ⟨fromIndex, toIndex⟩ :=
    ⟨by simp, by simp, by simp only [hat], fun _ => hat⟩
  have hnext := Move.AllSound.single hsound
  refine ⟨hchange ▸ h.describes.compose hd, ?_⟩
  have hmoves := Move.AllSound.compose
    (if fromIndex ∈ b.insertions.toFinset ∨
        b.moves.any (fun move => move.toIndex = fromIndex) = true then []
      else [⟨fromIndex, toIndex⟩])
    (fun m => some (moveMove fromIndex toIndex m))
    h.describes hd h.moves hnext
    (by
      rintro m hm m' ⟨⟩
      by_cases hne : m.toIndex = fromIndex
      · rw [moveMove, if_pos hne]
        exact .again ⟨fromIndex, toIndex⟩ (by simp) hne (fun h => hmodified (hne ▸ h))
      · have hcarry : Move.Becomes b.change ⟨{fromIndex}, {toIndex}, modified⟩
            [⟨fromIndex, toIndex⟩] m ⟨m.fromIndex,
              Move.carry ⟨{fromIndex}, {toIndex}, modified⟩ m.toIndex⟩ :=
          .carried (by simpa using hne)
        rw [carry_move hne] at hcarry
        rw [moveMove, if_neg hne]
        split_ifs at hcarry ⊢ <;> exact hcarry)
    (by
      intro n hn
      split at hn
      · simp at hn
      next hout =>
        rw [List.mem_singleton.mp hn]
        exact ⟨by simp, fun hin => hout (Or.inl hin), hmodified⟩)
    (by split <;> simp)
  rw [hchange, moves_move]
  have hlater : (if fromIndex ∈ b.insertions.toFinset ∨
        b.moves.any (fun move => move.toIndex = fromIndex) = true then []
      else [(⟨b.change.source fromIndex, toIndex⟩ : Move)]) =
      (if fromIndex ∈ b.insertions.toFinset ∨
        b.moves.any (fun move => move.toIndex = fromIndex) = true then []
      else [(⟨fromIndex, toIndex⟩ : Move)]).map
        (fun n => ⟨b.change.source n.fromIndex, n.toIndex⟩) := by
    split <;> rfl
  rw [hlater]
  simpa using hmoves

omit [DecidableEq κ] in
theorem tracks_modify
    (h : Tracks key b old cur)
    {index : Nat} {item : α} {col : Option Int}
    (hkey : cur[index]?.map key = some (key item)) :
    Tracks key (b.modify index col) old (cur.set index item) := by
  obtain ⟨a, ha, hkey⟩ := Option.map_eq_some_iff.mp hkey
  obtain ⟨hindex, rfl⟩ := List.getElem?_eq_some_iff.mp ha
  have hd := Change.Describes.modify cur hindex hkey.symm
  have hchange : (b.modify index col).change = b.change.compose ⟨∅, ∅, {index}⟩ := by
    simp [modify, CollectionChangeSet.change, Change.compose]
  refine ⟨hchange ▸ h.describes.compose hd, ?_⟩
  have hmoves := Move.AllSound.compose [] some
    h.describes hd h.moves Move.AllSound.nil
    (by
      rintro m hm m' ⟨⟩
      have hcarry : Move.Becomes b.change ⟨∅, ∅, {index}⟩ [] m
          ⟨m.fromIndex, Move.carry ⟨∅, ∅, {index}⟩ m.toIndex⟩ := .carried (by simp)
      simpa [Move.carry] using hcarry)
    (by simp) List.nodup_nil
  rw [hchange]
  simpa [modify] using hmoves

theorem size_eq_card (s : IndexSet) :
    size s = s.toFinset.card := by
  have hnodup := s.ordered.asIndexes_nodup
  rw [IndexSet.toFinset, members, List.toFinset_card_of_nodup hnodup, asIndexes,
    List.length_flatMap, size]
  congr 1
  apply List.map_congr_left
  intro r _
  rw [List.length_range']

omit [DecidableEq κ] in
theorem tracks_clear
    (h : Tracks key b old cur) :
    Tracks key (b.clear cur.length) old [] := by
  have hlength := h.describes.length_eq
  have hsize : cur.length + size b.deletions - size b.insertions = old.length := by
    rw [size_eq_card, size_eq_card]
    change cur.length + b.change.deletions.card - b.change.insertions.card = _
    omega
  have hchange : (b.clear cur.length).change = ⟨Finset.range old.length, ∅, ∅⟩ := by
    simp [clear, CollectionChangeSet.change, hsize]
  refine ⟨hchange ▸ Change.Describes.clear old, ?_⟩
  exact Move.AllSound.nil

end CollectionChangeBuilder

/-- Invariant: the builder tracks the list from what it started with. -/
def Built
    (key : α → κ) (old : List α) (s : CollectionChangeBuilder × List α) : Prop :=
  Tracks key s.1 old s.2

/-- One edit. -/
theorem tracks_step
    {old : List α} {s t : CollectionChangeBuilder × List α} {e : Edit α}
    (h : Built key old s)
    (hstep : step key s e = some t) :
    Built key old t := by
  obtain ⟨l, hl, rfl⟩ := Option.map_eq_some_iff.mp hstep
  cases e with
  | insert index items =>
      simp only [editList, Option.ite_none_right_eq_some, Option.some.injEq] at hl
      obtain ⟨⟨hindex, hitems⟩, rfl⟩ := hl
      simp only [tell, dif_pos hitems]
      exact CollectionChangeBuilder.tracks_insert h hindex hitems
  | erase index =>
      simp only [editList, Option.ite_none_right_eq_some, Option.some.injEq] at hl
      obtain ⟨hindex, rfl⟩ := hl
      exact CollectionChangeBuilder.tracks_erase h hindex
  | move fromIndex toIndex =>
      simp only [editList] at hl
      split at hl
      · cases hl
      next item hitem =>
        simp only [Option.ite_none_right_eq_some, Option.some.injEq] at hl
        obtain ⟨⟨_, hto⟩, rfl⟩ := hl
        exact CollectionChangeBuilder.tracks_move h hitem hto
  | modify index item col =>
      simp only [editList, Option.ite_none_right_eq_some, Option.some.injEq] at hl
      obtain ⟨hkey, rfl⟩ := hl
      exact CollectionChangeBuilder.tracks_modify h hkey
  | clear =>
      cases hl
      exact CollectionChangeBuilder.tracks_clear h

/--
**Whatever is done to a list, the builder that is told of every edit tells how
the list it started with became the list now, and each move that it reports took
an element of the old list to its place in the new one.**
-/
theorem run_tracks
    {old : List α} {edits : List (Edit α)} {t : CollectionChangeBuilder × List α}
    (hrun : run (step key) (.empty, old) edits = some t) :
    Tracks key t.1 old t.2 := by
  have hstart : Built key old (.empty, old) := tracks_empty old
  have hinv : Built key old t := by
    refine run_invariant ?_ hstart hrun
    intro _ _ _ h hstep
    exact tracks_step h hstep
  exact hinv

/-- An insertion, a move and a removal of a row that was moved. -/
theorem run_tracks_movedRow :
    ∃ t, run (step id) (.empty, [10, 20, 30])
        [.insert 1 [15], .move 3 0, .erase 0, .modify 1 15 none] = some t ∧
      Tracks id t.1 [10, 20, 30] t.2 := by
  obtain ⟨t, hrun⟩ : ∃ t, run (step id) (.empty, [10, 20, 30])
      [.insert 1 [15], .move 3 0, .erase 0, .modify 1 15 none] = some t := ⟨_, rfl⟩
  exact ⟨t, hrun, run_tracks hrun⟩

end Edits

end ObjectStore
end NotVK
