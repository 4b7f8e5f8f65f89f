import NotVK.ObjectStore.ChangeSetMerge
import NotVK.ObjectStore.ChunkedIndexSet

/-!
# Merging change sets in chunks

A merge counts deletions and insertions: to shift moves, and to find the moves that
are no moves any more.  It reads the counts of the chunks for this.  As long as these
are right the merge of two change sets in chunks is the merge of their ranges, and it
leaves right counts unless `add_shifted_by` begins a chunk beyond those it reserved
with a range of several indices.  Without moves no count is read.
-/

namespace NotVK
namespace ObjectStore

open Indices SwapRemoval ChunkedIndexSet

universe u v

section Merge

/-- A change set whose deletions and insertions are in chunks. -/
structure ChunkedChangeBuilder where
  deletions : ChunkedIndexSet
  insertions : ChunkedIndexSet
  modifications : IndexSet
  modificationsNew : IndexSet
  moves : List Move
  columns : Int → IndexSet

namespace ChunkedChangeBuilder

/-- The change set without the chunks. -/
def changes (b : ChunkedChangeBuilder) : CollectionChangeBuilder where
  deletions := b.deletions.indexSet
  insertions := b.insertions.indexSet
  modifications := b.modifications
  modificationsNew := b.modificationsNew
  moves := b.moves
  columns := b.columns

/-- A builder that was not told of anything. -/
def empty : ChunkedChangeBuilder :=
  ⟨.empty, .empty, .empty, .empty, [], fun _ => .empty⟩

/-- `empty()`. -/
def isEmpty (b : ChunkedChangeBuilder) : Bool :=
  b.deletions.isEmpty && b.insertions.isEmpty && b.modifications.isEmpty &&
    b.modificationsNew.isEmpty && b.moves.isEmpty

/-- `for_each_col`: a row that was modified before it moved is modified still. -/
def carryModified (b : ChunkedChangeBuilder) (m : Move)
    (c : ChunkedChangeBuilder) : ChunkedChangeBuilder :=
  { c with
    modifications :=
      if b.modifications.contains m.fromIndex then c.modifications.add m.toIndex
      else c.modifications
    columns := fun col =>
      if (b.columns col).contains m.fromIndex then (c.columns col).add m.toIndex
      else c.columns col }

/-- The update of the old moves, and what it leaves of the new change set. -/
def updateMoves (b : ChunkedChangeBuilder) :
    List Move → ChunkedChangeBuilder → List Move × ChunkedChangeBuilder
  | [], c => ([], c)
  | old :: moves, c =>
      match c.moves.find? (fun m => old.toIndex = m.fromIndex) with
      | some m =>
          let rest := updateMoves b moves
            { carryModified b m c with
              moves := swapRemove c.moves
                (c.moves.findIdx (fun m => old.toIndex = m.fromIndex)) }
          ({ old with toIndex := m.toIndex } :: rest.1, rest.2)
      | none =>
          let rest := updateMoves b moves c
          if c.deletions.contains old.toIndex then rest
          else
            ({ old with
                toIndex := c.insertions.shift (c.deletions.unshift old.toIndex) } ::
              rest.1, rest.2)

/-- First, any old moves are updated. -/
def updateOldMoves (b c : ChunkedChangeBuilder) :
    List Move × ChunkedChangeBuilder :=
  if !c.moves.isEmpty || !c.deletions.isEmpty || !c.insertions.isEmpty then
    updateMoves b b.moves c
  else (b.moves, c)

/-- New moves of rows that were inserted before are ignored. -/
def ignoreMoves (b c : ChunkedChangeBuilder) : ChunkedChangeBuilder :=
  if !b.insertions.isEmpty && !c.moves.isEmpty then
    { c with moves := c.moves.filter (fun m => !b.insertions.contains m.fromIndex) }
  else c

/-- Rows that were modified before and moved now are still modified. -/
def carryMoves (b c : ChunkedChangeBuilder) : ChunkedChangeBuilder :=
  if !b.modifications.isEmpty && !c.moves.isEmpty then
    c.moves.foldl (fun c m => carryModified b m c) c
  else c

/-- The sources of the new moves, before the old changes. -/
def shiftMoves (b : ChunkedChangeBuilder) (moves : List Move) : List Move :=
  if !b.deletions.isEmpty || !b.insertions.isEmpty then
    moves.map (fun m =>
      { m with fromIndex := b.deletions.shift (b.insertions.unshift m.fromIndex) })
  else moves

/-- One round of `clean_up_stale_moves`. -/
def cleanUpFrom :
    List Move → ChunkedIndexSet → ChunkedIndexSet →
      ChunkedIndexSet × ChunkedIndexSet × List Move
  | [], deletions, insertions => (deletions, insertions, [])
  | move :: moves, deletions, insertions =>
      if move.fromIndex - deletions.count 0 move.fromIndex =
          move.toIndex - insertions.count 0 move.toIndex then
        cleanUpFrom moves (deletions.remove move.fromIndex)
          (insertions.remove move.toIndex)
      else
        let cleaned := cleanUpFrom moves deletions insertions
        (cleaned.1, cleaned.2.1, move :: cleaned.2.2)

/-- `clean_up_stale_moves()`. -/
def cleanUpStaleMoves (b : ChunkedChangeBuilder) : ChunkedChangeBuilder :=
  let cleaned := cleanUpFrom b.moves b.deletions b.insertions
  { b with
    deletions := cleaned.1
    insertions := cleaned.2.1
    moves := cleaned.2.2 }

/-- `merge(c)`. -/
def merge (b c : ChunkedChangeBuilder) : ChunkedChangeBuilder :=
  if c.isEmpty then b
  else if b.isEmpty then c
  else
    let updated := updateOldMoves b c
    let c := carryMoves b (ignoreMoves b updated.2)
    let merged :=
      cleanUpStaleMoves
        { b with
          moves := updated.1 ++ shiftMoves b c.moves
          deletions := b.deletions.addShiftedBy b.insertions c.deletions
          insertions := (b.insertions.eraseAtAll c.deletions).insertAtAll c.insertions }
    { merged with
      modifications :=
        ((b.modifications.eraseAtAll c.deletions.indexSet).shiftForInsertAtAll
          c.insertions.indexSet).addAll c.modifications
      columns := fun col =>
        (((b.columns col).eraseAtAll c.deletions.indexSet).shiftForInsertAtAll
          c.insertions.indexSet).addAll (c.columns col) }

/-- What `verify()` asserts of the counts. -/
structure Counted (b : ChunkedChangeBuilder) : Prop where
  deletions : b.deletions.Counted
  insertions : b.insertions.Counted

/-- A merge begins no chunk of wrong count. -/
def Fits (b c : ChunkedChangeBuilder) : Prop :=
  b.deletions.OverflowsByOnes b.insertions c.deletions

section Steps

variable {b c : ChunkedChangeBuilder}

@[simp] theorem isEmpty_changes (b : ChunkedChangeBuilder) :
    b.changes.isEmpty = b.isEmpty := by
  simp [CollectionChangeSet.isEmpty, changes, isEmpty]

/-- Only moves and modifications of the new change set are updated. -/
theorem updateMoves_sets
    (b c : ChunkedChangeBuilder) (moves : List Move) :
    (updateMoves b moves c).2.deletions = c.deletions ∧
      (updateMoves b moves c).2.insertions = c.insertions := by
  induction moves generalizing c with
  | nil =>
      exact ⟨rfl, rfl⟩
  | cons old moves ih =>
      rw [updateMoves]
      split
      · exact ih _
      · dsimp only
        split
        · exact ih c
        · exact ih c

theorem changes_updateMoves
    (hc : c.deletions.Counted)
    (moves : List Move) :
    (updateMoves b moves c).1 =
        (CollectionChangeBuilder.updateMoves b.changes moves c.changes).1 ∧
      (updateMoves b moves c).2.changes =
        (CollectionChangeBuilder.updateMoves b.changes moves c.changes).2 := by
  induction moves generalizing c with
  | nil =>
      exact ⟨rfl, rfl⟩
  | cons old moves ih =>
      cases hfind : c.moves.find? (fun m => old.toIndex = m.fromIndex) with
      | some m =>
          have hflat : c.changes.moves.find? (fun m => old.toIndex = m.fromIndex) =
              some m := hfind
          have hrest := @ih { carryModified b m c with
            moves := swapRemove c.moves
              (c.moves.findIdx (fun m => old.toIndex = m.fromIndex)) } hc
          simp only [updateMoves, CollectionChangeBuilder.updateMoves, hfind, hflat]
          exact ⟨congrArg _ hrest.1, hrest.2⟩
      | none =>
          have hflat : c.changes.moves.find? (fun m => old.toIndex = m.fromIndex) =
              none := hfind
          obtain ⟨hmoves, hchanges⟩ := ih hc
          have hcontains : c.changes.deletions.contains old.toIndex =
              c.deletions.contains old.toIndex := contains_indexSet _ _
          have hunshift : c.changes.deletions.unshift old.toIndex =
              c.deletions.unshift old.toIndex := (unshift_indexSet hc _).symm
          simp only [updateMoves, CollectionChangeBuilder.updateMoves, hfind, hflat,
            hcontains, hunshift]
          split
          · exact ⟨hmoves, hchanges⟩
          · rw [hmoves]
            exact ⟨rfl, hchanges⟩

theorem changes_updateOldMoves
    (b : ChunkedChangeBuilder)
    (hc : c.deletions.Counted) :
    (updateOldMoves b c).1 =
        (CollectionChangeBuilder.updateOldMoves b.changes c.changes).1 ∧
      (updateOldMoves b c).2.changes =
        (CollectionChangeBuilder.updateOldMoves b.changes c.changes).2 := by
  rw [updateOldMoves, CollectionChangeBuilder.updateOldMoves]
  simp only [changes, isEmpty_indexSet]
  split
  · exact changes_updateMoves hc b.moves
  · exact ⟨rfl, rfl⟩

theorem updateOldMoves_sets (b c : ChunkedChangeBuilder) :
    (updateOldMoves b c).2.deletions = c.deletions ∧
      (updateOldMoves b c).2.insertions = c.insertions := by
  rw [updateOldMoves]
  split
  · exact updateMoves_sets b c b.moves
  · exact ⟨rfl, rfl⟩

theorem changes_ignoreMoves (b c : ChunkedChangeBuilder) :
    (ignoreMoves b c).changes =
      CollectionChangeBuilder.ignoreMoves b.changes c.changes := by
  rw [ignoreMoves, CollectionChangeBuilder.ignoreMoves]
  simp only [changes, isEmpty_indexSet, contains_indexSet]
  split <;> rfl

theorem ignoreMoves_sets (b c : ChunkedChangeBuilder) :
    (ignoreMoves b c).deletions = c.deletions ∧
      (ignoreMoves b c).insertions = c.insertions := by
  rw [ignoreMoves]
  split
  · exact ⟨rfl, rfl⟩
  · exact ⟨rfl, rfl⟩

theorem changes_foldl_carryModified
    (b c : ChunkedChangeBuilder) (moves : List Move) :
    (moves.foldl (fun c m => carryModified b m c) c).changes =
      moves.foldl (fun c m => CollectionChangeBuilder.carryModified b.changes m c)
        c.changes := by
  induction moves generalizing c with
  | nil => rfl
  | cons m moves ih => exact ih (carryModified b m c)

theorem foldl_carryModified_sets
    (b c : ChunkedChangeBuilder) (moves : List Move) :
    (moves.foldl (fun c m => carryModified b m c) c).deletions = c.deletions ∧
      (moves.foldl (fun c m => carryModified b m c) c).insertions = c.insertions := by
  induction moves generalizing c with
  | nil => exact ⟨rfl, rfl⟩
  | cons m moves ih => exact ih (carryModified b m c)

theorem changes_carryMoves (b c : ChunkedChangeBuilder) :
    (carryMoves b c).changes =
      CollectionChangeBuilder.carryMoves b.changes c.changes := by
  have hmodifications : b.changes.modifications = b.modifications := rfl
  have hmoves : c.changes.moves = c.moves := rfl
  rw [carryMoves, CollectionChangeBuilder.carryMoves, hmodifications, hmoves]
  split
  · exact changes_foldl_carryModified b c c.moves
  · rfl

theorem carryMoves_sets (b c : ChunkedChangeBuilder) :
    (carryMoves b c).deletions = c.deletions ∧
      (carryMoves b c).insertions = c.insertions := by
  rw [carryMoves]
  split
  · exact foldl_carryModified_sets b c c.moves
  · exact ⟨rfl, rfl⟩

theorem shiftMoves_changes
    (hb : b.insertions.Counted)
    (moves : List Move) :
    shiftMoves b moves = CollectionChangeBuilder.shiftMoves b.changes moves := by
  have hunshift : ∀ index, b.changes.insertions.unshift index =
      b.insertions.unshift index := fun index => (unshift_indexSet hb index).symm
  rw [shiftMoves, CollectionChangeBuilder.shiftMoves]
  simp only [hunshift]
  simp only [changes, isEmpty_indexSet, shift_indexSet]

/-- Right counts find the moves that are no moves any more. -/
theorem cleanUpFrom_indexSets
    {deletions insertions : ChunkedIndexSet}
    (hdeletions : deletions.Counted)
    (hinsertions : insertions.Counted)
    (moves : List Move) :
    (cleanUpFrom moves deletions insertions).1.Counted ∧
      (cleanUpFrom moves deletions insertions).2.1.Counted ∧
      CollectionChangeBuilder.cleanUpFrom moves deletions.indexSet insertions.indexSet =
        ((cleanUpFrom moves deletions insertions).1.indexSet,
          (cleanUpFrom moves deletions insertions).2.1.indexSet,
          (cleanUpFrom moves deletions insertions).2.2) := by
  induction moves generalizing deletions insertions with
  | nil =>
      exact ⟨hdeletions, hinsertions, rfl⟩
  | cons m moves ih =>
      have hstale : (m.fromIndex : Int) - deletions.count 0 m.fromIndex =
            m.toIndex - insertions.count 0 m.toIndex ↔
          m.fromIndex - deletions.indexSet.count 0 m.fromIndex =
            m.toIndex - insertions.indexSet.count 0 m.toIndex := by
        rw [count_indexSet hdeletions, count_indexSet hinsertions]
        have hle := deletions.indexSet.count_le m.fromIndex
        have hle' := insertions.indexSet.count_le m.toIndex
        omega
      rw [cleanUpFrom, CollectionChangeBuilder.cleanUpFrom]
      simp only [hstale]
      split
      · rw [← indexSet_remove, ← indexSet_remove]
        exact ih (counted_remove hdeletions _) (counted_remove hinsertions _)
      · obtain ⟨hdeletions', hinsertions', heq⟩ := ih hdeletions hinsertions
        rw [heq]
        exact ⟨hdeletions', hinsertions', rfl⟩

/-- What is left of the new change set has the deletions and insertions it had. -/
theorem carryMoves_ignoreMoves_sets (b c : ChunkedChangeBuilder) :
    (carryMoves b (ignoreMoves b (updateOldMoves b c).2)).deletions = c.deletions ∧
      (carryMoves b (ignoreMoves b (updateOldMoves b c).2)).insertions =
        c.insertions := by
  have hcarry := carryMoves_sets b (ignoreMoves b (updateOldMoves b c).2)
  have hignore := ignoreMoves_sets b (updateOldMoves b c).2
  have hupdate := updateOldMoves_sets b c
  exact ⟨hcarry.1.trans (hignore.1.trans hupdate.1),
    hcarry.2.trans (hignore.2.trans hupdate.2)⟩

/-- The merge in chunks is the merge of the ranges, and leaves right counts. -/
theorem merge_spec
    (hb : b.Counted)
    (hc : c.Counted)
    (hfits : b.Fits c) :
    (merge b c).Counted ∧
      (merge b c).changes = CollectionChangeBuilder.merge b.changes c.changes := by
  rw [merge, CollectionChangeBuilder.merge, isEmpty_changes, isEmpty_changes]
  split
  · exact ⟨hb, rfl⟩
  split
  · exact ⟨hc, rfl⟩
  obtain ⟨hmoves, hupdated⟩ := changes_updateOldMoves b hc.deletions
  obtain ⟨hdeletions, hinsertions⟩ := carryMoves_ignoreMoves_sets b c
  have hchanges := changes_carryMoves b (ignoreMoves b (updateOldMoves b c).2)
  rw [changes_ignoreMoves, hupdated] at hchanges
  have hdeletions_counted : (b.deletions.addShiftedBy b.insertions c.deletions).Counted :=
    (counted_addShiftedBy_iff hb.deletions _ _).mpr hfits
  have hinsertions_counted :
      ((b.insertions.eraseAtAll c.deletions).insertAtAll c.insertions).Counted :=
    counted_insertAtAll (counted_eraseAtAll hb.insertions _) hc.insertions
  have hcleaned := cleanUpFrom_indexSets hdeletions_counted hinsertions_counted
  have hshift := @shiftMoves_changes b hb.insertions
  rw [indexSet_addShiftedBy, indexSet_insertAtAll, indexSet_eraseAtAll] at hcleaned
  dsimp only
  rw [← hchanges, ← hmoves]
  generalize carryMoves b (ignoreMoves b (updateOldMoves b c).2) = c' at *
  generalize (updateOldMoves b c).1 = updated at *
  rw [hdeletions, hinsertions, hshift]
  obtain ⟨hcleaned_deletions, hcleaned_insertions, hcleaned_eq⟩ :=
    hcleaned (updated ++ CollectionChangeBuilder.shiftMoves b.changes c'.moves)
  refine ⟨⟨hcleaned_deletions, hcleaned_insertions⟩, ?_⟩
  have hdeletions' : c'.changes.deletions = c.deletions.indexSet :=
    congrArg indexSet hdeletions
  have hinsertions' : c'.changes.insertions = c.insertions.indexSet :=
    congrArg indexSet hinsertions
  have hmoves' : c'.changes.moves = c'.moves := rfl
  have hold_deletions : b.changes.deletions = b.deletions.indexSet := rfl
  have hold_insertions : b.changes.insertions = b.insertions.indexSet := rfl
  rw [CollectionChangeBuilder.cleanUpStaleMoves, hdeletions', hinsertions', hmoves',
    hold_deletions, hold_insertions, hcleaned_eq]
  rfl

/-- Change sets without moves are merged as their ranges are, whatever the counts. -/
theorem changes_merge_of_no_moves
    (hb : b.moves = [])
    (hc : c.moves = []) :
    (merge b c).changes = CollectionChangeBuilder.merge b.changes c.changes := by
  have hb' : b.changes.moves = [] := hb
  have hc' : c.changes.moves = [] := hc
  rw [merge, CollectionChangeBuilder.merge, isEmpty_changes, isEmpty_changes]
  split
  · rfl
  split
  · rfl
  have hupdate : updateOldMoves b c = ([], c) := by
    rw [updateOldMoves, hb]
    exact ite_self _
  have hcarry : carryMoves b (ignoreMoves b c) = c := by
    simp [carryMoves, ignoreMoves, hc]
  have hshift : shiftMoves b [] = [] := ite_self _
  have hshift' : CollectionChangeBuilder.shiftMoves b.changes [] = [] := ite_self _
  dsimp only
  rw [hupdate, CollectionChangeBuilder.updateOldMoves_of_no_moves c.changes hb', hcarry,
    CollectionChangeBuilder.carryMoves_of_no_moves b.changes hc', hc, hc', hshift, hshift']
  simp only [List.append_nil, cleanUpStaleMoves, cleanUpFrom,
    CollectionChangeBuilder.cleanUpStaleMoves, CollectionChangeBuilder.cleanUpFrom]
  simp only [changes, indexSet_addShiftedBy, indexSet_insertAtAll, indexSet_eraseAtAll]

end Steps

end ChunkedChangeBuilder

end Merge

section Versions

open ChunkedChangeBuilder

variable {α : Type u}
variable {κ : Type v}
variable {key : α → κ}

/-- One merge after the other begins no chunk of wrong count. -/
def FitsEach : ChunkedChangeBuilder → List ChunkedChangeBuilder → Prop
  | _, [] => True
  | b, c :: cs => b.Fits c ∧ FitsEach (b.merge c) cs

theorem tracks_foldl_chunked
    {b : ChunkedChangeBuilder} {bs : List ChunkedChangeBuilder}
    {old middle new : List α}
    (hb : b.Counted)
    (hbs : ∀ c ∈ bs, c.Counted)
    (hfits : FitsEach b bs)
    (htracks : Tracks key b.changes old middle)
    (h : TracksEach key (bs.map changes) middle new) :
    (bs.foldl merge b).Counted ∧ Tracks key (bs.foldl merge b).changes old new := by
  induction bs generalizing b middle with
  | nil =>
      cases h
      exact ⟨hb, htracks⟩
  | cons c bs ih =>
      cases h with
      | cons first rest =>
          obtain ⟨hcounted, hmerge⟩ := merge_spec hb (hbs c List.mem_cons_self) hfits.1
          have hmerged := CollectionChangeBuilder.tracks_merge htracks first
          rw [← hmerge] at hmerged
          exact ih hcounted (fun d hd => hbs d (List.mem_cons_of_mem c hd)) hfits.2 hmerged
            rest

/--
**Change sets that are merged in their chunks over any number of versions tell how the
first version became the last one, with every move that is left, and so do they once
they are finalized.**
-/
theorem tells_accumulated
    {bs : List ChunkedChangeBuilder} {old new : List α}
    (hcounted : ∀ b ∈ bs, b.Counted)
    (hfits : FitsEach .empty bs)
    (h : TracksEach key (bs.map changes) old new) :
    Tracks key (bs.foldl merge .empty).changes old new ∧
      (bs.foldl merge .empty).changes.finalize.Tells key old new := by
  have hempty : ChunkedChangeBuilder.empty.Counted := ⟨by decide, by decide⟩
  have htracks := (tracks_foldl_chunked hempty hcounted hfits (tracks_empty old) h).2
  exact ⟨htracks, CollectionChangeBuilder.tells_finalize htracks⟩

/-- The last row moves to the front, and in the next version the last one goes. -/
theorem tells_accumulated_movedRow :
    Tracks id
        ([⟨.built .empty (singles [2]) (ascending_singles (by decide)),
            .built .empty (singles [0]) (ascending_singles (by decide)), .empty, .empty,
            [⟨2, 0⟩], fun _ => .empty⟩,
          ⟨.built .empty (singles [2]) (ascending_singles (by decide)), .empty, .empty,
            .empty, [], fun _ => .empty⟩].foldl merge .empty).changes [1, 2, 3] [3, 1] ∧
      ([⟨.built .empty (singles [2]) (ascending_singles (by decide)),
            .built .empty (singles [0]) (ascending_singles (by decide)), .empty, .empty,
            [⟨2, 0⟩], fun _ => .empty⟩,
          ⟨.built .empty (singles [2]) (ascending_singles (by decide)), .empty, .empty,
            .empty, [], fun _ => .empty⟩].foldl merge .empty).changes.finalize.Tells
        id [1, 2, 3] [3, 1] := by
  refine tells_accumulated ?_ ?_ ?_
  · intro b hb
    rcases List.mem_pair.mp hb with rfl | rfl
    · exact ⟨by decide, by decide⟩
    · exact ⟨by decide, by decide⟩
  · exact ⟨overflowsByOnes_of_ranges (by decide), overflowsByOnes_of_ranges (by decide),
      trivial⟩
  · exact .cons (tracks_step (s := (.empty, [1, 2, 3])) (e := .move 2 0)
        (t := (_, [3, 1, 2])) (tracks_empty [1, 2, 3]) rfl)
      (.cons (tracks_step (s := (.empty, [3, 1, 2])) (e := .erase 2) (t := (_, [3, 1]))
        (tracks_empty [3, 1, 2]) rfl) (.nil [3, 1]))

end Versions

end ObjectStore
end NotVK
