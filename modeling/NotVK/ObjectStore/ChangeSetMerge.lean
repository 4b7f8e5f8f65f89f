import NotVK.Library.SwapRemoval
import NotVK.ObjectStore.CollectionChangeBuilder

/-!
# Merging change sets

A notifier merges the change set of each new version into what it has not
delivered yet.  Merging is composition: the moves of both change sets are put
together, and moves that have come to nothing are dropped.
-/

namespace NotVK
namespace ObjectStore

open Indices Diffs SwapRemoval

universe u v

section CleanUp

variable {α : Type u}
variable {κ : Type v}
variable {key : α → κ}
variable {old new : List α}

/-- An empty change set tracks nothing. -/
theorem Tracks.eq_of_isEmpty
    {b : CollectionChangeSet}
    (h : Tracks key b old new)
    (hempty : b.isEmpty = true) :
    old = new := by
  simp only [CollectionChangeSet.isEmpty, Bool.and_eq_true, IndexSet.isEmpty_iff]
    at hempty
  obtain ⟨⟨⟨⟨hdeletions, hinsertions⟩, hmodifications⟩, _⟩, _⟩ := hempty
  exact h.describes.eq_of_empty hdeletions hinsertions hmodifications

namespace CollectionChangeBuilder

/-- One move after the other is dropped, or stays. -/
theorem cleanUpFrom_sound
    (stay : List Move) {moves : List Move} {deletions insertions modifications : IndexSet}
    (hdescribes : Change.Describes key
      ⟨deletions.toFinset, insertions.toFinset, modifications.toFinset⟩ old new)
    (hmoves : Move.AllSound key
      ⟨deletions.toFinset, insertions.toFinset, modifications.toFinset⟩ old new
      (stay ++ moves)) :
    Change.Describes key
        ⟨(cleanUpFrom moves deletions insertions).1.toFinset,
          (cleanUpFrom moves deletions insertions).2.1.toFinset,
          modifications.toFinset⟩ old new ∧
      Move.AllSound key
        ⟨(cleanUpFrom moves deletions insertions).1.toFinset,
          (cleanUpFrom moves deletions insertions).2.1.toFinset,
          modifications.toFinset⟩ old new
        (stay ++ (cleanUpFrom moves deletions insertions).2.2) := by
  induction moves generalizing stay deletions insertions with
  | nil =>
      exact ⟨hdescribes, hmoves⟩
  | cons m moves ih =>
      rw [cleanUpFrom]
      split
      next hstale =>
        change deletions.unshift m.fromIndex = insertions.unshift m.toIndex at hstale
        rw [IndexSet.unshift_eq, IndexSet.unshift_eq] at hstale
        have hfirst := hmoves.perm List.perm_middle
        have hm := hfirst.sound m List.mem_cons_self
        have hdescribes' := hm.describes_drop hdescribes hstale
        have hmoves' := hfirst.drop
        simp only [Move.drop] at hdescribes' hmoves'
        rw [← IndexSet.toFinset_remove, ← IndexSet.toFinset_remove]
          at hdescribes' hmoves'
        exact ih stay hdescribes' hmoves'
      next hreal =>
        have hsplit : stay ++ m :: moves = (stay ++ [m]) ++ moves := by simp
        rw [hsplit] at hmoves
        obtain ⟨hdescribes', hmoves'⟩ := ih (stay ++ [m]) hdescribes hmoves
        refine ⟨hdescribes', ?_⟩
        simpa using hmoves'

theorem tracks_cleanUpStaleMoves
    {b : CollectionChangeBuilder}
    (h : Tracks key b old new) :
    Tracks key b.cleanUpStaleMoves old new := by
  obtain ⟨hdescribes, hmoves⟩ :=
    cleanUpFrom_sound [] h.describes h.moves
  exact ⟨hdescribes, hmoves⟩

end CollectionChangeBuilder

end CleanUp

section Merge

namespace CollectionChangeBuilder

/-- `for_each_col`: a row that was modified before it moved is modified still. -/
def carryModified (b : CollectionChangeBuilder) (m : Move)
    (c : CollectionChangeBuilder) : CollectionChangeBuilder :=
  { c with
    modifications :=
      if b.modifications.contains m.fromIndex then c.modifications.add m.toIndex
      else c.modifications
    columns := fun col =>
      if (b.columns col).contains m.fromIndex then (c.columns col).add m.toIndex
      else c.columns col }

/-- The update of the old moves, and what it leaves of the new change set. -/
def updateMoves (b : CollectionChangeBuilder) :
    List Move → CollectionChangeBuilder → List Move × CollectionChangeBuilder
  | [], c => ([], c)
  | old :: moves, c =>
      match c.moves.find? (fun m => old.toIndex = m.fromIndex) with
      | some m =>
          -- the moved row was moved again
          let rest := updateMoves b moves
            { carryModified b m c with
              -- `*it = moves.back(); moves.pop_back()`
              moves := swapRemove c.moves
                (c.moves.findIdx (fun m => old.toIndex = m.fromIndex)) }
          ({ old with toIndex := m.toIndex } :: rest.1, rest.2)
      | none =>
          let rest := updateMoves b moves c
          if c.deletions.contains old.toIndex then rest
          else
            ({ old with
                toIndex := c.insertions.shift (c.deletions.unshift old.toIndex) } ::
              rest.1, rest.2)

/-- First, any old moves are updated. -/
def updateOldMoves (b c : CollectionChangeBuilder) :
    List Move × CollectionChangeBuilder :=
  if !c.moves.isEmpty || !c.deletions.isEmpty || !c.insertions.isEmpty then
    updateMoves b b.moves c
  else (b.moves, c)

/-- New moves of rows that were inserted before are ignored. -/
def ignoreMoves (b c : CollectionChangeBuilder) : CollectionChangeBuilder :=
  if !b.insertions.isEmpty && !c.moves.isEmpty then
    { c with moves := c.moves.filter (fun m => !b.insertions.contains m.fromIndex) }
  else c

/-- Rows that were modified before and moved now are still modified. -/
def carryMoves (b c : CollectionChangeBuilder) : CollectionChangeBuilder :=
  if !b.modifications.isEmpty && !c.moves.isEmpty then
    c.moves.foldl (fun c m => carryModified b m c) c
  else c

/-- The sources of the new moves, before the old changes. -/
def shiftMoves (b : CollectionChangeBuilder) (moves : List Move) : List Move :=
  if !b.deletions.isEmpty || !b.insertions.isEmpty then
    moves.map (fun m =>
      { m with fromIndex := b.deletions.shift (b.insertions.unshift m.fromIndex) })
  else moves

/-- `merge(c)`. -/
def merge (b c : CollectionChangeBuilder) : CollectionChangeBuilder :=
  if c.isEmpty then b
  else if b.isEmpty then c
  else
    let updated := updateOldMoves b c
    let c := carryMoves b (ignoreMoves b updated.2)
    let merged :=
      cleanUpStaleMoves
        { b with
          moves := updated.1 ++ shiftMoves b c.moves
          deletions := b.deletions.addShiftedBy b.insertions c.deletions
          insertions := (b.insertions.eraseAtAll c.deletions).insertAtAll c.insertions }
    { merged with
      modifications :=
        ((b.modifications.eraseAtAll c.deletions).shiftForInsertAtAll
          c.insertions).addAll c.modifications
      columns := fun col =>
        (((b.columns col).eraseAtAll c.deletions).shiftForInsertAtAll
          c.insertions).addAll (c.columns col) }

/-- What becomes of an old move. -/
def updateMove (c : CollectionChangeBuilder) (old : Move) : Option Move :=
  match c.moves.find? (fun m => old.toIndex = m.fromIndex) with
  | some m => some { old with toIndex := m.toIndex }
  | none =>
      if c.deletions.contains old.toIndex then none
      else
        some { old with
          toIndex := c.insertions.shift (c.deletions.unshift old.toIndex) }

/-- The move out of an index, when no two moves start at one. -/
theorem find_from
    {moves : List Move} {index : Nat} {m : Move}
    (hnodup : (moves.map Move.fromIndex).Nodup) :
    moves.find? (fun m => index = m.fromIndex) = some m
      ↔
    m ∈ moves ∧ index = m.fromIndex := by
  constructor
  · intro hfind
    exact ⟨List.mem_of_find?_eq_some hfind, by simpa using List.find?_some hfind⟩
  · rintro ⟨hm, hindex⟩
    cases hfind : moves.find? (fun m => index = m.fromIndex) with
    | none =>
        have hnone := List.find?_eq_none.mp hfind m hm
        simp [hindex] at hnone
    | some m' =>
        have hm' := List.mem_of_find?_eq_some hfind
        have hindex' : index = m'.fromIndex := by simpa using List.find?_some hfind
        rw [Move.eq_of_nodup_map hnodup hm' hm (hindex'.symm.trans hindex)]

theorem find_from_perm
    {moves moves' : List Move} {index : Nat}
    (hperm : moves.Perm moves')
    (hnodup : (moves.map Move.fromIndex).Nodup) :
    moves.find? (fun m => index = m.fromIndex) =
      moves'.find? (fun m => index = m.fromIndex) := by
  have hnodup' := (hperm.map Move.fromIndex).nodup hnodup
  apply Option.ext
  intro m
  rw [find_from hnodup, find_from hnodup', hperm.mem_iff]

theorem toFinset_carryModified
    {b c : CollectionChangeBuilder} {m : Move} :
    (carryModified b m c).modifications.toFinset =
      c.modifications.toFinset ∪
        if m.fromIndex ∈ b.modifications.toFinset then {m.toIndex} else ∅ := by
  rw [carryModified]
  split
  next hin =>
    rw [IndexSet.contains_iff] at hin
    rw [if_pos hin, IndexSet.toFinset_add, Finset.union_comm]
    rfl
  next hout =>
    rw [IndexSet.contains_iff] at hout
    rw [if_neg hout, Finset.union_empty]

/-- What `c'` has more than `c`: modifications where one of `moves` ended. -/
structure Carries (b c c' : CollectionChangeBuilder) (moves : List Move) : Prop where
  deletions : c'.deletions = c.deletions
  insertions : c'.insertions = c.insertions
  kept : c.modifications.toFinset ⊆ c'.modifications.toFinset
  added : ∀ i ∈ c'.modifications.toFinset,
    i ∈ c.modifications.toFinset ∨ i ∈ moves.map Move.toIndex
  carried : ∀ m ∈ moves, m.fromIndex ∈ b.modifications.toFinset →
    m.toIndex ∈ c'.modifications.toFinset

theorem Carries.nil
    {b c : CollectionChangeBuilder} :
    Carries b c c [] :=
  ⟨rfl, rfl, subset_rfl, fun _ => Or.inl, by simp⟩

theorem Carries.cons
    {b c c' : CollectionChangeBuilder} {m : Move} {moves rest : List Move}
    (h : Carries b { carryModified b m c with moves := rest } c' moves) :
    Carries b c c' (m :: moves) := by
  have hfirst := toFinset_carryModified (b := b) (c := c) (m := m)
  have hkept := h.kept
  simp only at hkept
  rw [hfirst] at hkept
  refine ⟨h.deletions, h.insertions, fun i hi => hkept (Finset.mem_union_left _ hi),
    ?_, ?_⟩
  · intro i hi
    rcases h.added i hi with hi | hi
    · simp only at hi
      rw [hfirst] at hi
      rcases Finset.mem_union.mp hi with hi | hi
      · exact Or.inl hi
      · right
        split at hi
        · rw [Finset.mem_singleton.mp hi]
          exact List.mem_cons_self
        · simp at hi
    · exact Or.inr (List.mem_cons_of_mem _ hi)
  · intro n hn hmodified
    rcases List.mem_cons.mp hn with rfl | hn
    · apply hkept
      rw [if_pos hmodified]
      exact Finset.mem_union_right _ (Finset.mem_singleton_self _)
    · exact h.carried n hn hmodified

/-- The loop over the new moves. -/
theorem carries_foldl
    {b c : CollectionChangeBuilder} {moves : List Move} :
    Carries b c (moves.foldl (fun c m => carryModified b m c) c) moves := by
  induction moves generalizing c with
  | nil => exact .nil
  | cons m moves ih => exact .cons ih

theorem Carries.congr
    {b c c' : CollectionChangeBuilder} {moves moves' : List Move}
    (h : Carries b c c' moves)
    (hmem : ∀ m, m ∈ moves' ↔ m ∈ moves) :
    Carries b c c' moves' := by
  refine ⟨h.deletions, h.insertions, h.kept, ?_, ?_⟩
  · intro i hi
    simpa only [List.mem_map, hmem] using h.added i hi
  · intro m hm
    exact h.carried m ((hmem m).mp hm)

/-- The update of the old moves `moves` leaves `c'` of `c`. -/
structure Updates (b c : CollectionChangeBuilder) (moves : List Move)
    (updated : List Move × CollectionChangeBuilder) : Prop where
  became : updated.1 = moves.filterMap (updateMove c)
  carries : Carries b c updated.2
    (c.moves.filter (fun m => m.fromIndex ∈ moves.map Move.toIndex))
  rest : updated.2.moves.Perm
    (c.moves.filter (fun m => m.fromIndex ∉ moves.map Move.toIndex))

/-- A move to an index that no new move starts from. -/
theorem Updates.cons_none
    {b c : CollectionChangeBuilder} {old : Move} {moves : List Move}
    {updated : List Move × CollectionChangeBuilder}
    (h : Updates b c moves updated)
    (hnone : c.moves.find? (fun m => old.toIndex = m.fromIndex) = none) :
    Updates b c (old :: moves) ((updateMove c old).toList ++ updated.1, updated.2) := by
  have hne : ∀ m ∈ c.moves, m.fromIndex ≠ old.toIndex := by
    intro m hm heq
    have hnot := List.find?_eq_none.mp hnone m hm
    simp [heq] at hnot
  refine ⟨?_, ?_, ?_⟩
  · simp only
    rw [h.became, List.filterMap_cons]
    cases updateMove c old <;> rfl
  · refine h.carries.congr ?_
    intro m
    simp only [List.mem_filter, List.map_cons, List.mem_cons, decide_eq_true_eq]
    constructor
    · rintro ⟨hm, heq | hin⟩
      · exact absurd heq (hne m hm)
      · exact ⟨hm, hin⟩
    · rintro ⟨hm, hin⟩
      exact ⟨hm, Or.inr hin⟩
  · refine h.rest.trans (List.Perm.of_eq (List.filter_congr ?_))
    intro m hm
    simp [hne m hm]

/-- A move that goes on with the new move `m`. -/
theorem Updates.cons_some
    {b c : CollectionChangeBuilder} {old m : Move} {moves rest : List Move}
    {updated : List Move × CollectionChangeBuilder}
    (hfrom : (c.moves.map Move.fromIndex).Nodup)
    (hto : ((old :: moves).map Move.toIndex).Nodup)
    (hmeet : old.toIndex = m.fromIndex)
    (hperm : c.moves.Perm (m :: rest))
    (h : Updates b { carryModified b m c with moves := rest } moves updated) :
    Updates b c (old :: moves)
      ({ old with toIndex := m.toIndex } :: updated.1, updated.2) := by
  have hfrom' := (hperm.map Move.fromIndex).nodup hfrom
  obtain ⟨hm_notMem, _⟩ := List.nodup_cons.mp hfrom'
  have hne : ∀ n ∈ rest, n.fromIndex ≠ old.toIndex := by
    intro n hn heq
    apply hm_notMem
    rw [← hmeet, ← heq]
    exact List.mem_map_of_mem hn
  have hold : ∀ x ∈ moves, x.toIndex ≠ old.toIndex := by
    intro x hx heq
    apply (List.nodup_cons.mp hto).1
    rw [← heq]
    exact List.mem_map_of_mem hx
  have hfind : c.moves.find? (fun m => old.toIndex = m.fromIndex) = some m :=
    (find_from hfrom).mpr ⟨hperm.mem_iff.mpr List.mem_cons_self, hmeet⟩
  refine ⟨?_, ?_, ?_⟩
  · have hsame : ∀ x ∈ moves,
        updateMove { carryModified b m c with moves := rest } x = updateMove c x := by
      intro x hx
      have hx_ne : x.toIndex ≠ m.fromIndex := hmeet ▸ hold x hx
      rw [updateMove, updateMove, find_from_perm hperm hfrom,
        List.find?_cons_of_neg (by simpa using hx_ne)]
      rfl
    simp only
    rw [h.became, List.filterMap_congr hsame, List.filterMap_cons,
      show updateMove c old = some { old with toIndex := m.toIndex } by
        rw [updateMove, hfind]]
  · refine h.carries.cons.congr ?_
    intro n
    simp only [List.mem_filter, hperm.mem_iff, List.mem_cons, List.map_cons,
      decide_eq_true_eq]
    constructor
    · rintro ⟨rfl | hn, hin⟩
      · exact Or.inl rfl
      · exact Or.inr ⟨hn, hin.resolve_left (hne n hn)⟩
    · rintro (rfl | ⟨hn, hin⟩)
      · exact ⟨Or.inl rfl, Or.inl hmeet.symm⟩
      · exact ⟨Or.inr hn, Or.inr hin⟩
  · refine h.rest.trans ?_
    have hfilter := hperm.filter
      (fun n => n.fromIndex ∉ (old :: moves).map Move.toIndex)
    rw [List.filter_cons_of_neg (by simp [hmeet])] at hfilter
    refine List.Perm.trans (List.Perm.of_eq (List.filter_congr ?_)) hfilter.symm
    intro n hn
    simp [hne n hn]

theorem updateMoves_updates
    {b c : CollectionChangeBuilder} {moves : List Move}
    (hfrom : (c.moves.map Move.fromIndex).Nodup)
    (hto : (moves.map Move.toIndex).Nodup) :
    Updates b c moves (updateMoves b moves c) := by
  induction moves generalizing c with
  | nil =>
      refine ⟨rfl, ?_, ?_⟩
      · simpa [updateMoves] using Carries.nil
      · simp [updateMoves]
  | cons old moves ih =>
      have hto' := (List.nodup_cons.mp hto).2
      rw [updateMoves]
      split
      next m hm =>
        have hmeet := ((find_from hfrom).mp hm).2
        rw [List.find?_eq_getElem?_findIdx] at hm
        have hperm := swapRemove_perm hm
        have hrest := (List.nodup_cons.mp
          ((hperm.map Move.fromIndex).nodup hfrom)).2
        exact Updates.cons_some hfrom hto hmeet hperm (ih hrest hto')
      next hnone =>
        have hcons := (ih hfrom hto').cons_none hnone
        rw [updateMove, hnone] at hcons
        simp only
        split
        next hdeleted => rwa [if_pos hdeleted] at hcons
        next hstays => rwa [if_neg hstays] at hcons

theorem Carries.trans
    {b c c' c'' : CollectionChangeBuilder} {moves moves' : List Move}
    (h : Carries b c c' moves)
    (h' : Carries b c' c'' moves') :
    Carries b c c'' (moves ++ moves') := by
  refine ⟨h'.deletions.trans h.deletions, h'.insertions.trans h.insertions,
    h.kept.trans h'.kept, ?_, ?_⟩
  · intro i hi
    rw [List.map_append, List.mem_append]
    rcases h'.added i hi with hi | hi
    · exact (h.added i hi).imp_right Or.inl
    · exact Or.inr (Or.inr hi)
  · intro m hm hmodified
    rcases List.mem_append.mp hm with hm | hm
    · exact h'.kept (h.carried m hm hmodified)
    · exact h'.carried m hm hmodified

theorem eq_empty_of_isEmpty
    {s : IndexSet}
    (h : s.isEmpty = true) :
    s.toFinset = ∅ :=
  s.isEmpty_iff.mp h

/-- A new change set without moves, deletions and insertions updates nothing. -/
theorem updateOldMoves_eq
    {b c : CollectionChangeBuilder} :
    updateOldMoves b c = updateMoves b b.moves c := by
  rw [updateOldMoves]
  split
  next => rfl
  next hnone =>
    simp only [Bool.or_eq_true, Bool.not_eq_true', not_or, Bool.not_eq_false,
      List.isEmpty_iff] at hnone
    obtain ⟨⟨hmoves, hdeletions⟩, hinsertions⟩ := hnone
    have hdeletions := eq_empty_of_isEmpty hdeletions
    have hinsertions := eq_empty_of_isEmpty hinsertions
    induction b.moves with
    | nil =>
        rfl
    | cons old moves ih =>
        have hcontains : c.deletions.contains old.toIndex = false := by
          rw [← Bool.not_eq_true, IndexSet.contains_iff, hdeletions]
          exact Finset.notMem_empty _
        simp [updateMoves, hmoves, hcontains, ← ih, IndexSet.shift_eq,
          IndexSet.unshift_eq, hdeletions, hinsertions]

theorem ignoreMoves_eq
    {b c : CollectionChangeBuilder} :
    ignoreMoves b c =
      { c with
        moves := c.moves.filter (fun m => m.fromIndex ∉ b.insertions.toFinset) } := by
  have hfilter : c.moves.filter (fun m => !b.insertions.contains m.fromIndex) =
      c.moves.filter (fun m => m.fromIndex ∉ b.insertions.toFinset) := by
    apply List.filter_congr
    intro m _
    rw [Bool.eq_iff_iff, Bool.not_eq_true', ← Bool.not_eq_true,
      IndexSet.contains_iff, decide_eq_true_eq]
  rw [ignoreMoves, hfilter]
  split
  next => rfl
  next hnone =>
    simp only [Bool.and_eq_true, Bool.not_eq_true', not_and, Bool.not_eq_false,
      List.isEmpty_iff] at hnone
    have hall : c.moves.filter (fun m => m.fromIndex ∉ b.insertions.toFinset) =
        c.moves := by
      by_cases hinsertions : b.insertions.isEmpty = true
      · simp [eq_empty_of_isEmpty hinsertions]
      · simp [hnone (by simpa using hinsertions)]
    rw [hall]

theorem foldl_carryModified_moves
    {b c : CollectionChangeBuilder} (moves : List Move) :
    (moves.foldl (fun c m => carryModified b m c) c).moves = c.moves := by
  induction moves generalizing c with
  | nil => rfl
  | cons m moves ih => exact ih

theorem carryMoves_moves
    {b c : CollectionChangeBuilder} :
    (carryMoves b c).moves = c.moves := by
  rw [carryMoves]
  split
  · exact foldl_carryModified_moves c.moves
  · rfl

theorem carries_carryMoves
    {b c : CollectionChangeBuilder} :
    Carries b c (carryMoves b c) c.moves := by
  rw [carryMoves]
  split
  next => exact carries_foldl
  next hnone =>
    simp only [Bool.and_eq_true, Bool.not_eq_true', not_and, Bool.not_eq_false,
      List.isEmpty_iff] at hnone
    refine ⟨rfl, rfl, subset_rfl, fun i hi => Or.inl hi, ?_⟩
    intro m hm hmodified
    have hmodifications : b.modifications.isEmpty = false := by
      rw [← Bool.not_eq_true, IndexSet.isEmpty_iff]
      exact Finset.ne_empty_of_mem hmodified
    rw [hnone hmodifications] at hm
    simp at hm

theorem shiftMoves_eq
    {b : CollectionChangeBuilder} {moves : List Move} :
    shiftMoves b moves =
      moves.map (fun m => ⟨b.change.source m.fromIndex, m.toIndex⟩) := by
  rw [shiftMoves]
  split
  next =>
    apply List.map_congr_left
    intro m _
    simp [Change.source, CollectionChangeSet.change, IndexSet.shift_eq,
      IndexSet.unshift_eq]
  next hnone =>
    simp only [Bool.or_eq_true, Bool.not_eq_true', not_or, Bool.not_eq_false] at hnone
    have hsource : ∀ i, b.change.source i = i := by
      intro i
      simp [Change.source, CollectionChangeSet.change, eq_empty_of_isEmpty hnone.1,
        eq_empty_of_isEmpty hnone.2]
    simp [hsource]

section Tracked

variable {α : Type u}
variable {κ : Type v}
variable {key : α → κ}
variable {old middle new : List α}
variable {b c : CollectionChangeBuilder}

/-- An old move is carried along, or goes on with a new one. -/
theorem updateMove_becomes
    {c' : CollectionChangeBuilder} {m m' : Move}
    (hfrom : (c.moves.map Move.fromIndex).Nodup)
    (hcarries : ∀ n ∈ c.moves, n.fromIndex = m.toIndex →
      n.fromIndex ∈ b.modifications.toFinset → n.toIndex ∈ c'.modifications.toFinset)
    (h : updateMove c m = some m') :
    Move.Becomes b.change
      ⟨c.deletions.toFinset, c.insertions.toFinset, c'.modifications.toFinset⟩
      c.moves m m' := by
  rw [updateMove] at h
  split at h
  next n hn =>
    cases h
    obtain ⟨hn, hmeet⟩ := (find_from hfrom).mp hn
    exact .again n hn hmeet (fun hin => hcarries n hn hmeet.symm (hmeet ▸ hin))
  next =>
    split at h
    · cases h
    next hstays =>
      cases h
      rw [IndexSet.contains_iff] at hstays
      have hcarried : Move.Becomes b.change
          ⟨c.deletions.toFinset, c.insertions.toFinset, c'.modifications.toFinset⟩
          c.moves m
          ⟨m.fromIndex, Move.carry ⟨c.deletions.toFinset, c.insertions.toFinset,
            c'.modifications.toFinset⟩ m.toIndex⟩ := .carried hstays
      simpa only [Move.carry, IndexSet.shift_eq, IndexSet.unshift_eq] using hcarried

/-- What `merge` has made of the new change set before the sets are merged. -/
theorem carries_newMoves
    (hfrom : (c.moves.map Move.fromIndex).Nodup)
    (hto : (b.moves.map Move.toIndex).Nodup) :
    Carries b c (carryMoves b (ignoreMoves b (updateMoves b b.moves c).2))
      (c.moves.filter (fun m => m.fromIndex ∈ b.moves.map Move.toIndex) ++
        (ignoreMoves b (updateMoves b b.moves c).2).moves) := by
  have hupdates := updateMoves_updates (b := b) hfrom hto
  have hcarry := carries_carryMoves (b := b)
    (c := ignoreMoves b (updateMoves b b.moves c).2)
  have hignore : Carries b (updateMoves b b.moves c).2
      (ignoreMoves b (updateMoves b b.moves c).2) [] := by
    rw [ignoreMoves_eq]
    exact ⟨rfl, rfl, subset_rfl, fun _ hi => Or.inl hi, by simp⟩
  exact hupdates.carries.trans (hignore.trans hcarry)

/-- A new move that is left starts at a row that was there from the start. -/
theorem mem_newMoves
    (hfrom : (c.moves.map Move.fromIndex).Nodup)
    (hto : (b.moves.map Move.toIndex).Nodup)
    {m : Move}
    (hm : m ∈ (ignoreMoves b (updateMoves b b.moves c).2).moves) :
    m ∈ c.moves ∧ m.fromIndex ∉ b.insertions.toFinset := by
  have hrest := (updateMoves_updates (b := b) hfrom hto).rest
  rw [ignoreMoves_eq, List.mem_filter, hrest.mem_iff, List.mem_filter] at hm
  exact ⟨hm.1.1, of_decide_eq_true hm.2⟩

theorem newMoves_nodup
    (hfrom : (c.moves.map Move.fromIndex).Nodup)
    (hto : (b.moves.map Move.toIndex).Nodup) :
    (ignoreMoves b (updateMoves b b.moves c).2).moves.Nodup := by
  have hrest := (updateMoves_updates (b := b) hfrom hto).rest
  have hnodup : c.moves.Nodup := hfrom.of_map _
  rw [ignoreMoves_eq]
  exact (hrest.symm.nodup (hnodup.filter _)).filter _

/--
**The merge of two change sets, one from `old` to `middle` and one from `middle`
to `new`, is a change set from `old` to `new`.**
-/
theorem tracks_merge
    (hb : Tracks key b old middle)
    (hc : Tracks key c middle new) :
    Tracks key (merge b c) old new := by
  rw [merge]
  split
  next hempty =>
    rwa [← hc.eq_of_isEmpty hempty]
  next =>
  split
  next hempty =>
    rwa [hb.eq_of_isEmpty hempty]
  next =>
  have hfrom := hc.moves.from_nodup
  have hto := hb.moves.to_nodup
  have hupdates := updateMoves_updates (b := b) hfrom hto
  have hcarries := carries_newMoves (b := b) hfrom hto
  have hnew := fun m => mem_newMoves (b := b) (m := m) hfrom hto
  have hnew_nodup := newMoves_nodup (b := b) hfrom hto
  have hbecame := hupdates.became
  rw [updateOldMoves_eq]
  dsimp only
  rw [carryMoves_moves, shiftMoves_eq, hbecame]
  generalize (ignoreMoves b (updateMoves b b.moves c).2) = c₁ at *
  generalize carryMoves b c₁ = c' at *
  generalize c₁.moves = newMoves at *
  have hM : ∀ i ∈ c'.modifications.toFinset, i < new.length := by
    intro i hi
    rcases hcarries.added i hi with hi | hi
    · exact hc.describes.modifications_lt i hi
    · obtain ⟨m, hm, rfl⟩ := List.mem_map.mp hi
      have hmem : m ∈ c.moves := by
        rcases List.mem_append.mp hm with hm | hm
        · exact List.mem_of_mem_filter hm
        · exact (hnew m hm).1
      exact hc.describes.insertions_lt _ (hc.moves.sound m hmem).to_mem
  have hd := hc.describes.modified (M := c'.modifications.toFinset) hcarries.kept hM
  have hnext := hc.moves.modified hcarries.kept
  have hmoves := Move.AllSound.compose newMoves (updateMove c)
    hb.describes hd hb.moves hnext
    (by
      intro m hm m' hm'
      refine updateMove_becomes hfrom ?_ hm'
      intro n hn hmeet
      refine hcarries.carried n (List.mem_append_left _ ?_)
      rw [List.mem_filter, decide_eq_true_eq, hmeet]
      exact ⟨hn, List.mem_map_of_mem hm⟩)
    (by
      intro n hn
      obtain ⟨hmem, hthere⟩ := hnew n hn
      exact ⟨hmem, hthere, hcarries.carried n (List.mem_append_right _ hn)⟩)
    hnew_nodup
  have hchange : b.change.compose
      ⟨c.change.deletions, c.change.insertions, c'.modifications.toFinset⟩ =
      ⟨(b.deletions.addShiftedBy b.insertions c'.deletions).toFinset,
        ((b.insertions.eraseAtAll c'.deletions).insertAtAll c'.insertions).toFinset,
        (((b.modifications.eraseAtAll c'.deletions).shiftForInsertAtAll
          c'.insertions).addAll c'.modifications).toFinset⟩ := by
    simp [Change.compose, CollectionChangeSet.change, Change.moved,
      hcarries.deletions, hcarries.insertions]
  obtain ⟨hdescribes', hmoves'⟩ := cleanUpFrom_sound []
    (hchange ▸ hb.describes.compose hd) (hchange ▸ hmoves)
  exact ⟨hdescribes', hmoves'⟩

end Tracked

section NoMoves

variable {b c : CollectionChangeBuilder}

theorem updateOldMoves_of_no_moves
    (c : CollectionChangeBuilder)
    (hb : b.moves = []) :
    updateOldMoves b c = ([], c) := by
  rw [updateOldMoves, hb]
  exact ite_self _

theorem carryMoves_of_no_moves
    (b : CollectionChangeBuilder)
    (hc : c.moves = []) :
    carryMoves b (ignoreMoves b c) = c := by
  simp [carryMoves, ignoreMoves, hc]

/-- Change sets without moves are merged to one without moves. -/
theorem moves_merge_of_no_moves
    (hb : b.moves = [])
    (hc : c.moves = []) :
    (merge b c).moves = [] := by
  have hshift : shiftMoves b [] = [] := ite_self _
  rw [merge]
  split
  · exact hb
  split
  · exact hc
  · dsimp only
    rw [updateOldMoves_of_no_moves c hb, carryMoves_of_no_moves b hc, hc, hshift]
    rfl

end NoMoves

end CollectionChangeBuilder

end Merge

section Finalize

variable {α : Type u}
variable {κ : Type v}
variable {key : α → κ}
variable {old new : List α}

/-- The indices of a change set as lists. -/
def CollectionChangeSet.asDiff (c : CollectionChangeSet) : ListDiff where
  deletions := asIndexes c.deletions.ranges
  insertions := asIndexes c.insertions.ranges
  modifications := asIndexes c.modifications.ranges

/-- The change of a list that is given its new modifications. -/
def CollectionChangeSet.newChange (c : CollectionChangeSet) : Change :=
  ⟨c.deletions.toFinset, c.insertions.toFinset, c.modificationsNew.toFinset⟩

/-- The finalized change set tells how `old` became `new`. -/
structure CollectionChangeSet.Tells
    (key : α → κ) (c : CollectionChangeSet) (old new : List α) : Prop where
  /-- The indices that are handed on, modifications as old ones. -/
  diff : c.asDiff.Describes (old.map key) (new.map key)
  /-- A row that is neither inserted nor modified is the row it was. -/
  change : c.newChange.Describes key old new
  modifications : c.modifications.toFinset = c.newChange.oldModifications

/-- A change set is empty only when nothing happened. -/
theorem CollectionChangeSet.Tells.eq_of_isEmpty
    {c : CollectionChangeSet}
    (h : c.Tells key old new)
    (hempty : c.isEmpty = true) :
    old = new := by
  simp only [CollectionChangeSet.isEmpty, Bool.and_eq_true, IndexSet.isEmpty_iff]
    at hempty
  obtain ⟨⟨⟨⟨hdeletions, hinsertions⟩, _⟩, hmodifications⟩, _⟩ := hempty
  exact h.change.eq_of_empty hdeletions hinsertions hmodifications

theorem tells_of_isEmpty
    {c : CollectionChangeSet}
    (hempty : c.isEmpty = true) (l : List α) :
    c.Tells key l l := by
  simp only [CollectionChangeSet.isEmpty, Bool.and_eq_true, IndexSet.isEmpty_iff]
    at hempty
  obtain ⟨⟨⟨⟨hdeletions, hinsertions⟩, hmodifications⟩, hmodificationsNew⟩, _⟩ := hempty
  have hchange : c.newChange = Change.unchanged := by
    rw [CollectionChangeSet.newChange, hdeletions, hinsertions, hmodificationsNew]
    rfl
  have hold : c.modifications.toFinset = Change.unchanged.oldModifications := by
    rw [hmodifications]
    simp [Change.oldModifications, Change.moved, Change.unchanged]
  exact ⟨(Change.Describes.refl l).listDiff
      ⟨c.deletions.ordered.asIndexes_nodup, hdeletions⟩
      ⟨c.insertions.ordered.asIndexes_nodup, hinsertions⟩ hold,
    hchange ▸ Change.Describes.refl l, hchange ▸ hold⟩

theorem tracks_of_isEmpty
    {b : CollectionChangeSet}
    (hempty : b.isEmpty = true) (l : List α) :
    Tracks key b l l := by
  simp only [CollectionChangeSet.isEmpty, Bool.and_eq_true, IndexSet.isEmpty_iff,
    List.isEmpty_iff] at hempty
  obtain ⟨⟨⟨⟨hdeletions, hinsertions⟩, hmodifications⟩, _⟩, hmoves⟩ := hempty
  have hchange : b.change = Change.unchanged := by
    rw [CollectionChangeSet.change, hdeletions, hinsertions, hmodifications]
    rfl
  refine ⟨hchange ▸ Change.Describes.refl l, ?_⟩
  rw [hmoves]
  exact Move.AllSound.nil

namespace CollectionChangeBuilder

variable {b : CollectionChangeBuilder}

theorem toFinset_finalize_modifications :
    b.finalize.modifications.toFinset = b.change.oldModifications := by
  simp [finalize, Change.oldModifications, Change.moved, CollectionChangeSet.change]

theorem toFinset_finalize_modificationsNew :
    b.finalize.modificationsNew.toFinset =
      b.modifications.toFinset \ b.insertions.toFinset := by
  simp [finalize]

/-- Inserted rows are not called modified any more. -/
theorem moved_sdiff (S U T : Finset Nat) :
    Change.moved S U (T \ S) = Change.moved S U T := by
  rw [Change.moved, Change.moved, Finset.sdiff_idem]

theorem tells_finalize
    (h : Tracks key b old new) :
    b.finalize.Tells key old new where
  diff :=
    h.describes.listDiff
      ⟨b.deletions.ordered.asIndexes_nodup, rfl⟩
      ⟨b.insertions.ordered.asIndexes_nodup, rfl⟩
      toFinset_finalize_modifications
  change := by
    refine ⟨h.describes.deletions_lt, h.describes.insertions_lt, ?_, h.describes.kept, ?_⟩
    · intro i hi
      change i ∈ b.finalize.modificationsNew.toFinset at hi
      rw [toFinset_finalize_modificationsNew] at hi
      exact h.describes.modifications_lt i (Finset.mem_sdiff.mp hi).1
    · intro n hn hmodification
      change n ∉ b.finalize.modificationsNew.toFinset at hmodification
      rw [toFinset_finalize_modificationsNew] at hmodification
      exact h.describes.unmodified n hn
        (fun hin => hmodification (Finset.mem_sdiff.mpr ⟨hin, hn⟩))
  modifications := by
    rw [toFinset_finalize_modifications, Change.oldModifications, Change.oldModifications]
    change _ = Change.moved b.insertions.toFinset b.deletions.toFinset
      b.finalize.modificationsNew.toFinset
    rw [toFinset_finalize_modificationsNew, moved_sdiff]
    rfl

end CollectionChangeBuilder

end Finalize

section Versions

variable {α : Type u}
variable {κ : Type v}
variable {key : α → κ}

/-- One change set for each version, from the version before it. -/
inductive TracksEach (key : α → κ) :
    List CollectionChangeBuilder → List α → List α → Prop
  | nil (l : List α) : TracksEach key [] l l
  | cons
      {b : CollectionChangeBuilder} {bs : List CollectionChangeBuilder}
      {old middle new : List α}
      (first : Tracks key b old middle)
      (rest : TracksEach key bs middle new) :
      TracksEach key (b :: bs) old new

end Versions

end ObjectStore
end NotVK
