import NotVK.Library.IndexShift

/-!
# How one list became another, as three sets of indices

A change has the indices that were deleted from the old list, the indices of
the new list that were inserted, and the indices of the new list whose elements
were modified.  Elements are the same when they have the same key; an element
that is neither inserted nor modified has not changed at all.

Changes compose: two changes one after the other are one change, with the
second one's deletions read in the list the first one started from, and the
first one's insertions read in the list the second one ends with.
-/

namespace NotVK
namespace Indices

open Diffs

universe u v

section IndexedChange

variable {α : Type u}
variable {κ : Type v}

structure Change where
  deletions : Finset Nat
  insertions : Finset Nat
  modifications : Finset Nat
deriving DecidableEq

namespace Change

/-- Nothing changes. -/
def unchanged : Change :=
  ⟨∅, ∅, ∅⟩

/-- Where the element at a new index was, when it is not an inserted one. -/
noncomputable def source (c : Change) (n : Nat) : Nat :=
  shift c.deletions (unshift c.insertions n)

/-- The change tells how `old` became `new`. -/
structure Describes
    (key : α → κ) (c : Change) (old new : List α) : Prop where
  deletions_lt : ∀ i ∈ c.deletions, i < old.length
  insertions_lt : ∀ i ∈ c.insertions, i < new.length
  modifications_lt : ∀ i ∈ c.modifications, i < new.length
  kept : kept c.deletions (old.map key) = kept c.insertions (new.map key)
  unmodified : ∀ n, n ∉ c.insertions → n ∉ c.modifications →
    new[n]? = old[c.source n]?

/-- The indices of `T` that stay when `S` is taken out and `U` put in. -/
noncomputable def moved (S U T : Finset Nat) : Finset Nat :=
  ((T \ S).image (unshift S)).image (shift U)

theorem mem_moved
    {S U T : Finset Nat} {n : Nat} :
    n ∈ moved S U T
      ↔
    n ∉ U ∧ shift S (unshift U n) ∈ T := by
  rw [moved, mem_image_shift, mem_image_unshift]

/-- First `c`, then `d`. -/
noncomputable def compose (c d : Change) : Change where
  deletions := c.deletions ∪ moved c.insertions c.deletions d.deletions
  insertions := d.insertions ∪ moved d.deletions d.insertions c.insertions
  modifications := moved d.deletions d.insertions c.modifications ∪ d.modifications

/-- The modified elements, where they were in the old list. -/
noncomputable def oldModifications (c : Change) : Finset Nat :=
  moved c.insertions c.deletions c.modifications

theorem source_notMem (c : Change) (n : Nat) :
    c.source n ∉ c.deletions :=
  shift_notMem c.deletions _

@[simp] theorem source_unchanged (n : Nat) :
    unchanged.source n = n := by
  simp [source, unchanged]

section Compose

variable {c d : Change}

theorem notMem_compose_insertions
    {n : Nat} :
    n ∉ (c.compose d).insertions
      ↔
    n ∉ d.insertions ∧ d.source n ∉ c.insertions := by
  rw [compose, Finset.mem_union, mem_moved, source]
  tauto

theorem mem_compose_modifications
    {n : Nat} :
    n ∈ (c.compose d).modifications
      ↔
    (n ∉ d.insertions ∧ d.source n ∈ c.modifications) ∨
      n ∈ d.modifications := by
  rw [compose, Finset.mem_union, mem_moved, source]

/-- What both sets leave of an index does not depend on which is taken first. -/
theorem unshift_comm (S T : Finset Nat) (m : Nat) :
    unshift ((T \ S).image (unshift S)) (unshift S m) =
      unshift ((S \ T).image (unshift T)) (unshift T m) := by
  rw [← unshift_union, ← unshift_union, union_image_unshift,
    union_image_unshift, Finset.union_comm]

/-- The source of a composite is the source of the source. -/
theorem source_compose
    {n : Nat}
    (hn : n ∉ (c.compose d).insertions) :
    (c.compose d).source n = c.source (d.source n) := by
  obtain ⟨_, hsource⟩ := notMem_compose_insertions.mp hn
  have hmiddle := unshift_comm c.insertions d.deletions (d.source n)
  rw [source, unshift_shift, ← source] at hmiddle
  have hnotMem : unshift c.insertions (d.source n) ∉
      (d.deletions \ c.insertions).image (unshift c.insertions) := by
    rw [mem_image_unshift, shift_unshift hsource]
    exact source_notMem d n
  rw [source, compose, moved, moved, shift_union, unshift_union, ← hmiddle,
    shift_unshift hnotMem]
  rfl

end Compose

namespace Describes

variable {key : α → κ}
variable {c d : Change}
variable {old middle new : List α}

theorem refl (l : List α) :
    unchanged.Describes key l l where
  deletions_lt := by simp [unchanged]
  insertions_lt := by simp [unchanged]
  modifications_lt := by simp [unchanged]
  kept := rfl
  unmodified := by simp

theorem unshift_length
    (h : c.Describes key old new) :
    unshift c.deletions old.length = unshift c.insertions new.length := by
  have hlength := congrArg List.length h.kept
  rwa [length_kept, length_kept, List.length_map, List.length_map] at hlength

theorem length_eq
    (h : c.Describes key old new) :
    new.length + c.deletions.card = old.length + c.insertions.card := by
  have hold := unshift_of_forall_lt h.deletions_lt
  have hnew := unshift_of_forall_lt h.insertions_lt
  have hlength := h.unshift_length
  omega

/-- An element that was not inserted has the key of its source. -/
theorem key_source
    (h : c.Describes key old new)
    {n : Nat}
    (hn : n ∉ c.insertions) :
    new[n]?.map key = old[c.source n]?.map key := by
  have hat := congrArg (fun l => l[unshift c.insertions n]?) h.kept
  simp only [kept_getElem?, List.getElem?_map, shift_unshift hn] at hat
  exact hat.symm

/-- Indices that a change carries from the old list to the new one stay inside. -/
theorem moved_lt
    (h : c.Describes key old new)
    {T : Finset Nat}
    (hT : ∀ i ∈ T, i < old.length)
    {n : Nat}
    (hn : n ∈ moved c.deletions c.insertions T) :
    n < new.length := by
  obtain ⟨hnotMem, hsource⟩ := mem_moved.mp hn
  have hlt := hT _ hsource
  rw [shift_lt_iff, h.unshift_length] at hlt
  by_contra hge
  have hmono := unshift_mono c.insertions (not_lt.mp hge)
  omega

/-- The same in the other direction. -/
theorem moved_lt_old
    (h : c.Describes key old new)
    {T : Finset Nat}
    (hT : ∀ i ∈ T, i < new.length)
    {n : Nat}
    (hn : n ∈ moved c.insertions c.deletions T) :
    n < old.length := by
  obtain ⟨hnotMem, hsource⟩ := mem_moved.mp hn
  have hlt := hT _ hsource
  rw [shift_lt_iff, ← h.unshift_length] at hlt
  by_contra hge
  have hmono := unshift_mono c.deletions (not_lt.mp hge)
  omega

/-- **Two changes one after the other are one change.** -/
theorem compose
    (hc : c.Describes key old middle)
    (hd : d.Describes key middle new) :
    (c.compose d).Describes key old new where
  deletions_lt := by
    intro i hi
    rcases Finset.mem_union.mp hi with hi | hi
    · exact hc.deletions_lt i hi
    · exact hc.moved_lt_old hd.deletions_lt hi
  insertions_lt := by
    intro i hi
    rcases Finset.mem_union.mp hi with hi | hi
    · exact hd.insertions_lt i hi
    · exact hd.moved_lt hc.insertions_lt hi
  modifications_lt := by
    intro i hi
    rcases Finset.mem_union.mp hi with hi | hi
    · exact hd.moved_lt hc.modifications_lt hi
    · exact hd.modifications_lt i hi
  kept := by
    calc
      Indices.kept (c.compose d).deletions (old.map key)
          = Indices.kept ((d.deletions \ c.insertions).image (unshift c.insertions))
              (Indices.kept c.deletions (old.map key)) := by
            rw [kept_kept]
            rfl
      _ = Indices.kept (c.insertions ∪ d.deletions) (middle.map key) := by
            rw [hc.kept, kept_union]
      _ = Indices.kept ((c.insertions \ d.deletions).image (unshift d.deletions))
              (Indices.kept d.deletions (middle.map key)) := by
            rw [Finset.union_comm, kept_union]
      _ = Indices.kept (c.compose d).insertions (new.map key) := by
            rw [hd.kept, kept_kept]
            rfl
  unmodified := by
    intro n hinsertion hmodification
    obtain ⟨hd_insertion, hc_insertion⟩ := notMem_compose_insertions.mp hinsertion
    rw [mem_compose_modifications] at hmodification
    rw [source_compose hinsertion,
      hd.unmodified n hd_insertion (fun h => hmodification (Or.inr h))]
    exact hc.unmodified _ hc_insertion
      (fun h => hmodification (Or.inl ⟨hd_insertion, h⟩))

/-- The difference with the modified elements given by their old indices. -/
theorem listDiff
    (h : c.Describes key old new)
    {deletions insertions modifications : List Nat}
    (hdeletions : deletions.Nodup ∧ deletions.toFinset = c.deletions)
    (hinsertions : insertions.Nodup ∧ insertions.toFinset = c.insertions)
    (hmodifications : modifications.toFinset = c.oldModifications) :
    (ListDiff.mk deletions insertions modifications).Describes
      (old.map key) (new.map key) where
  deletions_nodup := hdeletions.1
  deletions_lt := by
    intro i hi
    rw [List.length_map]
    apply h.deletions_lt
    rw [← hdeletions.2]
    exact List.mem_toFinset.mpr hi
  insertions_nodup := hinsertions.1
  insertions_lt := by
    intro i hi
    rw [List.length_map]
    apply h.insertions_lt
    rw [← hinsertions.2]
    exact List.mem_toFinset.mpr hi
  kept := by
    rw [removeAt_eq_kept, removeAt_eq_kept, hdeletions.2, hinsertions.2]
    exact h.kept
  modifications_kept := by
    intro i hi
    have hmem : i ∈ c.oldModifications := by
      rw [← hmodifications]
      exact List.mem_toFinset.mpr hi
    rw [List.length_map]
    refine ⟨h.moved_lt_old h.modifications_lt hmem, fun hdeletion => ?_⟩
    apply (mem_moved.mp hmem).1
    rw [← hdeletions.2]
    exact List.mem_toFinset.mpr hdeletion

/-- What is left has the same keys, and is the same where it was not modified. -/
theorem of_keys
    (hdeletions : ∀ i ∈ c.deletions, i < old.length)
    (hinsertions : ∀ i ∈ c.insertions, i < new.length)
    (hmodifications : ∀ i ∈ c.modifications, i < new.length)
    (hkept : Indices.kept c.deletions (old.map key) =
      Indices.kept c.insertions (new.map key))
    (hsame : ∀ n x y, n ∉ c.insertions → n ∉ c.modifications → new[n]? = some x →
      old[c.source n]? = some y → key x = key y → x = y) :
    c.Describes key old new where
  deletions_lt := hdeletions
  insertions_lt := hinsertions
  modifications_lt := hmodifications
  kept := hkept
  unmodified := by
    intro n hn hmodification
    have hat := congrArg (fun l => l[unshift c.insertions n]?) hkept
    simp only [kept_getElem?, shift_unshift hn, List.getElem?_map] at hat
    change old[c.source n]?.map key = new[n]?.map key at hat
    cases hnew : new[n]? with
    | none =>
        rw [hnew] at hat
        exact (Option.map_eq_none_iff.mp hat).symm
    | some x =>
        rw [hnew] at hat
        obtain ⟨y, hy, hkey⟩ := Option.map_eq_some_iff.mp hat
        rw [hy, hsame n x y hn hmodification hnew hy hkey.symm]

/-- What is left is the same on both sides. -/
theorem of_kept
    (hdeletions : ∀ i ∈ c.deletions, i < old.length)
    (hinsertions : ∀ i ∈ c.insertions, i < new.length)
    (hmodifications : ∀ i ∈ c.modifications, i < new.length)
    (hkept : Indices.kept c.deletions old = Indices.kept c.insertions new) :
    c.Describes key old new where
  deletions_lt := hdeletions
  insertions_lt := hinsertions
  modifications_lt := hmodifications
  kept := by rw [kept_map, kept_map, hkept]
  unmodified := by
    intro n hn _
    have hat := congrArg (fun l => l[unshift c.insertions n]?) hkept
    simp only [kept_getElem?, shift_unshift hn] at hat
    exact hat.symm

/-- More may be called modified. -/
theorem modified
    (h : c.Describes key old new)
    {M : Finset Nat}
    (hsubset : c.modifications ⊆ M)
    (hM : ∀ i ∈ M, i < new.length) :
    (Change.mk c.deletions c.insertions M).Describes key old new :=
  ⟨h.deletions_lt, h.insertions_lt, hM, h.kept,
    fun n hn hmodification => h.unmodified n hn (fun hin => hmodification (hsubset hin))⟩

/-- A change that says nothing. -/
theorem eq_of_empty
    (h : c.Describes key old new)
    (hdeletions : c.deletions = ∅)
    (hinsertions : c.insertions = ∅)
    (hmodifications : c.modifications = ∅) :
    old = new := by
  apply List.ext_getElem?
  intro n
  have hn := h.unmodified n (by simp [hinsertions]) (by simp [hmodifications])
  rw [hn, source, hdeletions, hinsertions, shift_empty, unshift_empty]

/-- Elements that are put in. -/
theorem insert
    (l items : List α) {index : Nat}
    (hindex : index ≤ l.length) :
    (Change.mk ∅ (Finset.Ico index (index + items.length)) ∅).Describes key l
      (l.take index ++ items ++ l.drop index) := by
  have hlength : (l.take index).length = index := List.length_take_of_le hindex
  refine of_kept (by simp) ?_ (by simp) ?_
  · intro i hi
    rw [Finset.mem_Ico] at hi
    simp only [List.length_append, List.length_drop, hlength]
    omega
  · rw [kept_empty]
    apply List.ext_getElem?
    intro i
    rw [kept_getElem?, shift_Ico, List.append_assoc]
    split
    next hlt =>
      rw [List.getElem?_append_left (by omega), List.getElem?_take_of_lt hlt]
    next hge =>
      rw [List.getElem?_append_right (by omega),
        List.getElem?_append_right (by omega), List.getElem?_drop, hlength]
      congr 1
      omega

theorem kept_singleton (l : List α) (index : Nat) :
    Indices.kept {index} l = l.eraseIdx index := by
  apply List.ext_getElem?
  intro i
  rw [kept_getElem?, shift_singleton, List.getElem?_eraseIdx]
  split <;> rfl

/-- An element that is taken out. -/
theorem erase
    (l : List α) {index : Nat}
    (hindex : index < l.length) :
    (Change.mk {index} ∅ ∅).Describes key l (l.eraseIdx index) :=
  of_kept (by simpa using hindex) (by simp) (by simp)
    (by rw [kept_empty, kept_singleton])

/-- An element that is taken out and put in again. -/
theorem move
    (l : List α) {index target : Nat} {a : α} {modifications : Finset Nat}
    (hindex : index < l.length)
    (htarget : target < l.length)
    (hmodifications : modifications ⊆ {target}) :
    (Change.mk {index} {target} modifications).Describes key l
      ((l.eraseIdx index).insertIdx target a) := by
  have herase := List.length_eraseIdx_of_lt hindex
  have hlength : ((l.eraseIdx index).insertIdx target a).length = l.length := by
    rw [List.length_insertIdx, if_pos (by omega)]
    omega
  refine of_kept (by simpa using hindex) ?_ ?_ ?_
  · simpa [hlength] using htarget
  · intro i hi
    rw [Finset.mem_singleton.mp (hmodifications hi), hlength]
    exact htarget
  · rw [kept_singleton, kept_singleton, List.eraseIdx_insertIdx_self]

/-- An element that is replaced by one with its key. -/
theorem modify
    (l : List α) {index : Nat} {a : α}
    (hindex : index < l.length)
    (hkey : key a = key l[index]) :
    (Change.mk ∅ ∅ {index}).Describes key l (l.set index a) where
  deletions_lt := by simp
  insertions_lt := by simp
  modifications_lt := by simpa using hindex
  kept := by
    rw [kept_empty, kept_empty, List.map_set, hkey]
    exact (List.set_getElem_self (by simpa using hindex)).symm.trans
      (by rw [List.getElem_map])
  unmodified := by
    intro n _ hn
    have hne : index ≠ n := by
      rintro rfl
      simp at hn
    simp [source, hne]

/-- All elements are taken out. -/
theorem clear (l : List α) :
    (Change.mk (Finset.range l.length) ∅ ∅).Describes key l [] := by
  refine of_kept (by simp) (by simp) (by simp) ?_
  rw [kept_nil]
  apply List.eq_nil_of_length_eq_zero
  have hunshift := unshift_of_forall_lt (S := Finset.range l.length)
    (n := l.length) (by simp)
  rw [Finset.card_range] at hunshift
  rw [length_kept]
  change unshift (Finset.range l.length) l.length = 0
  omega

end Describes

end Change

/-- An element that went from an old index to a new one. -/
structure Move where
  fromIndex : Nat
  toIndex : Nat
deriving DecidableEq

namespace Move

variable {key : α → κ}
variable {c d : Change}
variable {old middle new : List α}

/-- The move is reported as a deletion and an insertion, of one element. -/
structure Sound
    (key : α → κ) (c : Change) (old new : List α) (m : Move) : Prop where
  from_mem : m.fromIndex ∈ c.deletions
  to_mem : m.toIndex ∈ c.insertions
  same_key : new[m.toIndex]?.map key = old[m.fromIndex]?.map key
  same : m.toIndex ∉ c.modifications → new[m.toIndex]? = old[m.fromIndex]?

/-- Where a change carries an element that it does not delete. -/
noncomputable def carry (d : Change) (index : Nat) : Nat :=
  shift d.insertions (unshift d.deletions index)

theorem source_carry
    {index : Nat}
    (hindex : index ∉ d.deletions) :
    d.source (carry d index) = index := by
  rw [Change.source, carry, unshift_shift, shift_unshift hindex]

/-- A move whose element stays where it is. -/
theorem Sound.carried
    {m : Move}
    (hd : d.Describes key middle new)
    (hm : m.Sound key c old middle)
    (hstays : m.toIndex ∉ d.deletions) :
    Sound key (c.compose d) old new ⟨m.fromIndex, carry d m.toIndex⟩ := by
  have hsource := source_carry (d := d) hstays
  have hnotMem : carry d m.toIndex ∉ d.insertions := shift_notMem _ _
  refine ⟨Finset.mem_union_left _ hm.from_mem, ?_, ?_, ?_⟩
  · apply Finset.mem_union_right
    rw [Change.mem_moved, ← Change.source, hsource]
    exact ⟨hnotMem, hm.to_mem⟩
  · rw [hd.key_source hnotMem, hsource]
    exact hm.same_key
  · intro hmodification
    rw [Change.mem_compose_modifications, not_or, hsource] at hmodification
    rw [hd.unmodified _ hnotMem hmodification.2, hsource]
    exact hm.same (fun h => hmodification.1 ⟨hnotMem, h⟩)

/-- A move whose element moves again. -/
theorem Sound.again
    {m m' : Move}
    (hm : m.Sound key c old middle)
    (hm' : m'.Sound key d middle new)
    (hmeet : m.toIndex = m'.fromIndex)
    (hmodified : m.toIndex ∈ c.modifications → m'.toIndex ∈ d.modifications) :
    Sound key (c.compose d) old new ⟨m.fromIndex, m'.toIndex⟩ := by
  refine ⟨Finset.mem_union_left _ hm.from_mem,
    Finset.mem_union_left _ hm'.to_mem, ?_, ?_⟩
  · simp only
    rw [hm'.same_key, ← hmeet, hm.same_key]
  · intro hmodification
    rw [Change.mem_compose_modifications, not_or] at hmodification
    rw [hm'.same hmodification.2, ← hmeet]
    exact hm.same (fun h => hmodification.2 (hmodified h))

/-- The move of an element that was there from the start. -/
theorem Sound.later
    {m : Move}
    (hc : c.Describes key old middle)
    (hm : m.Sound key d middle new)
    (hthere : m.fromIndex ∉ c.insertions)
    (hmodified : m.fromIndex ∈ c.modifications → m.toIndex ∈ d.modifications) :
    Sound key (c.compose d) old new ⟨c.source m.fromIndex, m.toIndex⟩ := by
  refine ⟨?_, Finset.mem_union_left _ hm.to_mem, ?_, ?_⟩
  · apply Finset.mem_union_right
    rw [Change.mem_moved, Change.source, unshift_shift, shift_unshift hthere]
    exact ⟨shift_notMem _ _, hm.from_mem⟩
  · simp only
    rw [hm.same_key, hc.key_source hthere]
  · intro hmodification
    rw [Change.mem_compose_modifications, not_or] at hmodification
    rw [hm.same hmodification.2]
    exact hc.unmodified _ hthere (fun h => hmodification.2 (hmodified h))

/-- The change without the deletion and the insertion of a move. -/
def drop (m : Move) (c : Change) : Change :=
  ⟨c.deletions.erase m.fromIndex, c.insertions.erase m.toIndex, c.modifications⟩

/-- A member is what one of the indices that stay becomes. -/
theorem erase_union_image
    {S : Finset Nat} {i : Nat}
    (hi : i ∈ S) :
    S = S.erase i ∪ ({unshift (S.erase i) i} : Finset Nat).image (shift (S.erase i)) := by
  rw [Finset.image_singleton, shift_unshift (Finset.notMem_erase i S),
    Finset.union_comm, ← Finset.insert_eq, Finset.insert_erase hi]

theorem unshift_erase (S : Finset Nat) (i : Nat) :
    unshift (S.erase i) i = unshift S i := by
  have hsplit := unshift_add_card S i
  have hsplit' := unshift_add_card (S.erase i) i
  have hfilter : (S.erase i).filter (fun k => k < i) = S.filter (fun k => k < i) := by
    rw [Finset.filter_erase, Finset.erase_eq_of_notMem]
    simp
  rw [hfilter] at hsplit'
  omega

/-- Lists that differ at most at one index, and agree there. -/
theorem eq_of_eraseIdx_eq
    {l l' : List α} {i : Nat}
    (herase : l.eraseIdx i = l'.eraseIdx i)
    (hat : l[i]? = l'[i]?) :
    l = l' := by
  apply List.ext_getElem?
  intro j
  rcases Nat.lt_trichotomy j i with hlt | rfl | hgt
  · have hj := congrArg (fun l => l[j]?) herase
    simpa only [List.getElem?_eraseIdx_of_lt hlt] using hj
  · exact hat
  · obtain ⟨k, rfl⟩ : ∃ k, j = k + 1 := ⟨j - 1, by omega⟩
    have hk := congrArg (fun l => l[k]?) herase
    simpa only [List.getElem?_eraseIdx_of_ge (Nat.le_of_lt_succ hgt)] using hk

/-- **A move that goes nowhere may be left out.** -/
theorem Sound.describes_drop
    {m : Move}
    (hm : m.Sound key c old new)
    (hc : c.Describes key old new)
    (hstale : unshift c.deletions m.fromIndex = unshift c.insertions m.toIndex) :
    (m.drop c).Describes key old new := by
  obtain ⟨f, t⟩ := m
  have hplace : unshift (c.deletions.erase f) f = unshift (c.insertions.erase t) t := by
    rw [unshift_erase, unshift_erase]
    exact hstale
  have hold := erase_union_image hm.from_mem
  have hnew := erase_union_image hm.to_mem
  simp only at hold hnew
  refine ⟨fun i hi => hc.deletions_lt i (Finset.mem_of_mem_erase hi),
    fun i hi => hc.insertions_lt i (Finset.mem_of_mem_erase hi),
    hc.modifications_lt, ?_, ?_⟩
  · have hkept := hc.kept
    rw [hold, hnew, ← kept_kept, ← kept_kept, Change.Describes.kept_singleton,
      Change.Describes.kept_singleton, ← hplace] at hkept
    apply eq_of_eraseIdx_eq hkept
    rw [kept_getElem?, kept_getElem?, shift_unshift (Finset.notMem_erase f _),
      hplace, shift_unshift (Finset.notMem_erase t _), List.getElem?_map,
      List.getElem?_map]
    exact hm.same_key.symm
  · intro n hn hmodification
    have hn : n ∉ c.insertions.erase t := hn
    by_cases hnt : n = t
    · subst hnt
      have hsource : (Move.drop ⟨f, n⟩ c).source n = f := by
        change shift (c.deletions.erase f) (unshift (c.insertions.erase n) n) = f
        rw [← hplace, shift_unshift (Finset.notMem_erase f _)]
      rw [hsource]
      exact hm.same hmodification
    · have hnotMem : n ∉ c.insertions :=
        fun h => hn (Finset.mem_erase.mpr ⟨hnt, h⟩)
      have hother : unshift (c.insertions.erase t) n ∉
          ({unshift (c.insertions.erase t) t} : Finset Nat) := by
        rw [Finset.mem_singleton]
        exact fun heq => hnt (unshift_injOn hn (Finset.notMem_erase t _) heq)
      have hsource : c.source n = (Move.drop ⟨f, t⟩ c).source n := by
        rw [Change.source, hold, hnew, shift_union, unshift_union, hplace,
          shift_unshift hother]
        rfl
      rw [hc.unmodified n hnotMem hmodification, hsource]

/-- All moves of a change are sound, and no two share an end. -/
structure AllSound
    (key : α → κ) (c : Change) (old new : List α) (moves : List Move) : Prop where
  sound : ∀ m ∈ moves, m.Sound key c old new
  from_nodup : (moves.map fromIndex).Nodup
  to_nodup : (moves.map toIndex).Nodup

theorem AllSound.nil :
    AllSound key c old new [] :=
  ⟨by simp, by simp, by simp⟩

theorem AllSound.single
    {m : Move}
    (h : m.Sound key c old new) :
    AllSound key c old new [m] :=
  ⟨by simpa using h, by simp, by simp⟩

theorem AllSound.perm
    {moves moves' : List Move}
    (h : AllSound key c old new moves)
    (hperm : moves.Perm moves') :
    AllSound key c old new moves' :=
  ⟨fun m hm => h.sound m (hperm.mem_iff.mpr hm),
    (hperm.map fromIndex).nodup h.from_nodup, (hperm.map toIndex).nodup h.to_nodup⟩

/-- More may be called modified. -/
theorem AllSound.modified
    {moves : List Move} {M : Finset Nat}
    (h : AllSound key c old new moves)
    (hsubset : c.modifications ⊆ M) :
    AllSound key ⟨c.deletions, c.insertions, M⟩ old new moves := by
  refine ⟨fun m hm => ?_, h.from_nodup, h.to_nodup⟩
  have hsound := h.sound m hm
  exact ⟨hsound.from_mem, hsound.to_mem, hsound.same_key,
    fun hmodification => hsound.same (fun hin => hmodification (hsubset hin))⟩

/-- Leaving out the first move keeps the others sound. -/
theorem AllSound.drop
    {m : Move} {moves : List Move}
    (h : AllSound key c old new (m :: moves)) :
    AllSound key (m.drop c) old new moves := by
  have hfrom := List.nodup_cons.mp h.from_nodup
  have hto := List.nodup_cons.mp h.to_nodup
  refine ⟨fun m' hm' => ?_, hfrom.2, hto.2⟩
  have hsound := h.sound m' (List.mem_cons_of_mem m hm')
  refine ⟨Finset.mem_erase.mpr ⟨?_, hsound.from_mem⟩,
    Finset.mem_erase.mpr ⟨?_, hsound.to_mem⟩, hsound.same_key, hsound.same⟩
  · rintro heq
    exact hfrom.1 (heq ▸ List.mem_map_of_mem hm')
  · rintro heq
    exact hto.1 (heq ▸ List.mem_map_of_mem hm')

theorem carry_injOn
    {i j : Nat}
    (hi : i ∉ d.deletions)
    (hj : j ∉ d.deletions)
    (h : carry d i = carry d j) :
    i = j := by
  rw [← source_carry hi, ← source_carry hj, h]

theorem source_injOn
    {i j : Nat}
    (hi : i ∉ c.insertions)
    (hj : j ∉ c.insertions)
    (h : c.source i = c.source j) :
    i = j :=
  unshift_injOn hi hj (shift_injective _ h)

/-- What becomes of a move of the first change in the composite. -/
inductive Becomes (c d : Change) (moves : List Move) (m : Move) : Move → Prop
  /-- Its element stays where the second change carries it. -/
  | carried
      (hstays : m.toIndex ∉ d.deletions) :
      Becomes c d moves m ⟨m.fromIndex, carry d m.toIndex⟩
  /-- Its element is moved by the second change. -/
  | again
      (n : Move)
      (hn : n ∈ moves)
      (hmeet : m.toIndex = n.fromIndex)
      (hmodified : m.toIndex ∈ c.modifications → n.toIndex ∈ d.modifications) :
      Becomes c d moves m ⟨m.fromIndex, n.toIndex⟩

theorem Becomes.sound
    {moves : List Move} {m m' : Move}
    (h : Becomes c d moves m m')
    (hd : d.Describes key middle new)
    (hmoves : AllSound key d middle new moves)
    (hm : m.Sound key c old middle) :
    m'.Sound key (c.compose d) old new := by
  cases h with
  | carried hstays => exact hm.carried hd hstays
  | again n hn hmeet hmodified => exact hm.again (hmoves.sound n hn) hmeet hmodified

theorem Becomes.fromIndex
    {moves : List Move} {m m' : Move}
    (h : Becomes c d moves m m') :
    m'.fromIndex = m.fromIndex := by
  cases h <;> rfl

theorem eq_of_nodup_map
    {β : Type v} {f : Move → β} {moves : List Move} {m m' : Move}
    (hnodup : (moves.map f).Nodup)
    (hm : m ∈ moves)
    (hm' : m' ∈ moves)
    (h : f m = f m') :
    m = m' :=
  List.inj_on_of_nodup_map hnodup hm hm' h

/-- Moves to different indices become moves to different indices. -/
theorem Becomes.toIndex_inj
    {moves : List Move} {m n m' n' : Move}
    (hmoves : AllSound key d middle new moves)
    (hm : Becomes c d moves m m')
    (hn : Becomes c d moves n n')
    (h : m'.toIndex = n'.toIndex) :
    m.toIndex = n.toIndex := by
  cases hm with
  | carried hm_stays =>
      cases hn with
      | carried hn_stays => exact carry_injOn hm_stays hn_stays h
      | again q hq hmeet _ =>
          have hin := (hmoves.sound q hq).to_mem
          rw [← show carry d m.toIndex = q.toIndex from h] at hin
          exact absurd hin (shift_notMem _ _)
  | again p hp hm_meet _ =>
      cases hn with
      | carried hn_stays =>
          have hin := (hmoves.sound p hp).to_mem
          rw [show p.toIndex = carry d n.toIndex from h] at hin
          exact absurd hin (shift_notMem _ _)
      | again q hq hn_meet _ =>
          have hpq := eq_of_nodup_map hmoves.to_nodup hp hq h
          rw [hm_meet, hn_meet, hpq]

theorem nodup_map_filterMap
    {β : Type v} {moves : List Move} {g : Move → Option Move} {f : Move → β}
    (hnodup : moves.Nodup)
    (hinj : ∀ m ∈ moves, ∀ n ∈ moves, ∀ m' n',
      g m = some m' → g n = some n' → f m' = f n' → m = n) :
    ((moves.filterMap g).map f).Nodup := by
  induction moves with
  | nil =>
      exact List.nodup_nil
  | cons m moves ih =>
      obtain ⟨hnotMem, hrest⟩ := List.nodup_cons.mp hnodup
      have htail := ih hrest (fun p hp q hq =>
        hinj p (List.mem_cons_of_mem m hp) q (List.mem_cons_of_mem m hq))
      cases hgm : g m with
      | none =>
          rwa [List.filterMap_cons_none hgm]
      | some m' =>
          rw [List.filterMap_cons_some hgm, List.map_cons]
          refine List.nodup_cons.mpr ⟨fun hin => hnotMem ?_, htail⟩
          obtain ⟨n', hn', heq⟩ := List.mem_map.mp hin
          obtain ⟨n, hn, hgn⟩ := List.mem_filterMap.mp hn'
          have hmn := hinj m List.mem_cons_self n (List.mem_cons_of_mem m hn)
            m' n' hgm hgn heq.symm
          exact hmn ▸ hn

/-- **The moves of two changes one after the other are moves of the composite.** -/
theorem AllSound.compose
    {moves nextMoves : List Move} (later : List Move) (g : Move → Option Move)
    (hc : c.Describes key old middle)
    (hd : d.Describes key middle new)
    (hmoves : AllSound key c old middle moves)
    (hnext : AllSound key d middle new nextMoves)
    (hg : ∀ m ∈ moves, ∀ m', g m = some m' → Becomes c d nextMoves m m')
    (hlater : ∀ n ∈ later, n ∈ nextMoves ∧ n.fromIndex ∉ c.insertions ∧
      (n.fromIndex ∈ c.modifications → n.toIndex ∈ d.modifications))
    (hlater_nodup : later.Nodup) :
    AllSound key (c.compose d) old new
      (moves.filterMap g ++
        later.map (fun n => ⟨c.source n.fromIndex, n.toIndex⟩)) := by
  have hbecomes : ∀ m' ∈ moves.filterMap g, ∃ m ∈ moves, Becomes c d nextMoves m m' := by
    intro m' hm'
    obtain ⟨m, hm, hgm⟩ := List.mem_filterMap.mp hm'
    exact ⟨m, hm, hg m hm m' hgm⟩
  have hmoves_nodup : moves.Nodup := List.Nodup.of_map _ hmoves.from_nodup
  refine ⟨?_, ?_, ?_⟩
  · intro m' hm'
    rcases List.mem_append.mp hm' with hm' | hm'
    · obtain ⟨m, hm, hb⟩ := hbecomes m' hm'
      exact hb.sound hd hnext (hmoves.sound m hm)
    · obtain ⟨n, hn, rfl⟩ := List.mem_map.mp hm'
      obtain ⟨hmem, hthere, hmodified⟩ := hlater n hn
      exact (hnext.sound n hmem).later hc hthere hmodified
  · rw [List.map_append, List.map_map, List.nodup_append]
    refine ⟨?_, ?_, ?_⟩
    · refine nodup_map_filterMap hmoves_nodup ?_
      intro m hm n hn m' n' hgm hgn heq
      rw [(hg m hm m' hgm).fromIndex, (hg n hn n' hgn).fromIndex] at heq
      exact eq_of_nodup_map hmoves.from_nodup hm hn heq
    · refine hlater_nodup.map_on ?_
      intro n hn q hq heq
      exact eq_of_nodup_map hnext.from_nodup (hlater n hn).1 (hlater q hq).1
        (source_injOn (hlater n hn).2.1 (hlater q hq).2.1 heq)
    · intro i hi j hj heq
      obtain ⟨m', hm', rfl⟩ := List.mem_map.mp hi
      obtain ⟨n, hn, rfl⟩ := List.mem_map.mp hj
      obtain ⟨m, hm, hb⟩ := hbecomes m' hm'
      rw [hb.fromIndex] at heq
      have hin := (hmoves.sound m hm).from_mem
      rw [heq] at hin
      exact Change.source_notMem c _ hin
  · rw [List.map_append, List.map_map, List.nodup_append]
    refine ⟨?_, ?_, ?_⟩
    · refine nodup_map_filterMap hmoves_nodup ?_
      intro m hm n hn m' n' hgm hgn heq
      exact eq_of_nodup_map hmoves.to_nodup hm hn
        ((hg m hm m' hgm).toIndex_inj hnext (hg n hn n' hgn) heq)
    · refine hlater_nodup.map_on ?_
      intro n hn q hq heq
      exact eq_of_nodup_map hnext.to_nodup (hlater n hn).1 (hlater q hq).1 heq
    · intro i hi j hj heq
      obtain ⟨m', hm', rfl⟩ := List.mem_map.mp hi
      obtain ⟨n, hn, rfl⟩ := List.mem_map.mp hj
      obtain ⟨m, hm, hb⟩ := hbecomes m' hm'
      obtain ⟨hmem, hthere, _⟩ := hlater n hn
      cases hb with
      | carried hstays =>
          have hin := (hnext.sound n hmem).to_mem
          rw [← show carry d m.toIndex = n.toIndex from heq] at hin
          exact shift_notMem _ _ hin
      | again q hq hmeet _ =>
          have hqn := eq_of_nodup_map hnext.to_nodup hq hmem heq
          rw [← hqn, ← hmeet] at hthere
          exact hthere (hmoves.sound m hm).to_mem

end Move

end IndexedChange

end Indices
end NotVK
