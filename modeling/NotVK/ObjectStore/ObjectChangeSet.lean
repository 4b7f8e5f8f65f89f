import Mathlib.Data.Finset.Image
import Mathlib.Data.Finset.Prod
import Mathlib.Tactic.Basic

/-!
# What happened to the objects of a table

An `ObjectChangeSet` has the keys of the objects that were created, modified and
removed.  It tells how one version of a table became another as long as no key of
the first version is used again for a new object: the set has no way to say that an
object was removed and another one put in its place.
-/

namespace NotVK
namespace ObjectStore

universe u

section ObjectChangeSet

structure ObjectChangeSet where
  deletions : Finset Int
  insertions : Finset Int
  /-- `m_modifications`, each object with each of its columns. -/
  modifications : Finset (Int × Int)
  clearDidOccur : Bool
deriving DecidableEq

namespace ObjectChangeSet

def empty : ObjectChangeSet :=
  ⟨∅, ∅, ∅, false⟩

variable (s : ObjectChangeSet)

def insertionsAdd (obj : Int) : ObjectChangeSet :=
  { s with insertions := insert obj s.insertions }

/-- Modifications of new objects are not reported. -/
def modificationsAdd (obj col : Int) : ObjectChangeSet :=
  if obj ∉ s.insertions then { s with modifications := insert (obj, col) s.modifications }
  else s

/-- `m_modifications.erase(obj)`. -/
def modificationsErase (obj : Int) : Finset (Int × Int) :=
  s.modifications.filter (fun m => m.1 ≠ obj)

def deletionsAdd (obj : Int) : ObjectChangeSet :=
  { s with
    modifications := s.modificationsErase obj
    insertions := s.insertions.erase obj
    deletions := if obj ∈ s.insertions then s.deletions else insert obj s.deletions }

def clear (_ : ObjectChangeSet) : ObjectChangeSet :=
  { empty with clearDidOccur := true }

/-- `insertions_remove(obj)`, with whether there was one. -/
def insertionsRemove (obj : Int) : ObjectChangeSet × Bool :=
  ({ s with insertions := s.insertions.erase obj }, decide (obj ∈ s.insertions))

def modificationsRemove (obj : Int) : ObjectChangeSet :=
  { s with modifications := s.modificationsErase obj }

def deletionsContains (obj : Int) : Bool :=
  if s.clearDidOccur then decide (obj ∉ s.insertions) else decide (obj ∈ s.deletions)

def insertionsContains (obj : Int) : Bool :=
  decide (obj ∈ s.insertions)

def modificationsContains (obj : Int) : Bool :=
  decide (∃ m ∈ s.modifications, m.1 = obj)

/-- `get_columns_modified(obj)`. -/
def getColumnsModified (obj : Int) : Option (Finset Int) :=
  let columns := (s.modifications.filter (fun m => m.1 = obj)).image Prod.snd
  if columns = ∅ then none else some columns

def isEmpty : Bool :=
  decide (s.deletions = ∅ ∧ s.insertions = ∅ ∧ s.modifications = ∅) && !s.clearDidOccur

/--
`merge(other)`.  When an inserted object was deleted later, an iterator of the
other set is erased from this one, and the result is undefined.
-/
def merge (other : ObjectChangeSet) : Option ObjectChangeSet :=
  if other.isEmpty then some s
  else if s.isEmpty then some other
  else if ∃ obj ∈ other.deletions, obj ∈ s.insertions then none
  else
    some
      { clearDidOccur := s.clearDidOccur || other.clearDidOccur
        insertions := s.insertions ∪ other.insertions
        deletions := s.deletions ∪ other.deletions
        modifications :=
          s.modifications.filter (fun m => m.1 ∉ other.deletions) ∪ other.modifications }

/-- `TransactLogObserver::remove_object`, for the active table. -/
def removeObject (obj : Int) : ObjectChangeSet :=
  let removed := s.insertionsRemove obj
  (if removed.2 then removed.1 else removed.1.deletionsAdd obj).modificationsRemove obj

theorem removeObject_eq (obj : Int) :
    s.removeObject obj =
      { s with
        deletions := if obj ∈ s.insertions then s.deletions else insert obj s.deletions
        insertions := s.insertions.erase obj
        modifications := s.modificationsErase obj } := by
  by_cases h : obj ∈ s.insertions
  · simp [removeObject, insertionsRemove, modificationsRemove, modificationsErase, h]
  · simp [removeObject, insertionsRemove, modificationsRemove, modificationsErase,
      deletionsAdd, h, Finset.filter_filter]

theorem deletionsContains_iff (obj : Int) :
    s.deletionsContains obj = true ↔
      (s.clearDidOccur = true ∧ obj ∉ s.insertions) ∨
        (s.clearDidOccur = false ∧ obj ∈ s.deletions) := by
  rw [deletionsContains]
  cases s.clearDidOccur <;> simp

/-- An object has columns that were modified when it was modified. -/
theorem getColumnsModified_eq_none (obj : Int) :
    s.getColumnsModified obj = none ↔ s.modificationsContains obj = false := by
  rw [getColumnsModified, modificationsContains, decide_eq_false_iff_not]
  simp [Finset.filter_eq_empty_iff]

/-- Changes of the object are told already. -/
def Reported (obj : Int) : Prop :=
  obj ∈ s.insertions ∨ s.modificationsContains obj = true

theorem reported_modificationsAdd (obj col : Int) :
    (s.modificationsAdd obj col).Reported obj := by
  rw [modificationsAdd]
  split
  next => exact .inr (by simp [modificationsContains])
  next hin => exact .inl (not_not.mp hin)

variable {s}

theorem Reported.modificationsAdd
    {obj : Int}
    (h : s.Reported obj)
    (other col : Int) :
    (s.modificationsAdd other col).Reported obj := by
  rw [ObjectChangeSet.modificationsAdd]
  split
  next =>
    refine h.imp_right ?_
    simp only [modificationsContains, decide_eq_true_eq]
    rintro ⟨m, hm, hmobj⟩
    exact ⟨m, Finset.mem_insert_of_mem hm, hmobj⟩
  next => exact h

theorem Reported.insertionsAdd
    {obj : Int}
    (h : s.Reported obj)
    (other : Int) :
    (s.insertionsAdd other).Reported obj :=
  h.imp_left (Finset.mem_insert_of_mem ·)

theorem Reported.removeObject
    {obj other : Int}
    (h : s.Reported obj)
    (hne : obj ≠ other) :
    (s.removeObject other).Reported obj := by
  rw [removeObject_eq]
  rcases h with hin | hmodified
  · exact .inl (Finset.mem_erase.mpr ⟨hne, hin⟩)
  · refine .inr ?_
    rw [modificationsContains, decide_eq_true_eq] at hmodified ⊢
    obtain ⟨m, hm, rfl⟩ := hmodified
    exact ⟨m, Finset.mem_filter.mpr ⟨hm, hne⟩, rfl⟩

end ObjectChangeSet

end ObjectChangeSet

section Exact

variable {ρ : Type u}

/-- The change set tells how the objects `old` became `new`. -/
structure Exact (old new : Int → Option ρ) (s : ObjectChangeSet) : Prop where
  insertions : ∀ obj, s.insertionsContains obj = true ↔ old obj = none ∧ new obj ≠ none
  deletions : ∀ obj, old obj ≠ none → (s.deletionsContains obj = true ↔ new obj = none)
  unmodified : ∀ obj, old obj ≠ none → new obj ≠ none →
    s.modificationsContains obj = false → new obj = old obj

namespace Exact

open ObjectChangeSet

variable {old cur mid new : Int → Option ρ} {s a b c : ObjectChangeSet}

theorem refl (old : Int → Option ρ) :
    Exact old old .empty := by
  refine ⟨?_, ?_, fun _ _ _ _ => rfl⟩
  · intro obj
    simp [insertionsContains, ObjectChangeSet.empty]
  · intro obj hold
    simpa [deletionsContains, ObjectChangeSet.empty] using hold

theorem mem_insertions
    (h : Exact old cur s)
    (obj : Int) :
    obj ∈ s.insertions ↔ old obj = none ∧ cur obj ≠ none := by
  rw [← h.insertions, insertionsContains, decide_eq_true_eq]

theorem mem_deletions
    (h : Exact old cur s)
    (hclear : s.clearDidOccur = false)
    {obj : Int}
    (hobj : old obj ≠ none) :
    obj ∈ s.deletions ↔ cur obj = none := by
  rw [← h.deletions obj hobj, deletionsContains, hclear]
  simp

/-- After the table was cleared, no object of it is left. -/
theorem eq_none_of_clear
    (h : Exact old cur s)
    (hclear : s.clearDidOccur = true)
    {obj : Int}
    (hobj : old obj ≠ none) :
    cur obj = none := by
  rw [← h.deletions obj hobj, deletionsContains, hclear, if_pos rfl, decide_eq_true_eq,
    h.mem_insertions]
  exact fun hin => hobj hin.1

/-- An object is created under a key that the old version does not have. -/
theorem create
    (h : Exact old cur s)
    {obj : Int} {row : ρ}
    (hold : old obj = none) :
    Exact old (Function.update cur obj (some row)) (s.insertionsAdd obj) := by
  have hne : ∀ other, old other ≠ none → other ≠ obj := by
    rintro other hother rfl
    exact hother hold
  refine ⟨?_, ?_, ?_⟩
  · intro other
    rw [insertionsContains, decide_eq_true_eq, insertionsAdd, Finset.mem_insert,
      h.mem_insertions]
    rcases eq_or_ne other obj with rfl | hother
    · simp [hold]
    · simp [hother]
  · intro other hother
    rw [Function.update_of_ne (hne other hother), ← h.deletions other hother,
      deletionsContains_iff, deletionsContains_iff, insertionsAdd]
    simp [hne other hother]
  · intro other hother hnew hmodified
    rw [Function.update_of_ne (hne other hother)] at hnew ⊢
    exact h.unmodified other hother hnew hmodified

/-- An object is removed. -/
theorem remove
    (h : Exact old cur s)
    {obj : Int}
    (hcur : cur obj ≠ none) :
    Exact old (Function.update cur obj none) (s.removeObject obj) := by
  rw [removeObject_eq]
  refine ⟨?_, ?_, ?_⟩
  · intro other
    rw [insertionsContains, decide_eq_true_eq, Finset.mem_erase, h.mem_insertions]
    rcases eq_or_ne other obj with rfl | hother
    · simp
    · simp [hother]
  · intro other hother
    rw [deletionsContains_iff]
    rcases eq_or_ne other obj with rfl | hne
    · have hnot : other ∉ s.insertions := by
        rw [h.mem_insertions]
        exact fun hin => hother hin.1
      cases hs : s.clearDidOccur with
      | true => exact absurd (h.eq_none_of_clear hs hother) hcur
      | false => simp [hnot]
    · rw [Function.update_of_ne hne, ← h.deletions other hother, deletionsContains_iff]
      by_cases hin : obj ∈ s.insertions <;> simp [hne, hin]
  · intro other hother hnew hmodified
    rcases eq_or_ne other obj with rfl | hne
    · simp at hnew
    · rw [Function.update_of_ne hne] at hnew ⊢
      refine h.unmodified other hother hnew ?_
      rw [modificationsContains, modificationsErase] at hmodified
      rw [modificationsContains]
      simpa [hne] using hmodified

/-- An object is reported as modified; nothing else changes. -/
theorem mark
    (h : Exact old cur s)
    (obj col : Int) :
    Exact old cur (s.modificationsAdd obj col) := by
  rw [modificationsAdd]
  split
  next =>
    refine ⟨h.insertions, h.deletions, ?_⟩
    intro other hother hnew hmodified
    refine h.unmodified other hother hnew ?_
    rw [modificationsContains, decide_eq_false_iff_not] at hmodified ⊢
    rintro ⟨m, hm, hmobj⟩
    exact hmodified ⟨m, Finset.mem_insert_of_mem hm, hmobj⟩
  next => exact h

/-- What an object holds changes, when that is reported already. -/
theorem touch
    (h : Exact old cur s)
    {obj : Int} {row : ρ}
    (hcur : cur obj ≠ none)
    (hreported : s.Reported obj) :
    Exact old (Function.update cur obj (some row)) s := by
  have hnone : ∀ other, Function.update cur obj (some row) other = none ↔
      cur other = none := by
    intro other
    rcases eq_or_ne other obj with rfl | hne
    · simp [hcur]
    · rw [Function.update_of_ne hne]
  refine ⟨?_, ?_, ?_⟩
  · intro other
    rw [h.insertions, Ne, Ne, hnone]
  · intro other hother
    rw [hnone, h.deletions other hother]
  · intro other hother hnew hmodified
    rw [Ne, hnone] at hnew
    rcases eq_or_ne other obj with rfl | hne
    · rcases hreported with hin | hreported
      · exact absurd ((h.mem_insertions other).mp hin).1 hother
      · rw [hmodified] at hreported
        cases hreported
    · rw [Function.update_of_ne hne]
      exact h.unmodified other hother hnew hmodified

/-- An object is modified. -/
theorem modify
    (h : Exact old cur s)
    {obj col : Int} {row : ρ}
    (hcur : cur obj ≠ none) :
    Exact old (Function.update cur obj (some row)) (s.modificationsAdd obj col) :=
  (h.mark obj col).touch hcur (s.reported_modificationsAdd obj col)

/-- All objects of the table are removed. -/
theorem clear
    (old : Int → Option ρ) (s : ObjectChangeSet) :
    Exact old (fun _ => none) s.clear := by
  refine ⟨?_, ?_, ?_⟩
  · intro obj
    simp [insertionsContains, ObjectChangeSet.clear, ObjectChangeSet.empty]
  · intro obj _
    simp [deletionsContains, ObjectChangeSet.clear, ObjectChangeSet.empty]
  · intro obj _ hnew
    exact absurd rfl hnew

/-- An empty change set tells that nothing happened. -/
theorem eq_of_isEmpty
    (h : Exact old cur s)
    (hempty : s.isEmpty = true) :
    old = cur := by
  rw [isEmpty, Bool.and_eq_true, decide_eq_true_eq, Bool.not_eq_true'] at hempty
  obtain ⟨⟨hdeletions, hinsertions, hmodifications⟩, hclear⟩ := hempty
  funext obj
  by_cases hold : old obj = none
  · have hnot := h.mem_insertions obj
    rw [hinsertions] at hnot
    by_contra hne
    exact absurd (hnot.mpr ⟨hold, fun hcur => hne (hold.trans hcur.symm)⟩)
      (Finset.notMem_empty obj)
  · have hcur : cur obj ≠ none := by
      rw [Ne, ← h.mem_deletions hclear hold, hdeletions]
      exact Finset.notMem_empty obj
    refine (h.unmodified obj hold hcur ?_).symm
    simp [modificationsContains, hmodifications]

/--
The change sets of two versions after each other are merged, where the second does
not clear the table, and no object of the first version comes back in the third.
-/
theorem merged
    (ha : Exact old mid a)
    (hb : Exact mid new b)
    (hmerge : a.merge b = some c)
    (hclear : b.clearDidOccur = false)
    (hback : ∀ obj, old obj ≠ none → mid obj = none → new obj = none) :
    Exact old new c := by
  rw [ObjectChangeSet.merge] at hmerge
  split at hmerge
  next hempty =>
    cases hmerge
    rwa [← hb.eq_of_isEmpty hempty]
  next =>
  split at hmerge
  next hempty =>
    cases hmerge
    rwa [ha.eq_of_isEmpty hempty]
  next =>
  rw [Option.ite_none_left_eq_some] at hmerge
  obtain ⟨hdefined, hc⟩ := hmerge
  cases hc
  have hstays : ∀ obj, obj ∈ a.insertions → new obj ≠ none := by
    intro obj hin hnone
    have hmid := ((ha.mem_insertions obj).mp hin).2
    exact hdefined ⟨obj, (hb.mem_deletions hclear hmid).mpr hnone, hin⟩
  have hmid : ∀ obj, old obj ≠ none → new obj ≠ none → mid obj ≠ none :=
    fun obj hold hnew hnone => hnew (hback obj hold hnone)
  refine ⟨?_, ?_, ?_⟩
  · intro obj
    rw [insertionsContains, decide_eq_true_eq, Finset.mem_union, hb.mem_insertions]
    constructor
    · rintro (hin | ⟨hnone, hnew⟩)
      · exact ⟨((ha.mem_insertions obj).mp hin).1, hstays obj hin⟩
      · refine ⟨?_, hnew⟩
        by_contra hold
        exact hnew (hback obj hold hnone)
    · rintro ⟨hold, hnew⟩
      by_cases hnone : mid obj = none
      · exact .inr ⟨hnone, hnew⟩
      · exact .inl ((ha.mem_insertions obj).mpr ⟨hold, hnone⟩)
  · intro obj hold
    have hnot : obj ∉ a.insertions := by
      rw [ha.mem_insertions]
      exact fun hin => hold hin.1
    have hgone : ∀ hnone : mid obj = none, new obj = none := hback obj hold
    rw [deletionsContains]
    simp only [hclear, Bool.or_false]
    cases haclear : a.clearDidOccur with
    | true =>
        have hnone := ha.eq_none_of_clear haclear hold
        have hnew := hgone hnone
        have hnot' : obj ∉ b.insertions := by
          rw [hb.mem_insertions]
          exact fun hin => hin.2 hnew
        simp [hnot, hnot', hnew]
    | false =>
        rw [if_neg (by simp), decide_eq_true_eq, Finset.mem_union,
          ha.mem_deletions haclear hold]
        by_cases hnone : mid obj = none
        · simp [hnone, hgone hnone]
        · simp [hnone, hb.mem_deletions hclear hnone]
  · intro obj hold hnew hmodified
    have hthere := hmid obj hold hnew
    rw [modificationsContains, decide_eq_false_iff_not] at hmodified
    have hkept : obj ∉ b.deletions := by
      rw [hb.mem_deletions hclear hthere]
      exact hnew
    have hfirst : a.modificationsContains obj = false := by
      rw [modificationsContains, decide_eq_false_iff_not]
      rintro ⟨m, hm, rfl⟩
      exact hmodified ⟨m, Finset.mem_union_left _ (Finset.mem_filter.mpr ⟨hm, hkept⟩), rfl⟩
    have hsecond : b.modificationsContains obj = false := by
      rw [modificationsContains, decide_eq_false_iff_not]
      rintro ⟨m, hm, rfl⟩
      exact hmodified ⟨m, Finset.mem_union_right _ hm, rfl⟩
    rw [hb.unmodified obj hthere hnew hsecond, ha.unmodified obj hold hthere hfirst]

/-- An object that one version creates is modified in the next. -/
theorem merged_createdObject :
    Exact (fun _ => none)
      (Function.update (Function.update (fun _ => none) 1 (some 'a')) 1 (some 'b'))
      ⟨∅, {1}, {(1, 0)}, false⟩ := by
  have hfirst : Exact (fun _ => none) (Function.update (fun _ => none) 1 (some 'a'))
      (ObjectChangeSet.empty.insertionsAdd 1) := (Exact.refl _).create rfl
  have hsecond : Exact (Function.update (fun _ => none) 1 (some 'a'))
      (Function.update (Function.update (fun _ => none) 1 (some 'a')) 1 (some 'b'))
      (ObjectChangeSet.empty.modificationsAdd 1 0) := (Exact.refl _).modify (by simp)
  exact merged hfirst hsecond (by decide) rfl (fun obj h => absurd rfl h)

/-- Nothing of the first version is left when the second one clears the table. -/
theorem eq_none_of_back
    (hb : Exact mid new b)
    (hclear : b.clearDidOccur = true)
    (hback : ∀ obj, old obj ≠ none → mid obj = none → new obj = none)
    {obj : Int}
    (hobj : old obj ≠ none) :
    new obj = none := by
  by_cases hnone : mid obj = none
  · exact hback obj hobj hnone
  · exact hb.eq_none_of_clear hclear hnone

/-- `merge` when the other set is not empty: what the first has inserted stays. -/
theorem insertions_of_merge
    (hmerge : a.merge b = some c)
    (hb : b.isEmpty = false) :
    c.insertions = a.insertions ∪ b.insertions := by
  rw [ObjectChangeSet.merge, hb] at hmerge
  rw [if_neg (by simp)] at hmerge
  split at hmerge
  next hempty =>
    cases hmerge
    rw [isEmpty, Bool.and_eq_true, decide_eq_true_eq] at hempty
    rw [hempty.1.2.1, Finset.empty_union]
  next =>
  rw [Option.ite_none_left_eq_some] at hmerge
  obtain ⟨_, hc⟩ := hmerge
  cases hc
  rfl

theorem clearDidOccur_of_merge
    (hmerge : a.merge b = some c)
    (hb : b.clearDidOccur = true) :
    c.clearDidOccur = true := by
  rw [ObjectChangeSet.merge] at hmerge
  split at hmerge
  next hempty => simp [isEmpty, hb] at hempty
  next =>
  split at hmerge
  next =>
    cases hmerge
    exact hb
  next =>
  rw [Option.ite_none_left_eq_some] at hmerge
  obtain ⟨_, hc⟩ := hmerge
  cases hc
  simp [hb]

/--
When the second version clears the table, the objects that the first one had inserted
stay in the merged change set, although they are gone: it is exact only without any.
-/
theorem merged_iff_of_clear
    (ha : Exact old mid a)
    (hb : Exact mid new b)
    (hmerge : a.merge b = some c)
    (hclear : b.clearDidOccur = true)
    (hback : ∀ obj, old obj ≠ none → mid obj = none → new obj = none) :
    (Exact old new c ↔ a.insertions = ∅) ∧
      ∀ obj ∈ a.insertions, c.insertionsContains obj = true ∧ new obj = none := by
  have hinsertions : c.insertions = a.insertions ∪ b.insertions :=
    insertions_of_merge hmerge (by simp [isEmpty, hclear])
  have hcclear : c.clearDidOccur = true := clearDidOccur_of_merge hmerge hclear
  have hold : ∀ obj, old obj ≠ none → new obj = none :=
    fun obj hobj => eq_none_of_back hb hclear hback hobj
  have hstays : ∀ obj ∈ a.insertions, c.insertionsContains obj = true ∧ new obj = none := by
    intro obj hin
    refine ⟨?_, hb.eq_none_of_clear hclear ((ha.mem_insertions obj).mp hin).2⟩
    rw [insertionsContains, decide_eq_true_eq, hinsertions]
    exact Finset.mem_union_left _ hin
  refine ⟨⟨?_, ?_⟩, hstays⟩
  · intro hexact
    refine Finset.eq_empty_of_forall_notMem (fun obj hin => ?_)
    obtain ⟨hcontains, hnone⟩ := hstays obj hin
    exact ((hexact.insertions obj).mp hcontains).2 hnone
  · intro hnone
    have hcame : ∀ obj, obj ∈ c.insertions ↔ new obj ≠ none := by
      intro obj
      rw [hinsertions, hnone, Finset.empty_union, hb.mem_insertions]
      exact ⟨fun hin => hin.2, fun hnew =>
        ⟨not_not.mp (fun hmid => hnew (hb.eq_none_of_clear hclear hmid)), hnew⟩⟩
    refine ⟨?_, ?_, ?_⟩
    · intro obj
      rw [insertionsContains, decide_eq_true_eq, hcame]
      exact ⟨fun hnew => ⟨not_not.mp (fun hobj => hnew (hold obj hobj)), hnew⟩, fun h => h.2⟩
    · intro obj _
      rw [deletionsContains]
      simp only [hcclear, if_true, decide_eq_true_eq, hcame, not_not]
    · intro obj hobj hnew
      exact absurd (hold obj hobj) hnew

/-- An object is created in one version, and the table is cleared in the next. -/
theorem merged_iff_of_clear_createdObject :
    ¬ Exact (fun _ => (none : Option Char)) (fun _ => none) ⟨∅, {1}, ∅, true⟩ := by
  have hfirst : Exact (fun _ => none) (Function.update (fun _ => none) 1 (some 'a'))
      (ObjectChangeSet.empty.insertionsAdd 1) := (Exact.refl _).create rfl
  have hsecond : Exact (Function.update (fun _ => none) 1 (some 'a')) (fun _ => none)
      ObjectChangeSet.empty.clear := clear _ _
  have hmerge : (ObjectChangeSet.empty.insertionsAdd 1).merge ObjectChangeSet.empty.clear =
      some ⟨∅, {1}, ∅, true⟩ := by decide
  rw [(merged_iff_of_clear hfirst hsecond hmerge rfl (fun obj h => absurd rfl h)).1]
  decide

end Exact

end Exact

end ObjectStore
end NotVK
