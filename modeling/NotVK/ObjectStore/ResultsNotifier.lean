import NotVK.ObjectStore.ListNotifier

/-!
# What is calculated for a query after a log

The rows that a query shows are compared by their keys, and the modification checker is
asked for those that both versions show.  What it answers does not depend on what it was
asked before, so that it stands for one function of the keys.
-/

namespace NotVK
namespace ObjectStore

open Indices Runs BoundedReach TransactLogObserver DeepChangeChecker

universe u

section Answer

variable {c : DeepChangeChecker} {s : Search}
variable {schema : Schema} {tables : Finset Int}

/-- What the function that `get_modification_checker` returns answers at first. -/
def DeepChangeChecker.keyDidChange
    (c : DeepChangeChecker) (path : Nat → Path) (key : Int) : Bool :=
  (c.modificationCheck key ⟨fun _ => ∅, path⟩).1

theorem keyDidChange_iff
    (h : ChecksTable schema tables c)
    (path : Nat → Path) (key : Int) :
    c.keyDidChange path key = true ↔ ModifiedNearby schema c (ChecksTable.depth c) key :=
  (h.modificationCheck_iff (OnPath.start path) key).1

/-- It answers the same, whatever it was asked before. -/
theorem answers_eq_map
    (h : ChecksTable schema tables c)
    (path : Nat → Path) (asked : List Int)
    (hs : OnPath c [] s) :
    answers c.modificationCheck asked s =
      asked.map (fun key => (key, c.keyDidChange path key)) := by
  induction asked generalizing s with
  | nil => rfl
  | cons key asked ih =>
      obtain ⟨hiff, hs'⟩ := h.modificationCheck_iff hs key
      have hanswer : (c.modificationCheck key s).1 = c.keyDidChange path key := by
        rw [Bool.eq_iff_iff, hiff, keyDidChange_iff h]
      rw [answers, ih hs', List.map_cons, hanswer]

end Answer

section Calculated

variable {α : Type u}
variable {s t : TransactLogObserver × Group α Int} {writes : List (Write α Int)}
variable {schema : Schema} {tables : Finset Int} {c : DeepChangeChecker}
variable {shown shows : List (Int × (α × (Int → List Int)))}

/-- What the objects near `key` hold that both versions have. -/
noncomputable def nearby
    (schema : Schema) (c : DeepChangeChecker) (s t g : TransactLogObserver × Group α Int)
    (key : Int) (y : Int × Int) : Option (α × (Int → List Int)) :=
  open Classical in
  if Within (ObjectEdge schema c) ∅ (ChecksTable.depth c) (c.rootTable, key) y ∧
      s.2.row y.1 y.2 ≠ none ∧ t.2.row y.1 y.2 ≠ none then g.2.row y.1 y.2
  else none

/-- The objects near one that is not said to have changed hold what they held. -/
theorem nearby_eq
    (hfollowed : ∀ table ∈ keys c.relatedTables, Starts table s ∧
      EveryStep TransactLogObserver.step (NewKeys table (s.2.row table)) s writes)
    (hrun : run TransactLogObserver.step s writes = some t)
    (hchecks : ChecksTable schema tables c)
    (htables : c.tables = t.1.parseComplete.tables)
    {path : Nat → Path} {key : Int}
    (hunchanged : c.keyDidChange path key = false) :
    nearby schema c s t s key = nearby schema c s t t key := by
  have hnone : ¬ ModifiedNearby schema c (ChecksTable.depth c) key := by
    rw [← keyDidChange_iff hchecks path, hunchanged]
    simp
  funext y
  rw [nearby, nearby]
  split
  next h =>
    obtain ⟨hpath, hbefore, hafter⟩ := h
    obtain ⟨hstart, hnew⟩ := hfollowed y.1 (hchecks.related_of_within hchecks.root_mem hpath)
    exact (row_eq_of_notModified htables hstart hnew hrun
      (fun hmodified => hnone ⟨y, hpath, hmodified⟩) hbefore hafter).symm
  next => rfl

/-- The rows of a query with all that is near them. -/
noncomputable def withNearby
    (schema : Schema) (c : DeepChangeChecker) (s t g : TransactLogObserver × Group α Int)
    (rows : List (Int × (α × (Int → List Int)))) :
    List (Int × (Int × Int → Option (α × (Int → List Int)))) :=
  rows.map (fun x => (x.1, nearby schema c s t g x.1))

theorem withNearby_keys
    (schema : Schema) (c : DeepChangeChecker) (s t g : TransactLogObserver × Group α Int)
    (rows : List (Int × (α × (Int → List Int)))) :
    (withNearby schema c s t g rows).map Prod.fst = rows.map Prod.fst := by
  rw [withNearby, List.map_map]
  rfl

theorem tracks_withNearby
    {byKey : KeySort} {inTableOrder : Bool}
    (hfollowed : ∀ table ∈ keys c.relatedTables, Starts table s ∧
      EveryStep TransactLogObserver.step (NewKeys table (s.2.row table)) s writes)
    (hrun : run TransactLogObserver.step s writes = some t)
    (hchecks : ChecksTable schema tables c)
    (htables : c.tables = t.1.parseComplete.tables)
    (horder : inTableOrder = true →
      (shown.map Prod.fst).Pairwise (· ≤ ·) ∧ (shows.map Prod.fst).Pairwise (· ≤ ·))
    (path : Nat → Path) :
    Tracks Prod.fst
      (calculate byKey (shown.map Prod.fst) (shows.map Prod.fst) (c.keyDidChange path)
        inTableOrder)
      (withNearby schema c s t s shown) (withNearby schema c s t t shows) := by
  rw [← withNearby_keys schema c s t s shown, ← withNearby_keys schema c s t t shows]
  apply tracks_calculate
  · intro x hx y hy hkey hunchanged
    obtain ⟨x', _, rfl⟩ := List.mem_map.mp hx
    obtain ⟨y', _, rfl⟩ := List.mem_map.mp hy
    have hsame : x'.1 = y'.1 := hkey
    refine Prod.ext hkey ?_
    rw [hsame]
    exact nearby_eq hfollowed hrun hchecks htables hunchanged
  · rwa [withNearby_keys, withNearby_keys]

/--
**The change set that is calculated for a query, with what the observer knows at the
end of a log, tells how the rows it showed before became those it shows after; and of a
row that is not reported as inserted or modified, all objects as far as the checker
follows links hold what they held.**
-/
theorem calculated_from_log
    {byKey : KeySort} {inTableOrder : Bool}
    (hfollowed : ∀ table ∈ keys c.relatedTables, Starts table s ∧
      EveryStep TransactLogObserver.step (NewKeys table (s.2.row table)) s writes)
    (hrun : run TransactLogObserver.step s writes = some t)
    (hchecks : ChecksTable schema tables c)
    (htables : c.tables = t.1.parseComplete.tables)
    (hshown : ∀ x ∈ shown, s.2.row c.rootTable x.1 = some x.2)
    (hshows : ∀ x ∈ shows, t.2.row c.rootTable x.1 = some x.2)
    (horder : inTableOrder = true →
      (shown.map Prod.fst).Pairwise (· ≤ ·) ∧ (shows.map Prod.fst).Pairwise (· ≤ ·))
    (path : Nat → Path) :
    let change := calculate byKey (shown.map Prod.fst) (shows.map Prod.fst)
      (c.keyDidChange path) inTableOrder
    Tracks Prod.fst change shown shows ∧
      ∀ i x, shows[i]? = some x → i ∉ change.insertions.toFinset →
        i ∉ change.modifications.toFinset →
        ∀ y, Within (ObjectEdge schema c) ∅ (ChecksTable.depth c) (c.rootTable, x.1) y →
          s.2.row y.1 y.2 ≠ none → t.2.row y.1 y.2 ≠ none →
          t.2.row y.1 y.2 = s.2.row y.1 y.2 := by
  intro change
  refine ⟨tracks_calculate ?_ horder, ?_⟩
  · intro x hx y hy hkey hunchanged
    have hsame := congrFun (nearby_eq hfollowed hrun hchecks htables hunchanged)
      (c.rootTable, y.1)
    have hold : s.2.row c.rootTable y.1 = some x.2 := hkey ▸ hshown x hx
    have hrow := hshows y hy
    have hnear : Within (ObjectEdge schema c) ∅ (ChecksTable.depth c)
        (c.rootTable, y.1) (c.rootTable, y.1) := .here (Set.notMem_empty _)
    rw [nearby, nearby, if_pos ⟨hnear, by simp [hold], by simp [hrow]⟩,
      if_pos ⟨hnear, by simp [hold], by simp [hrow]⟩] at hsame
    simp only [hold, hrow, Option.some.injEq] at hsame
    exact Prod.ext hkey hsame
  · intro i x hx hinsertion hmodification y hpath hbefore hafter
    have hsame := (tracks_withNearby hfollowed hrun hchecks htables horder
      path).describes.unmodified i hinsertion hmodification
    rw [withNearby, withNearby, List.getElem?_map, List.getElem?_map, hx, Option.map_some] at hsame
    obtain ⟨x', _, hx'⟩ := Option.map_eq_some_iff.mp hsame.symm
    obtain ⟨hkey, hnear⟩ := Prod.mk.inj hx'
    rw [hkey] at hnear
    have hy := congrFun hnear y
    rw [nearby, nearby, if_pos ⟨hpath, hbefore, hafter⟩, if_pos ⟨hpath, hbefore, hafter⟩] at hy
    exact hy.symm

/-- An object of table 7 that lists one of table 8; both tables are followed. -/
def beforeLinked : TransactLogObserver × Group Nat Int :=
  ({ beforeLog.1 with
      lists := []
      tables := fun table => if table = 7 ∨ table = 8 then some .empty else none },
    { beforeLog.2 with
      objects := fun table key =>
        if table = 7 ∧ key = 1 then some 10 else if table = 8 ∧ key = 5 then some 20 else none
      lists := fun table _ _ => if table = 7 then [5] else [] })

def linkedWrites : List (Write Nat Int) :=
  [.selectTable 8, .modifyObject 0 5 21]

def afterLinked : TransactLogObserver × Group Nat Int :=
  (run TransactLogObserver.step beforeLinked linkedWrites).get rfl

def linkedSchema : Schema where
  columns := fun table => if table = 7 then [⟨3, .linkList⟩] else []
  target := fun _ _ => 8

def linkedChecker : DeepChangeChecker where
  tables := afterLinked.1.parseComplete.tables
  rootTable := 7
  relatedTables := linkedSchema.relatedTables {7, 8} 7
  links :=
    { target := linkedSchema.target
      link := fun _ _ _ => none
      linklist := afterLinked.2.lists }

theorem checksTable_linkedChecker :
    ChecksTable linkedSchema {7, 8} linkedChecker where
  related := rfl
  target := rfl
  closed := by
    rintro table _ target ⟨link, _, rfl⟩
    exact Finset.mem_insert_of_mem (Finset.mem_singleton_self 8)
  root := by decide
  columns := by decide

theorem newKeys_linkedWrites (table : Int) :
    EveryStep TransactLogObserver.step (NewKeys table (beforeLinked.2.row table))
      beforeLinked linkedWrites := by
  apply newKeys_of_forall
  intro key content hmem
  simp [linkedWrites] at hmem

/-- The object is reported as modified, because the one that it lists was. -/
theorem calculated_from_log_linkedWrites :
    Tracks Prod.fst
      (calculate .stable [1] [1] (linkedChecker.keyDidChange (fun _ => ⟨0, 0, false⟩)) true)
      [((1 : Int), ((10 : Nat), fun _ : Int => [(5 : Int)]))] [(1, (10, fun _ => [5]))] ∧
    linkedChecker.keyDidChange (fun _ => ⟨0, 0, false⟩) 1 = true := by
  have hkeys : keys linkedChecker.relatedTables = [7, 8] := by decide
  have hfollowed : ∀ table ∈ keys linkedChecker.relatedTables,
      Starts table beforeLinked ∧
        EveryStep TransactLogObserver.step (NewKeys table (beforeLinked.2.row table))
          beforeLinked linkedWrites := by
    intro table htable
    rw [hkeys] at htable
    refine ⟨⟨?_, rfl⟩, newKeys_linkedWrites table⟩
    have hfollow : table = 7 ∨ table = 8 := by simpa using htable
    exact if_pos hfollow
  have hrun : run TransactLogObserver.step beforeLinked linkedWrites = some afterLinked :=
    (Option.some_get _).symm
  have hrow : ∀ x ∈ [((1 : Int), ((10 : Nat), fun _ : Int => [(5 : Int)]))],
      beforeLinked.2.row linkedChecker.rootTable x.1 = some x.2 ∧
        afterLinked.2.row linkedChecker.rootTable x.1 = some x.2 := by
    intro x hx
    rw [List.mem_singleton.mp hx]
    exact ⟨rfl, rfl⟩
  refine ⟨?_, by decide⟩
  exact (calculated_from_log hfollowed hrun checksTable_linkedChecker rfl
    (fun x hx => (hrow x hx).1) (fun x hx => (hrow x hx).2) (fun _ => by decide)
    (fun _ => ⟨0, 0, false⟩)).1

end Calculated

end ObjectStore
end NotVK
