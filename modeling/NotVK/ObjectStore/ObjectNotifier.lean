import NotVK.ObjectStore.ObservedChanges

/-!
# What an object notifier reports

The object is reported as a list of one row.  When it has gone, the notifier does not
give it up: assigning `{}` to its keys leaves 0 in them, which are keys like any other.
-/

namespace NotVK
namespace ObjectStore

open Indices Runs TransactLogObserver

universe u v

section ObjectNotifier

/-- `TableKey::null_value`. -/
def nullTableKey : Int := 2147483647

structure ObjectNotifier where
  table : Int
  obj : Int
  change : CollectionChangeBuilder

namespace ObjectNotifier

variable (n : ObjectNotifier)

/-- `run()`, with the tables of `m_info`. -/
def run (tables : Int → Option ObjectChangeSet) : ObjectNotifier :=
  if n.table = nullTableKey then n
  else
    match tables n.table with
    | none => n
    | some changes =>
        if changes.deletionsContains n.obj then
          { n with
            -- the empty braces are taken for an integer
            table := 0
            obj := 0
            change := { n.change with deletions := n.change.deletions.add 0 } }
        else
          match changes.getColumnsModified n.obj with
          | none => n
          | some columns =>
              { n with
                change :=
                  { n.change with
                    modifications := n.change.modifications.add 0
                    columns := fun col =>
                      if col ∈ columns then (n.change.columns col).add 0
                      else n.change.columns col } }

end ObjectNotifier

end ObjectNotifier

section Reported

variable {ρ : Type u}

/-- One row goes. -/
theorem tracks_deleted (row : ρ) :
    Tracks (fun _ => ()) { CollectionChangeSet.empty with deletions := IndexSet.empty.add 0 }
      [row] [] := by
  refine ⟨?_, Move.AllSound.nil⟩
  have hclear : (Change.mk (Finset.range 1) ∅ ∅).Describes (fun _ => ()) [row] [] :=
    Change.Describes.clear [row]
  simpa [CollectionChangeSet.change, CollectionChangeSet.empty] using hclear

/-- One row holds something else. -/
theorem tracks_modified (row row' : ρ) (columns : Int → IndexSet) :
    Tracks (fun _ => ())
      { CollectionChangeSet.empty with
        modifications := IndexSet.empty.add 0
        columns := columns }
      [row] [row'] := by
  refine ⟨?_, Move.AllSound.nil⟩
  have hmodify : (Change.mk ∅ ∅ {0}).Describes (fun _ => ()) [row] [row'] :=
    Change.Describes.modify [row] Nat.one_pos rfl
  simpa [CollectionChangeSet.change, CollectionChangeSet.empty] using hmodify

variable {old new : Int → Option ρ} {table obj : Int}

/-- What a notifier without changes makes of a log under which its object was
`old obj` before and is `new obj` now. -/
structure Reports
    (old new : Int → Option ρ) (table obj : Int) (n : ObjectNotifier) : Prop where
  deleted : 0 ∈ n.change.deletions.toFinset ↔ new obj = none
  tracks : Tracks (fun _ => ()) n.change (old obj).toList (new obj).toList
  kept : new obj ≠ none → n.table = table ∧ n.obj = obj
  gone : new obj = none → n.table = 0 ∧ n.obj = 0

theorem reports_unchanged
    (hobj : old obj ≠ none)
    (hsame : new obj = old obj) :
    Reports old new table obj ⟨table, obj, .empty⟩ := by
  have hnew : new obj ≠ none := by rwa [hsame]
  refine ⟨?_, ?_, fun _ => ⟨rfl, rfl⟩, fun hnone => absurd hnone hnew⟩
  · simp [CollectionChangeSet.empty, hnew]
  · rw [hsame]
    exact tracks_empty _

/-- Changes that are exact are reported as what they are. -/
theorem reports_run
    {tables : Int → Option ObjectChangeSet} {changes : ObjectChangeSet}
    (htable : table ≠ nullTableKey)
    (hexact : Exact old new changes)
    (htables : tables table = some changes)
    (hobj : old obj ≠ none) :
    Reports old new table obj (ObjectNotifier.run ⟨table, obj, .empty⟩ tables) := by
  obtain ⟨row, hrow⟩ := Option.ne_none_iff_exists'.mp hobj
  have hdeleted := hexact.deletions obj hobj
  rw [ObjectNotifier.run]
  simp only [if_neg htable, htables]
  split
  next hgone =>
    rw [hdeleted] at hgone
    refine ⟨by simp [hgone], ?_, fun hnew => absurd hgone hnew, fun _ => ⟨rfl, rfl⟩⟩
    rw [hrow, hgone]
    exact tracks_deleted row
  next hthere =>
    rw [hdeleted] at hthere
    obtain ⟨row', hrow'⟩ := Option.ne_none_iff_exists'.mp hthere
    split
    next hnone =>
      rw [ObjectChangeSet.getColumnsModified_eq_none] at hnone
      exact reports_unchanged hobj (hexact.unmodified obj hobj hthere hnone)
    next =>
      refine ⟨?_, ?_, fun _ => ⟨rfl, rfl⟩, fun hnone => absurd hnone hthere⟩
      · simp [CollectionChangeSet.empty, hthere]
      · rw [hrow, hrow']
        exact tracks_modified row row' _

end Reported

section FromLog

variable {α : Type u} {β : Type v}
variable {table obj : Int}
variable {s t : TransactLogObserver × Group α β} {writes : List (Write α β)}

/--
**At the end of a log an object notifier reports its object as deleted exactly when it
has gone, and tells how the one row became the one row or none; when the object has
gone, the notifier is left with the object 0 of table 0.**
-/
theorem object_from_log
    (htable : table ≠ nullTableKey)
    (hstart : Starts table s)
    (hnew : EveryStep TransactLogObserver.step (NewKeys table (s.2.row table)) s writes)
    (hrun : run TransactLogObserver.step s writes = some t)
    (hobj : s.2.row table obj ≠ none) :
    Reports (s.2.row table) (t.2.row table) table obj
      (ObjectNotifier.run ⟨table, obj, .empty⟩ t.1.parseComplete.tables) := by
  have hexact := (run_follows hstart hnew hrun).exact_parseComplete
  cases hentry : t.1.parseComplete.tables table with
  | some entry =>
      rw [hentry] at hexact
      exact reports_run htable hexact hentry hobj
  | none =>
      rw [hentry] at hexact
      rw [ObjectNotifier.run]
      simp only [if_neg htable, hentry]
      exact reports_unchanged hobj (congrFun (hexact.eq_of_isEmpty rfl).symm obj)

/-- One of the objects has gone, and the other is there. -/
theorem object_from_log_objectWrites :
    Reports (beforeLog.2.row 7) (afterLog.2.row 7) 7 2
        (ObjectNotifier.run ⟨7, 2, .empty⟩ afterLog.1.parseComplete.tables) ∧
      (ObjectNotifier.run ⟨7, 2, .empty⟩ afterLog.1.parseComplete.tables).table = 0 ∧
      Reports (beforeLog.2.row 7) (afterLog.2.row 7) 7 1
        (ObjectNotifier.run ⟨7, 1, .empty⟩ afterLog.1.parseComplete.tables) := by
  have hrun : run TransactLogObserver.step beforeLog objectWrites = some afterLog :=
    (Option.some_get _).symm
  have hgone : beforeLog.2.row 7 2 ≠ none := Option.some_ne_none _
  have hthere : beforeLog.2.row 7 1 ≠ none := Option.some_ne_none _
  have hreports := object_from_log (by decide) ⟨rfl, rfl⟩ newKeys_objectWrites hrun hgone
  refine ⟨hreports, (hreports.gone rfl).1, ?_⟩
  exact object_from_log (by decide) ⟨rfl, rfl⟩ newKeys_objectWrites hrun hthere

end FromLog

end ObjectStore
end NotVK
