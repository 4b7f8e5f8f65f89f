import NotVK.ObjectStore.DeepChangeChecker
import NotVK.ObjectStore.ObservedChanges

/-!
# What a list notifier reports

The observer has put what happened to the list into the notifier's change.  When the
list has objects, `run` adds the rows whose objects have changed.  When the list is gone,
all its rows are reported as deleted, and what was put into the change before stays.
-/

namespace NotVK
namespace ObjectStore

open Indices Runs BoundedReach TransactLogObserver

universe u

section ListNotifier

variable {β : Type u}

structure ListNotifier where
  prevSize : Nat
  change : CollectionChangeBuilder

namespace ListNotifier

/-- The body of both loops; none when `get` is out of range. -/
def visit
    (objectDidChange : β → Search → Bool × Search) (list : List β)
    (r : CollectionChangeBuilder × Search) (i : Nat) :
    Option (CollectionChangeBuilder × Search) :=
  if r.1.modifications.contains i then some r
  else
    list[i]?.map (fun obj =>
      let answer := objectDidChange obj r.2
      (if answer.1 then { r.1 with modifications := r.1.modifications.add i } else r.1,
        answer.2))

/-- `run()`.  The list is none when it is not attached, and the modification checker is
none when the list does not have objects. -/
def run
    (n : ListNotifier)
    (objectDidChange : Option (β → Search → Bool × Search))
    (list : Option (List β)) (s : Search) : Option (ListNotifier × Search) :=
  match list with
  | none =>
      if n.prevSize ≠ 0 then
        some (⟨0, { n.change with deletions := .set n.prevSize }⟩, s)
      else some ({ n with change := .empty }, s)
  | some list =>
      match objectDidChange with
      | none => some ({ n with prevSize := list.length }, s)
      | some objectDidChange => do
          let r ← (List.range list.length).foldlM (visit objectDidChange list) (n.change, s)
          let r ← (r.1.moves.map Move.toIndex).foldlM (visit objectDidChange list) r
          some (⟨list.length, r.1⟩, r.2)

end ListNotifier

end ListNotifier

section Visits

variable {β : Type u}
variable {did : β → Search → Bool × Search}
variable {I : Search → Prop} {P : β → Prop}
variable {list : List β} {b : CollectionChangeBuilder} {s : Search}

/-- The function tells whether `P` holds, whatever it was asked before. -/
def Tells
    (did : β → Search → Bool × Search) (I : Search → Prop) (P : β → Prop) : Prop :=
  ∀ s, I s → ∀ x, ((did x s).1 = true ↔ P x) ∧ I (did x s).2

/-- `P` holds of the row at an index. -/
def RowIs (P : β → Prop) (list : List β) (i : Nat) : Prop :=
  ∃ x, list[i]? = some x ∧ P x

theorem exists_visit
    (htells : Tells did I P)
    (hs : I s)
    {i : Nat}
    (hi : i < list.length) :
    ∃ M s', ListNotifier.visit did list (b, s) i = some ({ b with modifications := M }, s') ∧
      I s' ∧
      (∀ j, j ∈ b.modifications.toFinset → j ∈ M.toFinset) ∧
      (∀ j, j ∈ M.toFinset → j ∈ b.modifications.toFinset ∨ (j = i ∧ RowIs P list j)) ∧
      (RowIs P list i → i ∈ M.toFinset) := by
  rw [ListNotifier.visit]
  split
  next hcontains =>
    rw [IndexSet.contains_iff] at hcontains
    exact ⟨b.modifications, s, rfl, hs, fun _ => id, fun _ => .inl, fun _ => hcontains⟩
  next =>
    obtain ⟨htrue, hinv⟩ := htells s hs list[i]
    rw [List.getElem?_eq_getElem hi, Option.map_some]
    cases hanswer : (did list[i] s).1 with
    | false =>
        refine ⟨b.modifications, _, by simp [hanswer], hinv, fun _ => id, fun _ => .inl, ?_⟩
        rintro ⟨x, hx, hP⟩
        rw [List.getElem?_eq_getElem hi] at hx
        cases hx
        rw [htrue.mpr hP] at hanswer
        cases hanswer
    | true =>
        refine ⟨b.modifications.add i, _, by simp [hanswer], hinv, ?_, ?_, ?_⟩
        · intro j hj
          rw [IndexSet.toFinset_add]
          exact Finset.mem_insert_of_mem hj
        · intro j hj
          rw [IndexSet.toFinset_add] at hj
          rcases Finset.mem_insert.mp hj with rfl | hj
          · exact .inr ⟨rfl, _, List.getElem?_eq_getElem hi, htrue.mp hanswer⟩
          · exact .inl hj
        · intro _
          rw [IndexSet.toFinset_add]
          exact Finset.mem_insert_self _ _

/-- A loop adds the rows it looks at that `P` holds of. -/
theorem exists_visits
    (htells : Tells did I P)
    (hs : I s)
    {indices : List Nat}
    (hindices : ∀ i ∈ indices, i < list.length) :
    ∃ M s', indices.foldlM (ListNotifier.visit did list) (b, s) =
        some ({ b with modifications := M }, s') ∧
      I s' ∧
      ∀ j, j ∈ M.toFinset ↔
        j ∈ b.modifications.toFinset ∨ (j ∈ indices ∧ RowIs P list j) := by
  induction indices generalizing b s with
  | nil => exact ⟨b.modifications, s, rfl, hs, by simp⟩
  | cons i indices ih =>
      obtain ⟨M, s', hvisit, hs', hmono, honly, hrow⟩ :=
        exists_visit (b := b) htells hs (hindices i List.mem_cons_self)
      obtain ⟨M', s'', hvisits, hs'', hmem⟩ :=
        ih (b := { b with modifications := M }) hs'
          (fun j hj => hindices j (List.mem_cons_of_mem _ hj))
      refine ⟨M', s'', ?_, hs'', ?_⟩
      · rw [List.foldlM_cons, hvisit]
        exact hvisits
      · intro j
        rw [hmem, List.mem_cons]
        constructor
        · rintro (hj | ⟨hj, hP⟩)
          · rcases honly j hj with hj | ⟨rfl, hP⟩
            · exact .inl hj
            · exact .inr ⟨.inl rfl, hP⟩
          · exact .inr ⟨.inr hj, hP⟩
        · rintro (hj | ⟨rfl | hj, hP⟩)
          · exact .inl (hmono j hj)
          · exact .inl (hrow hP)
          · exact .inr ⟨hj, hP⟩

/-- The rows that `P` holds of are added, and nothing else changes: the loop over the
moves has nothing left to add. -/
theorem exists_run
    {n : ListNotifier}
    (htells : Tells did I P)
    (hs : I s)
    (hmoves : ∀ m ∈ n.change.moves, m.toIndex < list.length) :
    ∃ M s', n.run (some did) (some list) s =
        some (⟨list.length, { n.change with modifications := M }⟩, s') ∧
      I s' ∧
      ∀ j, j ∈ M.toFinset ↔ j ∈ n.change.modifications.toFinset ∨ RowIs P list j := by
  have hrange : ∀ i ∈ List.range list.length, i < list.length :=
    fun _ => List.mem_range.mp
  have hmoved : ∀ i ∈ n.change.moves.map Move.toIndex, i < list.length := by
    intro i hi
    obtain ⟨m, hm, rfl⟩ := List.mem_map.mp hi
    exact hmoves m hm
  obtain ⟨M, s', hfirst, hs', hmem⟩ := exists_visits (b := n.change) htells hs hrange
  obtain ⟨M', s'', hsecond, hs'', hmem'⟩ :=
    exists_visits (b := { n.change with modifications := M }) htells hs' hmoved
  refine ⟨M', s'', ?_, hs'', ?_⟩
  · rw [ListNotifier.run]
    simp only [hfirst, Option.bind_eq_bind, Option.bind_some, hsecond]
  · intro j
    have hlt : RowIs P list j → j < list.length := by
      rintro ⟨x, hx, _⟩
      exact (List.getElem?_eq_some_iff.mp hx).1
    rw [hmem', hmem, List.mem_range]
    tauto

end Visits

section Attached

open DeepChangeChecker

variable {α : Type u}
variable {e : ListChangeInfo}
variable {s t : TransactLogObserver × Group α Int} {writes : List (Write α Int)}
variable {schema : Schema} {tables : Finset Int} {c : DeepChangeChecker}

/-- An object of a related table that the log did not modify is what it was. -/
theorem row_eq_of_notModified
    (htables : c.tables = t.1.parseComplete.tables)
    {y : Int × Int}
    (hstart : Starts y.1 s)
    (hnew : EveryStep TransactLogObserver.step (NewKeys y.1 (s.2.row y.1)) s writes)
    (hrun : run TransactLogObserver.step s writes = some t)
    (hy : ¬ c.Modified y)
    (hbefore : s.2.row y.1 y.2 ≠ none)
    (hafter : t.2.row y.1 y.2 ≠ none) :
    t.2.row y.1 y.2 = s.2.row y.1 y.2 := by
  refine row_eq_of_checker (run_follows hstart hnew hrun) hbefore hafter ?_
  rw [Modified, Bool.not_eq_true, modificationsContains, htables] at hy
  split at hy
  next hnone =>
    rw [hnone]
    rfl
  next changes hchanges =>
    rw [hchanges]
    simp only [modificationChecker]
    split
    next => rfl
    next => exact hy

/--
**At the end of a log a list notifier tells how its list became what it is, and a row
that it does not report as modified has, as far as the checker follows links from it,
only objects that hold what they held.**
-/
theorem list_from_log
    (hstart : StartsList e s)
    (hpresent : EveryStep TransactLogObserver.step (fun _ _ t => Present e t.2) s writes)
    (hfollowed : ∀ table ∈ keys c.relatedTables, Starts table s ∧
      EveryStep TransactLogObserver.step (NewKeys table (s.2.row table)) s writes)
    (hrun : run TransactLogObserver.step s writes = some t)
    (hchecks : ChecksTable schema tables c)
    (htables : c.tables = t.1.parseComplete.tables)
    (prevSize : Nat) (path : Nat → Path) :
    let old := s.2.lists e.tableKey e.rowKey e.colKey
    let new := t.2.lists e.tableKey e.rowKey e.colKey
    ∃ n' s', ListNotifier.run ⟨prevSize, t.1.parseComplete.builders e.changes⟩
        (some c.modificationCheck) (some new) ⟨fun _ => ∅, path⟩ = some (n', s') ∧
      n'.prevSize = new.length ∧
      Tracks (fun _ => ()) n'.change old new ∧
      ∀ i key, new[i]? = some key → i ∉ n'.change.modifications.toFinset →
        ∀ y, Within (ObjectEdge schema c) ∅ (ChecksTable.depth c) (c.rootTable, key) y →
          s.2.row y.1 y.2 ≠ none → t.2.row y.1 y.2 ≠ none →
          t.2.row y.1 y.2 = s.2.row y.1 y.2 := by
  intro old new
  have htracks : Tracks (fun _ => ()) (t.1.parseComplete.builders e.changes) old new :=
    (observed_list hstart hpresent hrun).2
  have hmoves : ∀ m ∈ (t.1.parseComplete.builders e.changes).moves,
      m.toIndex < new.length :=
    fun m hm => htracks.describes.insertions_lt _ (htracks.moves.sound m hm).to_mem
  have htells : Tells c.modificationCheck (OnPath c [])
      (ModifiedNearby schema c (ChecksTable.depth c)) :=
    fun _ hs key => hchecks.modificationCheck_iff hs key
  obtain ⟨M, s', hrows, _, hmem⟩ :=
    exists_run (n := ⟨prevSize, t.1.parseComplete.builders e.changes⟩)
      htells (OnPath.start path) hmoves
  have hsubset : (t.1.parseComplete.builders e.changes).modifications.toFinset ⊆
      M.toFinset := fun i hi => (hmem i).mpr (.inl hi)
  have hlt : ∀ i ∈ M.toFinset, i < new.length := by
    intro i hi
    rcases (hmem i).mp hi with hi | ⟨x, hx, _⟩
    · exact htracks.describes.modifications_lt i hi
    · exact (List.getElem?_eq_some_iff.mp hx).1
  refine ⟨_, s', hrows, rfl,
    ⟨htracks.describes.modified hsubset hlt, htracks.moves.modified hsubset⟩, ?_⟩
  intro i key hkey hi y hpath hbefore hafter
  obtain ⟨hfirst, hnew⟩ := hfollowed y.1 (hchecks.related_of_within hchecks.root_mem hpath)
  refine row_eq_of_notModified htables hfirst hnew hrun ?_ hbefore hafter
  intro hmodified
  exact hi ((hmem i).mpr (.inr ⟨key, hkey, y, hpath, hmodified⟩))

/-- The objects of `beforeLog`, one with a list of both. -/
def beforeLinkWrites : TransactLogObserver × Group Nat Int :=
  (beforeLog.1,
    { beforeLog.2 with lists := fun _ key _ => if key = 1 then [2, 1] else [] })

/-- One object is modified, and the list has the other one more. -/
def linkWrites : List (Write Nat Int) :=
  [.selectTable 7, .modifyObject 0 2 11, .selectList 3 1, .listInsert 0 1]

def afterLinkWrites : TransactLogObserver × Group Nat Int :=
  (run TransactLogObserver.step beforeLinkWrites linkWrites).get rfl

/-- Table 7 has lists of its own objects. -/
def selfLinked : Schema where
  columns := fun table => if table = 7 then [⟨3, .linkList⟩] else []
  target := fun _ _ => 7

def linkChecker : DeepChangeChecker where
  tables := afterLinkWrites.1.parseComplete.tables
  rootTable := 7
  relatedTables := selfLinked.relatedTables {7} 7
  links :=
    { target := selfLinked.target
      link := fun _ _ _ => none
      linklist := afterLinkWrites.2.lists }

theorem checksTable_linkChecker :
    ChecksTable selfLinked {7} linkChecker where
  related := rfl
  target := rfl
  closed := by
    rintro table _ target ⟨link, _, rfl⟩
    exact Finset.mem_singleton_self 7
  root := Finset.mem_singleton_self 7
  columns := by
    intro t ht t' ht' _ _ _ _ _
    rw [Finset.mem_singleton.mp ht, Finset.mem_singleton.mp ht']

theorem newKeys_linkWrites :
    EveryStep TransactLogObserver.step (NewKeys 7 (beforeLinkWrites.2.row 7))
      beforeLinkWrites linkWrites := by
  apply newKeys_of_forall
  intro key content hmem
  simp [linkWrites] at hmem

theorem list_from_log_linkWrites :
    ∃ n' s', ListNotifier.run ⟨2, afterLinkWrites.1.parseComplete.builders 0⟩
        (some linkChecker.modificationCheck) (some [(1 : Int), 2, 1])
        ⟨fun _ => ∅, fun _ => ⟨0, 0, false⟩⟩ = some (n', s') ∧
      Tracks (fun _ => ()) n'.change [(2 : Int), 1] [1, 2, 1] := by
  have hstart : StartsList ⟨7, 1, 3, 0⟩ beforeLinkWrites := by
    refine ⟨List.mem_singleton_self _, ?_, Option.some_ne_none _, rfl, rfl⟩
    intro l hl _
    exact List.mem_singleton.mp hl
  have hthere : ∀ s : TransactLogObserver × Group Nat Int,
      s.2.objects 7 1 = some 10 → Present ⟨7, 1, 3, 0⟩ s.2 := by
    intro s hs
    simp [Present, hs]
  have hpresent : EveryStep TransactLogObserver.step
      (fun _ _ t => Present ⟨7, 1, 3, 0⟩ t.2) beforeLinkWrites linkWrites :=
    (everyStep_cons rfl).mpr ⟨hthere _ rfl, (everyStep_cons rfl).mpr ⟨hthere _ rfl,
      (everyStep_cons rfl).mpr ⟨hthere _ rfl, (everyStep_cons rfl).mpr ⟨hthere _ rfl,
        trivial⟩⟩⟩⟩
  have hkeys : keys linkChecker.relatedTables = [7] := by decide
  have hfollowed : ∀ table ∈ keys linkChecker.relatedTables,
      Starts table beforeLinkWrites ∧
        EveryStep TransactLogObserver.step (NewKeys table (beforeLinkWrites.2.row table))
          beforeLinkWrites linkWrites := by
    intro table htable
    rw [hkeys, List.mem_singleton] at htable
    subst htable
    exact ⟨⟨rfl, rfl⟩, newKeys_linkWrites⟩
  have hrun : run TransactLogObserver.step beforeLinkWrites linkWrites =
      some afterLinkWrites := (Option.some_get _).symm
  obtain ⟨n', s', hrows, _, htracks, _⟩ := list_from_log hstart hpresent hfollowed hrun
    checksTable_linkChecker rfl 2 (fun _ => ⟨0, 0, false⟩)
  exact ⟨n', s', hrows, htracks⟩

end Attached

section Detached

variable {β : Type u}

variable {n : ListNotifier} {old : List β}

/-- A change of a list that is empty now has no insertions, modifications or moves. -/
theorem tracks_detached_iff
    (hsize : n.prevSize = old.length) :
    Tracks (fun _ => ()) { n.change with deletions := .set n.prevSize } old []
      ↔
    n.change.insertions.toFinset = ∅ ∧
      n.change.modifications.toFinset = ∅ ∧ n.change.moves = [] := by
  constructor
  · rintro ⟨hdescribes, hmoves⟩
    have hinsertions : n.change.insertions.toFinset = ∅ :=
      Finset.eq_empty_of_forall_notMem
        (fun i hi => Nat.not_lt_zero i (hdescribes.insertions_lt i hi))
    refine ⟨hinsertions, ?_, ?_⟩
    · exact Finset.eq_empty_of_forall_notMem
        (fun i hi => Nat.not_lt_zero i (hdescribes.modifications_lt i hi))
    · refine List.eq_nil_iff_forall_not_mem.mpr (fun m hm => ?_)
      have hto := (hmoves.sound m hm).to_mem
      simp only [CollectionChangeSet.change, hinsertions] at hto
      cases hto
  · rintro ⟨hinsertions, hmodifications, hmoves⟩
    refine ⟨?_, ?_⟩
    · simp only [CollectionChangeSet.change, hinsertions, hmodifications,
        IndexSet.toFinset_set, hsize]
      exact Change.Describes.clear old
    · simp only [hmoves]
      exact Move.AllSound.nil

/-- The first run after the list has gone. -/
theorem run_detached
    (hsize : n.prevSize ≠ 0)
    (objectDidChange : Option (β → Search → Bool × Search)) (s : Search) :
    n.run objectDidChange none s =
      some (⟨0, { n.change with deletions := .set n.prevSize }⟩, s) := by
  rw [ListNotifier.run]
  simp only [if_pos hsize]

/-- Any later run. -/
theorem run_detached_again
    (hsize : n.prevSize = 0)
    (objectDidChange : Option (β → Search → Bool × Search)) (s : Search) :
    n.run objectDidChange none s = some (⟨0, .empty⟩, s) := by
  rw [ListNotifier.run]
  simp only [hsize, ne_eq, not_true_eq_false, if_false]

/-- An object is put into the list, and then all objects go. -/
def detachWrites : List (Write Nat Int) :=
  [.selectTable 7, .selectList 3 1, .listInsert 0 2, .clearTable 2]

def afterDetachWrites : TransactLogObserver × Group Nat Int :=
  (run TransactLogObserver.step beforeLinkWrites detachWrites).get rfl

end Detached

end ObjectStore
end NotVK
