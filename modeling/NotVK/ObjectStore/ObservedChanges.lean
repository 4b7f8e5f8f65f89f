import NotVK.ObjectStore.TransactLogObserver

/-!
# What the observer knows at the end of a log

The changes of a followed table tell how its objects became what they are, whatever
was done in which order, and the builder of a watched list tells how the list became
what it is, as long as its object is there.  The notifiers work on these changes.
-/

namespace NotVK
namespace ObjectStore

open Indices Runs SwapRemoval TransactLogObserver

universe u v

section Tables

variable {α : Type u} {β : Type v}
variable {table : Int}
variable {s t : TransactLogObserver × Group α β} {writes : List (Write α β)}

/-- At the start of a log nothing is known of the table, and none is selected. -/
structure Starts (table : Int) (s : TransactLogObserver × Group α β) : Prop where
  changes : s.1.tables table = some .empty
  unselected : s.2.table = none

theorem Starts.follows
    (h : Starts table s) :
    Follows table (s.2.row table) s.1 s.2 := by
  refine ⟨?_, _, h.changes, Exact.refl _, ?_⟩
  · intro t ht
    rw [h.unselected] at ht
    cases ht
  · intro ht
    rw [h.unselected] at ht
    cases ht

/-- Invariant: the observer knows how the objects came from `old`. -/
def Followed
    (table : Int) (old : Int → Option (α × (Int → List β)))
    (t : TransactLogObserver × Group α β) : Prop :=
  Follows table old t.1 t.2

theorem run_follows
    (hstart : Starts table s)
    (hnew : EveryStep TransactLogObserver.step (NewKeys table (s.2.row table)) s writes)
    (hrun : run TransactLogObserver.step s writes = some t) :
    Follows table (s.2.row table) t.1 t.2 := by
  have hfirst : Followed table (s.2.row table) s := hstart.follows
  have hinv : Followed table (s.2.row table) t := by
    refine run_invariant_of_everyStep ?_ hfirst hnew hrun
    intro _ _ _ h hg hstep
    exact Follows.step h hg hstep
  exact hinv

/--
**Whatever a log does to a table, in whatever order and between what writes to other
tables, its change set tells exactly which objects came, which went and, among those
that stayed, which may hold something else.**
-/
theorem observed_objects
    (hstart : Starts table s)
    (hnew : EveryStep TransactLogObserver.step (NewKeys table (s.2.row table)) s writes)
    (hrun : run TransactLogObserver.step s writes = some t) :
    ∃ changes, t.1.tables table = some changes ∧
      Exact (s.2.row table) (t.2.row table) changes := by
  obtain ⟨changes, hchanges, hexact, _⟩ := (run_follows hstart hnew hrun).changes
  exact ⟨changes, hchanges, hexact⟩

/-- Two objects with lists, and an observer of their table and of one of the lists. -/
def beforeLog : TransactLogObserver × Group Nat Int where
  fst :=
    { lists := [⟨7, 1, 3, 0⟩]
      tables := fun table => if table = 7 then some .empty else none
      trackAll := false
      schemaChanged := false
      builders := fun _ => .empty
      currentTable := none
      activeList := none }
  snd :=
    { objects := fun table key =>
        if table = 7 ∧ (key = 1 ∨ key = 2) then some 10 else none
      lists := fun _ _ _ => [4, 5]
      table := none
      list := none }

/-- One object comes, one is modified and one goes. -/
def objectWrites : List (Write Nat Int) :=
  [.selectTable 7, .createObject 3 30, .modifyObject 0 1 11, .removeObject 2]

/-- Objects are created under new keys when that holds of all that are written. -/
theorem newKeys_of_forall
    {old : Int → Option (α × (Int → List β))}
    (h : ∀ key content, .createObject key content ∈ writes → old key = none) :
    EveryStep TransactLogObserver.step (NewKeys table old) s writes := by
  apply everyStep_of_split
  intro pre w post _ _ hsplit _ _ key content hw _
  apply h key content
  rw [hsplit, ← hw]
  exact List.mem_append_right _ List.mem_cons_self

theorem newKeys_objectWrites :
    EveryStep TransactLogObserver.step (NewKeys 7 (beforeLog.2.row 7)) beforeLog
      objectWrites := by
  apply newKeys_of_forall
  intro key content hmem
  simp only [objectWrites, List.mem_cons, reduceCtorEq, false_or, or_false,
    Write.createObject.injEq, List.not_mem_nil] at hmem
  rw [hmem.1]
  rfl

theorem observed_objects_objectWrites :
    ∃ t, run TransactLogObserver.step beforeLog objectWrites = some t ∧
      ∃ changes, t.1.tables 7 = some changes ∧
        Exact (beforeLog.2.row 7) (t.2.row 7) changes := by
  obtain ⟨t, hrun⟩ : ∃ t, run TransactLogObserver.step beforeLog objectWrites = some t :=
    ⟨_, rfl⟩
  exact ⟨t, hrun, observed_objects ⟨rfl, rfl⟩ newKeys_objectWrites hrun⟩

/-- A table that is dropped at the end of the log is one that nothing happened to. -/
theorem Follows.exact_parseComplete
    {o : TransactLogObserver} {g : Group α β} {old : Int → Option (α × (Int → List β))}
    (h : Follows table old o g) :
    Exact old (g.row table) ((o.parseComplete.tables table).getD .empty) := by
  obtain ⟨changes, hchanges, hexact, _⟩ := h.changes
  simp only [parseComplete, hchanges]
  by_cases hempty : changes.isEmpty = true
  · rw [Option.filter_some_neg (by simpa using hempty), hexact.eq_of_isEmpty hempty]
    exact Exact.refl _
  · rw [Option.filter_some_pos (by simpa using hempty)]
    exact hexact

/-- At the end of the log, an object that is not said to be modified is what it was. -/
theorem row_eq_of_checker
    {o : TransactLogObserver} {g : Group α β} {old : Int → Option (α × (Int → List β))}
    (h : Follows table old o g)
    {obj : Int}
    (hold : old obj ≠ none)
    (hnew : g.row table obj ≠ none)
    (hchecker : modificationChecker (o.parseComplete.tables table) obj = false) :
    g.row table obj = old obj := by
  refine h.exact_parseComplete.unmodified obj hold hnew ?_
  cases hchanges : o.parseComplete.tables table with
  | none => simp [ObjectChangeSet.modificationsContains, ObjectChangeSet.empty]
  | some changes =>
      rw [hchanges, modificationChecker] at hchecker
      rw [Option.getD_some]
      split at hchecker
      next hnone => simp [ObjectChangeSet.modificationsContains, hnone]
      next => exact hchecker

/-- The version after `objectWrites`. -/
def afterLog : TransactLogObserver × Group Nat Int :=
  (run TransactLogObserver.step beforeLog objectWrites).get rfl

end Tables

section Lists

variable {α : Type u} {β : Type v}
variable {e : ListChangeInfo} {old : List β}
variable {o : TransactLogObserver} {g g' : Group α β}

/-- Where the list of an entry is. -/
def ListChangeInfo.list (l : ListChangeInfo) : Int × Int × Int :=
  (l.tableKey, l.rowKey, l.colKey)

/-- No other entry is for the same list, or has the same builder. -/
def Unique (e : ListChangeInfo) (lists : List ListChangeInfo) : Prop :=
  ∀ l ∈ lists, l.list = e.list ∨ l.changes = e.changes → l = e

/-- The object of an entry is there. -/
def Present (e : ListChangeInfo) (g : Group α β) : Prop :=
  g.objects e.tableKey e.rowKey ≠ none

/-- The builder of an entry tells how its list came from `old`. -/
structure Watches
    (e : ListChangeInfo) (old : List β) (o : TransactLogObserver) (g : Group α β) :
    Prop where
  current : ∀ t, g.table = some t → o.currentTable = some t
  mem : e ∈ o.lists
  unique : Unique e o.lists
  present : Present e g
  tracks : Tracks (fun _ => ()) (o.builders e.changes) old
    (g.lists e.tableKey e.rowKey e.colKey)
  active : ∀ t key col, g.table = some t → g.list = some (key, col) →
    (o.activeList = some e.changes ↔ (t, key, col) = e.list)

/-- An entry is found for its own list only. -/
theorem findList_eq_some
    {t obj col : Int}
    (hmem : e ∈ o.lists)
    (hunique : Unique e o.lists)
    (hcurrent : o.currentTable = some t) :
    o.findList obj col = some e.changes ↔ (t, obj, col) = e.list := by
  have hgone : ∀ l : ListChangeInfo,
      (some l.tableKey = o.currentTable ∧ l.rowKey = obj ∧ l.colKey = col) ↔
        l.list = (t, obj, col) := by
    intro l
    simp [hcurrent, ListChangeInfo.list]
  rw [TransactLogObserver.findList, Option.map_eq_some_iff]
  constructor
  · rintro ⟨l, hl, hchanges⟩
    have hlist := List.find?_some hl
    rw [decide_eq_true_eq, hgone] at hlist
    have hin := List.mem_reverse.mp (List.mem_of_find?_eq_some hl)
    rw [← hlist, hunique l hin (.inr hchanges)]
  · intro hlist
    have hfound : (o.lists.reverse.find? (fun l =>
        some l.tableKey = o.currentTable ∧ l.rowKey = obj ∧ l.colKey = col)).isSome := by
      rw [List.find?_isSome]
      exact ⟨e, List.mem_reverse.mpr hmem, decide_eq_true ((hgone e).mpr hlist.symm)⟩
    obtain ⟨l, hl⟩ := Option.isSome_iff_exists.mp hfound
    have hlist' := List.find?_some hl
    rw [decide_eq_true_eq, hgone] at hlist'
    have hin := List.mem_reverse.mp (List.mem_of_find?_eq_some hl)
    refine ⟨l, hl, ?_⟩
    rw [hunique l hin (.inl (hlist'.trans hlist))]

theorem Unique.subset
    {l l' : List ListChangeInfo}
    (h : Unique e l)
    (hsubset : l' ⊆ l) :
    Unique e l' :=
  fun x hx => h x (hsubset hx)

namespace Watches

/-- What is selected, and what is known of tables, does not matter to the list. -/
theorem keep
    (h : Watches e old o g)
    {o' : TransactLogObserver}
    (hlists : o'.lists = o.lists)
    (hbuilders : o'.builders = o.builders)
    (hpresent : Present e g')
    (hlist : g'.lists e.tableKey e.rowKey = g.lists e.tableKey e.rowKey)
    (hcurrent : ∀ t, g'.table = some t → o'.currentTable = some t)
    (hactive : ∀ t key col, g'.table = some t → g'.list = some (key, col) →
      (o'.activeList = some e.changes ↔ (t, key, col) = e.list)) :
    Watches e old o' g' where
  current := hcurrent
  mem := hlists ▸ h.mem
  unique := hlists ▸ h.unique
  present := hpresent
  tracks := by
    rw [hbuilders, hlist]
    exact h.tracks
  active := hactive

/-- An edit of the selected list, which may be the one that is watched. -/
theorem editList
    (h : Watches e old o g)
    {edit : List β → Option (List β)}
    {f : CollectionChangeBuilder → CollectionChangeBuilder}
    (hf : ∀ b old l, Tracks (fun _ => ()) b old g.selected →
      edit g.selected = some l → Tracks (fun _ => ()) (f b) old l)
    (happly : g.onList edit = some g') :
    Watches e old (o.updateList f) g' := by
  obtain ⟨t, key, col, l, ht, hsel, hl, rfl⟩ := Group.onList_some.mp happly
  have hactive := h.active t key col ht hsel
  have hselected : g.selected = g.lists t key col := by
    simp [Group.selected, ht, hsel]
  refine ⟨?_, ?_, ?_, h.present, ?_, ?_⟩
  · rw [updateList_currentTable]
    exact h.current
  · rw [updateList_lists]
    exact h.mem
  · rw [updateList_lists]
    exact h.unique
  · change Tracks _ _ old (g.setList t key col l e.tableKey e.rowKey e.colKey)
    by_cases hsame : (t, key, col) = e.list
    · cases hsame
      rw [o.updateList_builders (hactive.mpr rfl), Group.setList_self,
        Function.update_self]
      refine hf _ _ l ?_ (hselected ▸ hl)
      rw [hselected]
      exact h.tracks
    · rw [o.updateList_builders_of_ne (fun hin => hsame (hactive.mp hin))]
      have hkept : g.setList t key col l e.tableKey e.rowKey e.colKey =
          g.lists e.tableKey e.rowKey e.colKey := by
        by_cases hrow : e.tableKey ≠ t ∨ e.rowKey ≠ key
        · rw [Group.setList_of_ne hrow]
        · obtain ⟨rfl, rfl⟩ := by simpa using hrow
          rw [Group.setList_self, Function.update_of_ne]
          rintro rfl
          exact hsame rfl
      rw [hkept]
      exact h.tracks
  · rw [updateList_activeList]
    exact h.active

theorem createObject
    (h : Watches e old o g)
    {key : Int} {content : α}
    (happly : g.apply (.createObject key content) = some g') :
    Watches e old (o.createObject key) g' := by
  obtain ⟨t, ht, habsent, rfl⟩ := Group.onObject_some.mp happly
  have hother : e.tableKey ≠ t ∨ e.rowKey ≠ key := by
    by_contra hsame
    obtain ⟨rfl, rfl⟩ := by simpa using hsame
    rw [Option.isSome_eq_false_iff, Option.isNone_iff_eq_none] at habsent
    exact h.present habsent
  refine h.keep o.updateTable_lists o.updateTable_builders ?_ ?_ ?_ ?_
  · change g.setObject t key (some content) e.tableKey e.rowKey ≠ none
    rw [Group.setObject_of_ne hother]
    exact h.present
  · rcases eq_or_ne e.tableKey t with rfl | htable
    · simp only [Function.update_self]
      exact Function.update_of_ne (hother.resolve_left (fun h => h rfl)) _ _
    · simp only [Function.update_of_ne htable]
  · rw [TransactLogObserver.createObject, updateTable_currentTable]
    exact h.current
  · rw [TransactLogObserver.createObject, updateTable_activeList]
    exact h.active

theorem modifyObject
    (h : Watches e old o g)
    {col key : Int} {content : α}
    (happly : g.apply (.modifyObject col key content) = some g') :
    Watches e old (o.modifyObject col key) g' := by
  obtain ⟨t, ht, _, rfl⟩ := Group.onObject_some.mp happly
  refine h.keep o.updateTable_lists o.updateTable_builders ?_ rfl ?_ ?_
  · change g.setObject t key (some content) e.tableKey e.rowKey ≠ none
    by_cases hrow : e.tableKey ≠ t ∨ e.rowKey ≠ key
    · rw [Group.setObject_of_ne hrow]
      exact h.present
    · obtain ⟨rfl, rfl⟩ := by simpa using hrow
      rw [Group.setObject_self]
      exact Option.some_ne_none content
  · rw [TransactLogObserver.modifyObject, updateTable_currentTable]
    exact h.current
  · rw [TransactLogObserver.modifyObject, updateTable_activeList]
    exact h.active

theorem removeObject
    (h : Watches e old o g)
    {key : Int}
    (happly : g.apply (.removeObject key) = some g')
    (hpresent : Present e g') :
    Watches e old (o.removeObject key) g' := by
  obtain ⟨t, ht, _, rfl⟩ := Group.onObject_some.mp happly
  have hother : some e.tableKey = o.currentTable → e.rowKey ≠ key := by
    rintro htable rfl
    rw [h.current t ht] at htable
    cases htable
    exact hpresent (Group.setObject_self none)
  refine ⟨?_, ?_, h.unique.subset (o.removeObject_subset key), hpresent, ?_, ?_⟩
  · rw [removeObject_currentTable]
    exact h.current
  · rw [o.mem_removeObject hother]
    exact h.mem
  · rw [removeObject_builders]
    exact h.tracks
  · intro t' k c ht' hsel
    rw [removeObject_activeList]
    exact h.active t' k c ht' (Option.filter_eq_some_iff.mp hsel).1

theorem clearTable
    (h : Watches e old o g)
    {oldSize : Nat}
    (happly : g.apply (.clearTable oldSize) = some g')
    (hpresent : Present e g') :
    Watches e old o.clearTable g' := by
  simp only [Group.apply] at happly
  split at happly
  · cases happly
  next t ht =>
    cases happly
    have hother : some e.tableKey ≠ o.currentTable := by
      intro htable
      rw [h.current t ht] at htable
      cases htable
      simp [Present] at hpresent
    refine ⟨?_, ?_, ?_, hpresent, ?_, ?_⟩
    · rw [TransactLogObserver.clearTable]
      simpa using h.current
    · exact List.mem_filter.mpr ⟨h.mem, decide_eq_true hother⟩
    · exact h.unique.subset (List.filter_subset_self _)
    · rw [TransactLogObserver.clearTable]
      simpa using h.tracks
    · intro t' k c _ hsel
      cases hsel

theorem selectList
    (h : Watches e old o g)
    {col key : Int}
    (happly : g.apply (.selectList col key) = some g') :
    Watches e old (o.selectList col key) g' := by
  obtain ⟨t, ht, _, rfl⟩ := Group.onObject_some.mp happly
  refine h.keep o.updateTable_lists o.updateTable_builders h.present rfl ?_ ?_
  · intro t' ht'
    rw [← h.current t' ht']
    exact o.updateTable_currentTable
  · intro t' k c ht' hsel
    cases hsel
    exact findList_eq_some h.mem h.unique (h.current t' ht')

/-- One write, after which the object of the list is there. -/
theorem step
    {s t : TransactLogObserver × Group α β} {w : Write α β}
    (h : Watches e old s.1 s.2)
    (hpresent : Present e t.2)
    (hstep : TransactLogObserver.step s w = some t) :
    Watches e old t.1 t.2 := by
  obtain ⟨g', happly, hhandle⟩ := Option.bind_eq_some_iff.mp hstep
  obtain ⟨o', hhandle, rfl⟩ := Option.map_eq_some_iff.mp hhandle
  by_cases hw : w.EditsList
  · obtain ⟨hlist, f, hf, htold⟩ := exists_told hw s.2
    rw [hlist] at happly
    rw [hf] at hhandle
    cases hhandle
    exact h.editList htold happly
  cases w with
  | insertGroupLevelTable key =>
      cases hhandle
      cases happly
      refine h.keep rfl rfl h.present rfl ?_ ?_
      · intro t ht
        cases ht
      · intro t k c ht
        cases ht
  | selectTable key =>
      cases hhandle
      cases happly
      refine h.keep rfl rfl h.present rfl ?_ ?_
      · intro t ht
        exact ht
      · intro t k c _ hsel
        cases hsel
  | createObject key content =>
      cases hhandle
      exact h.createObject happly
  | removeObject key =>
      cases hhandle
      exact h.removeObject happly hpresent
  | modifyObject col key content =>
      cases hhandle
      exact h.modifyObject happly
  | clearTable oldSize =>
      cases hhandle
      exact h.clearTable happly hpresent
  | insertColumn col =>
      cases hhandle
      cases happly
      exact h.keep rfl rfl h.present rfl h.current h.active
  | selectList col key =>
      cases hhandle
      exact h.selectList happly
  | listInsert | listSet | listMove | listSwap | listErase | listClear =>
      exact absurd trivial hw

end Watches

/-- At the start of a log an entry has nothing to tell yet. -/
structure StartsList
    (e : ListChangeInfo) (s : TransactLogObserver × Group α β) : Prop where
  mem : e ∈ s.1.lists
  unique : Unique e s.1.lists
  present : Present e s.2
  changes : s.1.builders e.changes = .empty
  unselected : s.2.table = none

theorem StartsList.watches
    {s : TransactLogObserver × Group α β}
    (h : StartsList e s) :
    Watches e (s.2.lists e.tableKey e.rowKey e.colKey) s.1 s.2 where
  current t ht := by
    rw [h.unselected] at ht
    cases ht
  mem := h.mem
  unique := h.unique
  present := h.present
  tracks := h.changes ▸ tracks_empty _
  active t _ _ ht := by
    rw [h.unselected] at ht
    cases ht

/-- Invariant: the builder of the entry tells how the list came from `old`. -/
def Watched
    (e : ListChangeInfo) (old : List β) (t : TransactLogObserver × Group α β) : Prop :=
  Watches e old t.1 t.2

theorem run_watches
    {s t : TransactLogObserver × Group α β} {writes : List (Write α β)}
    (hstart : StartsList e s)
    (hpresent : EveryStep TransactLogObserver.step (fun _ _ t => Present e t.2) s writes)
    (hrun : run TransactLogObserver.step s writes = some t) :
    Watches e (s.2.lists e.tableKey e.rowKey e.colKey) t.1 t.2 := by
  have hfirst : Watched e (s.2.lists e.tableKey e.rowKey e.colKey) s := hstart.watches
  have hinv : Watched e (s.2.lists e.tableKey e.rowKey e.colKey) t := by
    refine run_invariant_of_everyStep ?_ hfirst hpresent hrun
    intro _ _ _ h hg hstep
    exact Watches.step h hg hstep
  exact hinv

/-- Cleaning up at the end of the log keeps what a builder tells. -/
theorem tracks_parseComplete
    {i : Nat} {new : List β}
    (h : Tracks (fun _ => ()) (o.builders i) old new) :
    Tracks (fun _ => ()) (o.parseComplete.builders i) old new := by
  rw [parseComplete]
  simp only
  generalize o.builders = builders at h ⊢
  induction o.lists generalizing builders with
  | nil => exact h
  | cons l lists ih =>
      refine ih _ ?_
      beta_reduce
      rcases eq_or_ne i l.changes with rfl | hne
      · rw [Function.update_self]
        exact CollectionChangeBuilder.tracks_cleanUpStaleMoves h
      · rwa [Function.update_of_ne hne]

/--
**The builder of a watched list, cleaned up at the end of a log, tells how the list
became what it is, whatever was done to other lists and objects in between, as long as
its object is there.**
-/
theorem observed_list
    {s t : TransactLogObserver × Group α β} {writes : List (Write α β)}
    (hstart : StartsList e s)
    (hpresent : EveryStep TransactLogObserver.step (fun _ _ t => Present e t.2) s writes)
    (hrun : run TransactLogObserver.step s writes = some t) :
    e ∈ t.1.lists ∧
      Tracks (fun _ => ()) (t.1.parseComplete.builders e.changes)
        (s.2.lists e.tableKey e.rowKey e.colKey)
        (t.2.lists e.tableKey e.rowKey e.colKey) := by
  have hwatches := run_watches hstart hpresent hrun
  exact ⟨hwatches.mem, tracks_parseComplete hwatches.tracks⟩

/-- Another object goes, and then the list is edited. -/
def listWrites : List (Write Nat Int) :=
  [.selectTable 7, .removeObject 2, .selectList 3 1, .listInsert 0 6, .listSwap 0 2]

theorem observed_list_listWrites :
    ∃ t, run TransactLogObserver.step beforeLog listWrites = some t ∧
      (⟨7, 1, 3, 0⟩ : ListChangeInfo) ∈ t.1.lists ∧
        Tracks (fun _ => ()) (t.1.parseComplete.builders 0) [4, 5] (t.2.lists 7 1 3) := by
  obtain ⟨t, hrun⟩ : ∃ t, run TransactLogObserver.step beforeLog listWrites = some t :=
    ⟨_, rfl⟩
  have hstart : StartsList ⟨7, 1, 3, 0⟩ beforeLog := by
    refine ⟨List.mem_singleton_self _, ?_, Option.some_ne_none _, rfl, rfl⟩
    intro l hl _
    exact List.mem_singleton.mp hl
  have hthere : ∀ s : TransactLogObserver × Group Nat Int,
      s.2.objects 7 1 = some 10 → Present ⟨7, 1, 3, 0⟩ s.2 := by
    intro s hs
    simp [Present, hs]
  have hpresent : EveryStep TransactLogObserver.step
      (fun _ _ t => Present ⟨7, 1, 3, 0⟩ t.2) beforeLog listWrites :=
    (everyStep_cons rfl).mpr ⟨hthere _ rfl, (everyStep_cons rfl).mpr ⟨hthere _ rfl,
      (everyStep_cons rfl).mpr ⟨hthere _ rfl, (everyStep_cons rfl).mpr ⟨hthere _ rfl,
        (everyStep_cons rfl).mpr ⟨hthere _ rfl, trivial⟩⟩⟩⟩⟩
  exact ⟨t, hrun, observed_list hstart hpresent hrun⟩

end Lists

end ObjectStore
end NotVK
