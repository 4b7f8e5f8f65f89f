import NotVK.Library.LabelledRun
import NotVK.ObjectStore.CalculateChanges
import NotVK.ObjectStore.ChangeSetMerge
import NotVK.ObjectStore.ObjectChangeSet
import NotVK.ObjectStore.TransactLog

/-!
# Observing a transaction log

`TransactLogObserver` is given the instructions of a log one by one.  It keeps an
`ObjectChangeSet` for each table that a notifier wants to know of, and a builder for
each observed list.

Beside it stands what the instructions do to the tables: `Group` has the objects and
their lists, and `Write` what a transaction can do.  What the observer knows at the end
of a log is compared with the versions before and after it.
-/

namespace NotVK
namespace ObjectStore

open Indices Runs SwapRemoval

universe u v

section Observer

structure ListChangeInfo where
  tableKey : Int
  rowKey : Int
  colKey : Int
  /-- The builder that `changes` points to. -/
  changes : Nat
deriving DecidableEq

/-- The observer with its `TransactionChangeInfo` and the builders of the lists. -/
structure TransactLogObserver where
  lists : List ListChangeInfo
  tables : Int → Option ObjectChangeSet
  trackAll : Bool
  schemaChanged : Bool
  builders : Nat → CollectionChangeBuilder
  /-- `m_current_table`; its entry of `tables` is the active table. -/
  currentTable : Option Int
  activeList : Option Nat

namespace TransactLogObserver

variable (o : TransactLogObserver)

/-- What is done to the active table, if there is one. -/
def updateTable (f : ObjectChangeSet → ObjectChangeSet) : TransactLogObserver :=
  match o.currentTable with
  | none => o
  | some key => { o with tables := Function.update o.tables key ((o.tables key).map f) }

/-- What is done to the active list, if there is one. -/
def updateList (f : CollectionChangeBuilder → CollectionChangeBuilder) :
    TransactLogObserver :=
  match o.activeList with
  | none => o
  | some i => { o with builders := Function.update o.builders i (f (o.builders i)) }

/-- The last entry for the list is taken. -/
def findList (obj col : Int) : Option Nat :=
  (o.lists.reverse.find? (fun l =>
    some l.tableKey = o.currentTable ∧ l.rowKey = obj ∧ l.colKey = col)).map
    ListChangeInfo.changes

def selectTable (key : Int) : TransactLogObserver :=
  { o with
    currentTable := some key
    tables :=
      if o.trackAll then
        Function.update o.tables key (some ((o.tables key).getD .empty))
      else o.tables }

def modifyObject (col key : Int) : TransactLogObserver :=
  o.updateTable (fun s => s.modificationsAdd key col)

def selectList (col obj : Int) : TransactLogObserver :=
  { o.modifyObject col obj with activeList := o.findList obj col }

def createObject (key : Int) : TransactLogObserver :=
  o.updateTable (fun s => s.insertionsAdd key)

/-- The lists of a removed object are forgotten, those in a row at the end not all. -/
def removeObject (key : Int) : TransactLogObserver :=
  match o.currentTable.bind o.tables with
  | none => o
  | some _ =>
      { o.updateTable (fun s => s.removeObject key) with
        lists := sweep (fun l => some l.tableKey = o.currentTable ∧ l.rowKey = key)
          o.lists 0 }

def clearTable : TransactLogObserver :=
  { o.updateTable ObjectChangeSet.clear with
    lists := o.lists.filter (fun l => some l.tableKey ≠ o.currentTable) }

def listInsert (index : Nat) : TransactLogObserver :=
  o.updateList (fun b => b.insert index 1 Nat.one_pos true)

/-- Two entries change places by one move or by two. -/
def swapEntries (index1 index2 : Nat) (b : CollectionChangeBuilder) :
    CollectionChangeBuilder :=
  let low := min index1 index2
  let high := max index1 index2
  let b := b.move low high
  if low + 1 ≠ high then b.move (high - 1) low else b

/-- The handler's methods; none for the schema error. -/
def handle : Instruction → Option TransactLogObserver
  | .insertGroupLevelTable _ => some { o with schemaChanged := true }
  | .eraseGroupLevelTable _ => none
  | .renameGroupLevelTable _ => none
  | .selectTable key => some (o.selectTable key)
  | .createObject key => some (o.createObject key)
  | .removeObject key => some (o.removeObject key)
  | .modifyObject col key => some (o.modifyObject col key)
  | .clearTable _ => some o.clearTable
  | .insertColumn _ => some { o with schemaChanged := true }
  | .eraseColumn _ => none
  | .renameColumn _ => none
  | .setLinkType _ => some o
  | .selectList col key => some (o.selectList col key)
  | .listInsert ndx => some (o.listInsert ndx.toNat)
  | .listSet ndx => some (o.updateList (fun b => b.modify ndx.toNat none))
  | .listMove fromNdx toNdx =>
      some (o.updateList (fun b => b.move fromNdx.toNat toNdx.toNat))
  | .listSwap ndx1 ndx2 => some (o.updateList (swapEntries ndx1.toNat ndx2.toNat))
  | .listErase ndx => some (o.updateList (fun b => b.erase ndx.toNat))
  | .listClear oldSize => some (o.updateList (fun b => b.clear oldSize.toNat))

/-- `parse_complete()`. -/
def parseComplete : TransactLogObserver :=
  { o with
    builders := o.lists.foldl
      (fun builders l =>
        Function.update builders l.changes (builders l.changes).cleanUpStaleMoves)
      o.builders
    tables := fun key => (o.tables key).filter (fun s => !s.isEmpty) }

end TransactLogObserver

/-- `get_modification_checker`, for a table without links to others. -/
def modificationChecker (s : Option ObjectChangeSet) : Int → Bool :=
  match s with
  | none => fun _ => false
  | some s => if s.modifications = ∅ then fun _ => false else s.modificationsContains

end Observer

section Group

/-- The tables, and what is selected for writing. -/
structure Group (α : Type u) (β : Type v) where
  objects : Int → Int → Option α
  lists : Int → Int → Int → List β
  table : Option Int
  /-- An object of the table, and a column. -/
  list : Option (Int × Int)

/-- What a transaction does. -/
inductive Write (α : Type u) (β : Type v) where
  | insertGroupLevelTable (key : Int)
  | selectTable (key : Int)
  | createObject (key : Int) (content : α)
  | removeObject (key : Int)
  | modifyObject (col key : Int) (content : α)
  | clearTable (oldSize : Nat)
  | insertColumn (col : Int)
  | selectList (col key : Int)
  | listInsert (ndx : Nat) (entry : β)
  | listSet (ndx : Nat) (entry : β)
  | listMove (fromNdx toNdx : Nat)
  | listSwap (ndx1 ndx2 : Nat)
  | listErase (ndx : Nat)
  | listClear

variable {α : Type u} {β : Type v}

/-- Two entries change places. -/
def swapped (l : List β) (index1 index2 : Nat) : Option (List β) :=
  match l[index1]?, l[index2]? with
  | some x, some y =>
      if index1 ≠ index2 then some ((l.set index1 y).set index2 x) else none
  | _, _ => none

/-- What a write does to the selected list, where it is one that edits it. -/
def Write.edit (l : List β) : Write α β → Option (List β)
  | .listInsert ndx entry => editList (fun _ => ()) l (.insert ndx [entry])
  | .listSet ndx entry => editList (fun _ => ()) l (.modify ndx entry none)
  | .listMove fromNdx toNdx => editList (fun _ => ()) l (.move fromNdx toNdx)
  | .listSwap ndx1 ndx2 => swapped l ndx1 ndx2
  | .listErase ndx => editList (fun _ => ()) l (.erase ndx)
  | .listClear => some []
  | _ => none

namespace Group

variable (g : Group α β)

def setObject (table key : Int) (content : Option α) : Int → Int → Option α :=
  Function.update g.objects table (Function.update (g.objects table) key content)

def setList (table key col : Int) (l : List β) : Int → Int → Int → List β :=
  Function.update g.lists table
    (Function.update (g.lists table) key (Function.update (g.lists table key) col l))

/-- A write to the selected table, of an object that is there or not. -/
def onObject (present : Bool) (key : Int) (f : Int → Group α β) : Option (Group α β) :=
  match g.table with
  | none => none
  | some table => if (g.objects table key).isSome = present then some (f table) else none

/-- A write to the selected list. -/
def onList (edit : List β → Option (List β)) : Option (Group α β) :=
  match g.table, g.list with
  | some table, some (key, col) =>
      (edit (g.lists table key col)).map (fun l =>
        { g with lists := g.setList table key col l })
  | _, _ => none

/-- The version after a write; a list stays selected as long as its object is there. -/
def apply : Write α β → Option (Group α β)
  | .insertGroupLevelTable _ => some { g with table := none, list := none }
  | .selectTable key => some { g with table := some key, list := none }
  | .createObject key content =>
      g.onObject false key (fun table =>
        { g with
          objects := g.setObject table key (some content)
          lists := Function.update g.lists table
            (Function.update (g.lists table) key (fun _ => [])) })
  | .removeObject key =>
      g.onObject true key (fun table =>
        { g with
          objects := g.setObject table key none
          list := g.list.filter (fun l => l.1 ≠ key) })
  | .modifyObject _ key content =>
      g.onObject true key (fun table =>
        { g with objects := g.setObject table key (some content) })
  | .clearTable _ =>
      match g.table with
      | none => none
      | some table =>
          some { g with
            objects := Function.update g.objects table (fun _ => none)
            list := none }
  | .insertColumn _ => some g
  | .selectList col key =>
      g.onObject true key (fun _ => { g with list := some (key, col) })
  | w => g.onList (fun l => w.edit l)

/-- The selected list. -/
def selected : List β :=
  match g.table, g.list with
  | some table, some (key, col) => g.lists table key col
  | _, _ => []

/-- What the log has of an object: what it holds, and its lists. -/
def row (table key : Int) : Option (α × (Int → List β)) :=
  (g.objects table key).map (fun content => (content, g.lists table key))

end Group

/-- The instruction that is logged for a write. -/
def Write.instruction (g : Group α β) : Write α β → Instruction
  | .insertGroupLevelTable key => .insertGroupLevelTable key
  | .selectTable key => .selectTable key
  | .createObject key _ => .createObject key
  | .removeObject key => .removeObject key
  | .modifyObject col key _ => .modifyObject col key
  | .clearTable oldSize => .clearTable oldSize
  | .insertColumn col => .insertColumn col
  | .selectList col key => .selectList col key
  | .listInsert ndx _ => .listInsert ndx
  | .listSet ndx _ => .listSet ndx
  | .listMove fromNdx toNdx => .listMove fromNdx toNdx
  | .listSwap ndx1 ndx2 => .listSwap ndx1 ndx2
  | .listErase ndx => .listErase ndx
  | .listClear => .listClear g.selected.length

namespace TransactLogObserver

/-- A write, and its instruction. -/
def step (s : TransactLogObserver × Group α β) (w : Write α β) :
    Option (TransactLogObserver × Group α β) :=
  (s.2.apply w).bind (fun g => (s.1.handle (w.instruction s.2)).map (fun o => (o, g)))

end TransactLogObserver

end Group

section Tables

namespace TransactLogObserver

variable (o : TransactLogObserver)
variable {f : ObjectChangeSet → ObjectChangeSet} {table : Int}

@[simp] theorem updateTable_currentTable :
    (o.updateTable f).currentTable = o.currentTable := by
  rw [updateTable]
  split <;> rfl

@[simp] theorem updateTable_lists : (o.updateTable f).lists = o.lists := by
  rw [updateTable]
  split <;> rfl

@[simp] theorem updateTable_builders : (o.updateTable f).builders = o.builders := by
  rw [updateTable]
  split <;> rfl

@[simp] theorem updateTable_activeList :
    (o.updateTable f).activeList = o.activeList := by
  rw [updateTable]
  split <;> rfl

variable {o}

theorem updateTable_tables
    (hcurrent : o.currentTable = some table) :
    (o.updateTable f).tables table = (o.tables table).map f := by
  simp [updateTable, hcurrent]

theorem updateTable_tables_of_ne
    (hcurrent : o.currentTable ≠ some table) :
    (o.updateTable f).tables table = o.tables table := by
  rw [updateTable]
  split
  next => rfl
  next key hkey =>
    have hne : table ≠ key := by
      rintro rfl
      exact hcurrent hkey
    exact Function.update_of_ne hne _ _

variable (o)

@[simp] theorem updateList_tables {f : CollectionChangeBuilder → CollectionChangeBuilder} :
    (o.updateList f).tables = o.tables := by
  rw [updateList]
  split <;> rfl

@[simp] theorem updateList_currentTable
    {f : CollectionChangeBuilder → CollectionChangeBuilder} :
    (o.updateList f).currentTable = o.currentTable := by
  rw [updateList]
  split <;> rfl

@[simp] theorem updateList_lists {f : CollectionChangeBuilder → CollectionChangeBuilder} :
    (o.updateList f).lists = o.lists := by
  rw [updateList]
  split <;> rfl

@[simp] theorem updateList_activeList
    {f : CollectionChangeBuilder → CollectionChangeBuilder} :
    (o.updateList f).activeList = o.activeList := by
  rw [updateList]
  split <;> rfl

theorem updateList_builders
    {f : CollectionChangeBuilder → CollectionChangeBuilder} {i : Nat}
    (hactive : o.activeList = some i) :
    (o.updateList f).builders i = f (o.builders i) := by
  simp [updateList, hactive]

theorem updateList_builders_of_ne
    {f : CollectionChangeBuilder → CollectionChangeBuilder} {i : Nat}
    (hactive : o.activeList ≠ some i) :
    (o.updateList f).builders i = o.builders i := by
  rw [updateList]
  split
  next => rfl
  next j hj =>
    have hne : i ≠ j := by
      rintro rfl
      exact hactive hj
    exact Function.update_of_ne hne _ _

@[simp] theorem removeObject_builders (key : Int) :
    (o.removeObject key).builders = o.builders := by
  rw [removeObject]
  split
  · rfl
  · exact o.updateTable_builders

@[simp] theorem removeObject_activeList (key : Int) :
    (o.removeObject key).activeList = o.activeList := by
  rw [removeObject]
  split
  · rfl
  · exact o.updateTable_activeList

/-- The lists of other objects are kept. -/
theorem mem_removeObject
    {key : Int} {l : ListChangeInfo}
    (hl : some l.tableKey = o.currentTable → l.rowKey ≠ key) :
    l ∈ (o.removeObject key).lists ↔ l ∈ o.lists := by
  rw [removeObject]
  split
  · rfl
  · apply mem_sweep
    rw [decide_eq_false_iff_not, not_and]
    exact hl

theorem removeObject_subset (key : Int) :
    (o.removeObject key).lists ⊆ o.lists := by
  rw [removeObject]
  split
  · exact List.Subset.refl _
  · exact (sweep_subperm _ _).subset

@[simp] theorem removeObject_currentTable (key : Int) :
    (o.removeObject key).currentTable = o.currentTable := by
  rw [removeObject]
  split
  · rfl
  · exact o.updateTable_currentTable

theorem removeObject_tables (key : Int) :
    (o.removeObject key).tables =
      (o.updateTable (fun s => s.removeObject key)).tables := by
  rw [removeObject]
  split
  next hnone =>
    rw [updateTable]
    split
    next => rfl
    next table htable =>
      have hactive : o.tables table = none := by
        simpa [htable] using hnone
      simp [hactive]
  next => rfl

variable {o}

/-- A table that is followed stays so when tables are selected. -/
theorem selectTable_tables
    {s : ObjectChangeSet}
    (hs : o.tables table = some s)
    (key : Int) :
    (o.selectTable key).tables table = some s := by
  rw [selectTable]
  by_cases htrack : o.trackAll = true
  · simp only [htrack, if_true]
    rcases eq_or_ne table key with rfl | hne
    · simp [hs]
    · rw [Function.update_of_ne hne, hs]
  · simpa [htrack] using hs

end TransactLogObserver

end Tables

section ListWrites

variable {β : Type v} {key : β → Unit}

open CollectionChangeBuilder TransactLogObserver

theorem tracks_editList
    {b : CollectionChangeBuilder} {old cur l : List β} {e : Edit β}
    (h : Tracks key b old cur)
    (hl : editList key cur e = some l) :
    Tracks key (tell cur.length b e) old l := by
  have hstep : ObjectStore.step key (b, cur) e = some (tell cur.length b e, l) := by
    rw [ObjectStore.step, hl]
    rfl
  exact tracks_step (s := (b, cur)) h hstep

/-- Two entries change places when each is moved to where the other was. -/
theorem swapped_eq_moved
    {l : List β} {low high : Nat} {x y : β}
    (hlt : low < high)
    (hy : l[high]? = some y) :
    (((l.eraseIdx low).insertIdx high x).eraseIdx (high - 1)).insertIdx low y =
      (l.set low y).set high x := by
  have hhigh := (List.getElem?_eq_some_iff.mp hy).1
  apply List.ext_getElem?
  intro i
  grind [List.length_insertIdx, List.length_eraseIdx]

/-- Neighbours change places when one of them is moved. -/
theorem swapped_eq_moved_next
    {l : List β} {low : Nat} {x y : β}
    (hy : l[low + 1]? = some y) :
    (l.eraseIdx low).insertIdx (low + 1) x = (l.set low y).set (low + 1) x := by
  have hhigh := (List.getElem?_eq_some_iff.mp hy).1
  apply List.ext_getElem?
  intro i
  grind [List.length_insertIdx, List.length_eraseIdx]

theorem tracks_moves
    {b : CollectionChangeBuilder} {old cur : List β} {low high : Nat} {x y : β}
    (h : Tracks key b old cur)
    (hlt : low < high)
    (hx : cur[low]? = some x)
    (hy : cur[high]? = some y) :
    Tracks key
      (if low + 1 ≠ high then (b.move low high).move (high - 1) low else b.move low high)
      old ((cur.set low y).set high x) := by
  have hhigh := (List.getElem?_eq_some_iff.mp hy).1
  have hfirst := tracks_move h hx hhigh
  split
  next hne =>
    have hat : ((cur.eraseIdx low).insertIdx high x)[high - 1]? = some y := by
      grind [List.length_eraseIdx]
    have hlength : low < ((cur.eraseIdx low).insertIdx high x).length := by
      grind [List.length_insertIdx, List.length_eraseIdx]
    rw [← swapped_eq_moved hlt hy]
    exact tracks_move hfirst hat hlength
  next hnext =>
    obtain rfl : low + 1 = high := not_not.mp hnext
    rwa [← swapped_eq_moved_next hy]

theorem tracks_swapEntries
    {b : CollectionChangeBuilder} {old cur l : List β} {index1 index2 : Nat}
    (h : Tracks key b old cur)
    (hswap : swapped cur index1 index2 = some l) :
    Tracks key (swapEntries index1 index2 b) old l := by
  rw [swapped] at hswap
  split at hswap
  next x y hx hy =>
    rw [Option.ite_none_right_eq_some] at hswap
    obtain ⟨hne, hl⟩ := hswap
    cases hl
    rw [swapEntries]
    rcases Nat.lt_or_gt_of_ne hne with hlt | hgt
    · rw [Nat.min_eq_left hlt.le, Nat.max_eq_right hlt.le]
      exact tracks_moves h hlt hx hy
    · rw [Nat.min_eq_right hgt.le, Nat.max_eq_left hgt.le, List.set_comm _ _ hne]
      exact tracks_moves h hgt hy hx
  next => cases hswap

variable {α : Type u}

/-- Writes that edit the selected list. -/
def Write.EditsList : Write α β → Prop
  | .listInsert _ _ | .listSet _ _ | .listMove _ _ | .listSwap _ _ | .listErase _
  | .listClear => True
  | _ => False

/-- An edit of the selected list, and what its builder is told of it. -/
theorem exists_told
    {w : Write α β}
    (hw : w.EditsList) (g : Group α β) :
    g.apply w = g.onList (fun l => w.edit l) ∧
      ∃ f, (∀ o : TransactLogObserver,
          o.handle (w.instruction g) = some (o.updateList f)) ∧
        ∀ b old l, Tracks (fun _ => ()) b old g.selected →
          w.edit g.selected = some l → Tracks (fun _ => ()) (f b) old l := by
  cases w with
  | listInsert ndx entry =>
      exact ⟨rfl, _, fun _ => rfl,
        fun b old l h hl => tracks_editList (e := .insert ndx [entry]) h hl⟩
  | listSet ndx entry =>
      exact ⟨rfl, _, fun _ => rfl,
        fun b old l h hl => tracks_editList (e := .modify ndx entry none) h hl⟩
  | listMove fromNdx toNdx =>
      exact ⟨rfl, _, fun _ => rfl,
        fun b old l h hl => tracks_editList (e := .move fromNdx toNdx) h hl⟩
  | listSwap ndx1 ndx2 =>
      exact ⟨rfl, _, fun _ => rfl, fun b old l h hl => tracks_swapEntries h hl⟩
  | listErase ndx =>
      exact ⟨rfl, _, fun _ => rfl,
        fun b old l h hl => tracks_editList (e := .erase ndx) h hl⟩
  | listClear =>
      exact ⟨rfl, _, fun _ => rfl,
        fun b old l h hl => tracks_editList (e := .clear) h hl⟩
  | insertGroupLevelTable | selectTable | createObject | removeObject | modifyObject
  | clearTable | insertColumn | selectList => exact hw.elim

end ListWrites

section Rows

namespace Group

variable {α : Type u} {β : Type v}
variable {g g' : Group α β} {table key col : Int}

theorem onObject_some
    {present : Bool} {f : Int → Group α β} :
    g.onObject present key f = some g'
      ↔
    ∃ t, g.table = some t ∧ (g.objects t key).isSome = present ∧ f t = g' := by
  rw [onObject]
  cases g.table <;> simp

theorem onList_some
    {edit : List β → Option (List β)} :
    g.onList edit = some g'
      ↔
    ∃ t key col l, g.table = some t ∧ g.list = some (key, col) ∧
      edit (g.lists t key col) = some l ∧
      { g with lists := g.setList t key col l } = g' := by
  rw [onList]
  rcases g.list with _ | ⟨k, c⟩ <;> cases g.table <;> simp [and_assoc]

theorem row_eq_none : g.row table key = none ↔ g.objects table key = none := by
  rw [row, Option.map_eq_none_iff]

/-- A row depends on its object and the lists of it. -/
theorem row_congr
    (hobject : g'.objects table key = g.objects table key)
    (hlists : g'.lists table key = g.lists table key) :
    g'.row table key = g.row table key := by
  rw [row, row, hobject, hlists]

/-- When one row of the table changes, and the others stay. -/
theorem row_eq_update
    (g g' : Group α β) (table key : Int) (content : Option (α × (Int → List β)))
    (hkey : g'.row table key = content)
    (hother : ∀ other, other ≠ key → g'.row table other = g.row table other) :
    g'.row table = Function.update (g.row table) key content := by
  funext other
  rcases eq_or_ne other key with rfl | hne
  · rw [hkey, Function.update_self]
  · rw [hother other hne, Function.update_of_ne hne]

theorem setObject_self (content : Option α) :
    g.setObject table key content table key = content := by
  simp [setObject]

theorem setObject_of_ne
    {t k : Int}
    (h : t ≠ table ∨ k ≠ key)
    (content : Option α) :
    g.setObject table key content t k = g.objects t k := by
  rw [setObject]
  rcases eq_or_ne t table with rfl | ht
  · rw [Function.update_self, Function.update_of_ne (h.resolve_left (fun h => h rfl))]
  · rw [Function.update_of_ne ht]

theorem setList_self (l : List β) :
    g.setList table key col l table key =
      Function.update (g.lists table key) col l := by
  simp [setList]

theorem setList_of_ne
    {t k : Int}
    (h : t ≠ table ∨ k ≠ key)
    (l : List β) :
    g.setList table key col l t k = g.lists t k := by
  rw [setList]
  rcases eq_or_ne t table with rfl | ht
  · rw [Function.update_self, Function.update_of_ne (h.resolve_left (fun h => h rfl))]
  · rw [Function.update_of_ne ht]

end Group

end Rows

section Objects

variable {α : Type u} {β : Type v}
variable {table : Int} {old : Int → Option (α × (Int → List β))}
variable {o o' : TransactLogObserver} {g g' : Group α β}

/-- A selected list is one of an object whose changes are told already. -/
def Selects (table : Int) (g : Group α β) (s : ObjectChangeSet) : Prop :=
  ∀ key col, g.list = some (key, col) → g.row table key ≠ none ∧ s.Reported key

/-- What the observer knows of a table tells how its objects came from `old`. -/
structure Follows
    (table : Int) (old : Int → Option (α × (Int → List β)))
    (o : TransactLogObserver) (g : Group α β) : Prop where
  current : ∀ t, g.table = some t → o.currentTable = some t
  changes : ∃ s, o.tables table = some s ∧ Exact old (g.row table) s ∧
    (g.table = some table → Selects table g s)

/-- A write whose new objects have new keys. -/
def NewKeys
    (table : Int) (old : Int → Option (α × (Int → List β)))
    (s : TransactLogObserver × Group α β) (w : Write α β)
    (_ : TransactLogObserver × Group α β) : Prop :=
  ∀ key content, w = .createObject key content → s.2.table = some table → old key = none

namespace Follows

open TransactLogObserver ObjectChangeSet

/-- A write to a table, which may be the one that is followed. -/
theorem write
    (h : Follows table old o g)
    {t : Int} {f : ObjectChangeSet → ObjectChangeSet}
    (ht : g.table = some t)
    (ht' : g'.table = some t)
    (hother : t ≠ table → g'.row table = g.row table)
    (hself : t = table → ∀ s, Exact old (g.row table) s → Selects table g s →
      Exact old (g'.row table) (f s) ∧ Selects table g' (f s)) :
    Follows table old (o.updateTable f) g' := by
  obtain ⟨s, hs, hexact, hselects⟩ := h.changes
  have hcurrent := h.current t ht
  refine ⟨?_, ?_⟩
  · intro t' h'
    rw [updateTable_currentTable, hcurrent, ← ht', h']
  · rcases eq_or_ne t table with rfl | hne
    · obtain ⟨hexact', hselects'⟩ := hself rfl s hexact (hselects ht)
      refine ⟨f s, ?_, hexact', fun _ => hselects'⟩
      rw [updateTable_tables hcurrent, hs]
      rfl
    · refine ⟨s, ?_, ?_, ?_⟩
      · rw [updateTable_tables_of_ne, hs]
        rw [hcurrent]
        exact fun heq => hne (Option.some.inj heq)
      · rwa [hother hne]
      · intro hsel
        rw [ht'] at hsel
        exact absurd (Option.some.inj hsel) hne

/-- Only what is known of tables, and the current one, counts. -/
theorem congr
    (h : Follows table old o g)
    (htables : o'.tables = o.tables)
    (hcurrent : o'.currentTable = o.currentTable) :
    Follows table old o' g := by
  refine ⟨?_, ?_⟩
  · rw [hcurrent]
    exact h.current
  · rw [htables]
    exact h.changes

theorem createObject
    (h : Follows table old o g)
    {key : Int} {content : α}
    (happly : g.apply (.createObject key content) = some g')
    (hnew : g.table = some table → old key = none) :
    Follows table old (o.createObject key) g' := by
  obtain ⟨t, ht, habsent, rfl⟩ := Group.onObject_some.mp happly
  refine h.write ht ht ?_ ?_
  · intro hne
    funext other
    apply Group.row_congr
    · exact Group.setObject_of_ne (.inl hne.symm) _
    · simp only [Function.update_of_ne hne.symm]
  · rintro rfl s hexact hselects
    have hrow := Group.row_eq_update g
      { g with
        objects := g.setObject t key (some content)
        lists := Function.update g.lists t (Function.update (g.lists t) key (fun _ => [])) }
      t key (some (content, fun _ => []))
      (by simp [Group.row, Group.setObject_self])
      (fun other hne => Group.row_congr (Group.setObject_of_ne (.inr hne) _)
        (by simp [hne]))
    rw [hrow]
    refine ⟨hexact.create (hnew ht), ?_⟩
    intro k c hsel
    obtain ⟨hthere, hreported⟩ := hselects k c hsel
    refine ⟨?_, hreported.insertionsAdd key⟩
    rw [hrow]
    have hne : k ≠ key := by
      rintro rfl
      rw [Ne, Group.row_eq_none] at hthere
      simp [hthere] at habsent
    rwa [Function.update_of_ne hne]

theorem removeObject
    (h : Follows table old o g)
    {key : Int}
    (happly : g.apply (.removeObject key) = some g') :
    Follows table old (o.removeObject key) g' := by
  obtain ⟨t, ht, hpresent, hg'⟩ := Group.onObject_some.mp happly
  refine Follows.congr (o := o.updateTable (fun s => s.removeObject key)) ?_
    (o.removeObject_tables key)
    ((o.removeObject_currentTable key).trans o.updateTable_currentTable.symm)
  subst hg'
  refine h.write ht ht ?_ ?_
  · intro hne
    funext other
    exact Group.row_congr (Group.setObject_of_ne (.inl hne.symm) _) rfl
  · rintro rfl s hexact hselects
    have hrow := Group.row_eq_update g
      { g with
        objects := g.setObject t key none
        list := g.list.filter (fun l => l.1 ≠ key) }
      t key none
      (by simp [Group.row, Group.setObject_self])
      (fun other hne => Group.row_congr (Group.setObject_of_ne (.inr hne) _) rfl)
    have hthere : g.row t key ≠ none := by
      rw [Ne, Group.row_eq_none]
      exact Option.isSome_iff_ne_none.mp hpresent
    rw [hrow]
    refine ⟨hexact.remove hthere, ?_⟩
    intro k c hsel
    obtain ⟨hsel, hne⟩ := Option.filter_eq_some_iff.mp hsel
    have hne : k ≠ key := of_decide_eq_true hne
    obtain ⟨hstays, hreported⟩ := hselects k c hsel
    rw [hrow, Function.update_of_ne hne]
    exact ⟨hstays, hreported.removeObject hne⟩

theorem modifyObject
    (h : Follows table old o g)
    {col key : Int} {content : α}
    (happly : g.apply (.modifyObject col key content) = some g') :
    Follows table old (o.modifyObject col key) g' := by
  obtain ⟨t, ht, hpresent, rfl⟩ := Group.onObject_some.mp happly
  refine h.write ht ht ?_ ?_
  · intro hne
    funext other
    exact Group.row_congr (Group.setObject_of_ne (.inl hne.symm) _) rfl
  · rintro rfl s hexact hselects
    have hrow := Group.row_eq_update g
      { g with objects := g.setObject t key (some content) }
      t key (some (content, g.lists t key))
      (by simp [Group.row, Group.setObject_self])
      (fun other hne => Group.row_congr (Group.setObject_of_ne (.inr hne) _) rfl)
    have hthere : g.row t key ≠ none := by
      rw [Ne, Group.row_eq_none]
      exact Option.isSome_iff_ne_none.mp hpresent
    rw [hrow]
    refine ⟨hexact.modify hthere, ?_⟩
    intro k c hsel
    obtain ⟨hstays, hreported⟩ := hselects k c hsel
    rw [hrow]
    refine ⟨?_, hreported.modificationsAdd key col⟩
    rcases eq_or_ne k key with rfl | hne
    · simp
    · rwa [Function.update_of_ne hne]

theorem clearTable
    (h : Follows table old o g)
    {oldSize : Nat}
    (happly : g.apply (.clearTable oldSize) = some g') :
    Follows table old o.clearTable g' := by
  simp only [Group.apply] at happly
  split at happly
  · cases happly
  next t ht =>
    cases happly
    refine Follows.congr (o := o.updateTable ObjectChangeSet.clear) ?_ rfl rfl
    refine h.write ht ht ?_ ?_
    · intro hne
      funext other
      apply Group.row_congr
      · simp only [Function.update_of_ne hne.symm]
      · rfl
    · rintro rfl s hexact _
      have hrow : Group.row { g with
            objects := Function.update g.objects t (fun _ => none), list := none } t =
          fun _ => none := by
        funext other
        simp [Group.row_eq_none]
      rw [hrow]
      refine ⟨.clear old s, ?_⟩
      intro k c hsel
      cases hsel

theorem selectTable
    (h : Follows table old o g)
    (key : Int) :
    Follows table old (o.selectTable key) { g with table := some key, list := none } := by
  obtain ⟨s, hs, hexact, _⟩ := h.changes
  refine ⟨?_, s, selectTable_tables hs key, hexact, ?_⟩
  · intro t ht
    exact ht
  · intro _ k c hsel
    cases hsel

theorem selectList
    (h : Follows table old o g)
    {col key : Int}
    (happly : g.apply (.selectList col key) = some g') :
    Follows table old (o.selectList col key) g' := by
  obtain ⟨t, ht, hpresent, rfl⟩ := Group.onObject_some.mp happly
  have hmark : Follows table old (o.modifyObject col key)
      { g with list := some (key, col) } := by
    refine h.write ht ht (fun _ => rfl) ?_
    rintro rfl s hexact _
    refine ⟨hexact.mark key col, ?_⟩
    intro k c hsel
    cases hsel
    refine ⟨?_, s.reported_modificationsAdd key col⟩
    rw [Ne, Group.row_eq_none]
    exact Option.isSome_iff_ne_none.mp hpresent
  exact hmark.congr rfl rfl

/-- An edit of the selected list. -/
theorem editList
    (h : Follows table old o g)
    {edit : List β → Option (List β)}
    {f : CollectionChangeBuilder → CollectionChangeBuilder}
    (happly : g.onList edit = some g') :
    Follows table old (o.updateList f) g' := by
  obtain ⟨t, key, col, l, ht, hsel, _, rfl⟩ := Group.onList_some.mp happly
  obtain ⟨s, hs, hexact, hselects⟩ := h.changes
  refine Follows.congr ⟨h.current, s, hs, ?_⟩ o.updateList_tables
    o.updateList_currentTable
  rcases eq_or_ne t table with rfl | hne
  · obtain ⟨hthere, hreported⟩ := hselects ht key col hsel
    obtain ⟨row, hrow⟩ := Option.ne_none_iff_exists'.mp hthere
    obtain ⟨content, hcontent, rfl⟩ := Option.map_eq_some_iff.mp hrow
    have hrow := Group.row_eq_update g
      { g with lists := g.setList t key col l }
      t key (some (content, Function.update (g.lists t key) col l))
      (by simp [Group.row, Group.setList_self, hcontent])
      (fun other hne => Group.row_congr rfl (Group.setList_of_ne (.inr hne) l))
    rw [hrow]
    refine ⟨hexact.touch hthere hreported, ?_⟩
    intro _ k c hsel'
    obtain ⟨hstays, hreported'⟩ := hselects ht k c hsel'
    rw [hrow]
    refine ⟨?_, hreported'⟩
    rcases eq_or_ne k key with rfl | hne
    · simp
    · rwa [Function.update_of_ne hne]
  · have hrow : Group.row { g with lists := g.setList t key col l } table =
        g.row table := by
      funext other
      exact Group.row_congr rfl (Group.setList_of_ne (.inl hne.symm) l)
    rw [hrow]
    refine ⟨hexact, ?_⟩
    intro hsel'
    rw [ht] at hsel'
    exact absurd (Option.some.inj hsel') hne

/-- One write. -/
theorem step
    {s t : TransactLogObserver × Group α β} {w : Write α β}
    (h : Follows table old s.1 s.2)
    (hnew : NewKeys table old s w t)
    (hstep : TransactLogObserver.step s w = some t) :
    Follows table old t.1 t.2 := by
  obtain ⟨g', happly, hhandle⟩ := Option.bind_eq_some_iff.mp hstep
  obtain ⟨o', hhandle, rfl⟩ := Option.map_eq_some_iff.mp hhandle
  by_cases hw : w.EditsList
  · obtain ⟨hlist, f, hf, _⟩ := exists_told hw s.2
    rw [hlist] at happly
    rw [hf] at hhandle
    cases hhandle
    exact h.editList happly
  cases w with
  | insertGroupLevelTable key =>
      cases hhandle
      cases happly
      obtain ⟨changes, hs, hexact, _⟩ := h.changes
      refine ⟨?_, changes, hs, hexact, ?_⟩
      · intro t ht
        cases ht
      · intro ht
        cases ht
  | selectTable key =>
      cases hhandle
      cases happly
      exact h.selectTable key
  | createObject key content =>
      cases hhandle
      exact h.createObject happly (hnew key content rfl)
  | removeObject key =>
      cases hhandle
      exact h.removeObject happly
  | modifyObject col key content =>
      cases hhandle
      exact h.modifyObject happly
  | clearTable oldSize =>
      cases hhandle
      exact h.clearTable happly
  | insertColumn col =>
      cases hhandle
      cases happly
      exact h.congr rfl rfl
  | selectList col key =>
      cases hhandle
      exact h.selectList happly
  | listInsert | listSet | listMove | listSwap | listErase | listClear =>
      exact absurd trivial hw

end Follows

end Objects

end ObjectStore
end NotVK
