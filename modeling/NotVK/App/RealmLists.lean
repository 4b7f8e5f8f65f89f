import NotVK.App.NewsModel
import NotVK.Library.LabelledRun
import NotVK.Library.ListDiff

/-!
# The friends list and the groups list

Both table view controllers answer their data source from an array that was
taken from Realm once, and hand the change sets of a live query on to the table
view.  They differ in the number of rows without an array, and in the cells.

An object of Realm is known by its key.  The array holds objects, not values: a
cell reads the current values of its object, and an object that was deleted
cannot be read.
-/

namespace NotVK
namespace Lists

open Runs Diffs News

section Controllers

/-- A cell as the data source returns it; `photoURL` goes to `URL(string:)`. -/
inductive Cell where
  | empty
  | configured (name : String) (photoURL : String)
deriving DecidableEq

/-- What one of the two controllers has of its own. -/
structure ListController (Item : Type) where
  rowsWithoutContainer : Nat
  configure : Item → Cell

def friendsTableViewController : ListController FriendItem where
  rowsWithoutContainer := 0
  configure currentFriend :=
    .configured (currentFriend.lastName ++ " " ++ currentFriend.firstName)
      (currentFriend.friendPhoto100.getD "")

def groupsTableViewController : ListController GroupItem where
  rowsWithoutContainer := 1
  configure currentGroup :=
    .configured currentGroup.name currentGroup.groupPhotoURL

variable {Key Item : Type} [DecidableEq Key]

/-- Objects of a live query in order, with their current values. -/
abbrev Results (Key Item : Type) := List (Key × Item)

structure Screen (Key Item : Type) where
  /-- `friendsContainer` or `groupsContainer`. -/
  container : Option (List Key)
  /-- What Realm holds now. -/
  results : Results Key Item
  /-- Rows that the table view counted last. -/
  rows : Nat
  raised : Bool

/-- `RealmRequestService.retrieveObjects(_:)`; `opens` when `Realm()` succeeds. -/
def retrieveObjects
    (opens : Bool) (results : Results Key Item) : Option (List Key) :=
  if opens then some (results.map Prod.fst) else none

/-- `tableView(_:numberOfRowsInSection:)`. -/
def ListController.numberOfRows
    (c : ListController Item) (container : Option (List Key)) : Nat :=
  match container with
  | none => c.rowsWithoutContainer
  | some uContainer => uContainer.length

/-- `tableView(_:cellForRowAt:)`; none when the index or the object is invalid. -/
def ListController.cellForRow
    (c : ListController Item) (s : Screen Key Item) (row : Nat) : Option Cell :=
  match s.container with
  | none => some .empty
  | some uContainer =>
      match uContainer[row]? with
      | none => none
      | some current => (s.results.lookup current).map c.configure

/-- `reloadData()`: the table view counts its rows again. -/
def ListController.reloadData
    (c : ListController Item) (s : Screen Key Item) : Screen Key Item :=
  { s with rows := c.numberOfRows s.container }

/-- `loadFriendsFromRealm()`. -/
def load (opens : Bool) (s : Screen Key Item) : Screen Key Item :=
  match retrieveObjects opens s.results with
  | none => s
  | some objects => { s with container := some objects }

/-- The list is loaded, and the observer has had its `.initial` change. -/
def ListController.start
    (c : ListController Item) (opens : Bool) (results : Results Key Item) :
    Screen Key Item :=
  c.reloadData
    (load opens
      { container := none, results := results, rows := 0, raised := false })

/-- What the observer is told of. -/
inductive Notification (Key Item : Type) where
  /-- A transaction left `new`, and the difference of the query is `changes`. -/
  | update (new : Results Key Item) (changes : ListDiff)
  | error

/-- The table view's condition at `endUpdates()`. -/
def ListController.rowsAddUp
    (c : ListController Item) (s : Screen Key Item) (changes : ListDiff) : Prop :=
  c.numberOfRows s.container + changes.deletions.length =
    s.rows + changes.insertions.length

instance (c : ListController Item) (s : Screen Key Item) (changes : ListDiff) :
    Decidable (c.rowsAddUp s changes) :=
  inferInstanceAs (Decidable (_ = _))

/-- One call of the observer's block. -/
def ListController.step
    (c : ListController Item) (s : Screen Key Item)
    (a : Notification Key Item) : Option (Screen Key Item) :=
  if s.raised then none
  else
    match a with
    | .update new changes =>
        if changes.Describes (s.results.map Prod.fst) (new.map Prod.fst) then
          if c.rowsAddUp s changes then
            some (c.reloadData { s with results := new })
          else some { s with results := new, raised := true }
        else none
    | .error => some { s with raised := true }

end Controllers

section Results

variable {Key Item : Type} [DecidableEq Key]
variable {c : ListController Item}

/-- The row shows the object at its position in the current results. -/
def Backed (s : Screen Key Item) (row : Nat) : Prop :=
  ∃ uContainer key item,
    s.container = some uContainer ∧
    uContainer[row]? = some key ∧
    s.results[row]? = some (key, item)

/-- At `endUpdates()` the rows add up, and after it every row is backed. -/
def RowsMatch
    (c : ListController Item) (s : Screen Key Item)
    (a : Notification Key Item) (t : Screen Key Item) : Prop :=
  match a with
  | .update _ changes =>
      c.rowsAddUp s changes ∧
      ∀ row, row < c.numberOfRows t.container → Backed t row
  | .error => True

/--
A transaction that does not show: the query has the same objects in the same
order.  Without a container it must have as many objects as before, and there
must be no placeholder rows.
-/
def Unnoticed
    (c : ListController Item) (s : Screen Key Item)
    (a : Notification Key Item) (_ : Screen Key Item) : Prop :=
  match a with
  | .update new _ =>
      match s.container with
      | some _ => new.map Prod.fst = s.results.map Prod.fst
      | none => c.rowsWithoutContainer = 0 ∧ new.length = s.results.length
  | .error => True

/-- A backed row has a cell: its object is valid. -/
theorem cellForRow_of_backed
    {s : Screen Key Item} {row : Nat}
    (h : Backed s row) :
    ∃ cell, c.cellForRow s row = some cell := by
  obtain ⟨uContainer, key, item, hcontainer, hkey, hitem⟩ := h
  have hmem : key ∈ s.results.map Prod.fst :=
    List.mem_map_of_mem (f := Prod.fst) (List.mem_of_getElem? hitem)
  cases hlookup : s.results.lookup key with
  | none =>
      exfalso
      rw [List.lookup_eq_none_iff] at hlookup
      obtain ⟨p, hp, rfl⟩ := List.mem_map.mp hmem
      simpa using hlookup p hp
  | some value =>
      exact ⟨c.configure value, by simp [ListController.cellForRow,
        hcontainer, hkey, hlookup]⟩

/-- Invariant: the array still lists the results. -/
structure InStep (c : ListController Item) (s : Screen Key Item) : Prop where
  rows : s.rows = c.numberOfRows s.container
  container : ∀ uContainer,
    s.container = some uContainer → uContainer = s.results.map Prod.fst

omit [DecidableEq Key] in
theorem inStep_start
    (c : ListController Item) (opens : Bool) (results : Results Key Item) :
    InStep c (c.start opens results) := by
  cases opens with
  | true =>
      refine ⟨rfl, ?_⟩
      rintro uContainer ⟨⟩
      rfl
  | false =>
      refine ⟨rfl, ?_⟩
      rintro uContainer ⟨⟩

/-- What a call of the observer's block can do. -/
inductive Notifies (c : ListController Item) (s : Screen Key Item) :
    Notification Key Item → Screen Key Item → Prop
  | update
      (new : Results Key Item) (changes : ListDiff)
      (hdiff : changes.Describes (s.results.map Prod.fst) (new.map Prod.fst))
      (hrows : c.rowsAddUp s changes) :
      Notifies c s (.update new changes)
        (c.reloadData { s with results := new })
  | raises
      (new : Results Key Item) (changes : ListDiff)
      (hdiff : changes.Describes (s.results.map Prod.fst) (new.map Prod.fst))
      (hrows : ¬ c.rowsAddUp s changes) :
      Notifies c s (.update new changes) { s with results := new, raised := true }
  | error :
      Notifies c s .error { s with raised := true }

theorem step_notifies
    {s t : Screen Key Item} {a : Notification Key Item}
    (h : c.step s a = some t) :
    Notifies c s a t := by
  unfold ListController.step at h
  split at h
  · cases h
  · cases a with
    | update new changes =>
        simp only at h
        split at h
        next hdiff =>
          split at h
          next hrows =>
            cases h
            exact .update new changes hdiff hrows
          next hrows =>
            cases h
            exact .raises new changes hdiff hrows
        next => cases h
    | error =>
        cases h
        exact .error

omit [DecidableEq Key] in
/-- All rows are backed exactly when the array lists the results. -/
theorem all_backed_iff
    {s : Screen Key Item} {uContainer : List Key}
    (hcontainer : s.container = some uContainer)
    (hlength : uContainer.length = s.results.length) :
    (∀ row, row < uContainer.length → Backed s row)
      ↔
    uContainer = s.results.map Prod.fst := by
  constructor
  · intro h
    apply List.ext_getElem (by rw [hlength, List.length_map])
    intro row hrow _
    obtain ⟨uContainer', key, item, hcontainer', hkey, hitem⟩ := h row hrow
    rw [hcontainer] at hcontainer'
    cases hcontainer'
    obtain ⟨_, hget⟩ := List.getElem?_eq_some_iff.mp hkey
    obtain ⟨_, hget'⟩ := List.getElem?_eq_some_iff.mp hitem
    rw [hget, List.getElem_map, hget']
  · intro heq row hrow
    have hrow' : row < s.results.length := hlength ▸ hrow
    refine ⟨uContainer, s.results[row].1, s.results[row].2, hcontainer, ?_, ?_⟩
    · simp [heq, hrow']
    · simp [hrow']

/-- After an update the container is the old one. -/
theorem update_step
    {s t : Screen Key Item} {new : Results Key Item} {changes : ListDiff}
    (hstep : c.step s (.update new changes) = some t) :
    changes.Describes (s.results.map Prod.fst) (new.map Prod.fst) ∧
    t.container = s.container ∧ t.results = new := by
  cases step_notifies hstep with
  | update _ _ hdiff _ => exact ⟨hdiff, rfl, rfl⟩
  | raises _ _ hdiff _ => exact ⟨hdiff, rfl, rfl⟩

/-- With a container the rows match exactly when the query stayed the same. -/
theorem rowsMatch_iff_of_container
    {s t : Screen Key Item} {uContainer : List Key}
    {new : Results Key Item} {changes : ListDiff}
    (h : InStep c s)
    (hstep : c.step s (.update new changes) = some t)
    (hcontainer : s.container = some uContainer) :
    RowsMatch c s (.update new changes) t
      ↔
    new.map Prod.fst = s.results.map Prod.fst := by
  obtain ⟨hdiff, htcontainer, rfl⟩ := update_step hstep
  rw [hcontainer] at htcontainer
  have hold : uContainer = s.results.map Prod.fst :=
    h.container uContainer hcontainer
  have hcount : c.numberOfRows (some uContainer) = uContainer.length := by
    rfl
  have hlength := hdiff.length_eq
  rw [← hold, List.length_map] at hlength
  rw [← hold]
  simp only [RowsMatch, ListController.rowsAddUp, h.rows, hcontainer,
    htcontainer, hcount]
  constructor
  · rintro ⟨hadd, hbacked⟩
    have hsame : uContainer.length = t.results.length := by omega
    exact ((all_backed_iff htcontainer hsame).mp hbacked).symm
  · intro heq
    have hsame : uContainer.length = t.results.length := by
      rw [← heq, List.length_map]
    exact ⟨by omega, (all_backed_iff htcontainer hsame).mpr heq.symm⟩

/-- Without a container no row is backed. -/
theorem rowsMatch_iff_of_none
    {s t : Screen Key Item} {new : Results Key Item} {changes : ListDiff}
    (h : InStep c s)
    (hstep : c.step s (.update new changes) = some t)
    (hcontainer : s.container = none) :
    RowsMatch c s (.update new changes) t
      ↔
    c.rowsWithoutContainer = 0 ∧ new.length = s.results.length := by
  obtain ⟨hdiff, htcontainer, _⟩ := update_step hstep
  rw [hcontainer] at htcontainer
  have hlength := hdiff.length_eq_iff
  rw [List.length_map, List.length_map] at hlength
  rw [hlength]
  have hrows := h.rows
  simp only [hcontainer, ListController.numberOfRows] at hrows
  simp only [RowsMatch, ListController.rowsAddUp, hcontainer, htcontainer,
    hrows, ListController.numberOfRows]
  constructor
  · rintro ⟨hadd, hbacked⟩
    refine ⟨?_, by omega⟩
    by_contra hne
    obtain ⟨uContainer, _, _, hsome, _⟩ := hbacked 0 (by omega)
    rw [htcontainer] at hsome
    cases hsome
  · rintro ⟨hzero, hsame⟩
    exact ⟨by omega, by omega⟩

theorem rowsMatch_iff_unnoticed
    {s t : Screen Key Item} {a : Notification Key Item}
    (h : InStep c s)
    (hstep : c.step s a = some t) :
    RowsMatch c s a t ↔ Unnoticed c s a t := by
  cases a with
  | update new changes =>
      cases hcontainer : s.container with
      | none =>
          rw [rowsMatch_iff_of_none h hstep hcontainer]
          simp only [Unnoticed, hcontainer]
      | some uContainer =>
          rw [rowsMatch_iff_of_container h hstep hcontainer]
          simp only [Unnoticed, hcontainer]
  | error =>
      exact Iff.rfl

theorem inStep_step
    {s t : Screen Key Item} {a : Notification Key Item}
    (h : InStep c s)
    (ha : Unnoticed c s a t)
    (hstep : c.step s a = some t) :
    InStep c t := by
  have hmatch := (rowsMatch_iff_unnoticed h hstep).mpr ha
  cases step_notifies hstep with
  | update new changes hdiff hrows =>
      refine ⟨rfl, ?_⟩
      intro uContainer hcontainer
      have hcontainer' : s.container = some uContainer := hcontainer
      rw [h.container uContainer hcontainer']
      simp only [Unnoticed, hcontainer'] at ha
      exact ha.symm
  | raises new changes hdiff hrows =>
      exact absurd hmatch.1 hrows
  | error =>
      exact ⟨h.rows, h.container⟩

/--
**Once the list is loaded, the rows add up at every `endUpdates()` of a run and
are backed after it if and only if every transaction of the run goes
unnoticed.**
-/
theorem rowsMatch_iff
    (c : ListController Item) (opens : Bool) (results : Results Key Item)
    (as : List (Notification Key Item)) :
    EveryStep c.step (RowsMatch c) (c.start opens results) as
      ↔
    EveryStep c.step (Unnoticed c) (c.start opens results) as :=
  everyStep_iff (I := InStep c)
    (fun _ _ _ h hstep => rowsMatch_iff_unnoticed h hstep)
    (fun _ _ _ h ha hstep => inStep_step h ha hstep)
    (inStep_start c opens results) as

/-- A friend is added to a list that was loaded with none. -/
def friendAdded : Notification Nat FriendItem :=
  .update [(1, ⟨"A", "B", none, 1⟩)] ⟨[], [0], []⟩

def groupAdded : Notification Nat GroupItem :=
  .update [(1, ⟨1, "A", ""⟩)] ⟨[], [0], []⟩

/-- The table view raises at the first insertion, in both lists. -/
theorem insertion_not_matched :
    ¬ EveryStep friendsTableViewController.step
        (RowsMatch friendsTableViewController)
        (friendsTableViewController.start true []) [friendAdded] ∧
    ¬ EveryStep groupsTableViewController.step
        (RowsMatch groupsTableViewController)
        (groupsTableViewController.start true []) [groupAdded] := by
  constructor
  · intro h
    have hstep := (h _ rfl).1.1
    exact absurd hstep (by decide)
  · intro h
    have hstep := (h _ rfl).1.1
    exact absurd hstep (by decide)

end Results

end Lists
end NotVK
