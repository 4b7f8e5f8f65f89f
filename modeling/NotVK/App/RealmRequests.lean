import NotVK.Library.LabelledRun
import NotVK.Library.TransactionalStore
import NotVK.App.RealmOperations

/-!
# RealmRequestService

`deleteObjects(T)` reads the objects of `T` into an array, opens a write
transaction, deletes the objects of the array, and commits.  The array is made
before the transaction is open, so other threads may commit in between.

A Realm reads the version that it was opened at until it is refreshed or opens a
write transaction; `beginWrite` moves it to the latest version.  The objects of
the array are references: deleting an object that is gone does nothing.
-/

namespace NotVK
namespace RealmRequests

open Runs Transactions

section Service

variable {Ty Ref W : Type} {Obj : Ty → Type}

/-- The thread that runs `deleteObjects`, and the others. -/
inductive Thread (W : Type) where
  | deleting
  | other (w : W)
deriving DecidableEq

/-- Points of `deleteObjects(T)`, named after what has just been done. -/
inductive DeletePoint (Obj : Ty → Type) (T : Ty) where
  | called
  | openedRealm (version : Version Obj)
  | retrieved (objects : Finset (Obj T))
  | begunWrite (objects : Finset (Obj T))
  | deleted
  | commitFailed
  | finished (deleted : Bool)

structure System (W : Type) (Obj : Ty → Type) (T : Ty) where
  store : Store (Thread W) Obj
  point : DeletePoint Obj T

def System.initial {T : Ty} (version : Version Obj) : System W Obj T where
  store := { committed := version, transaction := none }
  point := .called

/-- What a thread does with a write transaction of its own. -/
inductive WriterAction (Obj : Ty → Type) where
  | beginWrite
  | write (f : Version Obj → Option (Version Obj))
  | commitWrite
  | cancelWrite

inductive Action (W : Type) (Obj : Ty → Type) where
  | openRealm (success : Bool)
  | refresh
  | retrieveObjects (success : Bool)
  | beginWrite
  | delete
  | commitWrite (success : Bool)
  | closeRealm
  | other (w : W) (a : WriterAction Obj)

variable [DecidableEq Ty] [∀ t, DecidableEq (Obj t)] [DecidableEq Ref]
variable [DecidableEq W]

def writerStep
    (s : Store (Thread W) Obj) (w : Thread W) :
    WriterAction Obj → Option (Store (Thread W) Obj)
  | .beginWrite => s.beginWrite w
  | .write f => s.write w f
  | .commitWrite => s.commit w
  | .cancelWrite =>
      match s.transaction with
      | some (w', _) => if w' = w then some s.cancel else none
      | none => none

/-- One step of `deleteObjects(T)` or of another thread. -/
def step
    (ref : (t : Ty) → Obj t → Ref) {T : Ty}
    (s : System W Obj T) (a : Action W Obj) : Option (System W Obj T) :=
  match a with
  | .openRealm success =>
      match s.point with
      | .called =>
          if success then some { s with point := .openedRealm s.store.committed }
          else some { s with point := .finished false }
      | _ => none
  | .refresh =>
      match s.point with
      | .openedRealm _ =>
          some { s with point := .openedRealm s.store.committed }
      | _ => none
  | .retrieveObjects success =>
      match s.point with
      | .openedRealm version =>
          if success then some { s with point := .retrieved (version T) }
          -- it has returned nil
          else some { s with point := .finished false }
      | _ => none
  | .beginWrite =>
      match s.point with
      | .retrieved objects =>
          (s.store.beginWrite .deleting).map fun store =>
            { store := store, point := .begunWrite objects }
      | _ => none
  | .delete =>
      match s.point with
      | .begunWrite objects =>
          (s.store.write .deleting
            (fun v => some (deleteByRef ref v T objects))).map fun store =>
              { store := store, point := .deleted }
      | _ => none
  | .commitWrite success =>
      match s.point with
      | .deleted =>
          if success then
            (s.store.commit .deleting).map fun store =>
              { store := store, point := .finished true }
          else some { s with point := .commitFailed }
      | _ => none
  | .closeRealm =>
      match s.point with
      | .commitFailed =>
          -- the transaction is rolled back when the Realm is deallocated
          some { store := s.store.cancel, point := .finished false }
      | _ => none
  | .other w a =>
      (writerStep s.store (.other w) a).map fun store =>
        { s with store := store }

/-- The actions of `commitObjects(objects)` on another thread. -/
def commitObjects
    {Key : Type} [DecidableEq Key] (key : (t : Ty) → Obj t → Key)
    (w : W) (T : Ty) (objects : List (Obj T)) : List (Action W Obj) :=
  [.other w .beginWrite,
    .other w (.write fun v => addAll key v T objects),
    .other w .commitWrite]

/-- Objects of `T` that `retrieveObjects(T)` returns in this state. -/
def System.retrievable {T : Ty} (s : System W Obj T) : Finset (Obj T) :=
  match s.point with
  | .openedRealm version => version T
  | _ => ∅

/-- No object of `T` remains of those at the beginning of the transaction, and
the objects of other types are as they were. -/
structure DeletesAll
    (ref : (t : Ty) → Obj t → Ref) (T : Ty)
    (atBegin atCommit : Version Obj) : Prop where
  noneRemains : ∀ x ∈ atBegin T, ∀ y ∈ atCommit T, ref T y ≠ ref T x
  othersKept : ∀ t, t ≠ T → atCommit t = atBegin t

end Service

section Effects

variable {Ty Ref W : Type} {Obj : Ty → Type} {T : Ty}
variable [DecidableEq Ty] [DecidableEq Ref] [DecidableEq W]
variable (ref : (t : Ty) → Obj t → Ref)

/-- What a step does, with what has to hold for it. -/
inductive Effect (s : System W Obj T) : Action W Obj → System W Obj T → Prop
  | opens
      (hpoint : s.point = .called) :
      Effect s (.openRealm true)
        { s with point := .openedRealm s.store.committed }
  | opensNot
      (hpoint : s.point = .called) :
      Effect s (.openRealm false) { s with point := .finished false }
  | refreshes
      {version : Version Obj}
      (hpoint : s.point = .openedRealm version) :
      Effect s .refresh { s with point := .openedRealm s.store.committed }
  | retrieves
      {version : Version Obj}
      (hpoint : s.point = .openedRealm version) :
      Effect s (.retrieveObjects true)
        { s with point := .retrieved (version T) }
  | retrievesNot
      {version : Version Obj}
      (hpoint : s.point = .openedRealm version) :
      Effect s (.retrieveObjects false) { s with point := .finished false }
  | begins
      {objects : Finset (Obj T)}
      (hpoint : s.point = .retrieved objects)
      (hfree : s.store.transaction = none) :
      Effect s .beginWrite
        { store := ⟨s.store.committed, some (.deleting, s.store.committed)⟩
          point := .begunWrite objects }
  | deletes
      {objects : Finset (Obj T)} {v : Version Obj}
      (hpoint : s.point = .begunWrite objects)
      (hopen : s.store.transaction = some (.deleting, v)) :
      Effect s .delete
        { store :=
            ⟨s.store.committed,
              some (.deleting, deleteByRef ref v T objects)⟩
          point := .deleted }
  | commits
      {v : Version Obj}
      (hpoint : s.point = .deleted)
      (hopen : s.store.transaction = some (.deleting, v)) :
      Effect s (.commitWrite true)
        { store := ⟨v, none⟩, point := .finished true }
  | commitsNot
      (hpoint : s.point = .deleted) :
      Effect s (.commitWrite false) { s with point := .commitFailed }
  | closes
      (hpoint : s.point = .commitFailed) :
      Effect s .closeRealm
        { store := s.store.cancel, point := .finished false }
  | others
      {w : W} {a : WriterAction Obj} {store : Store (Thread W) Obj}
      (hother : writerStep s.store (.other w) a = some store) :
      Effect s (.other w a) { s with store := store }

variable {ref}

/-- **The effects of a step are the listed ones.** -/
theorem effect_of_step
    {s t : System W Obj T} {a : Action W Obj}
    (hstep : step ref s a = some t) :
    Effect ref s a t := by
  cases a with
  | openRealm success =>
      simp only [step] at hstep
      split at hstep
      next hpoint =>
        cases success <;> cases hstep
        · exact .opensNot hpoint
        · exact .opens hpoint
      next => cases hstep
  | refresh =>
      simp only [step] at hstep
      split at hstep
      next version hpoint =>
        cases hstep
        exact .refreshes hpoint
      next => cases hstep
  | retrieveObjects success =>
      simp only [step] at hstep
      split at hstep
      next version hpoint =>
        cases success <;> cases hstep
        · exact .retrievesNot hpoint
        · exact .retrieves hpoint
      next => cases hstep
  | beginWrite =>
      simp only [step] at hstep
      split at hstep
      next objects hpoint =>
        obtain ⟨store, hstore, rfl⟩ := Option.map_eq_some_iff.mp hstep
        obtain ⟨hfree, rfl⟩ := Store.beginWrite_eq_some hstore
        exact .begins hpoint hfree
      next => cases hstep
  | delete =>
      simp only [step] at hstep
      split at hstep
      next objects hpoint =>
        obtain ⟨store, hstore, rfl⟩ := Option.map_eq_some_iff.mp hstep
        obtain ⟨v, v', hopen, hv, rfl⟩ := Store.write_eq_some hstore
        cases hv
        exact .deletes hpoint hopen
      next => cases hstep
  | commitWrite success =>
      simp only [step] at hstep
      split at hstep
      next hpoint =>
        cases success with
        | false =>
            cases hstep
            exact .commitsNot hpoint
        | true =>
            obtain ⟨store, hstore, rfl⟩ := Option.map_eq_some_iff.mp hstep
            obtain ⟨v, hopen, rfl⟩ := Store.commit_eq_some hstore
            exact .commits hpoint hopen
      next => cases hstep
  | closeRealm =>
      simp only [step] at hstep
      split at hstep
      next hpoint =>
        cases hstep
        exact .closes hpoint
      next => cases hstep
  | other w a =>
      obtain ⟨store, hstore, rfl⟩ := Option.map_eq_some_iff.mp hstep
      exact .others hstore

omit [DecidableEq Ty] in
/-- Write transactions are serialised: no other thread has one meanwhile. -/
theorem writerStep_of_open
    {s : Store (Thread W) Obj} {w w' : Thread W} {v : Version Obj}
    (hopen : s.transaction = some (w', v))
    (hw : w' ≠ w) (a : WriterAction Obj) :
    writerStep s w a = none := by
  cases a <;>
    simp [writerStep, Store.beginWrite, Store.write, Store.commit, hopen, hw]

end Effects

section Call

variable {Ty Ref W : Type} {Obj : Ty → Type} {T : Ty}
variable [DecidableEq Ty] [DecidableEq Ref] [DecidableEq W]
variable {ref : (t : Ty) → Obj t → Ref}

/-- The array of the call has these objects, from when it is made. -/
def System.HasArray (objects : Finset (Obj T)) (s : System W Obj T) : Prop :=
  match s.point with
  | .called => False
  | .openedRealm _ => False
  | .retrieved array => array = objects
  | .begunWrite array => array = objects
  | _ => True

theorem hasArray_step
    {objects : Finset (Obj T)} {s t : System W Obj T} {a : Action W Obj}
    (h : s.HasArray objects)
    (hstep : step ref s a = some t) :
    t.HasArray objects := by
  cases effect_of_step hstep with
  | opens hpoint => simp [System.HasArray, hpoint] at h
  | refreshes hpoint => simp [System.HasArray, hpoint] at h
  | retrieves hpoint => simp [System.HasArray, hpoint] at h
  | begins hpoint hfree =>
      simp only [System.HasArray, hpoint] at h
      exact h
  | others hother => exact h
  | _ => trivial

/-- The store between the beginning of the transaction, when it held `atBegin`,
and its end. -/
def WritesFrom
    (ref : (t : Ty) → Obj t → Ref) (objects : Finset (Obj T))
    (atBegin : Version Obj) (s : System W Obj T) : Prop :=
  match s.point with
  | .begunWrite array =>
      array = objects ∧ s.store = ⟨atBegin, some (.deleting, atBegin)⟩
  | .deleted =>
      s.store = ⟨atBegin,
        some (.deleting, deleteByRef ref atBegin T objects)⟩
  | .commitFailed => True
  | .finished _ => True
  | _ => False

theorem writesFrom_step
    {objects : Finset (Obj T)} {atBegin : Version Obj}
    {s t : System W Obj T} {a : Action W Obj}
    (h : WritesFrom ref objects atBegin s)
    (hstep : step ref s a = some t) :
    WritesFrom ref objects atBegin t := by
  cases effect_of_step hstep with
  | opens hpoint => simp [WritesFrom, hpoint] at h
  | opensNot hpoint => trivial
  | refreshes hpoint => simp [WritesFrom, hpoint] at h
  | retrieves hpoint => simp [WritesFrom, hpoint] at h
  | retrievesNot hpoint => trivial
  | begins hpoint hfree => simp [WritesFrom, hpoint] at h
  | deletes hpoint hopen =>
      simp only [WritesFrom, hpoint] at h
      obtain ⟨rfl, hstore⟩ := h
      rw [hstore] at hopen
      cases hopen
      simp [WritesFrom, hstore]
  | commits hpoint hopen => trivial
  | commitsNot hpoint => trivial
  | closes hpoint => trivial
  | @others w a store hother =>
      unfold WritesFrom at h ⊢
      split at h
      next array hpoint =>
        rw [writerStep_of_open (by rw [h.2]) (by simp)] at hother
        cases hother
      next hpoint =>
        rw [writerStep_of_open (by rw [h]) (by simp)] at hother
        cases hother
      next hpoint => simp [hpoint]
      next hpoint => simp [hpoint]
      next => exact h.elim

/-- The committed version of a call that comes through: the objects of the
array are gone, and nothing else has changed since the transaction began. -/
theorem committed_of_call
    {r u t : System W Obj T} {between during : List (Action W Obj)}
    (hretrieve : run (step ref) r (.retrieveObjects true :: between) = some u)
    (hwrite : run (step ref) u
      (.beginWrite :: (during ++ [.commitWrite true])) = some t) :
    t.store.committed =
      deleteByRef ref u.store.committed T r.retrievable := by
  obtain ⟨r', hr, hbetween⟩ := run_cons_some.mp hretrieve
  obtain ⟨u', hu, hrest⟩ := run_cons_some.mp hwrite
  obtain ⟨c, hduring, hc⟩ := run_snoc_some.mp hrest
  have hr' : r'.HasArray r.retrievable := by
    cases effect_of_step hr with
    | retrieves hpoint => simp [System.retrievable, hpoint, System.HasArray]
  have harray : u.HasArray r.retrievable := by
    refine run_invariant ?_ hr' hbetween
    intro _ _ _ h hstep
    exact hasArray_step h hstep
  have hbegun : WritesFrom ref r.retrievable u.store.committed u' := by
    cases effect_of_step hu with
    | begins hpoint hfree =>
        simp only [System.HasArray, hpoint] at harray
        exact ⟨harray, rfl⟩
  have hlast : WritesFrom ref r.retrievable u.store.committed c := by
    refine run_invariant ?_ hbegun hduring
    intro _ _ _ h hstep
    exact writesFrom_step h hstep
  cases effect_of_step hc with
  | commits hpoint hopen =>
      simp only [WritesFrom, hpoint] at hlast
      rw [hlast] at hopen
      cases hopen
      rfl

theorem deletesAll_deleteByRef_iff
    {v : Version Obj} {objects : Finset (Obj T)} :
    DeletesAll ref T v (deleteByRef ref v T objects)
      ↔
    ∀ x ∈ v T, ∃ y ∈ objects, ref T y = ref T x := by
  rw [← deleteByRef_deletes_iff]
  constructor
  · exact DeletesAll.noneRemains
  · intro h
    exact ⟨h, fun t ht => deleteByRef_of_ne ht⟩

/-- The action commits nothing. -/
def Action.CommitsNothing : Action W Obj → Prop
  | .commitWrite _ => False
  | .other _ .commitWrite => False
  | _ => True

omit [DecidableEq Ty] in
theorem writerStep_committed
    {s s' : Store (Thread W) Obj} {w : Thread W} {a : WriterAction Obj}
    (hcommit : a ≠ .commitWrite)
    (hstep : writerStep s w a = some s') :
    s'.committed = s.committed := by
  cases a with
  | beginWrite =>
      obtain ⟨_, rfl⟩ := Store.beginWrite_eq_some hstep
      rfl
  | write f =>
      obtain ⟨_, _, _, _, rfl⟩ := Store.write_eq_some hstep
      rfl
  | commitWrite => exact absurd rfl hcommit
  | cancelWrite =>
      simp only [writerStep] at hstep
      split at hstep
      · split at hstep
        · cases hstep
          rfl
        · cases hstep
      · cases hstep

theorem committed_step
    {s t : System W Obj T} {a : Action W Obj}
    (ha : a.CommitsNothing)
    (hstep : step ref s a = some t) :
    t.store.committed = s.store.committed := by
  cases effect_of_step hstep with
  | commits hpoint hopen => exact ha.elim
  | @others w a store hother =>
      refine writerStep_committed ?_ hother
      rintro rfl
      exact ha
  | _ => rfl

/-- With an up-to-date Realm, and no commit before the transaction begins,
everything is deleted. -/
theorem deletesAll_of_commitsNothing
    {r u t : System W Obj T} {between during : List (Action W Obj)}
    (hlatest : r.point = .openedRealm r.store.committed)
    (hbetween : ∀ a ∈ between, a.CommitsNothing)
    (hretrieve : run (step ref) r (.retrieveObjects true :: between) = some u)
    (hwrite : run (step ref) u
      (.beginWrite :: (during ++ [.commitWrite true])) = some t) :
    DeletesAll ref T u.store.committed t.store.committed := by
  have hactions : ∀ a ∈ (.retrieveObjects true :: between : List (Action W Obj)),
      a.CommitsNothing := by
    intro a ha
    rcases List.mem_cons.mp ha with rfl | ha
    · trivial
    · exact hbetween a ha
  have hsame : u.store.committed = r.store.committed :=
    run_invariant_of_forall_mem
      (fun _ _ _ h ha hstep => (committed_step ha hstep).trans h)
      rfl hactions hretrieve
  have hretrievable : r.retrievable = u.store.committed T := by
    simp [System.retrievable, hlatest, hsame]
  rw [committed_of_call hretrieve hwrite, hretrievable]
  exact deletesAll_deleteByRef_iff.mpr fun x hx => ⟨x, hx, rfl⟩

/--
**`deleteObjects(T)` deletes all that its transaction finds if and only if it
had retrieved all of that before.**
-/
theorem deletesAll_iff_retrieved
    {r u t : System W Obj T} {between during : List (Action W Obj)}
    (hretrieve : run (step ref) r (.retrieveObjects true :: between) = some u)
    (hwrite : run (step ref) u
      (.beginWrite :: (during ++ [.commitWrite true])) = some t) :
    DeletesAll ref T u.store.committed t.store.committed
      ↔
    ∀ x ∈ u.store.committed T, ∃ y ∈ r.retrievable, ref T y = ref T x := by
  rw [committed_of_call hretrieve hwrite]
  exact deletesAll_deleteByRef_iff

end Call

section Overtaken

variable {Ty Ref Key W : Type} {Obj : Ty → Type} {T : Ty}
variable [DecidableEq Ty] [∀ t, DecidableEq (Obj t)]
variable [DecidableEq Ref] [DecidableEq Key] [DecidableEq W]

/-- An object that is added after the array is made outlives the deletion. -/
theorem run_addedMeanwhile
    (ref : (t : Ty) → Obj t → Ref) (key : (t : Ty) → Obj t → Key)
    (w : W) (x : Obj T) :
    ∃ r u t : System W Obj T,
      run (step ref) (System.initial fun _ => ∅) [.openRealm true] = some r ∧
      run (step ref) r
        (.retrieveObjects true :: commitObjects key w T [x]) = some u ∧
      run (step ref) u (.beginWrite :: ([.delete] ++ [.commitWrite true])) =
        some t ∧
      x ∈ u.store.committed T ∧ x ∈ t.store.committed T := by
  have hadd : addAll key (fun _ => ∅ : Version Obj) T [x] =
      some (Function.update (fun _ => ∅) T {x}) := by
    simp [addAll, add]
  let added : Version Obj := Function.update (fun _ => ∅) T {x}
  refine ⟨_, ⟨⟨added, none⟩, .retrieved ∅⟩,
    ⟨⟨deleteByRef ref added T ∅, none⟩, .finished true⟩, rfl, ?_, ?_, ?_, ?_⟩
  · simp [step, System.initial, commitObjects, writerStep, Store.beginWrite,
      Store.write, Store.commit, hadd, added]
  · simp [step, Store.beginWrite, Store.write, Store.commit]
  · simp [added]
  · exact mem_deleteByRef.mpr ⟨by simp, by simp⟩

end Overtaken

section AddedFriend

open Fetching

def annaFriend : News.FriendItem where
  firstName := "Anna"
  lastName := "Petrova"
  friendPhoto100 := none
  id := 1

/-- A friend is added while the friends are being deleted. -/
theorem deletesAll_iff_retrieved_addedFriend :
    ∃ r u t : System Unit RealmType.Object .friendItem,
      run (step primaryKey) r
        (.retrieveObjects true ::
          commitObjects primaryKey () .friendItem [annaFriend]) = some u ∧
      run (step primaryKey) u
        (.beginWrite :: ([.delete] ++ [.commitWrite true])) = some t ∧
      (DeletesAll primaryKey .friendItem u.store.committed t.store.committed
        ↔
      ∀ x ∈ u.store.committed .friendItem,
        ∃ y ∈ r.retrievable,
          primaryKey .friendItem y = primaryKey .friendItem x) := by
  obtain ⟨r, u, t, _, hretrieve, hwrite, _⟩ :=
    run_addedMeanwhile primaryKey primaryKey () (T := .friendItem) annaFriend
  exact ⟨r, u, t, hretrieve, hwrite, deletesAll_iff_retrieved hretrieve hwrite⟩

/-- The added friend is there when the transaction begins, and afterwards. -/
theorem addedFriend_remains :
    ∃ r u t : System Unit RealmType.Object .friendItem,
      run (step primaryKey) (System.initial fun _ => ∅) [.openRealm true] =
        some r ∧
      run (step primaryKey) r
        (.retrieveObjects true ::
          commitObjects primaryKey () .friendItem [annaFriend]) = some u ∧
      run (step primaryKey) u
        (.beginWrite :: ([.delete] ++ [.commitWrite true])) = some t ∧
      annaFriend ∈ u.store.committed .friendItem ∧
      annaFriend ∈ t.store.committed .friendItem ∧
      ¬ DeletesAll primaryKey .friendItem
        u.store.committed t.store.committed := by
  obtain ⟨r, u, t, hopen, hretrieve, hwrite, hu, ht⟩ :=
    run_addedMeanwhile primaryKey primaryKey () (T := .friendItem) annaFriend
  refine ⟨r, u, t, hopen, hretrieve, hwrite, hu, ht, ?_⟩
  intro h
  exact h.noneRemains annaFriend hu annaFriend ht rfl

end AddedFriend

end RealmRequests
end NotVK
